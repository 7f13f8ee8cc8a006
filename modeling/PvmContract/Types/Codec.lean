import PvmContract.Data.Buffer
import PvmContract.Data.Run

/-!
# The codec traits

`SolCodec` is one implementation of the crate's traits `SolEncode`, `SolDecode`,
`StaticEncodedLen` and `StaticDecode` for one Rust type: its constants and its
functions. Generic implementations are functions from such records to such
records, in the modules that follow. The provided methods of the traits
(`slotSize`, `encodeLen`, `encodeTo`, `decode`) are functions of a record.

A writer of a buffer fails (`none`) when a slice is out of range, which is a
panic. A decoder is a `Run`: it returns a value or `DecodeError`, or it panics,
and it depends on the build profile where it uses plain arithmetic on `usize`.
Sizes and positions in a writer are natural numbers: a value whose encoding
does not fit in 64 bits fits in no buffer. The constants `HEAD_SIZE` and
`ENCODED_SIZE` are natural numbers too, since an overflow in a constant is a
compile error. A `SOL_NAME` that `ConstStr` has no room for is one as well, so
the name is an `Option`.
-/

namespace PvmContract.Types

open Data Run

/-! ### Constant strings -/

/-- The capacity of a `ConstStr`. -/
def ConstStr.capacity : ℕ := 256

/-- `ConstStr::new(a, b)`; `append` is the same with the buffer in front. -/
def ConstStr.new (a b : String) : Option String :=
  if (a ++ b).utf8ByteSize ≤ ConstStr.capacity then some (a ++ b) else none

/-- `self.append(s)`. -/
def ConstStr.append (self : Option String) (s : String) : Option String :=
  self.bind fun a => ConstStr.new a s

/-- `self.append_usize(n)`: the decimal digits of `n`. -/
def ConstStr.appendUsize (self : Option String) (n : ℕ) : Option String :=
  ConstStr.append self (toString n)

/-! ### Reading offset words -/

/-- `read_word_offset`: the low 8 bytes of the word at `offset`. -/
def readWordOffset (input : List UInt8) (offset : ℕ) : Run ℕ := do
  let start ← checkedAdd offset 24
  let stop ← checkedAdd offset 32
  let bs ← ofOption (getRange input start stop)
  pure (ofBe bs)

/-- `checked_sum`. -/
def checkedSum (parts : List ℕ) : Run ℕ := parts.foldlM checkedAdd 0

@[simp] theorem checkedSum_pair (a b : ℕ) : checkedSum [a, b] = checkedAdd a b := by
  simp only [checkedSum, List.foldlM_cons, List.foldlM_nil, bind_pure]
  unfold checkedAdd
  rw [Nat.zero_add]
  by_cases ha : a < 2 ^ 64
  · rw [if_pos ha, pure_andThen]
  · rw [if_neg ha, if_neg (by omega), fail_andThen]

/-- Reading an offset word succeeds exactly when the word is in the input. -/
theorem returns_readWordOffset {input : List UInt8} {offset n : ℕ} :
    Returns (readWordOffset input offset) n ↔
      offset + 32 < 2 ^ 64 ∧ ∃ bs, getRange input (offset + 24) (offset + 32) = some bs ∧ ofBe bs = n := by
  simp only [readWordOffset, returns_bind, returns_checkedAdd, returns_ofOption, returns_pure]
  constructor
  · rintro ⟨_, ⟨-, rfl⟩, _, ⟨hlt, rfl⟩, bs, hbs, rfl⟩
    exact ⟨hlt, bs, hbs, rfl⟩
  · rintro ⟨hlt, bs, hbs, rfl⟩
    exact ⟨_, ⟨by omega, rfl⟩, _, ⟨hlt, rfl⟩, bs, hbs, rfl⟩

theorem le_of_readWordOffset {input : List UInt8} {offset n : ℕ}
    (h : Returns (readWordOffset input offset) n) : offset + 32 ≤ input.length := by
  obtain ⟨-, bs, hbs, -⟩ := returns_readWordOffset.mp h
  exact (getRange_eq_some_iff.mp hbs).2.1

@[simp] theorem safe_readWordOffset {lim : ℕ} (input : List UInt8) (offset : ℕ) :
    Safe lim (readWordOffset input offset) := by
  simp only [readWordOffset, safe_bind, safe_checkedAdd, safe_ofOption, safe_pure, implies_true, and_self]

/-! ### Writing offset words -/

/-- `buf[ho..ho + 24].fill(0); buf[ho + 24..ho + 32].copy_from_slice(&(n as u64).to_be_bytes())`. -/
def writePointer (buf : List UInt8) (ho n : ℕ) : Option (List UInt8) := do
  let buf ← fill buf ho (ho + 24) 0
  onSlice buf (ho + 24) (ho + 32) (copyFromSlice (beBytes 8 n))

/-- `buf[ho..ho + 32].fill(0); buf[ho + 24..ho + 32].copy_from_slice(&(n as u64).to_be_bytes())`. -/
def writeWord (buf : List UInt8) (ho n : ℕ) : Option (List UInt8) := do
  let buf ← fill buf ho (ho + 32) 0
  onSlice buf (ho + 24) (ho + 32) (copyFromSlice (beBytes 8 n))

/-! ### The traits -/

/-- An ABI parameter description. -/
inductive AbiParam where
  | mk (name paramType : String) (components : List AbiParam)

namespace AbiParam

/-- The `type` entry. -/
def paramType : AbiParam → String
  | mk _ paramType _ => paramType

/-- The `components` entry. -/
def components : AbiParam → List AbiParam
  | mk _ _ components => components

/-- The provided `abi_param`: the type's `SOL_NAME`, and no components. -/
def ofSolName (solName : Option String) (name : String) : Option AbiParam :=
  solName.map fun s => mk name s []

end AbiParam

/-- An implementation of the codec traits for one type. -/
structure SolCodec where
  /-- The Rust type. -/
  Carrier : Type
  /-- `IS_DYNAMIC`. -/
  isDynamic : Bool
  /-- `SOL_NAME`, if it can be evaluated. -/
  solName : Option String
  /-- `HEAD_SIZE`. -/
  headSize : ℕ
  /-- `abi_param`, if the names it is made of can be evaluated. -/
  abiParam : String → Option AbiParam
  /-- `IS_TUPLE`. -/
  isTuple : Bool
  /-- `encode_body_len`. -/
  encodeBodyLen : Carrier → ℕ
  /-- `encode_body_to`. -/
  encodeBodyTo : Carrier → List UInt8 → Option (List UInt8)
  /-- `decode_at`. -/
  decodeAt : Profile → List UInt8 → ℕ → Run Carrier
  /-- `decode_tail`. -/
  decodeTail : Profile → List UInt8 → ℕ → Run Carrier
  /-- `ENCODED_SIZE`, where `StaticEncodedLen` is implemented. -/
  encodedSize : Option ℕ
  /-- `decode_unchecked`, where `StaticDecode` is implemented. No result is an access out
  of bounds: undefined behaviour, or a panic. -/
  decodeUnchecked : Option (List UInt8 → ℕ → Option Carrier)

namespace SolCodec

/-- `SLOT_SIZE`. -/
def slotSize (c : SolCodec) : ℕ := if c.isDynamic then 32 else c.headSize

theorem slotSize_dynamic {c : SolCodec} (h : c.isDynamic = true) : c.slotSize = 32 := by simp [slotSize, h]

theorem slotSize_static {c : SolCodec} (h : c.isDynamic = false) : c.slotSize = c.headSize := by
  simp [slotSize, h]

/-- `encode_len`. -/
def encodeLen (c : SolCodec) (v : c.Carrier) : ℕ :=
  if c.isTuple || !c.isDynamic then c.encodeBodyLen v else 32 + c.encodeBodyLen v

/-- `encode_to`. -/
def encodeTo (c : SolCodec) (v : c.Carrier) (buf : List UInt8) : Option (List UInt8) :=
  if c.isTuple || !c.isDynamic then c.encodeBodyTo v buf
  else do
    let buf ← writePointer buf 0 32
    onSlice buf 32 buf.length (c.encodeBodyTo v)

/-- `decode`. -/
def decode (c : SolCodec) (p : Profile) (input : List UInt8) : Run c.Carrier :=
  if c.isTuple || !c.isDynamic then c.decodeAt p input 0
  else do
    let bs ← ofOption (getRange input 24 32)
    c.decodeTail p input (ofBe bs)

end SolCodec

end PvmContract.Types
