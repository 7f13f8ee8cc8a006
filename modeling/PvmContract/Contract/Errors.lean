import PvmContract.Contract.Calls

/-!
# Error types

The implementations of `SolError`: what the derive writes for a struct and for an
enum, the hand-written `Error(string)` and `Panic(uint256)`, and the enum of the
two. An encoder is handed a buffer and gives the buffer back with the number of
bytes it claims to have written; a decoder finds the value, finds that the bytes
are no error of this type, or fails.

`Error(string)` has two implementations, and a build has one of them: the one of
the `alloc` feature owns its message, the other one borrows it and so cannot
decode it, as its documentation says. The build is the parameter `alloc`.

`ErrTy` is the syntax of the error types, with what each of them means: the
selectors of a type, and the bytes of a value, which are the selector of its
variant and the reference encoding of the fields.
-/

namespace PvmContract.Contract

open PvmContract.Data PvmContract.Types PvmContract.Macros PvmContract.Abi AbiType Run

/-- An implementation of `SolError` for one type. -/
structure SolError where
  Carrier : Type
  /-- `encoded_size`. -/
  encodedSize : Carrier → ℕ
  /-- `encode_to`: the buffer, and the number returned. -/
  encodeTo : Carrier → List UInt8 → Option (List UInt8 × ℕ)
  /-- `decode_at`. -/
  decodeAt : Profile → List UInt8 → ℕ → Run (Option Carrier)

/-- `buf[0..4].copy_from_slice(&Self::SELECTOR)`, then `body` on `&mut buf[4..]`. -/
def withSelector (selector : Selector) (body : List UInt8 → Option (List UInt8 × ℕ)) (buf : List UInt8) :
    Option (List UInt8 × ℕ) := do
  let buf ← onSlice buf 0 4 (copyFromSlice selector.1)
  let (rest, size) ← body (buf.drop 4)
  pure (buf.take 4 ++ rest, 4 + size)

/-- `if input.get(offset..offset + 4).is_some_and(|x| x == SELECTOR)`, behind the check of the
input's length. -/
def ifSelected {α : Type} (selector : Selector) (p : Profile) (input : List UInt8) (offset : ℕ)
    (decode : ℕ → Run α) : Run (Option α) :=
  if input.length < 4 then fail
  else do
    let stop ← uadd p offset 4
    if getRange input offset stop = some selector.1 then some <$> decode stop else pure none

/-! ### Derived structs -/

/-- `__tail_offset` after `generate_dynamic_encode_body`. -/
def dynamicTailOffset : (fields : List Field) → Types.Fields (implOf fields) → ℕ → ℕ
  | [], _, tailOffset => tailOffset
  | f :: fields, (val, vals), tailOffset =>
    dynamicTailOffset fields vals (if f.isDynamic then tailOffset + f.impl.encodeBodyLen val else tailOffset)

/-- `build_signature_expr`. -/
def buildSignature (errorName : String) (fields : List Field) : Option String :=
  (buildSolName fields).map (errorName ++ ·)

/-- `const_selector`. -/
def constSelector (keccak : List UInt8 → Word) (signature : String) : Selector :=
  ⟨(keccak (asBytes signature)).1.take 4, by rw [List.length_take, (keccak _).2]; decide⟩

/-- The `encode_to` of `generate_error_encode`. -/
def errorEncode (fields : List Field) (vals : Types.Fields (implOf fields)) (buf : List UInt8) :
    Option (List UInt8 × ℕ) :=
  if fields.isEmpty then some (buf, 0)
  else
    let headSize := buildDynamicHeadSum fields
    (dynamicWrite fields vals 0 headSize buf).map fun buf => (buf, dynamicTailOffset fields vals headSize)

/-- The `encoded_size` of `generate_error_encode`. -/
def errorSize (fields : List Field) (vals : Types.Fields (implOf fields)) : ℕ :=
  if fields.isEmpty then 4 else 4 + (buildDynamicHeadSum fields + dynamicTailLen fields vals)

/-- `expand_sol_error` for a struct. -/
def expandSolError (selector : Selector) (fields : List Field) : SolError where
  Carrier := Types.Fields (implOf fields)
  encodedSize := errorSize fields
  encodeTo vals := withSelector selector (errorEncode fields vals)
  decodeAt p input offset :=
    ifSelected selector p input offset fun _ => dynamicRead p (input.drop 4) offset fields 0

/-! ### Derived enums -/

/-- A value of one of the variants, each of which holds an error. -/
def Variants : List SolError → Type
  | [] => Empty
  | E :: rest => E.Carrier ⊕ Variants rest

/-- `encoded_size` of an enum. -/
def variantsSize : (Es : List SolError) → Variants Es → ℕ
  | E :: _, .inl e => E.encodedSize e
  | _ :: rest, .inr e => variantsSize rest e

/-- `encode_to` of an enum. -/
def variantsWrite : (Es : List SolError) → Variants Es → List UInt8 → Option (List UInt8 × ℕ)
  | E :: _, .inl e, buf => E.encodeTo e buf
  | _ :: rest, .inr e, buf => variantsWrite rest e buf

/-- `decode_at` of an enum: the variants in order, until one finds a value. -/
def variantsRead (p : Profile) (input : List UInt8) (offset : ℕ) :
    (Es : List SolError) → Run (Option (Variants Es))
  | [] => pure none
  | E :: rest => do
    match ← E.decodeAt p input offset with
    | some e => pure (some (.inl e))
    | none => do
      let found ← variantsRead p input offset rest
      pure (found.map .inr)

/-- `expand_sol_error_enum`. -/
def expandSolErrorEnum (variants : List SolError) : SolError where
  Carrier := Variants variants
  encodedSize := variantsSize variants
  encodeTo := variantsWrite variants
  decodeAt p input offset := variantsRead p input offset variants

/-! ### `Error(string)` -/

/-- `RevertString::SELECTOR`. -/
def revertSelector : Selector := ⟨[0x08, 0xc3, 0x79, 0xa0], rfl⟩

/-- The part of `RevertString::encode_to` behind the selector. A buffer that is too small for
the message gets as many whole words of it as fit. -/
def revertBody (message : String) (buf : List UInt8) : Option (List UInt8 × ℕ) :=
  let strBytes := asBytes message
  if buf.length < 64 then do
    let n := min buf.length 32
    let buf ← fill buf 0 n 0
    pure (buf, n)
  else do
    -- `& !31`
    let maxData := (buf.length - 64) / 32 * 32
    let actualLen := min strBytes.length maxData
    let padding := (32 - actualLen % 32) % 32
    let total := 64 + actualLen + padding
    let buf ← fill buf 0 total 0
    let buf ← onSlice buf 24 32 (copyFromSlice (beBytes 8 32))
    let buf ← onSlice buf 56 64 (copyFromSlice (beBytes 8 actualLen))
    let buf ← onSlice buf 64 (64 + actualLen) (copyFromSlice (strBytes.take actualLen))
    pure (buf, total)

/-- `RevertString`, of the build with `alloc` or of the one without. -/
def RevertString (alloc : Bool) : SolError where
  Carrier := String
  encodedSize message := 68 + ((asBytes message).length + 31) / 32 * 32
  encodeTo message := withSelector revertSelector (revertBody message)
  decodeAt p input offset :=
    if alloc then do
      let stop ← uadd p offset 4
      let selector ← ofOption (getRange input offset stop)
      if selector = revertSelector.1 then do
        let args ← ofOption (getRange input stop input.length)
        let data ← (Types.tuple [Types.string]).decode p args
        pure (some data.1)
      else pure none
    else ifSelected revertSelector p input offset fun _ => pure ""

/-! ### `Panic(uint256)` -/

/-- Solidity's panic codes. -/
inductive Panic where
  | generic
  | assertFalse
  | overflow
  | divisionByZero
  | enumConversionFailure
  | storageByteArrayEncoding
  | emptyArrayPopFailure
  | outOfBoundsAccess
  | oom
  | uninitValueCall
  | unknown (code : UInt8)
  deriving DecidableEq, Repr

namespace Panic

/-- `code`. -/
def code : Panic → UInt8
  | generic => 0x00
  | assertFalse => 0x01
  | overflow => 0x11
  | divisionByZero => 0x12
  | enumConversionFailure => 0x21
  | storageByteArrayEncoding => 0x22
  | emptyArrayPopFailure => 0x31
  | outOfBoundsAccess => 0x32
  | oom => 0x41
  | uninitValueCall => 0x51
  | unknown code => code

/-- The match of `decode_at` on the decoded word. -/
def ofWord (data : ℕ) : Option Panic :=
  if data = 0x00 then some generic
  else if data = 0x01 then some assertFalse
  else if data = 0x11 then some overflow
  else if data = 0x12 then some divisionByZero
  else if data = 0x21 then some enumConversionFailure
  else if data = 0x22 then some storageByteArrayEncoding
  else if data = 0x31 then some emptyArrayPopFailure
  else if data = 0x32 then some outOfBoundsAccess
  else if data = 0x41 then some oom
  else if data = 0x51 then some uninitValueCall
  else if data ≤ 0xff then some (unknown (UInt8.ofNat data))
  else none

/-- The codes that have a variant of their own. -/
def named : List UInt8 := [0x00, 0x01, 0x11, 0x12, 0x21, 0x22, 0x31, 0x32, 0x41, 0x51]

/-- The catch-all variant holds only codes without a variant of their own. -/
def Valid : Panic → Prop
  | unknown code => code ∉ named
  | _ => True

/-- The value that a code is decoded to. -/
def canonical (e : Panic) : Panic := (ofWord e.code.toNat).getD e

/-- `Panic::SELECTOR`. -/
def selector : Selector := ⟨[0x4e, 0x48, 0x7b, 0x71], rfl⟩

/-- The part of `Panic::encode_to` behind the selector. -/
def codeBody (code : UInt8) (buf : List UInt8) : Option (List UInt8 × ℕ) := do
  let buf ← fill buf 0 32 0
  let buf ← onSlice buf 31 32 (copyFromSlice [code])
  pure (buf, 32)

/-- `SolError for Panic`. -/
def impl : SolError where
  Carrier := Panic
  encodedSize _ := 36
  encodeTo e := withSelector selector (codeBody e.code)
  decodeAt p input offset :=
    ifSelected selector p input offset fun stop => do
      let data ← (Types.tuple [Types.U256]).decodeAt p input stop
      ofOption (ofWord (BitVec.toNat (w := 256) data.1))

end Panic

/-! ### Reverts of other contracts -/

/-- `try_decode_error_raw`, with the data the host reports. -/
def tryDecodeErrorRaw (E : SolError) (p : Profile) (e : CallError) (data buf : List UInt8) : Run (Option E.Carrier) :=
  if e = .calleeReverted then
    if buf.length < data.length then fail else E.decodeAt p (returnDataCopy data buf 0) 0
  else pure none

/-- `try_decode_error`, with the data the host reports: the buffer is as long as the data. -/
def tryDecodeError (E : SolError) (p : Profile) (e : CallError) (data : List UInt8) : Run (Option E.Carrier) :=
  if e = .calleeReverted then
    let buf := List.replicate data.length 0
    let copied := returnDataCopy data buf 0
    E.decodeAt p (copied ++ buf.drop copied.length) 0
  else pure none

/-! ### The error types -/

/-- The error types. The selector of a struct is the constant `SELECTOR` of its implementation. -/
inductive ErrTy where
  | struct (selector : Selector) (fields : List Ty)
  | enum (variants : List ErrTy)
  | revertString
  | panic

namespace ErrTy

/-- `#[derive(SolError)]` on a struct, if its signature can be evaluated. -/
def derived (keccak : List UInt8 → Word) (errorName : String) (fields : List Ty) : Option ErrTy :=
  (buildSignature errorName (Ty.rusts fields)).map fun sig => struct (constSelector keccak sig) fields

/-- `SolDefaultError`. -/
def solDefaultError : ErrTy := enum [panic, revertString]

mutual

/-- The implementation of an error type, in the build with `alloc` or in the one without. -/
def impl (alloc : Bool) : ErrTy → SolError
  | struct selector fields => expandSolError selector (Ty.rusts fields)
  | enum variants => expandSolErrorEnum (impls alloc variants)
  | revertString => RevertString alloc
  | panic => Panic.impl

/-- The implementations of a list of error types. -/
def impls (alloc : Bool) : List ErrTy → List SolError
  | [] => []
  | t :: ts => t.impl alloc :: impls alloc ts

end

mutual

/-- The selectors of a type. -/
def selectors : ErrTy → List Selector
  | struct selector _ => [selector]
  | enum variants => selectorsList variants
  | revertString => [revertSelector]
  | panic => [Panic.selector]

/-- The selectors of a list of types. -/
def selectorsList : List ErrTy → List Selector
  | [] => []
  | t :: ts => t.selectors ++ selectorsList ts

end

mutual

/-- The bytes of a value: the selector of its variant and `abi.encode` of the fields. -/
def data (alloc : Bool) : (t : ErrTy) → (t.impl alloc).Carrier → List UInt8
  | struct selector fields, vals => selector.1 ++ abiEncode (Ty.abis fields) (Ty.toAbis fields vals)
  | enum variants, e => dataList alloc variants e
  | revertString, (message : String) => revertSelector.1 ++ abiEncode [.string] (message, ())
  | panic, (e : Panic) => Panic.selector.1 ++ abiEncode [.uint 256] (BitVec.ofNat 256 e.code.toNat, ())

/-- `data` of a variant. -/
def dataList (alloc : Bool) : (ts : List ErrTy) → Variants (impls alloc ts) → List UInt8
  | [], e => nomatch (e : Empty)
  | t :: _, .inl e => t.data alloc e
  | _ :: ts, .inr e => dataList alloc ts e

end

mutual

/-- The catch-all of `Panic` holds no code with a variant of its own. -/
def Valid (alloc : Bool) : (t : ErrTy) → (t.impl alloc).Carrier → Prop
  | struct _ _, _ => True
  | enum variants, e => ValidList alloc variants e
  | revertString, _ => True
  | panic, (e : Panic) => e.Valid

/-- `Valid` of a variant. -/
def ValidList (alloc : Bool) : (ts : List ErrTy) → Variants (impls alloc ts) → Prop
  | [], _ => True
  | t :: _, .inl e => t.Valid alloc e
  | _ :: ts, .inr e => ValidList alloc ts e

end

mutual

/-- The value with the same bytes that decoding yields: a code is that of its own variant. -/
def canonical (alloc : Bool) : (t : ErrTy) → (t.impl alloc).Carrier → (t.impl alloc).Carrier
  | struct _ _, vals => vals
  | enum variants, e => canonicalList alloc variants e
  | revertString, message => message
  | panic, (e : Panic) => e.canonical

/-- `canonical` on a variant. -/
def canonicalList (alloc : Bool) : (ts : List ErrTy) → Variants (impls alloc ts) → Variants (impls alloc ts)
  | [], e => nomatch (e : Empty)
  | t :: _, .inl e => .inl (t.canonical alloc e)
  | _ :: ts, .inr e => .inr (canonicalList alloc ts e)

end

mutual

/-- What is left of a value when it is decoded: without `alloc`, the message of `Error(string)`
is lost. -/
def forget (alloc : Bool) : (t : ErrTy) → (t.impl alloc).Carrier → (t.impl alloc).Carrier
  | struct _ _, vals => vals
  | enum variants, e => forgetList alloc variants e
  | revertString, (message : String) => if alloc then message else ""
  | panic, e => e

/-- `forget` on a variant. -/
def forgetList (alloc : Bool) : (ts : List ErrTy) → Variants (impls alloc ts) → Variants (impls alloc ts)
  | [], e => nomatch (e : Empty)
  | t :: _, .inl e => .inl (t.forget alloc e)
  | _ :: ts, .inr e => .inr (forgetList alloc ts e)

end

mutual

/-- The fields of structs are types of the ABI, enums have a variant, and no two variants of an
enum share a selector. -/
def WellFormed : ErrTy → Prop
  | struct _ fields => ∀ t ∈ fields, t.Codable = true
  | enum variants => variants ≠ [] ∧ (selectorsList variants).Nodup ∧ WellFormedList variants
  | revertString | panic => True

/-- `WellFormed` of every type of a list. -/
def WellFormedList : List ErrTy → Prop
  | [] => True
  | t :: ts => t.WellFormed ∧ WellFormedList ts

end

end ErrTy

end PvmContract.Contract
