import PvmContract.Types.Codec

/-!
# Static primitives

The implementations for the types that fill one word: the integers, `bool`,
`Address`, `bytesN` and the unit type. They are members of one family
(`staticType`, the crate's `impl_static_type!`) and differ in how a value is laid
out in the word and in how its bytes are fetched from the input: by a checked
range (`getRangeAt`, `getLow`), or byte by byte (`getPair`, `getByte`).
-/

namespace PvmContract.Types

open Data Run

/-! ### Writing a word -/

/-- `buf[..32 - k].fill(x); buf[32 - k..32].copy_from_slice(bs)` for a value of `k` bytes. -/
def padLeft (x : UInt8) (bs buf : List UInt8) : Option (List UInt8) := do
  let buf ← fill buf 0 (32 - bs.length) x
  onSlice buf (32 - bs.length) 32 (copyFromSlice bs)

/-- `buf[..32].copy_from_slice(bs)`. -/
def copyWord (bs buf : List UInt8) : Option (List UInt8) := onSlice buf 0 32 (copyFromSlice bs)

/-- `buf[..N].copy_from_slice(bs); buf[N..32].fill(0)`. -/
def padRight (bs buf : List UInt8) : Option (List UInt8) := do
  let buf ← onSlice buf 0 bs.length (copyFromSlice bs)
  fill buf bs.length 32 0

/-- `if *val < 0 { 0xff } else { 0 }`. -/
def signFill {w : ℕ} (val : BitVec w) : UInt8 := if val.msb then 0xff else 0

/-! ### Reading from a word -/

/-- `input.get(offset..offset + n)`. -/
def getRangeAt (n : ℕ) (p : Profile) (input : List UInt8) (offset : ℕ) : Run (List UInt8) := do
  let stop ← uadd p offset n
  ofOption (getRange input offset stop)

/-- `input.get(offset + (32 - k)..offset + 32)`. -/
def getLow (k : ℕ) (p : Profile) (input : List UInt8) (offset : ℕ) : Run (List UInt8) := do
  let start ← uadd p offset (32 - k)
  let stop ← uadd p offset 32
  ofOption (getRange input start stop)

/-- `input.get(offset + 30).zip(input.get(offset + 31))`. -/
def getPair (p : Profile) (input : List UInt8) (offset : ℕ) : Run (List UInt8) := do
  let i ← uadd p offset 30
  let j ← uadd p offset 31
  ofOption do
    let x ← input[i]?
    let y ← input[j]?
    pure [x, y]

/-- `input.get(offset + 31)`. -/
def getByte (p : Profile) (input : List UInt8) (offset : ℕ) : Run (List UInt8) := do
  let i ← uadd p offset 31
  ofOption (input[i]?.map ([·]))

/-- `input.get_unchecked(offset + skip..offset + skip + k)`. -/
def uncheckedRange (skip k : ℕ) (input : List UInt8) (offset : ℕ) : Option (List UInt8) :=
  getRange input (offset + skip) (offset + (skip + k))

/-- `[*input.get_unchecked(offset + 30), *input.get_unchecked(offset + 31)]`. -/
def uncheckedPair (input : List UInt8) (offset : ℕ) : Option (List UInt8) := do
  let x ← input[offset + 30]?
  let y ← input[offset + 31]?
  pure [x, y]

/-- `*input.get_unchecked(offset + 31)`. -/
def uncheckedByte (input : List UInt8) (offset : ℕ) : Option (List UInt8) :=
  input[offset + 31]?.map ([·])

/-! ### The family -/

/-- `impl_static_type!` and `impl_static_type_decode!`: a type that fills one word, from
its writer, its checked and its unchecked read, and the conversion of the bytes read. -/
def staticType (C : Type) (solName : String) (encodeFn : C → List UInt8 → Option (List UInt8))
    (get : Profile → List UInt8 → ℕ → Run (List UInt8)) (getUnchecked : List UInt8 → ℕ → Option (List UInt8))
    (convert : List UInt8 → C) : SolCodec where
  Carrier := C
  isDynamic := false
  solName := some solName
  headSize := 32
  abiParam := AbiParam.ofSolName (some solName)
  isTuple := false
  encodeBodyLen _ := 32
  encodeBodyTo := encodeFn
  decodeAt p input offset := convert <$> get p input offset
  decodeTail p input offset := convert <$> get p input offset
  encodedSize := some 32
  decodeUnchecked := some fun input offset => (getUnchecked input offset).map convert

/-- `uN::from_be_bytes` and `iN::from_be_bytes`. -/
def fromBeBytes (w : ℕ) (bs : List UInt8) : BitVec w := BitVec.ofNat w (ofBe bs)

/-- The unsigned integers of `k` bytes that are read as a range. -/
def shortUint (k : ℕ) (solName : String) : SolCodec :=
  staticType (BitVec (8 * k)) solName (fun val => padLeft 0 (beBytes k val.toNat)) (getLow k)
    (uncheckedRange (32 - k) k) (fromBeBytes (8 * k))

/-- The signed integers of `k` bytes that are read as a range. -/
def shortInt (k : ℕ) (solName : String) : SolCodec :=
  staticType (BitVec (8 * k)) solName (fun val => padLeft (signFill val) (beBytes k val.toNat)) (getLow k)
    (uncheckedRange (32 - k) k) (fromBeBytes (8 * k))

/-- The integers of 32 bytes. -/
def fullInt (solName : String) : SolCodec :=
  staticType (BitVec (8 * 32)) solName (fun val => copyWord (beBytes 32 val.toNat)) (getRangeAt 32)
    (uncheckedRange 0 32) (fromBeBytes (8 * 32))

def U256 : SolCodec := fullInt "uint256"
def I256 : SolCodec := fullInt "int256"
def u128 : SolCodec := shortUint 16 "uint128"
def u64 : SolCodec := shortUint 8 "uint64"
def u32 : SolCodec := shortUint 4 "uint32"
def i128 : SolCodec := shortInt 16 "int128"
def i64 : SolCodec := shortInt 8 "int64"
def i32 : SolCodec := shortInt 4 "int32"

def u16 : SolCodec :=
  staticType (BitVec (8 * 2)) "uint16" (fun val => padLeft 0 (beBytes 2 val.toNat)) getPair uncheckedPair
    (fromBeBytes (8 * 2))

def i16 : SolCodec :=
  staticType (BitVec (8 * 2)) "int16" (fun val => padLeft (signFill val) (beBytes 2 val.toNat)) getPair
    uncheckedPair (fromBeBytes (8 * 2))

def u8 : SolCodec :=
  staticType (BitVec (8 * 1)) "uint8" (fun val => padLeft 0 (beBytes 1 val.toNat)) getByte uncheckedByte
    (fromBeBytes (8 * 1))

def i8 : SolCodec :=
  staticType (BitVec (8 * 1)) "int8" (fun val => padLeft (signFill val) (beBytes 1 val.toNat)) getByte
    uncheckedByte (fromBeBytes (8 * 1))

/-- `bool`: any byte but zero is read as true. -/
def bool : SolCodec :=
  staticType Bool "bool" (fun val => padLeft 0 [if val then 1 else 0]) getByte uncheckedByte
    (fun bs => bs != [0])

/-- `result.copy_from_slice(x)` into a zeroed array: lengths differ for no slice that is read. -/
def toByteArr (n : ℕ) (bs : List UInt8) : ByteArr n :=
  if h : bs.length = n then ⟨bs, h⟩ else ⟨List.replicate n 0, List.length_replicate⟩

def Address : SolCodec :=
  staticType (ByteArr 20) "address" (fun val => padLeft 0 val.1) (getLow 20) (uncheckedRange 12 20)
    (toByteArr 20)

/-- `ConstStr::new("bytes", "").append_usize(N)`. -/
def bytesNName (n : ℕ) : Option String := ConstStr.appendUsize (ConstStr.new "bytes" "") n

/-- `[u8; N]`, the Solidity type `bytesN`. -/
def bytesN (n : ℕ) : SolCodec :=
  { staticType (ByteArr n) "" (fun val => padRight val.1) (getRangeAt n) (uncheckedRange 0 n) (toByteArr n) with
    solName := bytesNName n
    abiParam := AbiParam.ofSolName (bytesNName n) }

/-- `()`: no bytes, but `HEAD_SIZE` is left at its default. -/
def unit : SolCodec where
  Carrier := Unit
  isDynamic := false
  solName := some "unit"
  headSize := 32
  abiParam := AbiParam.ofSolName (some "unit")
  isTuple := false
  encodeBodyLen _ := 0
  encodeBodyTo _ buf := some buf
  decodeAt _ _ _ := pure ()
  decodeTail _ _ _ := pure ()
  encodedSize := some 0
  decodeUnchecked := some fun _ _ => some ()

end PvmContract.Types
