import PvmContract.Types.Codec

/-!
# Byte strings, vectors, fixed arrays and tuples

The implementations for `Bytes`, `String`, `Vec<T>`, `[T; N]` and the tuples,
each as a function of the implementations for its components. The loops of the
crate are recursions here, over the elements that are left or over the component
list of a tuple (the crate writes the tuple code out for each arity, with a
macro), with the loop's variables as arguments.

Two ways to enter a decoder differ between these types. `decode_at` of `Bytes`,
`String` and `Vec` reads a pointer at the offset and goes where it points; of an
array or a tuple it starts with the body at the offset, dynamic or not.
-/

namespace PvmContract.Types

open Data Run

/-! ### `Bytes` and `String` -/

/-- `encode_body_len` of a byte string. -/
def bytesBodyLen (dataLen : ℕ) : ℕ := 32 + dataLen + (32 - dataLen % 32) % 32

/-- `encode_body_to` of a byte string. -/
def bytesBodyTo (bytes buf : List UInt8) : Option (List UInt8) := do
  let dataLen := bytes.length
  let padding := (32 - dataLen % 32) % 32
  let buf ← writeWord buf 0 dataLen
  let buf ← onSlice buf 32 (32 + dataLen) (copyFromSlice bytes)
  fill buf (32 + dataLen) (32 + dataLen + padding) 0

/-- The data of a byte string whose body starts at `offset`. -/
def bytesTail (input : List UInt8) (offset : ℕ) : Run (List UInt8) := do
  let len ← readWordOffset input offset
  let dataStart ← checkedSum [offset, 32]
  let dataEnd ← checkedSum [dataStart, len]
  ofOption (getRange input dataStart dataEnd)

/-- `s.as_bytes()`. -/
def asBytes (s : String) : List UInt8 := s.toUTF8.data.toList

/-- `String::from_utf8(bytes)`. -/
def fromUtf8 (bytes : List UInt8) : Option String := String.fromUTF8? ⟨bytes.toArray⟩

/-- `Bytes`. -/
def Bytes : SolCodec where
  Carrier := List UInt8
  isDynamic := true
  solName := some "bytes"
  headSize := 32
  abiParam := AbiParam.ofSolName (some "bytes")
  isTuple := false
  encodeBodyLen val := bytesBodyLen val.length
  encodeBodyTo := bytesBodyTo
  decodeAt _ input offset := do
    let dataOffset ← readWordOffset input offset
    bytesTail input dataOffset
  decodeTail _ input offset := bytesTail input offset
  encodedSize := none
  decodeUnchecked := none

/-- `String::decode_tail`. -/
def stringTail (input : List UInt8) (offset : ℕ) : Run String := do
  let data ← bytesTail input offset
  ofOption (fromUtf8 data)

/-- `String`. -/
def string : SolCodec where
  Carrier := String
  isDynamic := true
  solName := some "string"
  headSize := 32
  abiParam := AbiParam.ofSolName (some "string")
  isTuple := false
  encodeBodyLen val := bytesBodyLen (asBytes val).length
  encodeBodyTo val := bytesBodyTo (asBytes val)
  decodeAt _ input offset := do
    let dataOffset ← readWordOffset input offset
    stringTail input dataOffset
  decodeTail _ input offset := stringTail input offset
  encodedSize := none
  decodeUnchecked := none

/-! ### `Vec<T>` -/

/-- The loop of `Vec::encode_body_to` over dynamic elements. -/
def vecWriteDynamic (T : SolCodec) : List T.Carrier → ℕ → ℕ → List UInt8 → Option (List UInt8)
  | [], _, _, buf => some buf
  | elem :: rest, offsetPos, tailPos, buf => do
    let relOffset := tailPos - 32
    let buf ← writeWord buf offsetPos relOffset
    let tailLen := T.encodeBodyLen elem
    let buf ← onSlice buf tailPos (tailPos + tailLen) (T.encodeBodyTo elem)
    vecWriteDynamic T rest (offsetPos + 32) (tailPos + tailLen) buf

/-- The loop of `Vec::encode_body_to` over static elements. -/
def vecWriteStatic (T : SolCodec) : List T.Carrier → ℕ → List UInt8 → Option (List UInt8)
  | [], _, buf => some buf
  | elem :: rest, pos, buf => do
    let len := T.encodeBodyLen elem
    let buf ← onSlice buf pos (pos + len) (T.encodeBodyTo elem)
    vecWriteStatic T rest (pos + len) buf

/-- `Vec::encode_body_to`. -/
def vecBodyTo (T : SolCodec) (elems : List T.Carrier) (buf : List UInt8) : Option (List UInt8) := do
  let buf ← writeWord buf 0 elems.length
  if T.isDynamic then vecWriteDynamic T elems 32 (32 + elems.length * 32) buf
  else vecWriteStatic T elems 32 buf

/-- The loop of `Vec::decode_tail` over dynamic elements, from index `i` on. -/
def vecReadDynamic (T : SolCodec) (p : Profile) (input : List UInt8) (arrayDataStart : ℕ) :
    ℕ → ℕ → Run (List T.Carrier)
  | _, 0 => pure []
  | i, n + 1 => do
    let k ← umul p i 32
    let headPos ← checkedSum [arrayDataStart, k]
    let elemOffset ← readWordOffset input headPos
    let elemStart ← checkedSum [arrayDataStart, elemOffset]
    let elem ← T.decodeTail p input elemStart
    let rest ← vecReadDynamic T p input arrayDataStart (i + 1) n
    pure (elem :: rest)

/-- The loop of `Vec::decode_tail` over static elements. -/
def vecReadStatic (T : SolCodec) (p : Profile) (input : List UInt8) : ℕ → ℕ → Run (List T.Carrier)
  | _, 0 => pure []
  | elemOffset, n + 1 => do
    let elem ← T.decodeAt p input elemOffset
    let elemOffset ← checkedSum [elemOffset, T.headSize]
    let rest ← vecReadStatic T p input elemOffset n
    pure (elem :: rest)

/-- `Vec::decode_tail`. -/
def vecTail (T : SolCodec) (p : Profile) (input : List UInt8) (offset : ℕ) : Run (List T.Carrier) := do
  let len ← readWordOffset input offset
  if len > input.length / 32 then fail
  else do
    alloc len
    let arrayDataStart ← checkedSum [offset, 32]
    if T.isDynamic then vecReadDynamic T p input arrayDataStart 0 len
    else vecReadStatic T p input arrayDataStart len

/-- `Vec<T>`. -/
def Vec (T : SolCodec) : SolCodec where
  Carrier := List T.Carrier
  isDynamic := true
  solName := T.solName.bind fun a => ConstStr.new a "[]"
  headSize := 32
  abiParam name := (T.abiParam "").map fun inner => .mk name (inner.paramType ++ "[]") inner.components
  isTuple := false
  encodeBodyLen elems :=
    if T.isDynamic then 32 + elems.length * 32 + (elems.map T.encodeBodyLen).sum
    else 32 + (elems.map T.encodeBodyLen).sum
  encodeBodyTo := vecBodyTo T
  decodeAt p input offset := do
    let dataOffset ← readWordOffset input offset
    vecTail T p input dataOffset
  decodeTail := vecTail T
  encodedSize := none
  decodeUnchecked := none

/-! ### `[T; N]` -/

/-- The loop of `[T; N]::encode_body_to` over dynamic elements, from index `i` on. -/
def arrayWriteDynamic (T : SolCodec) : List T.Carrier → ℕ → ℕ → List UInt8 → Option (List UInt8)
  | [], _, _, buf => some buf
  | elem :: rest, i, tailOffset, buf => do
    let ho := i * T.slotSize
    let buf ← writePointer buf ho tailOffset
    let tl := T.encodeBodyLen elem
    let buf ← onSlice buf tailOffset (tailOffset + tl) (T.encodeBodyTo elem)
    arrayWriteDynamic T rest (i + 1) (tailOffset + tl) buf

/-- The loop of `[T; N]::encode_body_to` over static elements. -/
def arrayWriteStatic (T : SolCodec) : List T.Carrier → ℕ → List UInt8 → Option (List UInt8)
  | [], _, buf => some buf
  | elem :: rest, offset, buf => do
    let buf ← onSlice buf offset buf.length (T.encodeBodyTo elem)
    arrayWriteStatic T rest (offset + T.slotSize) buf

/-- The element of `[T; N]` at index `i`: its slot is at `offset + i * SLOT_SIZE`. -/
def arrayReadElem (T : SolCodec) (p : Profile) (input : List UInt8) (offset i : ℕ) : Run T.Carrier := do
  let k ← umul p i T.slotSize
  let ho ← checkedSum [offset, k]
  if T.isDynamic then do
    let fieldOffset ← readWordOffset input ho
    let pos ← checkedSum [offset, fieldOffset]
    T.decodeTail p input pos
  else T.decodeAt p input ho

/-- The loop of `[T; N]::decode_at`, from index `i` on. -/
def arrayRead (T : SolCodec) (p : Profile) (input : List UInt8) (offset : ℕ) :
    ℕ → (n : ℕ) → Run {vs : List T.Carrier // vs.length = n}
  | _, 0 => pure ⟨[], rfl⟩
  | i, n + 1 => do
    let elem ← arrayReadElem T p input offset i
    let rest ← arrayRead T p input offset (i + 1) n
    pure ⟨elem :: rest.1, by rw [List.length_cons, rest.2]⟩

/-- The loop of `[T; N]::decode_unchecked`, from index `i` on. -/
def arrayReadUnchecked (T : SolCodec) (decodeUnchecked : List UInt8 → ℕ → Option T.Carrier)
    (input : List UInt8) (offset : ℕ) : ℕ → (n : ℕ) → Option {vs : List T.Carrier // vs.length = n}
  | _, 0 => some ⟨[], rfl⟩
  | i, n + 1 => do
    let elem ←
      if T.isDynamic then do
        let ho := offset + i * T.slotSize
        let fieldOffset ← getRange input (ho + 24) (ho + 32)
        decodeUnchecked input (offset + ofBe fieldOffset)
      else decodeUnchecked input (offset + i * T.slotSize)
    let rest ← arrayReadUnchecked T decodeUnchecked input offset (i + 1) n
    pure ⟨elem :: rest.1, by rw [List.length_cons, rest.2]⟩

/-- `[T; N]` for an element type other than `u8`. -/
def array (T : SolCodec) (n : ℕ) : SolCodec where
  Carrier := {vs : List T.Carrier // vs.length = n}
  isDynamic := T.isDynamic
  solName := ConstStr.append (ConstStr.appendUsize (T.solName.bind fun a => ConstStr.new a "[") n) "]"
  headSize := T.slotSize * n
  abiParam name := (T.abiParam "").map fun inner =>
    .mk name (inner.paramType ++ "[" ++ toString n ++ "]") inner.components
  isTuple := false
  encodeBodyLen elems :=
    if T.isDynamic then n * 32 + (elems.1.map T.encodeBodyLen).sum else T.headSize * n
  encodeBodyTo elems buf :=
    if T.isDynamic then arrayWriteDynamic T elems.1 0 (n * T.slotSize) buf
    else arrayWriteStatic T elems.1 0 buf
  decodeAt p input offset := arrayRead T p input offset 0 n
  decodeTail p input offset := arrayRead T p input offset 0 n
  encodedSize := T.encodedSize.map (· * n)
  decodeUnchecked := T.decodeUnchecked.map fun f input offset => arrayReadUnchecked T f input offset 0 n

/-! ### Tuples -/

/-- The Rust type of a tuple. -/
def Fields : List SolCodec → Type
  | [] => Unit
  | T :: Ts => T.Carrier × Fields Ts

/-- `HEAD_SIZE` of a tuple. -/
def tupleHeadSize (Ts : List SolCodec) : ℕ := (Ts.map SolCodec.slotSize).sum

/-- The fields in the tail of a tuple's body. -/
def tupleTailLen : (Ts : List SolCodec) → Fields Ts → ℕ
  | [], _ => 0
  | T :: Ts, (val, vals) => (if T.isDynamic then T.encodeBodyLen val else 0) + tupleTailLen Ts vals

/-- The statements of a tuple's `encode_body_to`, with the variables `__ho` and `__to`. -/
def tupleWrite : (Ts : List SolCodec) → Fields Ts → ℕ → ℕ → List UInt8 → Option (List UInt8)
  | [], _, _, _, buf => some buf
  | T :: Ts, (val, vals), ho, tp, buf =>
    if T.isDynamic then do
      let buf ← writePointer buf ho tp
      let tl := T.encodeBodyLen val
      let buf ← onSlice buf tp (tp + tl) (T.encodeBodyTo val)
      tupleWrite Ts vals (ho + T.slotSize) (tp + tl) buf
    else do
      let buf ← onSlice buf ho buf.length (T.encodeBodyTo val)
      tupleWrite Ts vals (ho + T.slotSize) tp buf

/-- One field of a tuple: its slot is at `ho`, the tuple starts at `offset`. -/
def tupleReadField (T : SolCodec) (p : Profile) (input : List UInt8) (offset ho : ℕ) : Run T.Carrier :=
  if T.isDynamic then do
    let fo ← readWordOffset input ho
    let pos ← checkedSum [offset, fo]
    T.decodeTail p input pos
  else T.decodeAt p input ho

/-- The statements of a tuple's `decode_at`, with the variable `__ho`. -/
def tupleRead (p : Profile) (input : List UInt8) (offset : ℕ) : (Ts : List SolCodec) → ℕ → Run (Fields Ts)
  | [], _ => pure ()
  | T :: Ts, ho => do
    let val ← tupleReadField T p input offset ho
    let ho ← checkedSum [ho, T.slotSize]
    let vals ← tupleRead p input offset Ts ho
    pure (val, vals)

/-- `StaticEncodedLen` of a tuple: every field has to implement it. -/
def tupleEncodedSize : List SolCodec → Option ℕ
  | [] => some 0
  | T :: Ts => do
    let n ← T.encodedSize
    let m ← tupleEncodedSize Ts
    pure (n + m)

/-- `StaticDecode` of a tuple: every field has to implement it. -/
def tupleUnchecked : (Ts : List SolCodec) → Option (List UInt8 → ℕ → Option (Fields Ts))
  | [] => some fun _ _ => some ()
  | T :: Ts => do
    let f ← T.decodeUnchecked
    let g ← tupleUnchecked Ts
    pure fun input ho => do
      let val ← f input ho
      let vals ← g input (ho + T.slotSize)
      pure (val, vals)

/-- The chain of `ConstStr` calls behind the first name: `.append(",").append(T::SOL_NAME)`. -/
def tupleNameRest (front : Option String) : List SolCodec → Option String
  | [] => ConstStr.append front ")"
  | T :: Ts => tupleNameRest (T.solName.bind fun a => ConstStr.append (ConstStr.append front ",") a) Ts

/-- `SOL_NAME` of a tuple. -/
def tupleName : List SolCodec → Option String
  | [] => none
  | T :: Ts => tupleNameRest (T.solName.bind fun a => ConstStr.new "(" a) Ts

/-- A tuple. -/
def tuple (Ts : List SolCodec) : SolCodec where
  Carrier := Fields Ts
  isDynamic := Ts.any SolCodec.isDynamic
  solName := tupleName Ts
  headSize := tupleHeadSize Ts
  abiParam name := (Ts.mapM fun T : SolCodec => T.abiParam "").map fun components => .mk name "tuple" components
  isTuple := true
  encodeBodyLen vals := tupleHeadSize Ts + tupleTailLen Ts vals
  encodeBodyTo vals buf := tupleWrite Ts vals 0 (tupleHeadSize Ts) buf
  decodeAt p input offset := tupleRead p input offset Ts offset
  decodeTail p input offset := tupleRead p input offset Ts offset
  encodedSize := tupleEncodedSize Ts
  decodeUnchecked := tupleUnchecked Ts

end PvmContract.Types
