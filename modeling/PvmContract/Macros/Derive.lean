import PvmContract.Macros.SolType
import PvmContract.Types.Primitives
import PvmContract.Types.Sequences

/-!
# `#[derive(SolType)]`

The implementations that the derive writes for a struct and for an enum. A
struct has two expansions. The static one is picked when syntax shows that every
field is static: it takes every size from the field's trait constants, except
for its own `HEAD_SIZE` and `ENCODED_SIZE`, which are folded from syntax. The
dynamic one is picked otherwise, also for a static field of a custom type: it
folds the head positions of the fields from syntax and takes the trait constants
only for custom types, and it implements neither `StaticEncodedLen` nor
`StaticDecode`.
-/

namespace PvmContract.Macros

open Data Run PvmContract.Types

/-- A type: as the macros read it, with paths resolved to what they name, and the
implementation that the compiler finds for it. -/
structure Field where
  /-- `SolType::from_rust_type`. -/
  sol : SolType SolCodec
  /-- The field type's implementation. -/
  impl : SolCodec

/-- The implementations of the fields. -/
abbrev implOf (fields : List Field) : List SolCodec := fields.map Field.impl

/-! ### Names and parameter descriptions -/

mutual

/-- `sol_type_name_parts`, with the parts put together. -/
def solTypeName : SolType SolCodec → Option String
  | .custom c => c.solName
  | .array inner =>
    if inner.hasCustomTypes then (solTypeName inner).map (· ++ "[]")
    else some ((SolType.array inner).canonicalName fun _ => "")
  | .fixedArray inner size =>
    if inner.hasCustomTypes then (solTypeName inner).map (· ++ ("[" ++ toString size ++ "]"))
    else some ((SolType.fixedArray inner size).canonicalName fun _ => "")
  | .tuple types =>
    if SolType.anyCustom types then (solTypeNames types).map fun names => "(" ++ ",".intercalate names ++ ")"
    else some ((SolType.tuple types).canonicalName fun _ => "")
  | ty => some (ty.canonicalName fun _ => "")

/-- The names of a list of types. -/
def solTypeNames : List (SolType SolCodec) → Option (List String)
  | [] => some []
  | ty :: types => do
    let name ← solTypeName ty
    let rest ← solTypeNames types
    pure (name :: rest)

end

/-- `build_sol_name_expr`: a literal without custom types, otherwise a `concatcp!`. -/
def buildSolName (fields : List Field) : Option String :=
  let types := fields.map Field.sol
  if SolType.anyCustom types then (solTypeNames types).map fun names => "(" ++ ",".intercalate names ++ ")"
  else some ("(" ++ ",".intercalate (SolType.canonicalNames (fun _ => "") types) ++ ")")

/-- `ident.to_string().trim_start_matches("r#")`, or the empty name. -/
def fieldParamName (ident : Option String) : String :=
  match ident with
  | some name => trimRaw name.toList
  | none => ""
where
  /-- The `r#` in front is dropped as often as it stands there. -/
  trimRaw : List Char → String
    | 'r' :: '#' :: rest => trimRaw rest
    | cs => String.ofList cs

/-- The components of `generate_abi_param_fn`, each with the name of its field. -/
def componentParams : List (Option String) → List Field → Option (List AbiParam)
  | _, [] => some []
  | idents, f :: fields => do
    let component ← f.impl.abiParam (fieldParamName (idents.head?.getD none))
    let rest ← componentParams idents.tail fields
    pure (component :: rest)

/-- `generate_abi_param_fn`. -/
def structAbiParam (idents : List (Option String)) (fields : List Field) (name : String) : Option AbiParam :=
  (componentParams idents fields).map fun components => .mk name "tuple" components

/-! ### The static expansion -/

/-- `build_total_size_expr`: the head sizes that syntax gives. There is one for every field
without custom types. -/
def buildTotalSize (fields : List Field) : ℕ := (fields.map fun f => f.sol.headSize.getD 0).sum

/-- `generate_static_encode_body`, with the variable `__offset`. -/
def staticWrite : (Ts : List SolCodec) → Types.Fields Ts → ℕ → List UInt8 → Option (List UInt8)
  | [], _, _, buf => some buf
  | T :: Ts, (val, vals), offset, buf => do
    let hs := T.headSize
    let buf ← onSlice buf offset (offset + hs) (T.encodeBodyTo val)
    staticWrite Ts vals (offset + hs) buf

/-- `generate_static_decode_body`, checked, with the variable `__offset`. -/
def staticRead (p : Profile) (input : List UInt8) (start : ℕ) :
    (Ts : List SolCodec) → ℕ → Run (Types.Fields Ts)
  | [], _ => pure ()
  | T :: Ts, offset => do
    let pos ← uadd p start offset
    let val ← T.decodeAt p input pos
    let vals ← staticRead p input start Ts (offset + T.headSize)
    pure (val, vals)

/-- `generate_static_decode_body`, unchecked: every field has to implement `StaticDecode`. -/
def staticUnchecked : (Ts : List SolCodec) → Option (List UInt8 → ℕ → ℕ → Option (Types.Fields Ts))
  | [] => some fun _ _ _ => some ()
  | T :: Ts => do
    let f ← T.decodeUnchecked
    let g ← staticUnchecked Ts
    pure fun input start offset => do
      let val ← f input (start + offset)
      let vals ← g input start (offset + T.headSize)
      pure (val, vals)

/-- `expand_static_sol_type`. -/
def expandStatic (idents : List (Option String)) (fields : List Field) : SolCodec where
  Carrier := Types.Fields (implOf fields)
  isDynamic := false
  solName := buildSolName fields
  headSize := buildTotalSize fields
  abiParam := structAbiParam idents fields
  isTuple := false
  encodeBodyLen _ := buildTotalSize fields
  encodeBodyTo vals buf := staticWrite (implOf fields) vals 0 buf
  decodeAt p input offset := staticRead p input offset (implOf fields) 0
  decodeTail p input offset := staticRead p input offset (implOf fields) 0
  encodedSize := some (buildTotalSize fields)
  decodeUnchecked := (staticUnchecked (implOf fields)).map fun f input offset => f input offset 0

/-! ### The dynamic expansion -/

namespace Field

/-- Whether the expansion treats the field as dynamic: what syntax says, else `IS_DYNAMIC`. -/
def isDynamic (f : Field) : Bool :=
  match f.sol.isDynamic with
  | some isDyn => isDyn
  | none => f.impl.isDynamic

/-- The field's contribution to `build_dynamic_head_sum_expr`. -/
def slotSize (f : Field) : ℕ :=
  match f.sol.isDynamic with
  | some true => 32
  | some false => f.sol.headSize.getD 0
  | none => f.impl.slotSize

end Field

/-- `build_dynamic_head_sum_expr`. -/
def buildDynamicHeadSum (fields : List Field) : ℕ := (fields.map Field.slotSize).sum

/-- The tail lengths of `generate_dynamic_encode_len`. -/
def dynamicTailLen : (fields : List Field) → Types.Fields (implOf fields) → ℕ
  | [], _ => 0
  | f :: fields, (val, vals) =>
    (if f.isDynamic then f.impl.encodeBodyLen val else 0) + dynamicTailLen fields vals

/-- `generate_dynamic_encode_body`: `ho` is the head position of the next field, the sum over
the fields before it, and `tailOffset` is `__tail_offset`. -/
def dynamicWrite : (fields : List Field) → Types.Fields (implOf fields) → ℕ → ℕ → List UInt8 →
    Option (List UInt8)
  | [], _, _, _, buf => some buf
  | f :: fields, (val, vals), ho, tailOffset, buf =>
    if f.isDynamic then do
      let buf ← writePointer buf ho tailOffset
      let tailLen := f.impl.encodeBodyLen val
      let buf ← onSlice buf tailOffset (tailOffset + tailLen) (f.impl.encodeBodyTo val)
      dynamicWrite fields vals (ho + f.slotSize) (tailOffset + tailLen) buf
    else do
      let buf ← onSlice buf ho buf.length (f.impl.encodeBodyTo val)
      dynamicWrite fields vals (ho + f.slotSize) tailOffset buf

/-- `generate_dynamic_field_decode`. -/
def dynamicReadField (f : Field) (p : Profile) (input : List UInt8) (offset ho : ℕ) :
    Run f.impl.Carrier := do
  let pos ← checkedSum [offset, ho]
  if f.isDynamic then do
    let fieldOffset ← readWordOffset input pos
    let pos ← checkedSum [offset, fieldOffset]
    f.impl.decodeTail p input pos
  else f.impl.decodeAt p input pos

/-- `generate_dynamic_decode_body`: `ho` is the head position of the next field. -/
def dynamicRead (p : Profile) (input : List UInt8) (offset : ℕ) :
    (fields : List Field) → ℕ → Run (Types.Fields (implOf fields))
  | [], _ => pure ()
  | f :: fields, ho => do
    let val ← dynamicReadField f p input offset ho
    let vals ← dynamicRead p input offset fields (ho + f.slotSize)
    pure (val, vals)

/-- `expand_dynamic_sol_type`. -/
def expandDynamic (idents : List (Option String)) (fields : List Field) : SolCodec where
  Carrier := Types.Fields (implOf fields)
  isDynamic := fields.any Field.isDynamic
  solName := buildSolName fields
  headSize := buildDynamicHeadSum fields
  abiParam := structAbiParam idents fields
  isTuple := false
  encodeBodyLen vals := buildDynamicHeadSum fields + dynamicTailLen fields vals
  encodeBodyTo vals buf := dynamicWrite fields vals 0 (buildDynamicHeadSum fields) buf
  decodeAt p input offset := dynamicRead p input offset fields 0
  decodeTail p input offset := dynamicRead p input offset fields 0
  encodedSize := none
  decodeUnchecked := none

/-- The test by which `expand_sol_type` picks the dynamic expansion. -/
def needsDynamic (fields : List Field) : Bool :=
  fields.any fun f => f.sol.hasCustomTypes || f.sol.isDynamic == some true

/-- `expand_sol_type` for a struct with at least one field; `idents` are the names of the
fields that have one. -/
def expandSolType (idents : List (Option String)) (fields : List Field) : SolCodec :=
  if needsDynamic fields then expandDynamic idents fields else expandStatic idents fields

/-! ### Enums -/

/-- `TryFrom<u8>` of an enum with `n` variants. -/
def enumTryFrom (n : ℕ) (index : ℕ) : Option (Fin n) :=
  if h : index < n then some ⟨index, h⟩ else none

/-- `generate_enum_sol_type` for an enum with `n` variants: laid out as `u8`, and read from
the whole word. -/
def expandEnum (n : ℕ) : SolCodec where
  Carrier := Fin n
  isDynamic := u8.isDynamic
  solName := u8.solName
  headSize := u8.headSize
  abiParam name := some (.mk name "uint8" [])
  isTuple := false
  encodeBodyLen m := u8.encodeBodyLen (BitVec.ofNat 8 m)
  encodeBodyTo m := u8.encodeBodyTo (BitVec.ofNat 8 m)
  decodeAt := read
  decodeTail := read
  encodedSize := u8.encodedSize
  decodeUnchecked := none
where
  /-- The enum's `decode_at`. -/
  read (p : Profile) (input : List UInt8) (offset : ℕ) : Run (Fin n) := do
    let word ← getRangeAt 32 p input offset
    if word.take 31 ≠ List.replicate 31 0 then fail
    else do
      let index ← ofOption word[31]?
      ofOption (enumTryFrom n index.toNat)

end PvmContract.Macros
