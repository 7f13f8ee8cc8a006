import PvmContract.AbiImport.Translation
import PvmContract.Macros.Universe

/-!
# What the generated types implement

The items that `abi_import!` writes and the implementations that the compiler finds for a
Rust type in one of the generated modules. A struct and an enum derive the codec; a value
type gets an implementation of its own (`expand_udt`), and is no array element.

Names are looked up as the compiler does: a bare name is a primitive type, else an item of
the module, else, since each module imports everything from around it, an item of the
file, else a type that the SDK exports. A name that two items of a module have does not
compile.
-/

namespace PvmContract.AbiImport

open Data Sol Macros Scaffold PvmContract.Types

/-- What the compiler finds for a type. -/
structure RustImpl where
  /-- The codec traits. -/
  codec : SolCodec
  /-- `SolArrayElement` is implemented. -/
  isArrayElement : Bool

/-- What a path leads to. -/
inductive Target where
  | builtin (impl : RustImpl)
  | declared (name : SolIdent)

/-- The primitive types of Rust that the codec is implemented for. -/
def primitive : String → Option Prim
  | "u8" => some .u8
  | "u16" => some .u16
  | "u32" => some .u32
  | "u64" => some .u64
  | "u128" => some .u128
  | "i8" => some .i8
  | "i16" => some .i16
  | "i32" => some .i32
  | "i64" => some .i64
  | "i128" => some .i128
  | "bool" => some .bool
  | _ => none

/-- The types that `use pvm_contract_sdk::*` brings in. -/
def exported : String → Option Prim
  | "Address" => some .address
  | "U256" => some .U256
  | "I256" => some .I256
  | _ => none

/-- A built-in type of one word: `u8` is no array element. -/
def Target.ofPrim (k : Prim) : Target := .builtin ⟨k.impl, k != .u8⟩

/-- The item with a name, if there is only one; else, if there is none, what is seen behind it. -/
def firstOf (items : List SolIdent) (behind : Option Target) : Option Target :=
  match items with
  | [] => behind
  | [name] => some (.declared name)
  | _ => none

/-- The literal `u8`, also in parentheses. -/
def isU8 : RustType → Bool
  | .path p => p == .bare "u8"
  | .paren elem => isU8 elem
  | _ => false

/-- `expand_udt`, around the type that is wrapped. -/
def expandUdt (inner : SolCodec) (solName : String) : SolCodec where
  Carrier := inner.Carrier
  isDynamic := false
  solName := some solName
  headSize := 32
  abiParam := AbiParam.ofSolName (some solName)
  isTuple := false
  encodeBodyLen _ := 32
  encodeBodyTo := inner.encodeBodyTo
  decodeAt := inner.decodeAt
  decodeTail := inner.decodeAt
  encodedSize := some 32
  decodeUnchecked := inner.decodeUnchecked

namespace AbiFile

variable (F : AbiFile)

/-- The module of a scope: that of an interface, or none for the file. -/
def scopeModule (scope : Option SolIdent) : Option (Option String) :=
  match scope with
  | none => some none
  | some ns => (F.moduleName ns).toOption.map some

/-- The module that the item for a declared type is in. -/
def moduleOf (name : SolIdent) : Option (Option String) := (F.scopeOf name).bind F.scopeModule

/-- The items of a module with a name. -/
def items (module : Option String) (name : String) : List SolIdent :=
  F.customTypes.names.filter fun d => F.moduleOf d == some module && (F.itemName d).toOption == some name

/-- What a bare name leads to in a module, if it is no primitive type. -/
def lookupName (module : Option String) (name : String) : Option Target :=
  let sdk := (exported name).map Target.ofPrim
  match module with
  | none => firstOf (F.items none name) sdk
  | some m => firstOf (F.items (some m) name) (firstOf (F.items none name) sdk)

/-- What a path leads to in a module. -/
def lookup (module : Option String) : RustPath → Option Target
  | .bare name =>
    match primitive name with
    | some k => some (.ofPrim k)
    | none => F.lookupName module name
  | .inSuper name => F.lookupName none name
  | .inModule m name => firstOf (F.items (some m) name) none
  | .inSuperModule m name => firstOf (F.items (some m) name) none
  | .string => some (.builtin ⟨Types.string, true⟩)
  | .bytes => some (.builtin ⟨Bytes, true⟩)

variable (declared : SolIdent → Option RustImpl) (module : Option String)

mutual

/-- What the compiler finds for a type in a module, given what it finds for the declared types. -/
def rustImpl : RustType → Option RustImpl
  | .path p =>
    match F.lookup module p with
    | none => none
    | some (.builtin impl) => some impl
    | some (.declared name) => declared name
  | .vec elem => (rustImpl elem).map fun i => ⟨Types.Vec i.codec, true⟩
  | .array elem size =>
    if isU8 elem then if 1 ≤ size ∧ size ≤ 32 then some ⟨bytesN size, true⟩ else none
    else
      match rustImpl elem with
      | some i => if i.isArrayElement then some ⟨Types.array i.codec size, true⟩ else none
      | none => none
  | .tuple elems =>
    match rustImpls elems with
    | none => none
    | some [] => some ⟨Types.unit, false⟩
    | some is => if is.length ≤ 12 then some ⟨Types.tuple (is.map RustImpl.codec), true⟩ else none
  | .paren elem => rustImpl elem

/-- `rustImpl` of each type of a list. -/
def rustImpls : List RustType → Option (List RustImpl)
  | [] => some []
  | elem :: elems =>
    match rustImpl elem with
    | some i => (rustImpls elems).map (i :: ·)
    | none => none

end

/-- A custom type in a field that derives: its text is parsed as a path. -/
def customCodec : RustType → Option SolCodec
  | .path p => (F.rustImpl declared module (.path p)).map RustImpl.codec
  | _ => none

/-- A field of a struct, as the derive sees it. -/
def deriveField (alloc : Bool) (depth : ℕ) (scope : Option SolIdent) (field : VariableDeclaration) : Option Field :=
  match F.toRustType alloc depth scope field.ty with
  | .error _ => none
  | .ok rust =>
    (F.rustImpl declared module rust).bind fun impl =>
      ((fromRustType rust).mapCustom (F.customCodec declared module)).map fun sol => ⟨sol, impl.codec⟩

/-- The name of a field: `param_i` for the `i`th if it has none. -/
def fieldIdent (field : VariableDeclaration) (i : ℕ) : Option String :=
  some (toSnakeCase (field.name.getD ("param_" ++ toString i)))

/-- The item for a declared type, given the others: `expand_struct`, `expand_enum` and `expand_udt`. A struct
has a field, an enum 1 to 256 variants, and what a value type wraps is written as a path. -/
def expandItem (alloc : Bool) (depth : ℕ) (declared : SolIdent → Option RustImpl) (name : SolIdent) :
    Option RustImpl :=
  (F.scopeOf name).bind fun scope =>
    (F.scopeModule scope).bind fun module =>
      match F.customTypes.get name with
      | none => none
      | some .enum =>
        if 1 ≤ F.variants name ∧ F.variants name ≤ 256 then some ⟨expandEnum (F.variants name), true⟩ else none
      | some (.udt underlying) =>
        match F.toRustType alloc depth scope underlying with
        | .ok (.path p) =>
          (F.rustImpl declared module (.path p)).map fun i => ⟨expandUdt i.codec underlying.text, false⟩
        | _ => none
      | some (.struct fields) =>
        (fields.mapM (F.deriveField declared module alloc depth scope)).bind fun fs =>
          if fs.isEmpty then none
          else some ⟨expandSolType (fields.mapIdx fun i field => fieldIdent field i) fs, true⟩

/-- What the compiler finds for a type in a scope, with the declared types followed to a depth. -/
def implOf (alloc : Bool) (depth nesting : ℕ) (scope : Option SolIdent) (rust : RustType) : Option RustImpl :=
  (F.scopeModule scope).bind fun module =>
    F.rustImpl (unroll (F.expandItem alloc depth) nesting) module rust

end AbiFile

end PvmContract.AbiImport
