import PvmContract.Macros.FromRustType
import PvmContract.Scaffold.MethodNames
import PvmContract.Sol.Expansion

/-!
# The Rust types of a Solidity file

`abi_import!` writes a Rust type for each Solidity type that is used in a file
(`to_rust_type`). A declared type becomes a path to the item that is generated for it: the
file's own items stand where the macro is called, and those of an interface in a module
beside them. Without the `alloc` feature a type is refused if the table of declarations
says that it is dynamic.

A file is given by what is read of it. A panic of `format_ident!` is an error here, as are a
type that is refused and a stack that is too small for the table.
-/

namespace PvmContract.AbiImport

open Data Sol Macros Scaffold

/-- `Ctxt`, and what else is read of the declarations of a file. -/
structure AbiFile where
  /-- `custom_types`. -/
  customTypes : CustomTypes
  /-- `types`, by name: the interface that declares a type, or (`none`) the file itself. Nothing for a type of
  another contract. -/
  scopeOf : SolIdent → Option (Option SolIdent)
  /-- How many variants an enum has. -/
  variants : SolIdent → ℕ
  /-- The words that the parser stores as raw identifiers. -/
  isKeyword : SolIdent → Bool

/-- `Resolution`. -/
inductive Resolution where
  | localScope
  | topLevel
  | qualified (ns : SolIdent) (fromInterface : Bool)

/-- The characters of `to_pascal_case`: one that is first or behind an underscore in upper case. -/
def pascalChars : Bool → Text → Text
  | _, [] => []
  | upper, c :: cs =>
    if c = '_' then pascalChars true cs else (if upper then c.toUpper else c) :: pascalChars false cs

/-- `to_pascal_case`. -/
def toPascalCase (s : String) : String := String.ofList (pascalChars true s.toList)

/-- The text of an identifier, for the characters that Solidity has in its names. -/
def isIdent : Text → Bool
  | [] => false
  | c :: cs => (c.isAlpha || c == '_') && cs.all fun d => d.isAlphanum || d == '_'

/-- The words that are no raw identifiers either. -/
def neverRaw : List String := ["_", "super", "self", "Self", "crate"]

/-- `format_ident!`, which takes raw identifiers too. -/
def formatIdent (s : String) : Except String String :=
  match s.toList with
  | [] => .error "Ident is not allowed to be empty; use Option<Ident>"
  | 'r' :: '#' :: cs =>
    if isIdent cs && !neverRaw.contains (String.ofList cs) then .ok s
    else .error (s ++ " cannot be a raw identifier")
  | cs => if isIdent cs then .ok s else .error (s ++ " is not a valid Ident")

/-- The name of the type for an integer type of a width. -/
def intIdent (letter : String) (size : Option ℕ) : String :=
  let bits := size.getD 256
  if bits = 256 then letter.capitalize ++ toString bits else letter ++ toString bits

namespace AbiFile

variable (F : AbiFile)

/-- `contains`. -/
def contains (ns : Option SolIdent) (name : SolIdent) : Bool := F.scopeOf name == some ns

/-- A path as it is printed. -/
def pathText (path : SolPath) : String :=
  ".".intercalate ((path.scopes ++ [path.last]).map (SolIdent.print F.isKeyword))

/-- `Ctxt::resolve`, in a scope. -/
def resolve (scope : Option SolIdent) (path : SolPath) : Except String Resolution :=
  match path.scopes with
  | [] =>
    if F.contains scope path.last then .ok .localScope
    else if scope.isSome && F.contains none path.last then .ok .topLevel
    else .error ("unknown type: " ++ F.pathText path)
  | [ns] =>
    if F.contains (some ns) path.last then .ok (.qualified ns scope.isSome)
    else .error ("unknown type: " ++ F.pathText path)
  | _ => .error ("qualified type paths must have the form `Interface.Type`: " ++ F.pathText path)

/-- The name of the item for a declared type. -/
def itemName (name : SolIdent) : Except String String :=
  formatIdent (toPascalCase (SolIdent.print F.isKeyword name))

/-- The name of the module for an interface. -/
def moduleName (ns : SolIdent) : Except String String :=
  formatIdent (toSnakeCase (SolIdent.print F.isKeyword ns))

/-- The path to an item, from where its type was resolved. -/
def pathOf (name : String) : Resolution → Except String RustPath
  | .localScope => .ok (.bare name)
  | .topLevel => .ok (.inSuper name)
  | .qualified ns fromInterface => do
    let module ← F.moduleName ns
    if fromInterface then .ok (.inSuperModule module name) else .ok (.inModule module name)

/-- The check that `to_rust_type` makes of each type without `alloc`, on a stack of a depth. -/
def gate (alloc : Bool) (depth : ℕ) (ty : SolidityType) : Except String Unit :=
  if alloc then .ok ()
  else
    match F.customTypes.isAbiDynamic depth ty with
    | some false => .ok ()
    | some true => .error "Enable alloc to support dynamic types"
    | none => .error "stack overflow"

mutual

/-- `to_rust_type`, in a scope. -/
def toRustType (alloc : Bool) (depth : ℕ) (scope : Option SolIdent) : SolidityType → Except String RustType
  | .address => do
    F.gate alloc depth .address
    .ok (.path (.bare "Address"))
  | .bool => do
    F.gate alloc depth .bool
    .ok (.path (.bare "bool"))
  | .string => do
    F.gate alloc depth .string
    .ok (.path .string)
  | .bytes => do
    F.gate alloc depth .bytes
    .ok (.path .bytes)
  | .fixedBytes size => do
    F.gate alloc depth (.fixedBytes size)
    .ok (.array (.path (.bare "u8")) size)
  | .int size => do
    F.gate alloc depth (.int size)
    .ok (.path (.bare (intIdent "i" size)))
  | .uint size => do
    F.gate alloc depth (.uint size)
    .ok (.path (.bare (intIdent "u" size)))
  | .tuple types => do
    F.gate alloc depth (.tuple types)
    let args ← toRustTypes alloc depth scope types
    .ok (.ofArgs args)
  | .array ty size => do
    F.gate alloc depth (.array ty size)
    let elem ← toRustType alloc depth scope ty
    match size with
    | some n => .ok (.array elem n)
    | none => .ok (.vec elem)
  | .custom path => do
    let resolution ← F.resolve scope path
    F.gate alloc depth (.custom path)
    let name ← F.itemName path.last
    let p ← F.pathOf name resolution
    .ok (.path p)
  | .function text => do
    F.gate alloc depth (.function text)
    .error ("abi import for function types is not supported: " ++ text)
  | .mapping text => do
    F.gate alloc depth (.mapping text)
    .error ("abi import is not supported for type mapping: " ++ text)

/-- `to_rust_type` of each type of a list. -/
def toRustTypes (alloc : Bool) (depth : ℕ) (scope : Option SolIdent) :
    List SolidityType → Except String (List RustType)
  | [] => .ok []
  | ty :: types => do
    let arg ← toRustType alloc depth scope ty
    let args ← toRustTypes alloc depth scope types
    .ok (arg :: args)

end

end AbiFile

end PvmContract.AbiImport
