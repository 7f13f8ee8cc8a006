import PvmContract.Data.Fuel
import PvmContract.Sol.Syntax

/-!
# Expanding declared types

Three functions replace the names in a Solidity type by what they stand for, by
calling themselves on what they find in the table of declarations:
`CustomTypes::canonical_name` writes the type's canonical ABI name,
`CustomTypes::is_abi_dynamic` tells whether its encoding is dynamic, and the
builder's `type_to_abi_param` makes its entry in the ABI file. All three carry the
stack of structs that are being expanded, `active`, and do not enter a struct that
is on it.

The bodies are given with the function for their recursive calls as an argument,
and `unroll` runs them to a depth, which is how deep the stack of the compiler or of
the tool goes.
-/

namespace PvmContract.Sol

open Data

/-- The arguments of a call: a type, and the structs being expanded, the innermost first. -/
structure Call where
  /-- The type. -/
  ty : SolidityType
  /-- The structs. -/
  active : List SolIdent

namespace CustomTypes

/-- `tuple_name`. -/
def tupleName (resolve : Call → Option String) (types : List SolidityType) (active : List SolIdent) :
    Option String := do
  let inner ← types.mapM fun ty => resolve ⟨ty, active⟩
  pure ("(" ++ ",".intercalate inner ++ ")")

/-- The body of `resolve`. -/
def resolve (self : CustomTypes) (resolve : Call → Option String) : Call → Option String
  | ⟨.address, _⟩ => some "address"
  | ⟨.bool, _⟩ => some "bool"
  | ⟨.string, _⟩ => some "string"
  | ⟨.bytes, _⟩ => some "bytes"
  | ⟨.fixedBytes size, _⟩ => some ("bytes" ++ toString size)
  | ⟨.int size, _⟩ => some ("int" ++ toString (size.getD 256))
  | ⟨.uint size, _⟩ => some ("uint" ++ toString (size.getD 256))
  | ⟨.mapping text, _⟩ => some text
  | ⟨.function text, _⟩ => some text
  | ⟨.array ty size, active⟩ => do
    let inner ← resolve ⟨ty, active⟩
    match size with
    | some n => pure (inner ++ "[" ++ toString n ++ "]")
    | none => pure (inner ++ "[]")
  | ⟨.tuple types, active⟩ => tupleName resolve types active
  | ⟨.custom path, active⟩ =>
    let name := path.last
    if name ∈ active then some name
    else
      match self.get name with
      | some .enum => some "uint8"
      | some (.udt underlying) => resolve ⟨underlying, active⟩
      | some (.struct fields) => tupleName resolve (fieldTypes fields) (name :: active)
      | none => some name

/-- `canonical_name`, on a stack of a depth. -/
def canonicalName (self : CustomTypes) (depth : ℕ) (ty : SolidityType) : Option String :=
  unroll self.resolve depth ⟨ty, []⟩

/-- The body of `is_dynamic`. -/
def isDynamic (self : CustomTypes) (isDynamic : Call → Option Bool) : Call → Option Bool
  | ⟨.string, _⟩ | ⟨.bytes, _⟩ => some true
  | ⟨.array ty size, active⟩ => if size.isNone then some true else isDynamic ⟨ty, active⟩
  | ⟨.tuple types, active⟩ => types.anyM fun ty => isDynamic ⟨ty, active⟩
  | ⟨.custom path, active⟩ =>
    let name := path.last
    if name ∈ active then some true
    else
      match self.get name with
      | some .enum => some false
      | some (.udt underlying) => isDynamic ⟨underlying, active⟩
      | some (.struct fields) => (fieldTypes fields).anyM fun ty => isDynamic ⟨ty, name :: active⟩
      | none => some true
  | _ => some false

/-- `is_abi_dynamic`, on a stack of a depth. -/
def isAbiDynamic (self : CustomTypes) (depth : ℕ) (ty : SolidityType) : Option Bool :=
  unroll self.isDynamic depth ⟨ty, []⟩

end CustomTypes

/-! ### ABI parameters -/

/-- `AbiParam`. -/
inductive AbiParam where
  /-- `name`, `type` and `components`. -/
  | mk (name paramType : String) (components : List AbiParam)

namespace AbiParam

/-- The name. -/
def name : AbiParam → String
  | mk name _ _ => name

/-- The type. -/
def paramType : AbiParam → String
  | mk _ paramType _ => paramType

/-- The components. -/
def components : AbiParam → List AbiParam
  | mk _ _ components => components

end AbiParam

section Builder

variable (isKeyword : SolIdent → Bool)

/-- How the parser's identifier prints: one that is a Rust keyword is stored raw. -/
def SolIdent.print (ident : SolIdent) : String := if isKeyword ident then "r#" ++ ident else ident

/-- `unraw`. -/
def unraw (s : String) : String :=
  if "r#".toList.isPrefixOf s.toList then String.ofList (s.toList.drop 2) else s

/-- The name of a field in the ABI: none at all is the empty text. -/
def paramName : Option SolIdent → String
  | some ident => unraw (SolIdent.print isKeyword ident)
  | none => ""

/-- The body of `type_to_abi_param`, which is called with a name as well. -/
def CustomTypes.typeToAbiParam (structs : CustomTypes) (typeToAbiParam : String × Call → Option AbiParam) :
    String × Call → Option AbiParam
  | (name, ⟨.address, _⟩) => some ⟨name, "address", []⟩
  | (name, ⟨.bool, _⟩) => some ⟨name, "bool", []⟩
  | (name, ⟨.string, _⟩) => some ⟨name, "string", []⟩
  | (name, ⟨.bytes, _⟩) => some ⟨name, "bytes", []⟩
  | (name, ⟨.fixedBytes size, _⟩) => some ⟨name, "bytes" ++ toString size, []⟩
  | (name, ⟨.int size, _⟩) => some ⟨name, "int" ++ toString (size.getD 256), []⟩
  | (name, ⟨.uint size, _⟩) => some ⟨name, "uint" ++ toString (size.getD 256), []⟩
  | (name, ⟨.mapping _, _⟩) => some ⟨name, "", []⟩
  | (name, ⟨.function _, _⟩) => some ⟨name, "", []⟩
  | (name, ⟨.array ty size, active⟩) => do
    let inner ← typeToAbiParam ("", ⟨ty, active⟩)
    let suffix := match size with
      | some n => "[" ++ toString n ++ "]"
      | none => "[]"
    pure ⟨name, inner.paramType ++ suffix, inner.components⟩
  | (name, ⟨.tuple types, active⟩) => do
    let components ← types.mapM fun ty => typeToAbiParam ("", ⟨ty, active⟩)
    pure ⟨name, "tuple", components⟩
  | (name, ⟨.custom path, active⟩) =>
    let custom := path.last
    if custom ∈ active then some ⟨name, SolIdent.print isKeyword custom, []⟩
    else
      match structs.get custom with
      | some .enum => some ⟨name, "uint8", []⟩
      | some (.udt underlying) => typeToAbiParam (name, ⟨underlying, active⟩)
      | some (.struct fields) => do
        let components ← fields.mapM fun field =>
          typeToAbiParam (paramName isKeyword field.name, ⟨field.ty, custom :: active⟩)
        pure ⟨name, "tuple", components⟩
      | none => some ⟨name, SolIdent.print isKeyword custom, []⟩

/-- `type_to_abi_param` as `param_to_abi` calls it, on a stack of a depth. -/
def CustomTypes.abiParam (structs : CustomTypes) (depth : ℕ) (name : String) (ty : SolidityType) :
    Option AbiParam := unroll (structs.typeToAbiParam isKeyword) depth (name, ⟨ty, []⟩)

end Builder

/-! ### Full expansion -/

namespace CustomTypes

/-- The body of the full expansion, which replaces every declared name by what it stands for. -/
def expandStep (self : CustomTypes) (expand : SolidityType → Option SolidityType) :
    SolidityType → Option SolidityType
  | .array ty size => do
    let inner ← expand ty
    pure (.array inner size)
  | .tuple types => do
    let inner ← types.mapM expand
    pure (.tuple inner)
  | .custom path =>
    match self.get path.last with
    | some .enum => some (.uint (some 8))
    | some (.udt underlying) => expand underlying
    | some (.struct fields) => do
      let inner ← (fieldTypes fields).mapM expand
      pure (.tuple inner)
    | none => some (.custom path)
  | ty => some ty

/-- The full expansion of a type, followed to a depth. -/
def expand (self : CustomTypes) (depth : ℕ) (ty : SolidityType) : Option SolidityType :=
  unroll self.expandStep depth ty

/-- No declared name remains in a type. -/
def Expanded (self : CustomTypes) (ty : SolidityType) : Prop :=
  ∀ path ∈ ty.customs, self.get path.last = none

end CustomTypes

end PvmContract.Sol
