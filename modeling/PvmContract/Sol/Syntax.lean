import Mathlib.Data.Nat.Notation
import Mathlib.Algebra.Ring.Nat

/-!
# Solidity declarations

The part of a parsed `.sol` file that types are read from: the types themselves,
as the parser builds them, and the structs, enums and value types that a file
declares. An identifier is its spelling in the Solidity source. How the parser
stores one that is also a Rust keyword matters only where it is printed again.

Two crates read these declarations, the macros and the builder, and both keep
them in a hash map under the simple name, rejecting a second declaration of a
name. `CustomTypes` is such a map.
-/

namespace PvmContract.Sol

/-- `syn_solidity::SolIdent`: an identifier by its spelling. -/
abbrev SolIdent := String

/-- `syn_solidity::SolPath`: the scopes in front of a name, and the name. -/
structure SolPath where
  /-- The scopes, outermost first. -/
  scopes : List SolIdent
  /-- `path.last()`. -/
  last : SolIdent
  deriving DecidableEq, Repr

/-- `syn_solidity::Type`. -/
inductive SolidityType where
  | address
  | bool
  | string
  | bytes
  /-- `bytesN`. -/
  | fixedBytes (size : ℕ)
  /-- `int` or `intN`. -/
  | int (size : Option ℕ)
  /-- `uint` or `uintN`. -/
  | uint (size : Option ℕ)
  /-- `T[]` or `T[N]`. -/
  | array (ty : SolidityType) (size : Option ℕ)
  | tuple (types : List SolidityType)
  /-- A function type, which is no parameter type of the ABI, by its text. -/
  | function (text : String)
  /-- A mapping, which is none either, by its text. -/
  | mapping (text : String)
  /-- A name. -/
  | custom (path : SolPath)

namespace SolidityType

section

variable {motive : SolidityType → Prop} (address : motive .address) (bool : motive .bool)
  (string : motive .string) (bytes : motive .bytes) (fixedBytes : ∀ size, motive (.fixedBytes size))
  (int : ∀ size, motive (.int size)) (uint : ∀ size, motive (.uint size))
  (array : ∀ ty size, motive ty → motive (.array ty size))
  (tuple : ∀ types, (∀ ty ∈ types, motive ty) → motive (.tuple types))
  (function : ∀ text, motive (.function text)) (mapping : ∀ text, motive (.mapping text))
  (custom : ∀ path, motive (.custom path))

include address bool string bytes fixedBytes int uint array tuple function mapping custom

/-- Induction over types, with the components of a tuple as a list. -/
theorem induction_on (ty : SolidityType) : motive ty := by
  refine @SolidityType.rec motive (fun types => ∀ ty ∈ types, motive ty) address bool string bytes fixedBytes
    int uint (fun ty size => array ty size) (fun types => tuple types) function mapping custom ?_ ?_ ty
  · exact fun _ h => absurd h List.not_mem_nil
  · intro head tail hhead htail ty h
    rcases List.mem_cons.mp h with rfl | h
    · exact hhead
    · exact htail ty h

end

mutual

/-- The names that occur in a type. -/
def customs : SolidityType → List SolPath
  | array ty _ => ty.customs
  | tuple types => customsOf types
  | custom path => [path]
  | _ => []

/-- The names that occur in a list of types. -/
def customsOf : List SolidityType → List SolPath
  | [] => []
  | ty :: types => ty.customs ++ customsOf types

end

theorem mem_customsOf {path : SolPath} {types : List SolidityType} :
    path ∈ customsOf types ↔ ∃ ty ∈ types, path ∈ ty.customs := by
  induction types with
  | nil => simp [customsOf]
  | cons ty types ih => simp [customsOf, ih]

mutual

/-- The text of a type, with explicit widths and with the names that occur in it as they are. -/
def text : SolidityType → String
  | address => "address"
  | bool => "bool"
  | string => "string"
  | bytes => "bytes"
  | fixedBytes size => "bytes" ++ toString size
  | int size => "int" ++ toString (size.getD 256)
  | uint size => "uint" ++ toString (size.getD 256)
  | array ty (some n) => ty.text ++ "[" ++ toString n ++ "]"
  | array ty none => ty.text ++ "[]"
  | tuple types => "(" ++ ",".intercalate (texts types) ++ ")"
  | function text => text
  | mapping text => text
  | custom path => path.last

/-- The texts of a list of types. -/
def texts : List SolidityType → List String
  | [] => []
  | ty :: types => ty.text :: texts types

end

theorem texts_eq_map (types : List SolidityType) : texts types = types.map text := by
  induction types with
  | nil => rfl
  | cons ty types ih => rw [texts, ih, List.map_cons]

end SolidityType

/-! ### Declarations -/

/-- A field of a struct: its name, which the grammar allows to be missing, and its type. -/
structure VariableDeclaration where
  /-- The name. -/
  name : Option SolIdent
  /-- The type. -/
  ty : SolidityType

/-- `CustomDef`. -/
inductive CustomDef where
  /-- `struct X { .. }`. -/
  | struct (fields : List VariableDeclaration)
  /-- `enum X { .. }`. -/
  | enum
  /-- `type X is T;`. -/
  | udt (underlying : SolidityType)

/-- The types of the fields. -/
def fieldTypes (fields : List VariableDeclaration) : List SolidityType :=
  fields.map VariableDeclaration.ty

/-- `CustomTypes`, and `CustomMap` of the builder: the declarations of a file under their names. -/
structure CustomTypes where
  /-- The entries of the map. -/
  defs : List (SolIdent × CustomDef)
  /-- A name is declared once. -/
  nodup : (defs.map Prod.fst).Nodup

namespace CustomTypes

/-- `defs.get(name)`. -/
def get (self : CustomTypes) (name : SolIdent) : Option CustomDef := self.defs.lookup name

/-- No declarations. -/
def default : CustomTypes := ⟨[], List.nodup_nil⟩

/-- `declare`: a second declaration of a name is an error. -/
def declare (self : CustomTypes) (name : SolIdent) (d : CustomDef) : Except String CustomTypes :=
  if h : name ∈ self.defs.map Prod.fst then
    .error ("two Solidity user-defined types are both named `" ++ name ++
      "`; rename one in the interface to avoid the collision")
  else .ok ⟨(name, d) :: self.defs, List.nodup_cons.mpr ⟨h, self.nodup⟩⟩

/-- `visit_items`, over the declarations of a file in order. -/
def visitItems : CustomTypes → List (SolIdent × CustomDef) → Except String CustomTypes
  | self, [] => .ok self
  | self, (name, d) :: items => do
    let self ← self.declare name d
    visitItems self items

/-- What the parser has made sure of: the underlying type of a value type is an elementary type, and no
name. `type A is B;` is refused, and so is every declaration by way of another value type. -/
def Parsed (items : List (SolIdent × CustomDef)) : Prop :=
  ∀ name underlying, (name, CustomDef.udt underlying) ∈ items → underlying.customs = []

/-- The declared names. -/
def names (self : CustomTypes) : List SolIdent := self.defs.map Prod.fst

theorem mem_names_of_get {self : CustomTypes} {name : SolIdent} {d : CustomDef}
    (h : self.get name = some d) : name ∈ self.names := by
  rw [get] at h
  rw [names]
  generalize self.defs = defs at h ⊢
  induction defs with
  | nil => cases h
  | cons e defs ih =>
    rw [List.lookup_cons] at h
    rw [List.map_cons, List.mem_cons]
    cases he : name == e.1 with
    | true => exact .inl (beq_iff_eq.mp he)
    | false =>
      rw [he] at h
      exact .inr (ih h)

theorem mem_defs_of_get {self : CustomTypes} {name : SolIdent} {d : CustomDef}
    (h : self.get name = some d) : (name, d) ∈ self.defs := by
  rw [get] at h
  generalize self.defs = defs at h ⊢
  induction defs with
  | nil => cases h
  | cons e defs ih =>
    rw [List.lookup_cons] at h
    cases he : name == e.1 with
    | true =>
      rw [he] at h
      rw [beq_iff_eq.mp he, ← Option.some.inj h]
      exact List.mem_cons_self
    | false =>
      rw [he] at h
      exact List.mem_cons_of_mem _ (ih h)

theorem declare_ok {self self' : CustomTypes} {name : SolIdent} {d : CustomDef}
    (h : self.declare name d = .ok self') : self'.defs = (name, d) :: self.defs := by
  rw [declare] at h
  split_ifs at h with hname
  rw [← Except.ok.inj h]

/-- A table has the declarations of the file. -/
theorem mem_items_of_visitItems {items : List (SolIdent × CustomDef)} {self T : CustomTypes}
    (h : visitItems self items = .ok T) {e : SolIdent × CustomDef} (he : e ∈ T.defs) : e ∈ self.defs ∨ e ∈ items := by
  induction items generalizing self with
  | nil =>
    obtain rfl := Except.ok.inj h
    exact .inl he
  | cons item items ih =>
    obtain ⟨name, d⟩ := item
    rw [visitItems] at h
    cases hdeclare : self.declare name d with
    | error e =>
      rw [hdeclare] at h
      cases h
    | ok self' =>
      rw [hdeclare] at h
      rcases ih h with hself | hitems
      · rw [declare_ok hdeclare] at hself
        rcases List.mem_cons.mp hself with rfl | hself
        · exact .inr List.mem_cons_self
        · exact .inl hself
      · exact .inr (List.mem_cons_of_mem _ hitems)

/-- The types that a declaration is made of. -/
def typesOf (self : CustomTypes) (name : SolIdent) : List SolidityType :=
  match self.get name with
  | some (.struct fields) => fieldTypes fields
  | some (.udt underlying) => [underlying]
  | _ => []

end CustomTypes

end PvmContract.Sol
