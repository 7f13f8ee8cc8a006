import PvmContract.Macros.SolType
import PvmContract.Data.Text

/-!
# Reading Rust types

`SolType::from_rust_type` tells a type by how it is written. Vectors, arrays with a
literal length and tuples are read from their syntax; everything else is compared, as
text, with the spellings of the built-in types, and what is none of them is a custom type.
No name is resolved: a user's own type is read as the built-in type that it is spelled
like.

`RustType` has the types that the macros generate for Solidity types.
-/

namespace PvmContract.Macros

open Data

/-- A path to a type, as it is generated. -/
inductive RustPath where
  /-- `Name`. -/
  | bare (name : String)
  /-- `super::Name`. -/
  | inSuper (name : String)
  /-- `module::Name`. -/
  | inModule (module name : String)
  /-- `super::module::Name`. -/
  | inSuperModule (module name : String)
  /-- `alloc::string::String`. -/
  | string
  /-- `pvm_contract_sdk::Bytes`. -/
  | bytes
  deriving DecidableEq, Repr

namespace RustPath

/-- The path as text. -/
def text : RustPath → String
  | bare name => name
  | inSuper name => "super::" ++ name
  | inModule module name => module ++ "::" ++ name
  | inSuperModule module name => "super::" ++ module ++ "::" ++ name
  | string => "alloc::string::String"
  | bytes => "pvm_contract_sdk::Bytes"

/-- The last segment. -/
def name : RustPath → String
  | bare name | inSuper name | inModule _ name | inSuperModule _ name => name
  | string => "String"
  | bytes => "Bytes"

end RustPath

/-- `syn::Type`, as far as it is generated. -/
inductive RustType where
  | path (p : RustPath)
  /-- `alloc::vec::Vec<T>`. -/
  | vec (elem : RustType)
  /-- `[T; N]`. -/
  | array (elem : RustType) (size : ℕ)
  /-- `(A, B)`, and `()`. -/
  | tuple (elems : List RustType)
  /-- `(T)`, which is no tuple. -/
  | paren (elem : RustType)

/-- `(#(#args),*)`: one type in parentheses is no tuple. -/
def RustType.ofArgs : List RustType → RustType
  | [elem] => .paren elem
  | elems => .tuple elems

/-- The built-in type that a text spells. -/
def readText {π : Type*} : String → Option (SolType π)
  | "Address" | "pvm_contract_types::Address" | "::pvm_contract_types::Address"
  | "pvm_contract_sdk::Address" | "::pvm_contract_sdk::Address" | "pvm_contract::Address"
  | "::pvm_contract::Address" => some .address
  | "U256" | "ruint::aliases::U256" | "u256" => some (.uint 256)
  | "I256" | "pvm_contract_types::I256" | "::pvm_contract_types::I256" | "pvm_contract_sdk::I256"
  | "::pvm_contract_sdk::I256" | "i256" => some (.int 256)
  | "u128" => some (.uint 128)
  | "u64" => some (.uint 64)
  | "u32" => some (.uint 32)
  | "u16" => some (.uint 16)
  | "u8" => some (.uint 8)
  | "i128" => some (.int 128)
  | "i64" => some (.int 64)
  | "i32" => some (.int 32)
  | "i16" => some (.int 16)
  | "i8" => some (.int 8)
  | "bool" => some .bool
  | "String" | "alloc::string::String" => some .string
  | "Bytes" | "pvm_contract_types::Bytes" | "::pvm_contract_types::Bytes" | "pvm_contract_sdk::Bytes"
  | "::pvm_contract_sdk::Bytes" => some .dynBytes
  | _ => none

mutual

/-- `SolType::from_rust_type`. A custom type is given by the type itself instead of its text. -/
def fromRustType : RustType → SolType RustType
  | .path p => (readText p.text).getD (.custom (.path p))
  | .vec elem => .array (fromRustType elem)
  | .array elem size =>
    match fromRustType elem with
    | .uint 8 => .bytes size
    | inner => .fixedArray inner size
  | .tuple elems => .tuple (fromRustTypes elems)
  | .paren elem => .custom (.paren elem)

/-- `from_rust_type` of each type of a list. -/
def fromRustTypes : List RustType → List (SolType RustType)
  | [] => []
  | elem :: elems => fromRustType elem :: fromRustTypes elems

end

theorem fromRustTypes_eq_map (elems : List RustType) : fromRustTypes elems = elems.map fromRustType := by
  induction elems with
  | nil => rfl
  | cons elem elems ih => rw [fromRustTypes, ih, List.map_cons]

namespace SolType

variable {π ρ : Type*}

mutual

/-- What the custom types in a type stand for, if it is known of each of them. -/
def mapCustom (f : π → Option ρ) : SolType π → Option (SolType ρ)
  | address => some .address
  | bool => some .bool
  | uint bits => some (.uint bits)
  | int bits => some (.int bits)
  | bytes size => some (.bytes size)
  | dynBytes => some .dynBytes
  | string => some .string
  | array inner => (mapCustom f inner).map .array
  | fixedArray inner size => (mapCustom f inner).map fun inner => .fixedArray inner size
  | tuple types => (mapCustoms f types).map .tuple
  | custom path => (f path).map .custom

/-- `mapCustom` of each type of a list. -/
def mapCustoms (f : π → Option ρ) : List (SolType π) → Option (List (SolType ρ))
  | [] => some []
  | ty :: types => do
    let ty ← mapCustom f ty
    let types ← mapCustoms f types
    pure (ty :: types)

end

mutual

/-- The size of a type that is known to be dynamic or static is known. -/
theorem isSome_headSize : (ty : SolType π) → {b : Bool} → ty.isDynamic = some b → ty.headSize.isSome = true
  | address, _, _ | bool, _, _ | uint _, _, _ | int _, _, _ | bytes _, _, _ | dynBytes, _, _ | string, _, _
  | array _, _, _ => rfl
  | custom _, _, h => by cases h
  | fixedArray inner size, b, h => by
    obtain ⟨n, hn⟩ := Option.isSome_iff_exists.mp (isSome_headSize inner h)
    rw [isDynamic] at h
    rw [headSize, h, hn]
    cases b <;> rfl
  | tuple types, b, h => by
    obtain ⟨n, hn⟩ := Option.isSome_iff_exists.mp (isSome_headSizes types h)
    rw [headSize, h, hn]
    cases b <;> rfl

theorem isSome_headSizes : (types : List (SolType π)) → {b : Bool} → anyDynamic types = some b →
    (headSizes types).isSome = true
  | [], _, _ => rfl
  | ty :: types, _, h => by
    obtain ⟨_, hty, h⟩ := Option.bind_eq_some_iff.mp h
    obtain ⟨_, htypes, -⟩ := Option.bind_eq_some_iff.mp h
    obtain ⟨n, hn⟩ := Option.isSome_iff_exists.mp (isSome_headSize ty hty)
    obtain ⟨m, hm⟩ := Option.isSome_iff_exists.mp (isSome_headSizes types htypes)
    rw [headSizes, hn, hm]
    rfl

end

section

variable {f : π → Option ρ}

mutual

/-- What a custom type stands for is not asked for its sizes. -/
theorem sizes_mapCustom : (ty : SolType π) → {ty' : SolType ρ} → mapCustom f ty = some ty' →
    ty'.isDynamic = ty.isDynamic ∧ ty'.headSize = ty.headSize
  | address, _, h | bool, _, h | uint _, _, h | int _, _, h | bytes _, _, h | dynBytes, _, h | string, _, h => by
    cases h
    exact ⟨rfl, rfl⟩
  | array inner, _, h => by
    obtain ⟨_, -, rfl⟩ := Option.map_eq_some_iff.mp h
    exact ⟨rfl, rfl⟩
  | custom path, _, h => by
    obtain ⟨_, -, rfl⟩ := Option.map_eq_some_iff.mp h
    exact ⟨rfl, rfl⟩
  | fixedArray inner size, _, h => by
    obtain ⟨inner', hinner, rfl⟩ := Option.map_eq_some_iff.mp h
    obtain ⟨hdyn, hhead⟩ := sizes_mapCustom inner hinner
    refine ⟨hdyn, ?_⟩
    rw [headSize, headSize, hdyn, hhead]
  | tuple types, _, h => by
    obtain ⟨types', htypes, rfl⟩ := Option.map_eq_some_iff.mp h
    obtain ⟨hdyn, hhead⟩ := sizes_mapCustoms types htypes
    refine ⟨hdyn, ?_⟩
    rw [headSize, headSize, isDynamic, isDynamic, hdyn, hhead]

theorem sizes_mapCustoms : (types : List (SolType π)) → {types' : List (SolType ρ)} →
    mapCustoms f types = some types' →
    anyDynamic types' = anyDynamic types ∧ headSizes types' = headSizes types
  | [], _, h => by
    cases h
    exact ⟨rfl, rfl⟩
  | ty :: types, _, h => by
    obtain ⟨ty', hty, h⟩ := Option.bind_eq_some_iff.mp h
    obtain ⟨types', htypes, h⟩ := Option.bind_eq_some_iff.mp h
    obtain rfl := Option.some.inj h
    obtain ⟨hdyn, hhead⟩ := sizes_mapCustom ty hty
    obtain ⟨hdyns, hheads⟩ := sizes_mapCustoms types htypes
    exact ⟨by rw [anyDynamic, anyDynamic, hdyn, hdyns], by rw [headSizes, headSizes, hhead, hheads]⟩

end

end

end SolType

/-! ### Built-in types by their texts -/

section

variable {π : Type*}

/-- A built-in type is known to be dynamic or static, and takes one word in a head. -/
theorem readText_cases {t : String} {β : SolType π} (h : readText t = some β) :
    (∃ b, β.isDynamic = some b) ∧ β.headSize = some 32 := by
  unfold readText at h
  split at h <;> first
    | (cases h; exact ⟨⟨_, rfl⟩, rfl⟩)
    | cases h

/-- The texts of the dynamic types. -/
theorem text_of_dynamic {t : String} {β : SolType π} (h : readText t = some β) (hdyn : β.isDynamic = some true) :
    t ∈ ["String", "alloc::string::String", "Bytes", "pvm_contract_types::Bytes", "::pvm_contract_types::Bytes",
      "pvm_contract_sdk::Bytes", "::pvm_contract_sdk::Bytes"] := by
  unfold readText at h
  split at h <;> first
    | (cases h; cases hdyn; done)
    | (cases h; simp)
    | cases h

/-- Only `u8` is read as `u8`. -/
theorem text_of_u8 {t : String} (h : readText t = some (.uint 8 : SolType π)) : t = "u8" := by
  unfold readText at h
  split at h <;> first
    | rfl
    | cases h

/-- The text behind the last colon. -/
def lastSegment (t : Text) : Text :=
  match splitLast ':' t with
  | some (_, behind) => behind
  | none => t

theorem lastSegment_of_not_mem {t : Text} (h : ':' ∉ t) : lastSegment t = t := by
  rw [lastSegment, splitLast_eq_none.mpr h]

theorem lastSegment_append {t : Text} (h : ':' ∉ t) (front : Text) : lastSegment (front ++ ':' :: t) = t := by
  rw [lastSegment, splitLast_append h]

/-- A path is read as its last segment is. -/
theorem readText_lastSegment {t : String} {β : SolType π} (h : readText t = some β) :
    readText (String.ofList (lastSegment t.toList)) = some β := by
  unfold readText at h
  split at h <;> first
    | (cases h; rfl)
    | cases h

theorem lastSegment_text {p : RustPath} (h : ':' ∉ p.name.toList) : lastSegment p.text.toList = p.name.toList := by
  cases p with
  | bare name => exact lastSegment_of_not_mem h
  | inSuper name =>
    rw [RustPath.text, String.toList_append]
    exact lastSegment_append h "super:".toList
  | inModule module name =>
    rw [RustPath.text, String.toList_append, String.toList_append,
      show "::".toList = [':'] ++ [':'] from rfl, ← List.append_assoc, List.append_assoc _ [':']]
    exact lastSegment_append h _
  | inSuperModule module name =>
    rw [RustPath.text, String.toList_append, String.toList_append,
      show "::".toList = [':'] ++ [':'] from rfl, ← List.append_assoc, List.append_assoc _ [':']]
    exact lastSegment_append h _
  | string => rfl
  | bytes => rfl

theorem readText_name {p : RustPath} (hname : ':' ∉ p.name.toList) {β : SolType π}
    (h : readText p.text = some β) : readText p.name = some β := by
  have hlast := readText_lastSegment h
  rw [lastSegment_text hname, String.ofList_toList] at hlast
  exact hlast

end

end PvmContract.Macros
