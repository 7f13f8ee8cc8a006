import PvmContract.Data.Text
import PvmContract.Types.Codec
import Mathlib.Data.List.DropRight

/-!
# Type descriptors of the ABI JSON

A parameter in an ABI JSON file has a `type` text and, where it is a tuple or an array
of tuples, `components`. The SDK writes such descriptors (`AbiParam`), also from the text of
a type name (`parseTypeStr`, in `abi_gen.rs`). The command line tool reads them: for the
signature of a function as the canonical name of the type (`canonicalType`, in
`encode_decode.rs`), and for the arguments as a type of the encoder (in `DynSolType`).

A JSON value is modelled by what is read of it (`AbiInput`). A slice out of range, or not at
a character boundary, is a panic.
-/

namespace PvmContract.Cli

open Data PvmContract.Types

/-- A JSON value, by the entries that are read: `type`, if it is a string, and `components`, if they are an
array. -/
inductive AbiInput where
  | bare (type : Option Text)
  | composite (type : Option Text) (components : List AbiInput)

mutual

/-- What is read of the JSON that the SDK writes for a parameter: `components` is skipped if it is empty. -/
def inputOf : AbiParam → AbiInput
  | .mk _ paramType [] => .bare (some paramType.toList)
  | .mk _ paramType (c :: cs) => .composite (some paramType.toList) (inputOf c :: inputsOf cs)

/-- `inputOf` of each parameter of a list. -/
def inputsOf : List AbiParam → List AbiInput
  | [] => []
  | c :: cs => inputOf c :: inputsOf cs

end

/-- Why there is no result. -/
inductive Failure where
  | error (message : String)
  | panic
  deriving DecidableEq

/-- A result, an error or a panic. -/
abbrev Outcome (α : Type) := Except Failure α

/-- The texts behind the first one, each with a comma in front. -/
def commaRest : List Text → Text
  | [] => []
  | t :: ts => ',' :: (t ++ commaRest ts)

/-- `join(",")`. -/
def commaJoin : List Text → Text
  | [] => []
  | t :: ts => t ++ commaRest ts

/-- `format!("({})", inner.join(","))`. -/
def parens (inner : List Text) : Text := '(' :: (commaJoin inner ++ [')'])

/-- `as_array().ok_or_else(..)?` on the components, and what is collected from them. -/
def componentsOr {α : Type} (message : String) : Option (Outcome α) → Outcome α
  | none => .error (.error message)
  | some collected => collected

theorem componentsOr_eq_ok {α : Type} {message : String} {inner : Option (Outcome α)} {a : α} :
    componentsOr message inner = .ok a ↔ inner = some (.ok a) := by
  cases inner with
  | none => simp [componentsOr]
  | some collected => simp [componentsOr]

theorem map_eq_ok {α β : Type} {x : Outcome α} {f : α → β} {b : β} :
    x.map f = .ok b ↔ ∃ a, x = .ok a ∧ b = f a := by
  cases x with
  | error e => simp [Except.map]
  | ok a => simp [Except.map, eq_comm]

/-! ### `canonical_type` -/

/-- `canonical_type`, with the canonical types of the components. -/
def canonicalFrom (solType : Option Text) (inner : Option (Outcome (List Text))) : Outcome Text :=
  match solType with
  | none => .error (.error "Input missing 'type'")
  | some t =>
    if t = "tuple".toList then (componentsOr "Tuple type missing 'components'" inner).map parens
    else if t = "tuple[]".toList then
      (componentsOr "Tuple array type missing 'components'" inner).map fun inner => parens inner ++ "[]".toList
    else
      match stripPrefix "tuple[".toList t with
      | some suffix =>
        (componentsOr "Tuple array type missing 'components'" inner).map fun inner => parens inner ++ '[' :: suffix
      | none => .ok t

mutual

/-- `canonical_type`. -/
def canonicalType : AbiInput → Outcome Text
  | .bare solType => canonicalFrom solType none
  | .composite solType components => canonicalFrom solType (some (canonicalTypes components))

/-- `components.iter().map(canonical_type).collect()`. -/
def canonicalTypes : List AbiInput → Outcome (List Text)
  | [] => .ok []
  | input :: inputs => do
    let name ← canonicalType input
    let names ← canonicalTypes inputs
    .ok (name :: names)

end

/-! ### `parse_type_str` -/

/-- `char::is_whitespace`: the property `White_Space` of Unicode. -/
def isWhitespace (c : Char) : Bool :=
  (0x9 ≤ c.toNat && c.toNat ≤ 0xd) || (0x2000 ≤ c.toNat && c.toNat ≤ 0x200a) ||
    [0x20, 0x85, 0xa0, 0x1680, 0x2028, 0x2029, 0x202f, 0x205f, 0x3000].contains c.toNat

/-- `str::trim`. -/
def trim (t : Text) : Text := (t.dropWhile isWhitespace).rdropWhile isWhitespace

/-- `split_top_level_params`, with the depth and the text since the last split. -/
def splitFrom (depth : ℕ) (current : Text) : Text → List Text
  | [] => if trim current = [] then [] else [trim current]
  | '(' :: rest => splitFrom (depth + 1) (current ++ ['(']) rest
  | ')' :: rest => splitFrom (depth - 1) (current ++ [')']) rest
  | c :: rest =>
    if c = ',' ∧ depth = 0 then
      if trim current = [] then splitFrom depth [] rest else trim current :: splitFrom depth [] rest
    else splitFrom depth (current ++ [c]) rest

/-- `split_top_level_params`. -/
def splitTopLevelParams (s : Text) : List Text := splitFrom 0 [] s

theorem length_trim_le (t : Text) : (trim t).length ≤ t.length :=
  le_trans (List.IsPrefix.length_le (List.rdropWhile_prefix isWhitespace _))
    (List.IsSuffix.length_le (List.dropWhile_suffix isWhitespace))

theorem length_of_mem_splitFrom {depth : ℕ} {current s t : Text} (h : t ∈ splitFrom depth current s) :
    t.length ≤ current.length + s.length := by
  have htrim : ∀ u : Text, (trim u).length ≤ u.length := length_trim_le
  fun_induction splitFrom depth current s with
  | case1 => cases h
  | case2 depth current =>
    rw [List.mem_singleton.mp h]
    exact htrim current
  | case3 depth current rest ih =>
    have hle := ih h
    rw [List.length_append, List.length_singleton] at hle
    rw [List.length_cons]
    omega
  | case4 depth current rest ih =>
    have hle := ih h
    rw [List.length_append, List.length_singleton] at hle
    rw [List.length_cons]
    omega
  | case5 depth current c rest _ _ _ _ ih =>
    have hle := ih h
    rw [List.length_nil] at hle
    rw [List.length_cons]
    omega
  | case6 depth current c rest _ _ _ _ ih =>
    rcases List.mem_cons.mp h with rfl | h
    · exact le_trans (htrim current) (Nat.le_add_right _ _)
    · have hle := ih h
      rw [List.length_nil] at hle
      rw [List.length_cons]
      omega
  | case7 depth current c rest _ _ _ ih =>
    have hle := ih h
    rw [List.length_append, List.length_singleton] at hle
    rw [List.length_cons]
    omega

/-- The text in front of the bracket of a fixed array, and the text behind it. -/
def fixedSuffix (rawType : Text) : Option (Text × Text) :=
  if rawType.getLast? = some ']' then splitLast '[' rawType else none

/-- `parse_type_str`. -/
def parseTypeStr (name : String) (rawType : Text) : AbiParam :=
  match _ : stripSuffix "[]".toList rawType with
  | some base =>
    let inner := parseTypeStr "" base
    .mk name (inner.paramType ++ "[]") inner.components
  | none =>
    match _ : fixedSuffix rawType with
    | some (base, size) =>
      let inner := parseTypeStr "" base
      .mk name (inner.paramType ++ String.ofList ('[' :: size)) inner.components
    | none =>
      if _ : rawType.head? = some '(' ∧ rawType.getLast? = some ')' then
        .mk name "tuple"
          ((splitTopLevelParams rawType.tail.dropLast).attach.map fun t => parseTypeStr "" (trim t.1))
      else .mk name (String.ofList rawType) []
termination_by rawType.length
decreasing_by
  · rename_i h
    rw [stripSuffix_eq_some.mp h, List.length_append]
    exact Nat.lt_add_of_pos_right (by decide)
  · rename_i h
    rw [fixedSuffix] at h
    split at h
    · rw [(splitLast_eq_some.mp h).1, List.length_append, List.length_cons]
      omega
    · cases h
  · rename_i h
    have hmem := length_of_mem_splitFrom t.2
    have htrim := length_trim_le t.1
    have hne : rawType ≠ [] := by
      rintro rfl
      cases h.1
    have hpos := List.length_pos_iff.mpr hne
    rw [List.length_dropLast, List.length_tail, List.length_nil] at hmem
    omega

end PvmContract.Cli
