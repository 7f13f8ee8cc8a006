import PvmContract.Data.Text
import PvmContract.Sol.Resolve

/-!
# Which parameters need the allocator

The scaffolder decides from the ABI JSON file whether a contract needs the `alloc`
feature: `param_is_dynamic` reads the type text of a parameter and, where it has
`components`, those. Both it and `is_dynamic_sol_type` take the array dimensions off from
the right until an unsized one or none is left, and differ in what they do then.

`inputOf` is what the scaffolder reads of the description that the builder writes.
-/

namespace PvmContract.Scaffold

open Data Sol

/-- A parameter of the ABI JSON file, by what is read of it: the `type`, and the `components` if there are
any. -/
inductive AbiInput where
  | plain (typeName : Text)
  | composite (typeName : Text) (components : List AbiInput)

/-- `split_fixed_array`: a fixed-array suffix `T[N]` as `(T, N)`. -/
def splitFixedArray (t : Text) : Option (Text × ℕ) :=
  match splitLast '[' t with
  | none => none
  | some (inner, behind) => do
    let size ← stripSuffix [']'] behind
    let n ← parseUnsigned (2 ^ 64) size
    pure (inner, n)

theorem lt_of_splitFixedArray {t inner : Text} {n : ℕ} (h : splitFixedArray t = some (inner, n)) :
    inner.length < t.length := by
  rw [splitFixedArray] at h
  split at h
  · cases h
  · rename_i inner' behind hsplit
    obtain ⟨size, -, h⟩ := Option.bind_eq_some_iff.mp h
    obtain ⟨n', -, h⟩ := Option.bind_eq_some_iff.mp h
    obtain ⟨rfl, -⟩ := Prod.mk.inj (Option.some.inj h)
    rw [(splitLast_eq_some.mp hsplit).1, List.length_append, List.length_cons]
    omega

/-- The array dimensions from the right: an unsized one is dynamic, a sized one is as its elements are, and
what is left without one is as the base says. -/
def behindArrays (base : Text → Bool) (t : Text) : Bool :=
  if ['[', ']'] <:+ t then true
  else
    match _ : splitFixedArray t with
    | some (inner, _) => behindArrays base inner
    | none => base t
termination_by t.length
decreasing_by exact lt_of_splitFixedArray ‹_›

/-- `is_dynamic_sol_type`. -/
def isDynamicSolType (t : Text) : Bool := behindArrays (fun t => ["bytes".toList, "string".toList].contains t) t

mutual

/-- `param_is_dynamic`. -/
def paramIsDynamic : AbiInput → Bool
  | .plain typeName => isDynamicSolType typeName
  | .composite typeName components => behindArrays (fun _ => anyDynamic components) typeName

/-- `components.iter().any(..)`. -/
def anyDynamic : List AbiInput → Bool
  | [] => false
  | c :: cs => paramIsDynamic c || anyDynamic cs

end

/-! ### The builder's descriptions -/

mutual

/-- What is read of the description of a parameter: `components` is not written if it is empty. -/
def inputOf : AbiParam → AbiInput
  | .mk _ paramType [] => .plain paramType.toList
  | .mk _ paramType (c :: cs) => .composite paramType.toList (inputOf c :: inputsOf cs)

/-- `inputOf` of each parameter of a list. -/
def inputsOf : List AbiParam → List AbiInput
  | [] => []
  | c :: cs => inputOf c :: inputsOf cs

end

/-- What is left without a dimension, for a parameter with the given components. -/
def baseDynamic (components : List AbiParam) (t : Text) : Bool :=
  match components with
  | [] => ["bytes".toList, "string".toList].contains t
  | _ :: _ => anyDynamic (inputsOf components)

theorem anyDynamic_eq (components : List AbiParam) :
    anyDynamic (inputsOf components) = components.any fun c => paramIsDynamic (inputOf c) := by
  induction components with
  | nil => rfl
  | cons c cs ih => rw [inputsOf, anyDynamic, ih, List.any_cons]

theorem paramIsDynamic_inputOf (name paramType : String) (components : List AbiParam) :
    paramIsDynamic (inputOf ⟨name, paramType, components⟩) =
      behindArrays (baseDynamic components) paramType.toList := by
  cases components with
  | nil => rw [inputOf, paramIsDynamic, isDynamicSolType]; rfl
  | cons c cs => rw [inputOf, paramIsDynamic]; rfl

/-! ### The loop over the dimensions -/

section

variable {base : Text → Bool}

theorem behindArrays_unsized (t : Text) : behindArrays base (t ++ ['[', ']']) = true := by
  rw [behindArrays, if_pos (List.suffix_append t _)]

theorem splitFixedArray_eq_none {t : Text} (h : '[' ∉ t) : splitFixedArray t = none := by
  rw [splitFixedArray, splitLast_eq_none.mpr h]

theorem splitFixedArray_sized {n : ℕ} (hn : n < 2 ^ 64) (t : Text) :
    splitFixedArray (t ++ '[' :: (Nat.toDigits 10 n ++ [']'])) = some (t, n) := by
  have hbehind : '[' ∉ Nat.toDigits 10 n ++ [']'] := by
    rw [List.mem_append, not_or]
    refine ⟨fun h => ?_, by decide⟩
    have hdigit := isDigit_of_mem h
    cases hdigit
  rw [splitFixedArray, splitLast_append hbehind]
  dsimp only
  rw [stripSuffix_eq_some.mpr rfl, Option.bind_eq_bind, Option.bind_some, parseUnsigned_toDigits hn]
  rfl

/-- A sized dimension does not end as an unsized one does. -/
theorem not_unsized_of_sized (n : ℕ) (t : Text) :
    ¬ ['[', ']'] <:+ t ++ '[' :: (Nat.toDigits 10 n ++ [']']) := by
  rintro ⟨front, hfront⟩
  have hsnoc : front ++ ['['] ++ [']'] = t ++ '[' :: Nat.toDigits 10 n ++ [']'] := by simpa using hfront
  have hlast := List.append_cancel_right hsnoc
  rcases List.eq_nil_or_concat' (Nat.toDigits 10 n) with hnil | ⟨digits, c, hc⟩
  · exact Nat.toDigits_ne_nil hnil
  · have hdigit := isDigit_of_mem (n := n) (c := c) (by simp [hc])
    rw [hc, ← List.cons_append, ← List.append_assoc] at hlast
    obtain ⟨-, hchar⟩ := List.append_inj' hlast rfl
    obtain rfl := (List.cons.inj hchar).1
    cases hdigit

theorem behindArrays_sized {n : ℕ} (hn : n < 2 ^ 64) (t : Text) :
    behindArrays base (t ++ '[' :: (Nat.toDigits 10 n ++ [']'])) = behindArrays base t := by
  rw [behindArrays, if_neg (not_unsized_of_sized n t)]
  split
  · rename_i inner m hsplit
    rw [splitFixedArray_sized hn] at hsplit
    obtain ⟨rfl, -⟩ := Prod.mk.inj (Option.some.inj hsplit)
    rfl
  · rename_i hsplit
    rw [splitFixedArray_sized hn] at hsplit
    cases hsplit

/-- A text without dimensions. -/
theorem behindArrays_base {t : Text} (h : '[' ∉ t) : behindArrays base t = base t := by
  have hsuffix : ¬ ['[', ']'] <:+ t := by
    rintro ⟨front, rfl⟩
    simp at h
  rw [behindArrays, if_neg hsuffix]
  split
  · rename_i inner m hsplit
    rw [splitFixedArray_eq_none h] at hsplit
    cases hsplit
  · rfl

end

end PvmContract.Scaffold
