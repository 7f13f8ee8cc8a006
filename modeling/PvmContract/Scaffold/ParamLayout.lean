import PvmContract.Scaffold.ParamDynamic
import PvmContract.Sol.TypeLayout

/-!
# The scaffolder's check is the type's

`param_is_dynamic`, on the description that the builder writes for a type, says whether
the type is dynamic (`paramIsDynamic_of_layout`). The description of an array is that of
its elements with a dimension behind the type text, so the loop over the dimensions meets
them in the order in which the type has them.
-/

namespace PvmContract.Scaffold

open Data Sol Abi

theorem toList_toString (n : ℕ) : (toString n).toList = Nat.toDigits 10 n := by
  rw [Nat.toString_eq_ofList_toDigits, String.toList_ofList]

/-- A parameter without dimensions and components. -/
theorem paramIsDynamic_plain (name : String) {t : String} (h : '[' ∉ t.toList) :
    paramIsDynamic (inputOf ⟨name, t, []⟩) = ["bytes".toList, "string".toList].contains t.toList := by
  rw [paramIsDynamic_inputOf, behindArrays_base h]
  rfl

/-- An elementary type with a number in its name. -/
theorem paramIsDynamic_numbered (name : String) {t : String} (ht : '[' ∉ t.toList) (n : ℕ) :
    paramIsDynamic (inputOf ⟨name, t ++ toString n, []⟩) = false := by
  have hlist : (t ++ toString n).toList = t.toList ++ Nat.toDigits 10 n := by
    rw [String.toList_append, toList_toString]
  rcases List.eq_nil_or_concat' (Nat.toDigits 10 n) with hnil | ⟨digits, c, hc⟩
  · exact absurd hnil Nat.toDigits_ne_nil
  · have hdigit : c.isDigit = true := isDigit_of_mem (n := n) (by simp [hc])
    -- The last character of the text is a digit.
    have hlast : ∀ s : Text, t.toList ++ Nat.toDigits 10 n = s → s.getLast? = some c := by
      rintro s rfl
      rw [hc, ← List.append_assoc, List.getLast?_concat]
    have hbracket : '[' ∉ (t ++ toString n).toList := by
      rw [hlist, List.mem_append, not_or]
      refine ⟨ht, fun h => ?_⟩
      have hdigit' := isDigit_of_mem h
      cases hdigit'
    rw [paramIsDynamic_plain name hbracket, hlist, Bool.eq_false_iff, ne_eq, List.contains_iff_mem]
    intro hmem
    rcases List.mem_cons.mp hmem with h | h
    · obtain rfl := Option.some.inj (hlast _ h)
      cases hdigit
    · obtain rfl := Option.some.inj (hlast _ (List.mem_singleton.mp h))
      cases hdigit

/-- An array of any length. -/
theorem paramIsDynamic_unsized (name t : String) (components : List AbiParam) :
    paramIsDynamic (inputOf ⟨name, t ++ "[]", components⟩) = true := by
  rw [paramIsDynamic_inputOf, String.toList_append]
  exact behindArrays_unsized _

/-- An array of a fixed length is as its elements are. -/
theorem paramIsDynamic_sized {n : ℕ} (hn : n < 2 ^ 64) (name name' t : String) (components : List AbiParam) :
    paramIsDynamic (inputOf ⟨name, t ++ ("[" ++ toString n ++ "]"), components⟩) =
      paramIsDynamic (inputOf ⟨name', t, components⟩) := by
  rw [paramIsDynamic_inputOf, paramIsDynamic_inputOf, String.toList_append, String.toList_append,
    String.toList_append, toList_toString]
  exact behindArrays_sized hn _

/-- A tuple is dynamic if a component is. -/
theorem paramIsDynamic_tuple (name : String) {components : List AbiParam} (h : components ≠ []) :
    paramIsDynamic (inputOf ⟨name, "tuple", components⟩) = components.any fun c => paramIsDynamic (inputOf c) := by
  rw [paramIsDynamic_inputOf, behindArrays_base (by decide), ← anyDynamic_eq]
  cases components with
  | nil => exact absurd rfl h
  | cons c cs => rfl

/-- A tuple whose components are as dynamic as their places. -/
theorem paramIsDynamic_joined (name : String) {types : List SolidityType} {components : List AbiParam}
    {ls : List HeadLayout} {R : SolidityType → AbiParam → Prop} {S : SolidityType → HeadLayout → Prop}
    (hne : types ≠ []) (hcs : List.Forall₂ R types components) (hls : List.Forall₂ S types ls)
    (h : ∀ ty ∈ types, ∀ c l, R ty c → S ty l → paramIsDynamic (inputOf c) = l.dynamic) :
    paramIsDynamic (inputOf ⟨name, "tuple", components⟩) = (HeadLayout.joined ls).dynamic := by
  have hnonempty : components ≠ [] := by
    rintro rfl
    exact hne (List.forall₂_nil_right_iff.mp hcs)
  have hboth := forall₂_of_common hcs hls h
  rw [paramIsDynamic_tuple name hnonempty, HeadLayout.joined_dynamic]
  clear hnonempty hcs hls
  induction hboth with
  | nil => rfl
  | cons hc _ ih => rw [List.any_cons, List.any_cons, hc, ih]

/-! ### Declared types -/

/-- **The scaffolder's check is the type's.** -/
theorem paramIsDynamic_of_layout {T : CustomTypes} (hT : T.Legal) (isKeyword : SolIdent → Bool) {depth : ℕ}
    {ty : SolidityType} {active : List SolIdent} {l : HeadLayout} {name : String} {param : AbiParam}
    (h : T.Ancestors active ty) (hty : T.legal ty = true) (hl : T.layout depth ty = some l)
    (hparam : unroll (T.typeToAbiParam isKeyword) depth (name, ⟨ty, active⟩) = some param) :
    paramIsDynamic (inputOf param) = l.dynamic := by
  induction depth generalizing ty active l name param with
  | zero => cases hl
  | succ depth ih =>
    rw [CustomTypes.layout, unroll] at hl
    rw [unroll] at hparam
    cases ty with
    | array ty size =>
      obtain ⟨⟨name', t, components⟩, hinner, hparam⟩ := Option.bind_eq_some_iff.mp hparam
      obtain rfl := Option.some.inj hparam
      cases size with
      | none =>
        obtain rfl := Option.some.inj hl
        exact paramIsDynamic_unsized _ _ _
      | some n =>
        rw [CustomTypes.legal, Bool.and_eq_true, Bool.and_eq_true, decide_eq_true_eq, decide_eq_true_eq] at hty
        obtain ⟨l', hl', hl⟩ := Option.bind_eq_some_iff.mp hl
        obtain rfl := Option.some.inj hl
        rw [CustomTypes.sized_dynamic hl']
        exact (paramIsDynamic_sized hty.1.2 _ name' t components).trans (@ih ty active l' "" _ h hty.2 hl' hinner)
    | tuple types =>
      rw [CustomTypes.legal, Bool.and_eq_true, CustomTypes.legals_iff, decide_eq_true_eq] at hty
      obtain ⟨ls, hls, hl⟩ := Option.bind_eq_some_iff.mp hl
      obtain rfl := Option.some.inj hl
      obtain ⟨components, hcs, hparam⟩ := Option.bind_eq_some_iff.mp hparam
      obtain rfl := Option.some.inj hparam
      refine paramIsDynamic_joined name hty.1 (mapM_eq_some_iff.mp hcs) (mapM_eq_some_iff.mp hls) ?_
      exact fun ty hmem c l hc hl => ih (h.component hmem) (hty.2 ty hmem) hl hc
    | custom path =>
      rw [CustomTypes.typeToAbiParam, if_neg (h.not_mem hT.acyclic)] at hparam
      rw [CustomTypes.layoutStep] at hl
      cases hd : T.get path.last with
      | none =>
        rw [hd] at hl
        cases hl
      | some d =>
        rw [hd] at hl hparam
        cases d with
        | enum =>
          obtain rfl := Option.some.inj hl
          obtain rfl := Option.some.inj hparam
          exact paramIsDynamic_plain name (by decide)
        | udt underlying =>
          refine ih (h.underlying hd) ?_ hl hparam
          exact CustomTypes.legal_of_valueType (hT.udt _ _ hd)
        | struct fields =>
          obtain ⟨hne, hlegal⟩ := hT.struct _ _ hd
          obtain ⟨ls, hls, hl⟩ := Option.bind_eq_some_iff.mp hl
          obtain rfl := Option.some.inj hl
          obtain ⟨components, hcs, hparam⟩ := Option.bind_eq_some_iff.mp hparam
          obtain rfl := Option.some.inj hparam
          have hfields : List.Forall₂ (fun ty c => ∃ name, unroll (T.typeToAbiParam isKeyword) depth
              (name, ⟨ty, path.last :: active⟩) = some c) (fieldTypes fields) components := by
            rw [fieldTypes, List.forall₂_map_left_iff]
            exact (mapM_eq_some_iff.mp hcs).imp fun _ _ hc => ⟨_, hc⟩
          refine paramIsDynamic_joined name ?_ hfields (mapM_eq_some_iff.mp hls) ?_
          · simpa [fieldTypes] using hne
          · rintro ty hmem c l ⟨_, hc⟩ hl
            exact ih (h.field hd ty hmem) (hlegal ty hmem) hl hc
    | function text | mapping text => cases hl
    | address | bool | string | bytes =>
      obtain rfl := Option.some.inj hl
      obtain rfl := Option.some.inj hparam
      exact paramIsDynamic_plain name (by decide)
    | fixedBytes n | int n | uint n =>
      obtain rfl := Option.some.inj hl
      obtain rfl := Option.some.inj hparam
      exact paramIsDynamic_numbered name (by decide) _

end PvmContract.Scaffold
