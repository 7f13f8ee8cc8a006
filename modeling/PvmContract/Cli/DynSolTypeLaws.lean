import PvmContract.Cli.DynSolType

/-!
# Reading descriptors

A type text is a base with array dimensions behind it, and the tool reads the dimensions
from the right (`Grouped`). From this, where reading a descriptor panics (`NoPanic`), and
which descriptors are read (`Accepted`).
-/

namespace PvmContract.Cli

open Data

/-! ### Texts with array dimensions -/

/-- The part in front of the first bracket has the property `Q`, and the parts behind the brackets have
the property `P`. -/
inductive Grouped (P Q : Text → Prop) : Text → Prop where
  | base {t : Text} (h : '[' ∉ t) (hq : Q t) : Grouped P Q t
  | dim {front behind : Text} (hf : Grouped P Q front) (h : '[' ∉ behind) (hp : P behind) :
    Grouped P Q (front ++ '[' :: behind)

variable {P Q : Text → Prop}

theorem append_bracket_inj {a b c d : Text} (hb : '[' ∉ b) (hd : '[' ∉ d) (h : a ++ '[' :: b = c ++ '[' :: d) :
    a = c ∧ b = d := by
  have hsplit := splitLast_append hb a
  rw [h, splitLast_append hd c] at hsplit
  exact Prod.mk.inj (Option.some.inj hsplit.symm)

theorem grouped_base {t : Text} (h : '[' ∉ t) : Grouped P Q t ↔ Q t := by
  constructor
  · intro hg
    cases hg with
    | base _ hq => exact hq
    | dim _ _ _ => exact absurd (List.mem_append_right _ List.mem_cons_self) h
  · exact .base h

theorem grouped_dim {front behind : Text} (h : '[' ∉ behind) :
    Grouped P Q (front ++ '[' :: behind) ↔ Grouped P Q front ∧ P behind := by
  constructor
  · intro hg
    generalize ht : front ++ '[' :: behind = t at hg
    cases hg with
    | base hn _ =>
      subst ht
      exact absurd (List.mem_append_right _ List.mem_cons_self) hn
    | dim hf hb hp =>
      obtain ⟨rfl, rfl⟩ := append_bracket_inj h hb ht
      exact ⟨hf, hp⟩
  · rintro ⟨hf, hp⟩
    exact .dim hf h hp

/-- Every text is a base with dimensions. -/
theorem grouped_all (t : Text) : Grouped (fun _ => True) (fun _ => True) t := by
  induction hn : t.length using Nat.strong_induction_on generalizing t with
  | _ n ih =>
    cases hsplit : splitLast '[' t with
    | none => exact .base (splitLast_eq_none.mp hsplit) trivial
    | some p =>
      obtain ⟨rfl, hb⟩ := splitLast_eq_some.mp hsplit
      refine .dim (ih p.1.length ?_ p.1 rfl) hb trivial
      rw [← hn, List.length_append, List.length_cons]
      omega

/-- The part in front of the first bracket. -/
def baseOf (t : Text) : Text := t.takeWhile (· ≠ '[')

/-- The array dimensions. -/
def dimsOf (t : Text) : Text := t.dropWhile (· ≠ '[')

theorem baseOf_append_dimsOf (t : Text) : baseOf t ++ dimsOf t = t := List.takeWhile_append_dropWhile

theorem bracket_not_mem_baseOf (t : Text) : '[' ∉ baseOf t := by
  intro h
  have hp := List.mem_takeWhile_imp h
  simp at hp

theorem parts_of_base {t : Text} (h : '[' ∉ t) : baseOf t = t ∧ dimsOf t = [] := by
  have hp : ∀ c ∈ t, decide (c ≠ '[') = true := by
    intro c hc
    rw [decide_eq_true_eq]
    rintro rfl
    exact h hc
  exact ⟨List.takeWhile_eq_self_iff.mpr hp, List.dropWhile_eq_nil_iff.mpr hp⟩

theorem parts_of_dim (front behind : Text) :
    baseOf (front ++ '[' :: behind) = baseOf front ∧
      dimsOf (front ++ '[' :: behind) = dimsOf front ++ '[' :: behind := by
  induction front with
  | nil => exact ⟨by simp [baseOf], by simp [dimsOf]⟩
  | cons c front ih =>
    by_cases hc : c = '['
    · subst hc
      exact ⟨by simp [baseOf], by simp [dimsOf]⟩
    · simp only [baseOf, dimsOf, ne_eq, decide_not] at ih
      simp [baseOf, dimsOf, hc, ih]

theorem grouped_iff {t : Text} : Grouped P Q t ↔ Grouped P (fun _ => True) t ∧ Q (baseOf t) := by
  induction grouped_all t with
  | base h _ => rw [grouped_base h, grouped_base h, (parts_of_base h).1, true_and]
  | dim hf h _ ih => rw [grouped_dim h, grouped_dim h, (parts_of_dim _ _).1, ih, and_right_comm]

/-! ### One text -/

/-- What is behind a bracket has a last character, of one byte. -/
def SliceOk (behind : Text) : Prop := ∃ part c, behind = part ++ [c] ∧ c.utf8Size = 1

/-- What is behind a bracket is nothing or a size, and one more byte. -/
def SizeOk (behind : Text) : Prop :=
  ∃ part c, behind = part ++ [c] ∧ c.utf8Size = 1 ∧ (part = [] ∨ (parseUsize part).isSome = true)

theorem innerPart_append {part : Text} {c : Char} (h : c.utf8Size = 1) : innerPart (part ++ [c]) = .ok part := by
  rw [innerPart, List.getLast?_concat]
  dsimp only
  rw [if_pos h, List.dropLast_concat]

theorem innerPart_cases (behind : Text) :
    (∃ part c, behind = part ++ [c] ∧ c.utf8Size = 1 ∧ innerPart behind = .ok part) ∨
      ¬SliceOk behind ∧ innerPart behind = .error .panic := by
  rcases List.eq_nil_or_concat' behind with rfl | ⟨part, c, rfl⟩
  · refine .inr ⟨?_, rfl⟩
    rintro ⟨part, c, h, -⟩
    exact absurd h.symm (List.append_ne_nil_of_right_ne_nil _ (List.cons_ne_nil _ _))
  · by_cases h : c.utf8Size = 1
    · exact .inl ⟨part, c, rfl, h, innerPart_append h⟩
    · refine .inr ⟨?_, ?_⟩
      · rintro ⟨part', c', heq, h'⟩
        obtain ⟨-, hc⟩ := List.append_inj' heq rfl
        rw [List.singleton_inj.mp hc] at h
        exact h h'
      · rw [innerPart, List.getLast?_concat]
        exact if_neg h

variable {inner : Option (Outcome (List DynSolType))}

theorem dynText_base {t : Text} (h : '[' ∉ t) : dynText inner t = dynBase inner t := by
  rw [dynText]
  split
  · rename_i hsplit
    rw [splitLast_eq_none.mpr h] at hsplit
    cases hsplit
  · rfl

theorem dynText_dim {front behind : Text} (h : '[' ∉ behind) :
    dynText inner (front ++ '[' :: behind) = (do
      let part ← innerPart behind
      let elem ← dynText inner front
      dynArray (front ++ '[' :: behind) part elem) := by
  rw [dynText]
  split
  · rename_i hsplit
    rw [splitLast_append h] at hsplit
    obtain ⟨rfl, rfl⟩ := Prod.mk.inj (Option.some.inj hsplit)
    rfl
  · rename_i hsplit
    rw [splitLast_append h] at hsplit
    cases hsplit

theorem dynArray_ne_panic {t part : Text} {elem : DynSolType} : dynArray t part elem ≠ .error .panic := by
  rw [dynArray]
  split
  · exact fun h => nomatch h
  · split <;> exact fun h => nomatch h

theorem dynArray_ok {t part : Text} {e : DynSolType} :
    (∃ y, dynArray t part e = .ok y) ↔ part = [] ∨ (parseUsize part).isSome = true := by
  rw [dynArray]
  by_cases hnil : part = []
  · simp [hnil]
  · rw [if_neg hnil]
    cases parseUsize part with
    | none => simp [hnil]
    | some n => simp

theorem dynText_ok {t : Text} :
    (∃ y, dynText inner t = .ok y) ↔ Grouped SizeOk (fun b => ∃ y, dynBase inner b = .ok y) t := by
  induction grouped_all t with
  | base h _ => rw [grouped_base h, dynText_base h]
  | @dim front behind hf h _ ih =>
    rw [grouped_dim h, dynText_dim h, ← ih]
    rcases innerPart_cases behind with ⟨part, c, rfl, hc, hpart⟩ | ⟨hbad, hpart⟩
    · have hsize : SizeOk (part ++ [c]) ↔ part = [] ∨ (parseUsize part).isSome = true := by
        constructor
        · rintro ⟨part', c', heq, -, hor⟩
          rw [(List.append_inj' heq rfl).1]
          exact hor
        · exact fun hor => ⟨part, c, rfl, hc, hor⟩
      rw [hpart, hsize]
      cases hfront : dynText inner front with
      | error e =>
        constructor
        · rintro ⟨y, hy⟩
          cases hy
        · rintro ⟨⟨y, hy⟩, -⟩
          cases hy
      | ok elem =>
        have helem : (∃ y, dynArray (front ++ '[' :: (part ++ [c])) part elem = .ok y) ↔ _ := dynArray_ok
        rw [← helem]
        exact ⟨fun h => ⟨⟨elem, rfl⟩, h⟩, fun h => h.2⟩
    · rw [hpart]
      constructor
      · rintro ⟨y, hy⟩
        cases hy
      · rintro ⟨-, part, c, hb, hc, -⟩
        exact absurd ⟨part, c, hb, hc⟩ hbad

theorem dynText_ne_panic {t : Text} :
    dynText inner t ≠ .error .panic ↔ Grouped SliceOk (fun b => dynBase inner b ≠ .error .panic) t := by
  induction grouped_all t with
  | base h _ => rw [grouped_base h, dynText_base h]
  | @dim front behind hf h _ ih =>
    rw [grouped_dim h, dynText_dim h, ← ih]
    rcases innerPart_cases behind with ⟨part, c, rfl, hc, hpart⟩ | ⟨hbad, hpart⟩
    · have hslice : SliceOk (part ++ [c]) := ⟨part, c, rfl, hc⟩
      rw [hpart, and_iff_left hslice]
      cases dynText inner front with
      | error e => exact Iff.rfl
      | ok elem => exact ⟨fun _ => (fun h => nomatch h), fun _ => dynArray_ne_panic⟩
    · rw [hpart]
      exact ⟨fun h => absurd rfl h, fun h => absurd h.2 hbad⟩

/-! ### Texts without dimensions -/

/-- The elementary types, as the tool reads them: every text that starts with `uint` or `int` is one. -/
def ElementaryOk (t : Text) : Prop :=
  t = "bool".toList ∨ t = "address".toList ∨ t = "string".toList ∨ t = "bytes".toList ∨
    "uint".toList <+: t ∨ "int".toList <+: t ∨ "bytes".toList <+: t ∧ (parseUsize (t.drop 5)).isSome = true

theorem dynBase_tuple (inner : Option (Outcome (List DynSolType))) : dynBase inner "tuple".toList =
    (componentsOr "Tuple type missing 'components'" inner).map .tuple := rfl

theorem dynBase_ok {t : Text} : (∃ y, dynBase inner t = .ok y) ↔
    ElementaryOk t ∨ t = "tuple".toList ∧ ∃ ys, inner = some (.ok ys) := by
  by_cases htuple : t = "tuple".toList
  · have hnot : ¬ElementaryOk "tuple".toList := by
      rw [ElementaryOk]
      decide
    subst htuple
    rw [dynBase_tuple, or_iff_right hnot, and_iff_right rfl]
    simp only [map_eq_ok, componentsOr_eq_ok]
    constructor
    · rintro ⟨y, ys, hys, -⟩
      exact ⟨ys, hys⟩
    · rintro ⟨ys, hys⟩
      exact ⟨_, ys, hys, rfl⟩
  · rw [or_iff_left fun h => htuple h.1, dynBase.eq_def, ElementaryOk, if_neg htuple]
    by_cases h1 : t = "bool".toList
    · rw [if_pos h1]
      exact iff_of_true ⟨_, rfl⟩ (.inl h1)
    rw [if_neg h1, or_iff_right h1]
    by_cases h2 : t = "address".toList
    · rw [if_pos h2]
      exact iff_of_true ⟨_, rfl⟩ (.inl h2)
    rw [if_neg h2, or_iff_right h2]
    by_cases h3 : t = "string".toList
    · rw [if_pos h3]
      exact iff_of_true ⟨_, rfl⟩ (.inl h3)
    rw [if_neg h3, or_iff_right h3]
    by_cases h4 : t = "bytes".toList
    · rw [if_pos h4]
      exact iff_of_true ⟨_, rfl⟩ (.inl h4)
    rw [if_neg h4, or_iff_right h4]
    by_cases h5 : "uint".toList <+: t
    · rw [if_pos h5]
      exact iff_of_true ⟨_, rfl⟩ (.inl h5)
    rw [if_neg h5, or_iff_right h5]
    by_cases h6 : "int".toList <+: t
    · rw [if_pos h6]
      exact iff_of_true ⟨_, rfl⟩ (.inl h6)
    rw [if_neg h6, or_iff_right h6]
    by_cases h7 : "bytes".toList <+: t
    · rw [if_pos h7, and_iff_right h7]
      cases parseUsize (t.drop 5) <;> simp
    · rw [if_neg h7, iff_false_right fun h => h7 h.1]
      rintro ⟨y, hy⟩
      cases hy

theorem dynBase_ne_panic {t : Text} :
    dynBase inner t ≠ .error .panic ↔ (t = "tuple".toList → inner ≠ some (.error .panic)) := by
  by_cases htuple : t = "tuple".toList
  · subst htuple
    rw [dynBase_tuple]
    cases inner with
    | none => simp [componentsOr, Except.map]
    | some inner =>
      cases inner with
      | error e => simp [componentsOr, Except.map]
      | ok ys => simp [componentsOr, Except.map]
  · rw [dynBase.eq_def, if_neg htuple]
    simp only [htuple, false_implies, iff_true]
    repeat' split
    all_goals
      intro h
      cases h

/-! ### Descriptors -/

/-- Induction over descriptors. -/
theorem AbiInput.induction_on {motive : AbiInput → Prop} (d : AbiInput) (bare : ∀ t, motive (.bare t))
    (composite : ∀ t ds, (∀ d ∈ ds, motive d) → motive (.composite t ds)) : motive d := by
  refine AbiInput.rec (motive_1 := motive) (motive_2 := fun ds => ∀ d ∈ ds, motive d) bare
    (fun t ds ih => composite t ds ih) (fun d hd => nomatch hd) ?_ d
  intro d ds hd hds e he
  rcases List.mem_cons.mp he with rfl | he
  · exact hd
  · exact hds e he

mutual

/-- The descriptors that are read: sizes behind the brackets, and an elementary base or a tuple of
descriptors that are read. -/
def Accepted : AbiInput → Prop
  | .bare solType => ∃ t ∈ solType, Grouped SizeOk ElementaryOk t
  | .composite solType components => ∃ t ∈ solType,
    Grouped SizeOk (fun b => ElementaryOk b ∨ b = "tuple".toList ∧ AllAccepted components) t

/-- `Accepted` of each descriptor of a list. -/
def AllAccepted : List AbiInput → Prop
  | [] => True
  | d :: ds => Accepted d ∧ AllAccepted ds

end

mutual

/-- The descriptors that can be read without a panic: a slice behind each bracket, and for a tuple no panic
in the components up to the first one that is not accepted. -/
def NoPanic : AbiInput → Prop
  | .bare solType => ∀ t ∈ solType, Grouped SliceOk (fun _ => True) t
  | .composite solType components => ∀ t ∈ solType,
    Grouped SliceOk (fun b => b = "tuple".toList → AllNoPanic components) t

/-- `NoPanic` of a list of components, read in order. -/
def AllNoPanic : List AbiInput → Prop
  | [] => True
  | d :: ds => NoPanic d ∧ (Accepted d → AllNoPanic ds)

end

theorem abiToDynSolTypes_ok {ds : List AbiInput} :
    (∃ ys, abiToDynSolTypes ds = .ok ys) ↔ ∀ d ∈ ds, ∃ y, abiToDynSolType d = .ok y := by
  induction ds with
  | nil => exact ⟨fun _ d hd => (nomatch hd), fun _ => ⟨[], rfl⟩⟩
  | cons d ds ih =>
    rw [List.forall_mem_cons, ← ih, abiToDynSolTypes]
    cases abiToDynSolType d with
    | error e =>
      constructor
      · rintro ⟨ys, hys⟩
        cases hys
      · rintro ⟨⟨y, hy⟩, -⟩
        cases hy
    | ok y =>
      cases abiToDynSolTypes ds with
      | error e =>
        constructor
        · rintro ⟨ys, hys⟩
          cases hys
        · rintro ⟨-, ys, hys⟩
          cases hys
      | ok ys => exact ⟨fun _ => ⟨⟨y, rfl⟩, ys, rfl⟩, fun _ => ⟨y :: ys, rfl⟩⟩

theorem allAccepted_iff {ds : List AbiInput} : AllAccepted ds ↔ ∀ d ∈ ds, Accepted d := by
  induction ds with
  | nil => simp [AllAccepted]
  | cons d ds ih => rw [AllAccepted, ih, List.forall_mem_cons]

theorem grouped_congr {P Q Q' : Text → Prop} (h : ∀ b, Q b ↔ Q' b) {t : Text} : Grouped P Q t ↔ Grouped P Q' t := by
  rw [grouped_iff, grouped_iff (Q := Q'), h]

/-- **What is read.** -/
theorem accepted_iff {d : AbiInput} : (∃ y, abiToDynSolType d = .ok y) ↔ Accepted d := by
  induction d using AbiInput.induction_on with
  | bare solType =>
    rw [abiToDynSolType, Accepted, dynFrom.eq_def]
    cases solType with
    | none => simp
    | some t =>
      rw [dynText_ok]
      simp only [Option.mem_def, Option.some.injEq, exists_eq_left', dynBase_ok, reduceCtorEq, exists_false, and_false,
        or_false]
  | composite solType ds ih =>
    have hall : (∃ ys, abiToDynSolTypes ds = .ok ys) ↔ AllAccepted ds := by
      rw [abiToDynSolTypes_ok, allAccepted_iff]
      exact forall₂_congr ih
    rw [abiToDynSolType, Accepted, dynFrom.eq_def]
    cases solType with
    | none => simp
    | some t =>
      rw [dynText_ok]
      simp only [Option.mem_def, Option.some.injEq, exists_eq_left', dynBase_ok, hall]

theorem abiToDynSolTypes_ne_panic {ds : List AbiInput}
    (h : ∀ d ∈ ds, abiToDynSolType d ≠ .error .panic ↔ NoPanic d) :
    abiToDynSolTypes ds ≠ .error .panic ↔ AllNoPanic ds := by
  induction ds with
  | nil => exact ⟨fun _ => trivial, fun _ h => (nomatch h)⟩
  | cons d ds ih =>
    obtain ⟨hd, hds⟩ := List.forall_mem_cons.mp h
    rw [AllNoPanic, ← hd, ← ih hds, ← accepted_iff, abiToDynSolTypes]
    cases abiToDynSolType d with
    | error e =>
      have hno : ¬∃ y : DynSolType, (Except.error e : Outcome DynSolType) = .ok y := by
        rintro ⟨y, hy⟩
        cases hy
      exact ⟨fun h => ⟨fun he => h (by cases he; rfl), fun h => absurd h hno⟩, fun h he => h.1 (by cases he; rfl)⟩
    | ok y =>
      have hok : (Except.ok y : Outcome DynSolType) ≠ .error .panic := fun h => nomatch h
      cases abiToDynSolTypes ds with
      | error e =>
        exact ⟨fun h => ⟨hok, fun _ he => h (by cases he; rfl)⟩, fun h he => h.2 ⟨y, rfl⟩ (by cases he; rfl)⟩
      | ok ys => exact ⟨fun _ => ⟨hok, fun _ => (fun h => nomatch h)⟩, fun _ => (fun h => nomatch h)⟩

/-- **What is read without a panic.** -/
theorem noPanic_iff {d : AbiInput} : abiToDynSolType d ≠ .error .panic ↔ NoPanic d := by
  induction d using AbiInput.induction_on with
  | bare solType =>
    rw [abiToDynSolType, NoPanic, dynFrom.eq_def]
    cases solType with
    | none => simp
    | some t =>
      have hbase : ∀ b, dynBase none b ≠ .error .panic ↔ True := by
        intro b
        rw [dynBase_ne_panic]
        simp
      rw [dynText_ne_panic, grouped_congr hbase]
      simp
  | composite solType ds ih =>
    have hall := abiToDynSolTypes_ne_panic ih
    rw [abiToDynSolType, NoPanic, dynFrom.eq_def]
    cases solType with
    | none => simp
    | some t =>
      have hbase : ∀ b, dynBase (some (abiToDynSolTypes ds)) b ≠ .error .panic ↔
          (b = "tuple".toList → AllNoPanic ds) := by
        intro b
        rw [dynBase_ne_panic, ← hall]
        simp
      rw [dynText_ne_panic, grouped_congr hbase]
      simp

end PvmContract.Cli
