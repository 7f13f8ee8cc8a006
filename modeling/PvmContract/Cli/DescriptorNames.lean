import PvmContract.Cli.DynSolTypeLaws

/-!
# The two readings of a descriptor

The signature of a function takes the canonical name of a parameter from its texts as they
stand, and the arguments are encoded as a type that is read from the same texts. Where both
give a result, the name of the type is the canonical name exactly when the texts are
written as the name of the type is (`name_eq_iff`): sizes and widths without a sign or
leading zeros, a closing bracket behind each size, and nothing behind a width.

For one direction the two names are compared from the left. Commas and parentheses stand
only between the components of a tuple in the name of a type, and the canonical name has
them there too. So if the names are equal there are none in the texts themselves
(`clean_of_count_le`), and then the components line up.
-/

namespace PvmContract.Cli

open Data

/-! ### Separators -/

/-- Commas and parentheses. -/
def special (c : Char) : Bool := c == ',' || c == '(' || c == ')'

/-- Texts without separators. -/
def NoSpecial (t : Text) : Prop := ∀ c ∈ t, special c = false

/-- Texts that are empty or start with a separator. -/
def Stops (t : Text) : Prop := ∀ c ∈ t.head?, special c = true

theorem noSpecial_append {a b : Text} : NoSpecial (a ++ b) ↔ NoSpecial a ∧ NoSpecial b := List.forall_mem_append

theorem noSpecial_of_all {t : Text} (h : t.any special = false) : NoSpecial t := by
  intro c hc
  exact Bool.eq_false_iff.mpr fun hs => Bool.eq_false_iff.mp h (List.any_eq_true.mpr ⟨c, hc, hs⟩)

theorem stops_cons {c : Char} (h : special c = true) (t : Text) : Stops (c :: t) := by
  intro d hd
  rw [← Option.some.inj hd]
  exact h

theorem append_stops_inj {a b x y : Text} (ha : NoSpecial a) (hb : NoSpecial b) (hx : Stops x) (hy : Stops y)
    (h : a ++ x = b ++ y) : a = b ∧ x = y := by
  induction a generalizing b with
  | nil =>
    cases b with
    | nil => exact ⟨rfl, h⟩
    | cons c b =>
      rw [List.nil_append] at h
      have hstop := hx c (by rw [h]; rfl)
      rw [hb c List.mem_cons_self] at hstop
      cases hstop
  | cons c a ih =>
    cases b with
    | nil =>
      rw [List.nil_append] at h
      have hstop := hy c (by rw [← h]; rfl)
      rw [ha c List.mem_cons_self] at hstop
      cases hstop
    | cons d b =>
      obtain ⟨rfl, htail⟩ := List.cons.inj h
      obtain ⟨rfl, hxy⟩ := ih (fun e he => ha e (List.mem_cons_of_mem _ he))
        (fun e he => hb e (List.mem_cons_of_mem _ he)) htail
      exact ⟨rfl, hxy⟩

theorem special_digit {c : Char} (h : c.isDigit = true) : special c = false ∧ c ≠ '[' := by
  have hle := isDigit_iff.mp h
  have hne : ∀ d : Char, (d.toNat < 48 ∨ 57 < d.toNat) → c ≠ d := by
    rintro d hd rfl
    omega
  refine ⟨?_, hne '[' (by decide)⟩
  rw [special, beq_eq_false_iff_ne.mpr (hne ',' (by decide)), beq_eq_false_iff_ne.mpr (hne '(' (by decide)),
    beq_eq_false_iff_ne.mpr (hne ')' (by decide))]
  rfl

theorem noSpecial_digits (n : ℕ) : NoSpecial (Nat.toDigits 10 n) ∧ '[' ∉ Nat.toDigits 10 n :=
  ⟨fun _ hc => (special_digit (isDigit_of_mem hc)).1, fun h => (special_digit (isDigit_of_mem h)).2 rfl⟩

/-! ### Elementary types -/

/-- The elementary types as their names are written. -/
def ElementaryWritten (t : Text) : Prop :=
  t = "bool".toList ∨ t = "address".toList ∨ t = "string".toList ∨ t = "bytes".toList ∨
    ∃ n < 2 ^ 64, t = "uint".toList ++ Nat.toDigits 10 n ∨ t = "int".toList ++ Nat.toDigits 10 n ∨
      t = "bytes".toList ++ Nat.toDigits 10 n

/-- A name of letters and digits. -/
structure PlainName (t : Text) : Prop where
  noSpecial : NoSpecial t
  noBracket : '[' ∉ t

theorem plainName_digits {t : Text} (h : NoSpecial t) (hb : '[' ∉ t) (n : ℕ) : PlainName (t ++ Nat.toDigits 10 n) :=
  ⟨noSpecial_append.mpr ⟨h, (noSpecial_digits n).1⟩, fun hc => (List.mem_append.mp hc).elim hb (noSpecial_digits n).2⟩

/-- The width or size in a text with a prefix. -/
theorem drop_of_prefix {p t : Text} (h : p <+: t) : t = p ++ t.drop p.length := by
  obtain ⟨s, rfl⟩ := h
  rw [List.drop_left]

/-- What is read from a width is the number that is written there, or no number is. -/
theorem parseUsize_written {w : Text} {n : ℕ} (h : parseUsize w = some n) :
    Nat.toDigits 10 n = w ↔ ∃ m < 2 ^ 64, w = Nat.toDigits 10 m := by
  constructor
  · rintro rfl
    exact ⟨n, lt_of_parseUnsigned h, rfl⟩
  · rintro ⟨m, hm, rfl⟩
    rw [parseUsize, parseUnsigned_toDigits hm] at h
    rw [Option.some.inj h]

theorem toDigits_getD_iff {w : Text} :
    Nat.toDigits 10 ((parseUsize w).getD 256) = w ↔ ∃ m < 2 ^ 64, w = Nat.toDigits 10 m := by
  cases h : parseUsize w with
  | some n => exact parseUsize_written h
  | none =>
    constructor
    · intro heq
      exact ⟨256, by decide, heq.symm⟩
    · rintro ⟨m, hm, rfl⟩
      rw [parseUsize, parseUnsigned_toDigits hm] at h
      cases h

variable {inner : Option (Outcome (List DynSolType))}

theorem name_dynBase {t : Text} {y : DynSolType} (h : dynBase inner t = .ok y) (htuple : t ≠ "tuple".toList) :
    PlainName y.name ∧ (y.name = t ↔ ElementaryWritten t) := by
  rw [dynBase.eq_def, if_neg htuple] at h
  split_ifs at h with h1 h2 h3 h4 h5 h6 h7
  · obtain rfl := Except.ok.inj h
    exact ⟨⟨noSpecial_of_all rfl, by decide⟩, iff_of_true h1.symm (.inl h1)⟩
  · obtain rfl := Except.ok.inj h
    exact ⟨⟨noSpecial_of_all rfl, by decide⟩, iff_of_true h2.symm (.inr (.inl h2))⟩
  · obtain rfl := Except.ok.inj h
    exact ⟨⟨noSpecial_of_all rfl, by decide⟩, iff_of_true h3.symm (.inr (.inr (.inl h3)))⟩
  · obtain rfl := Except.ok.inj h
    exact ⟨⟨noSpecial_of_all rfl, by decide⟩, iff_of_true h4.symm (.inr (.inr (.inr (.inl h4))))⟩
  · obtain rfl := Except.ok.inj h
    refine ⟨plainName_digits (noSpecial_of_all rfl) (by decide) _, ?_⟩
    have ht := drop_of_prefix h5
    change _ = _ ++ t.drop 4 at ht
    generalize t.drop 4 = w at ht
    subst ht
    rw [DynSolType.name, List.append_cancel_left_eq, toDigits_getD_iff, ElementaryWritten]
    simp
  · obtain rfl := Except.ok.inj h
    refine ⟨plainName_digits (noSpecial_of_all rfl) (by decide) _, ?_⟩
    have ht := drop_of_prefix h6
    change _ = _ ++ t.drop 3 at ht
    generalize t.drop 3 = w at ht
    subst ht
    rw [DynSolType.name, List.append_cancel_left_eq, toDigits_getD_iff, ElementaryWritten]
    simp
  · have ht := drop_of_prefix h7
    change _ = _ ++ t.drop 5 at ht
    generalize t.drop 5 = w at ht h
    cases hn : parseUsize w with
    | none =>
      rw [hn] at h
      cases h
    | some n =>
      rw [hn] at h
      obtain rfl := Except.ok.inj h
      refine ⟨plainName_digits (noSpecial_of_all rfl) (by decide) _, ?_⟩
      subst ht
      rw [DynSolType.name, List.append_cancel_left_eq, parseUsize_written hn, ElementaryWritten]
      have hne : w ≠ [] := by
        rintro rfl
        cases hn
      simp [hne]

/-! ### Array dimensions -/

/-- The dimensions as the name of an array is written. -/
def SizeWritten (behind : Text) : Prop := behind = [']'] ∨ ∃ n < 2 ^ 64, behind = Nat.toDigits 10 n ++ [']']

theorem dynArray_eq_ok {t part : Text} {elem y : DynSolType} (h : dynArray t part elem = .ok y) :
    part = [] ∧ y = .array elem ∨ part ≠ [] ∧ ∃ n, parseUsize part = some n ∧ y = .fixedArray elem n := by
  rw [dynArray] at h
  by_cases hpart : part = []
  · rw [if_pos hpart] at h
    exact .inl ⟨hpart, (Except.ok.inj h).symm⟩
  · rw [if_neg hpart] at h
    cases hn : parseUsize part with
    | none =>
      rw [hn] at h
      cases h
    | some n =>
      rw [hn] at h
      exact .inr ⟨hpart, n, rfl, (Except.ok.inj h).symm⟩

/-- What one dimension adds to the name. -/
theorem name_dynArray {t part : Text} {c : Char} {elem y : DynSolType} (h : dynArray t part elem = .ok y) :
    ∃ size, y.name = elem.name ++ '[' :: size ∧ NoSpecial size ∧ '[' ∉ size ∧
      (size = part ++ [c] ↔ SizeWritten (part ++ [c])) := by
  rcases dynArray_eq_ok h with ⟨rfl, rfl⟩ | ⟨hne, n, hn, rfl⟩
  · refine ⟨[']'], rfl, noSpecial_of_all rfl, by decide, ?_⟩
    rw [SizeWritten, List.nil_append]
    constructor
    · exact fun heq => .inl heq.symm
    · rintro (heq | ⟨n, -, heq⟩)
      · exact heq.symm
      · have hlen := congrArg List.length heq
        have hpos := List.length_pos_iff.mpr (Nat.toDigits_ne_nil (n := n) (b := 10))
        rw [List.length_append, List.length_singleton, List.length_singleton] at hlen
        omega
  · obtain ⟨hspecial, hbracket⟩ := noSpecial_digits n
    refine ⟨Nat.toDigits 10 n ++ [']'], rfl, noSpecial_append.mpr ⟨hspecial, noSpecial_of_all rfl⟩,
      fun hc => (List.mem_append.mp hc).elim hbracket (by decide), ?_⟩
    rw [SizeWritten]
    constructor
    · exact fun heq => .inr ⟨n, lt_of_parseUnsigned hn, heq.symm⟩
    · rintro (heq | ⟨m, hm, heq⟩)
      · have hnil := (List.append_inj' (show part ++ [c] = [] ++ [']'] from heq) rfl).1
        exact absurd hnil hne
      · obtain ⟨rfl, hc⟩ := List.append_inj' heq rfl
        rw [parseUsize, parseUnsigned_toDigits hm] at hn
        rw [Option.some.inj hn, hc]

/-- Dimensions are nothing or start with a bracket. -/
def Bracketed (t : Text) : Prop := ∀ c ∈ t.head?, c = '['

theorem bracketed_append {a b : Text} (ha : Bracketed a) (hb : Bracketed ('[' :: b)) : Bracketed (a ++ '[' :: b) := by
  cases a with
  | nil => exact hb
  | cons c a => exact ha

theorem bracketed_dimsOf (t : Text) : Bracketed (dimsOf t) := by
  intro c hc
  have hp := List.head?_dropWhile_not (fun x : Char => decide (x ≠ '[')) t
  rw [dimsOf] at hc
  rw [hc] at hp
  simpa using hp

/-- A base and dimensions are put together in one way. -/
theorem append_bracketed_inj {a b x y : Text} (ha : '[' ∉ a) (hb : '[' ∉ b) (hx : Bracketed x) (hy : Bracketed y)
    (h : a ++ x = b ++ y) : a = b ∧ x = y := by
  induction a generalizing b with
  | nil =>
    cases b with
    | nil => exact ⟨rfl, h⟩
    | cons c b =>
      rw [List.nil_append] at h
      exact absurd (hx c (by rw [h]; rfl) ▸ List.mem_cons_self) hb
  | cons c a ih =>
    cases b with
    | nil =>
      rw [List.nil_append] at h
      exact absurd (hy c (by rw [← h]; rfl) ▸ List.mem_cons_self) ha
    | cons d b =>
      obtain ⟨rfl, htail⟩ := List.cons.inj h
      obtain ⟨rfl, hxy⟩ := ih (fun hc => ha (List.mem_cons_of_mem _ hc)) (fun hc => hb (List.mem_cons_of_mem _ hc))
        htail
      exact ⟨rfl, hxy⟩

/-- What is read from a text is named by the base and the dimensions as they are read. -/
structure DimsRead (t : Text) (y base : DynSolType) (dims : Text) : Prop where
  name : y.name = base.name ++ dims
  noSpecial : NoSpecial dims
  bracketed : Bracketed dims
  written : dims = dimsOf t ↔ Grouped SizeWritten (fun _ => True) t

theorem exists_dimsRead {t : Text} {y : DynSolType} (h : dynText inner t = .ok y) :
    ∃ base dims, dynBase inner (baseOf t) = .ok base ∧ DimsRead t y base dims := by
  induction grouped_all t generalizing y with
  | base hb _ =>
    rw [dynText_base hb] at h
    obtain ⟨hbase, hdims⟩ := parts_of_base hb
    rw [hbase]
    refine ⟨y, [], h, (List.append_nil _).symm, fun c hc => (nomatch hc), fun c hc => (nomatch hc), ?_⟩
    rw [hdims, grouped_base hb]
    simp
  | @dim front behind hf hb _ ih =>
    rw [dynText_dim hb] at h
    rcases innerPart_cases behind with ⟨part, c, rfl, -, hpart⟩ | ⟨-, hpart⟩
    · rw [hpart] at h
      cases hfront : dynText inner front with
      | error e =>
        rw [hfront] at h
        cases h
      | ok elem =>
        rw [hfront] at h
        obtain ⟨base, dims, hbase, hname, hspecial, hbracketed, hdims⟩ := ih hfront
        obtain ⟨size, hsize, hnospecial, hnobracket, hwritten⟩ := name_dynArray (c := c) h
        obtain ⟨hbaseOf, hdimsOf⟩ := parts_of_dim front (part ++ [c])
        rw [hbaseOf]
        refine ⟨base, dims ++ '[' :: size, hbase, by rw [hsize, hname, List.append_assoc],
          noSpecial_append.mpr ⟨hspecial, ?_⟩, bracketed_append hbracketed fun d hd => (Option.some.inj hd).symm, ?_⟩
        · intro d hd
          rcases List.mem_cons.mp hd with rfl | hd
          · decide
          · exact hnospecial d hd
        · rw [hdimsOf, grouped_dim hb, ← hdims, ← hwritten]
          constructor
          · exact append_bracket_inj hnobracket hb
          · rintro ⟨rfl, rfl⟩
            rfl
    · rw [hpart] at h
      cases h

/-! ### Canonical names -/

theorem tuple_of_baseOf {t : Text} (h : baseOf t = "tuple".toList) : t = "tuple".toList ++ dimsOf t := by
  rw [← h, baseOf_append_dimsOf]

theorem canonicalFrom_tuple {names : Option (Outcome (List Text))} {t c : Text} (ht : baseOf t = "tuple".toList) :
    canonicalFrom (some t) names = .ok c ↔ ∃ ns, names = some (.ok ns) ∧ c = parens ns ++ dimsOf t := by
  have hsplit := tuple_of_baseOf ht
  rw [canonicalFrom.eq_def]
  dsimp only
  by_cases h1 : t = "tuple".toList
  · have hdims : dimsOf t = [] := by
      rw [h1]
      rfl
    rw [if_pos h1, map_eq_ok, hdims]
    simp only [componentsOr_eq_ok, List.append_nil]
  rw [if_neg h1]
  by_cases h2 : t = "tuple[]".toList
  · have hdims : dimsOf t = "[]".toList := by
      rw [h2]
      rfl
    rw [if_pos h2, map_eq_ok, hdims]
    simp only [componentsOr_eq_ok]
  rw [if_neg h2]
  have hbracketed := bracketed_dimsOf t
  cases hdims : dimsOf t with
  | nil =>
    rw [hdims, List.append_nil] at hsplit
    exact absurd hsplit h1
  | cons d suffix =>
    rw [hdims] at hsplit hbracketed
    obtain rfl := hbracketed d rfl
    have hstrip : stripPrefix "tuple[".toList t = some suffix := stripPrefix_eq_some.mpr hsplit
    rw [hstrip]
    dsimp only
    rw [map_eq_ok]
    simp only [componentsOr_eq_ok]

theorem canonicalFrom_plain {names : Option (Outcome (List Text))} {t : Text} (ht : baseOf t ≠ "tuple".toList) :
    canonicalFrom (some t) names = .ok t := by
  have h1 : t ≠ "tuple".toList := by
    rintro rfl
    exact ht rfl
  have h2 : t ≠ "tuple[]".toList := by
    rintro rfl
    exact ht rfl
  have h3 : stripPrefix "tuple[".toList t = none := by
    rw [Option.eq_none_iff_forall_not_mem]
    intro suffix hs
    have heq := stripPrefix_eq_some.mp hs
    refine ht ?_
    rw [heq]
    rfl
  rw [canonicalFrom.eq_def]
  dsimp only
  rw [if_neg h1, if_neg h2, h3]

/-! ### Both readings of a descriptor -/

/-- Both readings give a result. -/
def Reads (d : AbiInput) (y : DynSolType) (c : Text) : Prop :=
  abiToDynSolType d = .ok y ∧ canonicalType d = .ok c

/-- Both readings of each descriptor of a list. -/
inductive ReadsAll : List AbiInput → List DynSolType → List Text → Prop where
  | nil : ReadsAll [] [] []
  | cons {d : AbiInput} {ds : List AbiInput} {y : DynSolType} {ys : List DynSolType} {c : Text} {cs : List Text}
    (h : Reads d y c) (hs : ReadsAll ds ys cs) : ReadsAll (d :: ds) (y :: ys) (c :: cs)

theorem readsAll_of_ok {ds : List AbiInput} {ys : List DynSolType} {cs : List Text}
    (hy : abiToDynSolTypes ds = .ok ys) (hc : canonicalTypes ds = .ok cs) : ReadsAll ds ys cs := by
  induction ds generalizing ys cs with
  | nil =>
    obtain rfl := Except.ok.inj hy
    obtain rfl := Except.ok.inj hc
    exact .nil
  | cons d ds ih =>
    rw [abiToDynSolTypes] at hy
    rw [canonicalTypes] at hc
    cases hd : abiToDynSolType d with
    | error e =>
      rw [hd] at hy
      cases hy
    | ok y =>
      cases hds : abiToDynSolTypes ds with
      | error e =>
        rw [hd, hds] at hy
        cases hy
      | ok ys =>
        cases hdc : canonicalType d with
        | error e =>
          rw [hdc] at hc
          cases hc
        | ok c =>
          cases hdcs : canonicalTypes ds with
          | error e =>
            rw [hdc, hdcs] at hc
            cases hc
          | ok cs =>
            rw [hd, hds] at hy
            rw [hdc, hdcs] at hc
            obtain rfl := Except.ok.inj hy
            obtain rfl := Except.ok.inj hc
            exact .cons ⟨hd, hdc⟩ (ih hds hdcs)

mutual

/-- The descriptors whose texts are written as the names of what is read from them. -/
def Written : AbiInput → Prop
  | .bare solType => ∀ t ∈ solType, Grouped SizeWritten ElementaryWritten t
  | .composite solType components => ∀ t ∈ solType,
    Grouped SizeWritten (fun b => ElementaryWritten b ∨ b = "tuple".toList ∧ AllWritten components) t

/-- `Written` of each descriptor of a list. -/
def AllWritten : List AbiInput → Prop
  | [] => True
  | d :: ds => Written d ∧ AllWritten ds

end

mutual

/-- The descriptors without separators in their texts. -/
def Clean : AbiInput → Prop
  | .bare solType => ∀ t ∈ solType, NoSpecial t
  | .composite solType components => ∀ t ∈ solType, NoSpecial t ∧ (baseOf t = "tuple".toList → AllClean components)

/-- `Clean` of each descriptor of a list. -/
def AllClean : List AbiInput → Prop
  | [] => True
  | d :: ds => Clean d ∧ AllClean ds

end

/-- The readings of a descriptor with an elementary base. -/
structure PlainReads (d : AbiInput) (t : Text) (base : DynSolType) (c : Text) : Prop where
  canonical : c = t
  name : PlainName base.name
  base : base.name = baseOf t ↔ ElementaryWritten (baseOf t)
  written : Written d ↔ Grouped SizeWritten (fun _ => True) t ∧ ElementaryWritten (baseOf t)
  clean : Clean d ↔ NoSpecial t

/-- The readings of a tuple, with the readings of the components. -/
structure TupleReads (d : AbiInput) (t : Text) (base : DynSolType) (c : Text) (ds : List AbiInput) (ys : List DynSolType)
    (cs : List Text) : Prop where
  text : baseOf t = "tuple".toList
  descriptor : d = .composite (some t) ds
  components : ReadsAll ds ys cs
  base : base = .tuple ys
  canonical : c = parens cs ++ dimsOf t

/-- A descriptor that both functions read has an elementary base, or is a tuple of its components. -/
theorem reads_cases {d : AbiInput} {y : DynSolType} {c : Text} (h : Reads d y c) :
    ∃ t base dims, DimsRead t y base dims ∧
      (PlainReads d t base c ∨ ∃ ds ys cs, TupleReads d t base c ds ys cs) := by
  obtain ⟨hy, hc⟩ := h
  cases d with
  | bare solType =>
    cases solType with
    | none => cases hc
    | some t =>
      have hdyn : dynText none t = .ok y := hy
      have hcanon : canonicalFrom (some t) none = .ok c := hc
      obtain ⟨base, dims, hbase, hdims⟩ := exists_dimsRead hdyn
      have ht : baseOf t ≠ "tuple".toList := by
        intro ht
        rw [ht, dynBase_tuple] at hbase
        cases hbase
      obtain ⟨hname, hwritten⟩ := name_dynBase hbase ht
      rw [canonicalFrom_plain ht] at hcanon
      refine ⟨t, base, dims, hdims, .inl ⟨(Except.ok.inj hcanon).symm, hname, hwritten, ?_, ?_⟩⟩
      · rw [← grouped_iff, Written]
        simp
      · rw [Clean]
        simp
  | composite solType ds =>
    cases solType with
    | none => cases hc
    | some t =>
      have hdyn : dynText (some (abiToDynSolTypes ds)) t = .ok y := hy
      have hcanon : canonicalFrom (some t) (some (canonicalTypes ds)) = .ok c := hc
      obtain ⟨base, dims, hbase, hdims⟩ := exists_dimsRead hdyn
      refine ⟨t, base, dims, hdims, ?_⟩
      by_cases ht : baseOf t = "tuple".toList
      · rw [ht, dynBase_tuple, map_eq_ok] at hbase
        obtain ⟨ys, hys, rfl⟩ := hbase
        obtain ⟨cs, hcs, rfl⟩ := (canonicalFrom_tuple ht).mp hcanon
        exact .inr ⟨ds, ys, cs, ht, rfl, readsAll_of_ok hys (Option.some.inj hcs), rfl, rfl⟩
      · obtain ⟨hname, hwritten⟩ := name_dynBase hbase ht
        rw [canonicalFrom_plain ht] at hcanon
        refine .inl ⟨(Except.ok.inj hcanon).symm, hname, hwritten, ?_, ?_⟩
        · rw [Written]
          simp only [Option.mem_def, Option.some.injEq, forall_eq']
          rw [grouped_iff, or_iff_left fun h => ht h.1]
        · rw [Clean]
          simp only [Option.mem_def, Option.some.injEq, forall_eq', ht, false_implies, and_true]

/-! ### Separators in both names -/

theorem count_eq_zero {t : Text} : t.countP special = 0 ↔ NoSpecial t := by
  rw [List.countP_eq_zero]
  simp only [NoSpecial, Bool.not_eq_true]

theorem count_parens (ns : List Text) : (parens ns).countP special = 2 + (commaJoin ns).countP special := by
  rw [parens, List.countP_cons, List.countP_append]
  simp [special]
  omega

/-- The separators of the components: none is missing in the canonical names, and where there are no more the
texts are clean. -/
theorem count_components {ds : List AbiInput} {ys : List DynSolType} {cs : List Text} (h : ReadsAll ds ys cs)
    (hds : ∀ d ∈ ds, ∀ y c, Reads d y c →
      y.name.countP special ≤ c.countP special ∧ (c.countP special ≤ y.name.countP special → Clean d)) :
    ((commaRest (DynSolType.names ys)).countP special ≤ (commaRest cs).countP special ∧
      ((commaRest cs).countP special ≤ (commaRest (DynSolType.names ys)).countP special → AllClean ds)) ∧
    ((commaJoin (DynSolType.names ys)).countP special ≤ (commaJoin cs).countP special ∧
      ((commaJoin cs).countP special ≤ (commaJoin (DynSolType.names ys)).countP special → AllClean ds)) := by
  induction h with
  | nil => exact ⟨⟨le_rfl, fun _ => trivial⟩, le_rfl, fun _ => trivial⟩
  | @cons d ds y ys c cs hd hs ih =>
    obtain ⟨hhead, htail⟩ := List.forall_mem_cons.mp hds
    obtain ⟨hle, hclean⟩ := hhead y c hd
    obtain ⟨⟨hrest, hcleans⟩, -⟩ := ih htail
    simp only [DynSolType.names, commaRest, commaJoin, List.countP_cons, List.countP_append]
    exact ⟨⟨by omega, fun h => ⟨hclean (by omega), hcleans (by omega)⟩⟩,
      by omega, fun h => ⟨hclean (by omega), hcleans (by omega)⟩⟩

/-- The separators of a name are in the canonical name too. -/
theorem count_le {d : AbiInput} : ∀ {y : DynSolType} {c : Text}, Reads d y c →
    y.name.countP special ≤ c.countP special ∧ (c.countP special ≤ y.name.countP special → Clean d) := by
  induction d using AbiInput.induction_on with
  | bare solType =>
    intro y c h
    obtain ⟨t, base, dims, hdims, hplain | ⟨ds, ys, cs, htuple⟩⟩ := reads_cases h
    · rw [hdims.name, List.countP_append, count_eq_zero.mpr hplain.name.noSpecial, count_eq_zero.mpr hdims.noSpecial,
        hplain.canonical, hplain.clean, ← count_eq_zero]
      omega
    · exact nomatch htuple.descriptor
  | composite solType ds ih =>
    intro y c h
    obtain ⟨t, base, dims, hdims, hplain | ⟨ds', ys, cs, htuple⟩⟩ := reads_cases h
    · rw [hdims.name, List.countP_append, count_eq_zero.mpr hplain.name.noSpecial, count_eq_zero.mpr hdims.noSpecial,
        hplain.canonical, hplain.clean, ← count_eq_zero]
      omega
    · obtain ⟨rfl, rfl⟩ := AbiInput.composite.inj htuple.descriptor
      obtain ⟨-, hjoin, hclean⟩ := count_components htuple.components fun d hd y c => ih d hd
      have ht : (baseOf t).countP special = 0 := by
        rw [htuple.text]
        decide
      have hsplit : t.countP special = (baseOf t).countP special + (dimsOf t).countP special := by
        rw [← List.countP_append, baseOf_append_dimsOf]
      rw [hdims.name, htuple.base, htuple.canonical, DynSolType.name, List.countP_append, List.countP_append,
        count_eq_zero.mpr hdims.noSpecial, count_parens, count_parens, Clean]
      refine ⟨by omega, fun hle t' ht' => ?_⟩
      obtain rfl := Option.some.inj ht'
      exact ⟨count_eq_zero.mp (by omega), fun _ => hclean (by omega)⟩

/-! ### Comparing the names -/

/-- The components line up. -/
theorem components_line_up {ds : List AbiInput} {ys : List DynSolType} {cs : List Text} (h : ReadsAll ds ys cs)
    (hds : ∀ d ∈ ds, ∀ y c, Reads d y c → Clean d → ∀ u v, Stops u → Stops v → y.name ++ u = c ++ v →
      Written d ∧ u = v) (hclean : AllClean ds) {u v : Text} :
    (commaRest (DynSolType.names ys) ++ ')' :: u = commaRest cs ++ ')' :: v → AllWritten ds ∧ u = v) ∧
      (commaJoin (DynSolType.names ys) ++ ')' :: u = commaJoin cs ++ ')' :: v → AllWritten ds ∧ u = v) := by
  have hstop : ∀ (ts : List Text) (w : Text), Stops (commaRest ts ++ ')' :: w) := by
    intro ts w
    cases ts with
    | nil => exact stops_cons rfl _
    | cons t ts => exact stops_cons rfl _
  induction h with
  | nil => exact ⟨fun h => ⟨trivial, (List.cons.inj h).2⟩, fun h => ⟨trivial, (List.cons.inj h).2⟩⟩
  | @cons d ds y ys c cs hd hs ih =>
    obtain ⟨hhead, htail⟩ := List.forall_mem_cons.mp hds
    obtain ⟨hrest, -⟩ := ih htail hclean.2
    have hstep : y.name ++ (commaRest (DynSolType.names ys) ++ ')' :: u) = c ++ (commaRest cs ++ ')' :: v) →
        AllWritten (d :: ds) ∧ u = v := by
      intro heq
      obtain ⟨hwritten, hrests⟩ := hhead y c hd hclean.1 _ _ (hstop _ _) (hstop _ _) heq
      obtain ⟨hwrittens, huv⟩ := hrest hrests
      exact ⟨⟨hwritten, hwrittens⟩, huv⟩
    simp only [DynSolType.names, commaRest, commaJoin, List.cons_append, List.append_assoc, List.cons.injEq, true_and]
    exact ⟨hstep, hstep⟩

theorem plain_lines_up {d : AbiInput} {t : Text} {y base : DynSolType} {c dims u v : Text} (hdims : DimsRead t y base dims)
    (hplain : PlainReads d t base c) (hclean : Clean d) (hu : Stops u) (hv : Stops v) (h : y.name ++ u = c ++ v) :
    Written d ∧ u = v := by
  rw [hdims.name, hplain.canonical] at h
  obtain ⟨hname, huv⟩ := append_stops_inj (noSpecial_append.mpr ⟨hplain.name.noSpecial, hdims.noSpecial⟩)
    (hplain.clean.mp hclean) hu hv h
  rw [← baseOf_append_dimsOf t] at hname
  obtain ⟨hbase, hdim⟩ := append_bracketed_inj hplain.name.noBracket (bracket_not_mem_baseOf t) hdims.bracketed
    (bracketed_dimsOf t) hname
  exact ⟨hplain.written.mpr ⟨hdims.written.mp hdim, hplain.base.mp hbase⟩, huv⟩

/-- Names that are equal up to what follows them are equal, and the texts are written as they are read. -/
theorem lines_up {d : AbiInput} : ∀ {y : DynSolType} {c : Text}, Reads d y c → Clean d → ∀ {u v : Text}, Stops u →
    Stops v → y.name ++ u = c ++ v → Written d ∧ u = v := by
  induction d using AbiInput.induction_on with
  | bare solType =>
    intro y c h hclean u v hu hv heq
    obtain ⟨t, base, dims, hdims, hplain | ⟨ds, ys, cs, htuple⟩⟩ := reads_cases h
    · exact plain_lines_up hdims hplain hclean hu hv heq
    · exact nomatch htuple.descriptor
  | composite solType ds ih =>
    intro y c h hclean u v hu hv heq
    obtain ⟨t, base, dims, hdims, hplain | ⟨ds', ys, cs, htuple⟩⟩ := reads_cases h
    · exact plain_lines_up hdims hplain hclean hu hv heq
    · obtain ⟨rfl, rfl⟩ := AbiInput.composite.inj htuple.descriptor
      rw [Clean] at hclean
      obtain ⟨hnoSpecial, hcleans⟩ := hclean t rfl
      have hnoDims : NoSpecial (dimsOf t) := by
        rw [← baseOf_append_dimsOf t] at hnoSpecial
        exact (noSpecial_append.mp hnoSpecial).2
      rw [hdims.name, htuple.base, htuple.canonical, DynSolType.name, parens, parens] at heq
      simp only [List.cons_append, List.append_assoc, List.nil_append, List.cons.injEq, true_and] at heq
      obtain ⟨hwritten, hrest⟩ := (components_line_up htuple.components (fun d hd y c hr hc u v => ih d hd hr hc)
        (hcleans htuple.text)).2 heq
      obtain ⟨hdim, huv⟩ := append_stops_inj hdims.noSpecial hnoDims hu hv hrest
      refine ⟨?_, huv⟩
      rw [Written]
      intro t' ht'
      obtain rfl := Option.some.inj ht'
      rw [grouped_iff]
      exact ⟨hdims.written.mp hdim, .inr ⟨htuple.text, hwritten⟩⟩

theorem names_of_written {ds : List AbiInput} {ys : List DynSolType} {cs : List Text} (h : ReadsAll ds ys cs)
    (hds : ∀ d ∈ ds, ∀ y c, Reads d y c → Written d → y.name = c) (hwritten : AllWritten ds) :
    DynSolType.names ys = cs := by
  induction h with
  | nil => rfl
  | cons hd hs ih =>
    obtain ⟨hhead, htail⟩ := List.forall_mem_cons.mp hds
    rw [DynSolType.names, hhead _ _ hd hwritten.1, ih htail hwritten.2]

theorem plain_name_of_written {d : AbiInput} {t : Text} {y base : DynSolType} {c dims : Text}
    (hdims : DimsRead t y base dims) (hplain : PlainReads d t base c) (hwritten : Written d) : y.name = c := by
  obtain ⟨hdim, hbase⟩ := hplain.written.mp hwritten
  rw [hdims.name, hplain.base.mpr hbase, hdims.written.mpr hdim, hplain.canonical, baseOf_append_dimsOf]

theorem name_of_written {d : AbiInput} : ∀ {y : DynSolType} {c : Text}, Reads d y c → Written d → y.name = c := by
  induction d using AbiInput.induction_on with
  | bare solType =>
    intro y c h hwritten
    obtain ⟨t, base, dims, hdims, hplain | ⟨ds, ys, cs, htuple⟩⟩ := reads_cases h
    · exact plain_name_of_written hdims hplain hwritten
    · exact nomatch htuple.descriptor
  | composite solType ds ih =>
    intro y c h hwritten
    obtain ⟨t, base, dims, hdims, hplain | ⟨ds', ys, cs, htuple⟩⟩ := reads_cases h
    · exact plain_name_of_written hdims hplain hwritten
    · obtain ⟨rfl, rfl⟩ := AbiInput.composite.inj htuple.descriptor
      rw [Written] at hwritten
      obtain ⟨hdim, hbase⟩ := grouped_iff.mp (hwritten t rfl)
      have hnot : ¬ElementaryWritten "tuple".toList := by
        rw [ElementaryWritten]
        simp
      rw [htuple.text, or_iff_right hnot] at hbase
      have hnames := names_of_written htuple.components (fun d hd y c => ih d hd) hbase.2
      rw [hdims.name, htuple.base, htuple.canonical, DynSolType.name, hnames, hdims.written.mpr hdim]

/-- **The name of the type is the canonical name** exactly when the texts are written as they are read. -/
theorem name_eq_iff {d : AbiInput} {y : DynSolType} {c : Text} (h : Reads d y c) : y.name = c ↔ Written d := by
  constructor
  · intro heq
    have hclean := (count_le h).2 (by rw [heq])
    exact (lines_up h hclean (u := []) (v := []) (fun c hc => nomatch hc) (fun c hc => nomatch hc) (by rw [heq])).1
  · exact name_of_written h

/-! ### Canonical names exist -/

/-- Dimensions behind a text are dimensions behind the canonical name. -/
theorem canonicalFrom_append {names : Option (Outcome (List Text))} {t c behind : Text}
    (h : canonicalFrom (some t) names = .ok c) :
    canonicalFrom (some (t ++ '[' :: behind)) names = .ok (c ++ '[' :: behind) := by
  obtain ⟨hbase, hdims⟩ := parts_of_dim t behind
  by_cases ht : baseOf t = "tuple".toList
  · obtain ⟨ns, hns, rfl⟩ := (canonicalFrom_tuple ht).mp h
    refine (canonicalFrom_tuple (hbase.trans ht)).mpr ⟨ns, hns, ?_⟩
    rw [hdims, List.append_assoc]
  · rw [canonicalFrom_plain ht] at h
    rw [canonicalFrom_plain (fun h => ht (hbase ▸ h)), Except.ok.inj h]

theorem canonicalTypes_ok {ds : List AbiInput} (h : ∀ d ∈ ds, ∃ c, canonicalType d = .ok c) :
    ∃ cs, canonicalTypes ds = .ok cs := by
  induction ds with
  | nil => exact ⟨[], rfl⟩
  | cons d ds ih =>
    obtain ⟨⟨c, hc⟩, hds⟩ := List.forall_mem_cons.mp h
    obtain ⟨cs, hcs⟩ := ih hds
    refine ⟨c :: cs, ?_⟩
    rw [canonicalTypes, hc, hcs]
    rfl

/-- What the encoder reads has a canonical name. -/
theorem canonicalType_of_accepted {d : AbiInput} : Accepted d → ∃ c, canonicalType d = .ok c := by
  induction d using AbiInput.induction_on with
  | bare solType =>
    rintro ⟨t, rfl, ht⟩
    refine ⟨t, canonicalFrom_plain fun htuple => ?_⟩
    have helem := (grouped_iff.mp ht).2
    rw [htuple, ElementaryOk] at helem
    revert helem
    decide
  | composite solType ds ih =>
    rintro ⟨t, rfl, ht⟩
    by_cases htuple : baseOf t = "tuple".toList
    · have helem := (grouped_iff.mp ht).2
      have hnot : ¬ElementaryOk "tuple".toList := by
        rw [ElementaryOk]
        decide
      rw [htuple, or_iff_right hnot] at helem
      obtain ⟨cs, hcs⟩ := canonicalTypes_ok fun d hd => ih d hd (allAccepted_iff.mp helem.2 d hd)
      exact ⟨_, (canonicalFrom_tuple htuple).mpr ⟨cs, by rw [hcs], rfl⟩⟩
    · exact ⟨t, canonicalFrom_plain htuple⟩

theorem canonicalFrom_ne_panic {solType : Option Text} {names : Option (Outcome (List Text))}
    (h : names ≠ some (.error .panic)) : canonicalFrom solType names ≠ .error .panic := by
  have hmap : ∀ (message : String) (f : List Text → Text),
      (componentsOr message names).map f ≠ .error .panic := by
    intro message f
    cases names with
    | none => simp [componentsOr, Except.map]
    | some collected =>
      cases collected with
      | error e =>
        intro he
        exact h (by cases he; rfl)
      | ok ns => simp [componentsOr, Except.map]
  rw [canonicalFrom.eq_def]
  repeat' split
  all_goals first
    | exact hmap _ _
    | simp

theorem canonicalTypes_ne_panic {ds : List AbiInput} (h : ∀ d ∈ ds, canonicalType d ≠ .error .panic) :
    canonicalTypes ds ≠ .error .panic := by
  induction ds with
  | nil => exact fun h => (nomatch h)
  | cons d ds ih =>
    obtain ⟨hd, hds⟩ := List.forall_mem_cons.mp h
    have hrest := ih hds
    rw [canonicalTypes]
    cases hc : canonicalType d with
    | error e =>
      intro he
      rw [hc] at hd
      exact hd (by cases he; rfl)
    | ok c =>
      cases hcs : canonicalTypes ds with
      | error e =>
        intro he
        rw [hcs] at hrest
        exact hrest (by cases he; rfl)
      | ok cs => exact fun h => (nomatch h)

/-- The canonical name is found without a panic. -/
theorem canonicalType_ne_panic (d : AbiInput) : canonicalType d ≠ .error .panic := by
  induction d using AbiInput.induction_on with
  | bare solType => exact canonicalFrom_ne_panic (by simp)
  | composite solType ds ih =>
    exact canonicalFrom_ne_panic (by simpa using canonicalTypes_ne_panic ih)

end PvmContract.Cli
