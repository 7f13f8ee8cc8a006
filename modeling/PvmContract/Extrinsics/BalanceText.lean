import PvmContract.Data.Text
import PvmContract.Extrinsics.BalanceLaws

/-!
# Reading amounts back

A text is a numeral and the letters behind it. Where the numeral has no sign, the
reader takes the first of these letters that is not numeric for the unit; where it
has one, the unit is the plain one (`readAmount_eq_ok`). This is the unit that the
text names except for symbols that start with the letter of a prefix, for signed
numerals with a prefix, and for the symbols of other tokens.
-/

namespace PvmContract.Extrinsics

open Data BalanceVariant

variable {U : CharClasses}

/-! ### Characters -/

theorem digit_lt {c : Char} (h : c.isDigit = true) : c.toNat < 128 :=
  lt_of_le_of_lt (isDigit_iff.mp h).2 (by decide)

/-- The characters of a numeral behind its sign. -/
def NumeralChar (c : Char) : Prop := c.isDigit = true ∨ c = '.'

theorem NumeralChar.leads {c : Char} (h : NumeralChar c) : U.leads c = true := by
  rcases h with h | rfl
  · rw [CharClasses.leads, U.isNumeric_ascii c (digit_lt h), h]
    rfl
  · simp [CharClasses.leads]

theorem NumeralChar.not_alphabetic {c : Char} (h : NumeralChar c) : U.isAlphabetic c = false := by
  rcases h with h | rfl
  · rw [U.isAlphabetic_ascii c (digit_lt h), isAlpha_of_isDigit h]
  · rw [U.isAlphabetic_ascii '.' (by decide)]
    rfl

theorem leads_of_alphabetic {c : Char} (h : U.isAlphabetic c = true) : U.leads c = U.isNumeric c := by
  have hdot : c ≠ '.' := by
    rintro rfl
    rw [U.isAlphabetic_ascii '.' (by decide)] at h
    cases h
  have hcomma : c ≠ ',' := by
    rintro rfl
    rw [U.isAlphabetic_ascii ',' (by decide)] at h
    cases h
  rw [CharClasses.leads, beq_eq_false_iff_ne.mpr hdot, beq_eq_false_iff_ne.mpr hcomma, Bool.or_false, Bool.or_false]

theorem isDigit_of_alphabetic {c : Char} (h : U.isAlphabetic c = true) : c.isDigit = false := by
  by_contra hd
  have hd := Bool.not_eq_false _ ▸ hd
  rw [NumeralChar.not_alphabetic (.inl hd)] at h
  cases h

theorem text_letters {u : UnitPrefix} : ∀ c ∈ u.text, U.isAlphabetic c = true ∧ U.isNumeric c = false := by
  have hascii : ∀ c : Char, c.toNat < 128 → c.isAlpha = true → c.isDigit = false →
      U.isAlphabetic c = true ∧ U.isNumeric c = false := by
    intro c hc ha hd
    rw [U.isAlphabetic_ascii c hc, U.isNumeric_ascii c hc]
    exact ⟨ha, hd⟩
  intro c hc
  cases u <;> simp only [UnitPrefix.text, List.mem_singleton, List.not_mem_nil] at hc <;> subst hc
  case micro => exact ⟨U.isAlphabetic_micro, U.isNumeric_micro⟩
  all_goals exact hascii _ (by decide) (by decide) (by decide)

/-! ### The parts of a text -/

theorem unsignedNumeral_chars {t : Text} {p : ℕ × ℕ} (h : unsignedNumeral t = some p) :
    t ≠ [] ∧ ∀ c ∈ t, NumeralChar c := by
  have hsplit := List.takeWhile_append_dropWhile (p := Char.isDigit) (l := t)
  have hint : ∀ c ∈ t.takeWhile Char.isDigit, NumeralChar c := fun c hc => .inl (List.mem_takeWhile_imp hc)
  rw [unsignedNumeral] at h
  cases hrest : t.dropWhile Char.isDigit with
  | nil =>
    rw [hrest] at h hsplit
    rw [List.append_nil] at hsplit
    split_ifs at h with hne
    rw [hsplit] at hint hne
    exact ⟨hne, hint⟩
  | cons c frac =>
    rw [hrest] at h hsplit
    by_cases hc : c = '.'
    · subst hc
      change (if (_ && _) = true then _ else none) = some p at h
      split_ifs at h with hall
      rw [Bool.and_eq_true, List.all_eq_true] at hall
      refine ⟨?_, ?_⟩
      · rintro rfl
        simp at hsplit
      · intro c hc
        rw [← hsplit] at hc
        rcases List.mem_append.mp hc with hc | hc
        · exact hint c hc
        · rcases List.mem_cons.mp hc with rfl | hc
          · exact .inr rfl
          · exact .inl (hall.1 c hc)
    · exfalso
      revert h
      split
      · rename_i heq
        cases heq
      · rename_i heq
        exact absurd (List.cons.inj heq).1 hc
      · intro h
        cases h

/-- Texts with a sign in front. -/
def Signed (t : Text) : Prop := t.head? = some '-' ∨ t.head? = some '+'

theorem numeral_cases {t : Text} {p : ℤ × ℕ} (h : numeral t = some p) :
    ∃ body, (t = body ∨ t = '-' :: body ∨ t = '+' :: body) ∧ body ≠ [] ∧ ∀ c ∈ body, NumeralChar c := by
  rw [numeral.eq_def] at h
  split at h
  · rename_i body
    obtain ⟨q, hq, -⟩ := Option.map_eq_some_iff.mp h
    exact ⟨body, .inr (.inl rfl), unsignedNumeral_chars hq⟩
  · rename_i body
    obtain ⟨q, hq, -⟩ := Option.map_eq_some_iff.mp h
    exact ⟨body, .inr (.inr rfl), unsignedNumeral_chars hq⟩
  · obtain ⟨q, hq, -⟩ := Option.map_eq_some_iff.mp h
    exact ⟨t, .inl rfl, unsignedNumeral_chars hq⟩

theorem NumeralChar.not_sign {c : Char} (h : NumeralChar c) : c ≠ '-' ∧ c ≠ '+' := by
  constructor
  · rintro rfl
    rcases h with h | h <;> cases h
  · rintro rfl
    rcases h with h | h <;> cases h

theorem exists_last_of_numeral {t : Text} {p : ℤ × ℕ} (h : numeral t = some p) :
    ∃ front c, t = front ++ [c] ∧ NumeralChar c := by
  obtain ⟨body, ht, hne, hbody⟩ := numeral_cases h
  have hlast := List.dropLast_append_getLast hne
  have hchar := hbody _ (List.getLast_mem hne)
  rcases ht with rfl | rfl | rfl
  · exact ⟨_, _, hlast.symm, hchar⟩
  · exact ⟨'-' :: body.dropLast, _, by rw [List.cons_append, hlast], hchar⟩
  · exact ⟨'+' :: body.dropLast, _, by rw [List.cons_append, hlast], hchar⟩

/-- The letters behind a numeral are the letters at the end. -/
theorem parts_of_numeral {num tail : Text} {p : ℤ × ℕ} (h : numeral num = some p)
    (htail : ∀ c ∈ tail, U.isAlphabetic c = true) :
    (num ++ tail).rdropWhile U.isAlphabetic = num ∧ (num ++ tail).rtakeWhile U.isAlphabetic = tail := by
  obtain ⟨front, c, rfl, hc⟩ := exists_last_of_numeral h
  have hrev : ∀ c ∈ tail.reverse, U.isAlphabetic c = true := fun c hc => htail c (List.mem_reverse.mp hc)
  have hcalpha : U.isAlphabetic c = false := hc.not_alphabetic
  rw [List.rdropWhile, List.rtakeWhile, List.reverse_append, List.dropWhile_append_of_pos hrev,
    List.takeWhile_append_of_pos hrev, List.reverse_append]
  simp [hcalpha]

theorem dropWhile_letters {tail : Text} (h : ∀ c ∈ tail, U.isAlphabetic c = true) :
    tail.dropWhile U.leads = tail.dropWhile U.isNumeric := by
  induction tail with
  | nil => rfl
  | cons c tail ih =>
    rw [List.dropWhile_cons, List.dropWhile_cons, leads_of_alphabetic (h c List.mem_cons_self),
      ih fun c hc => h c (List.mem_cons_of_mem _ hc)]

/-- What is behind a numeral without a sign. -/
theorem dropWhile_unsigned {num tail : Text} {p : ℤ × ℕ} (h : numeral num = some p)
    (hsigned : ¬Signed (num ++ tail)) (htail : ∀ c ∈ tail, U.isAlphabetic c = true) :
    (num ++ tail).dropWhile U.leads = tail.dropWhile U.isNumeric := by
  obtain ⟨body, ht, hne, hbody⟩ := numeral_cases h
  rcases ht with rfl | rfl | rfl
  · rw [List.dropWhile_append_of_pos fun c hc => (hbody c hc).leads, dropWhile_letters htail]
  · exact absurd (.inl rfl) hsigned
  · exact absurd (.inr rfl) hsigned

theorem dropWhile_signed {t : Text} (h : Signed t) :
    ∃ c rest, t.dropWhile U.leads = c :: rest ∧ UnitPrefix.ofChar c = .one := by
  have hminus : U.leads '-' = false := by
    rw [CharClasses.leads, U.isNumeric_ascii '-' (by decide)]
    rfl
  have hplus : U.leads '+' = false := by
    rw [CharClasses.leads, U.isNumeric_ascii '+' (by decide)]
    rfl
  cases t with
  | nil => rcases h with h | h <;> cases h
  | cons c rest =>
    rcases h with h | h
    · obtain rfl := Option.some.inj h
      exact ⟨'-', rest, by rw [List.dropWhile_cons, hminus]; rfl, rfl⟩
    · obtain rfl := Option.some.inj h
      exact ⟨'+', rest, by rw [List.dropWhile_cons, hplus]; rfl, rfl⟩

/-! ### The reader -/

/-- The text without the underscores. -/
def plainText (t : Text) : Text := t.filter (· ≠ '_')

theorem fromStr_eq_ok {t : Text} {b : DenominatedBalance} :
    DenominatedBalance.fromStr U t = .ok b ↔ ∃ c rest d, t.dropWhile U.leads = c :: rest ∧
      (UnitPrefix.ofChar c = .one ∨ rest ≠ []) ∧
      Decimal.fromStrExact (t.rdropWhile U.isAlphabetic) = some d ∧
      b = ⟨d.normalize, UnitPrefix.ofChar c, if UnitPrefix.ofChar c ≠ .one then rest else []⟩ := by
  rw [DenominatedBalance.fromStr]
  cases hdrop : t.dropWhile U.leads with
  | nil => simp
  | cons c rest =>
    dsimp only
    by_cases hbad : UnitPrefix.ofChar c ≠ .one ∧ rest = []
    · rw [if_pos hbad]
      constructor
      · intro h
        cases h
      · rintro ⟨c', rest', d, hcons, hor, -, -⟩
        obtain ⟨rfl, rfl⟩ := List.cons.inj hcons
        rcases hor with hor | hor
        · exact absurd hor hbad.1
        · exact absurd hbad.2 hor
    · rw [if_neg hbad]
      have hgood : UnitPrefix.ofChar c = .one ∨ rest ≠ [] := by
        by_cases hone : UnitPrefix.ofChar c = .one
        · exact .inl hone
        · exact .inr fun hnil => hbad ⟨hone, hnil⟩
      cases hd : Decimal.fromStrExact (t.rdropWhile U.isAlphabetic) with
      | none => simp
      | some d =>
        constructor
        · intro h
          obtain rfl := Except.ok.inj h
          exact ⟨c, rest, d, rfl, hgood, rfl, rfl⟩
        · rintro ⟨c', rest', d', hcons, -, hd', rfl⟩
          obtain ⟨rfl, rfl⟩ := List.cons.inj hcons
          obtain rfl := Option.some.inj hd'
          rfl

theorem fromStr_of_raw {t : Text} {n : ℕ} (h : parseU128 (plainText t) = some n) :
    BalanceVariant.fromStr U t = .ok (.default n) := by
  rw [plainText] at h
  simp only [BalanceVariant.fromStr, h]

theorem fromStr_of_text {t : Text} (h : parseU128 (plainText t) = none) :
    BalanceVariant.fromStr U t = (DenominatedBalance.fromStr U (plainText t)).map .denominated := by
  rw [plainText] at h ⊢
  simp only [BalanceVariant.fromStr, h]

/-- **The reader.** A text is denominated as the number in front of its letters, in the unit of the first
character that is not taken off in front, if it is no raw number. -/
theorem readAmount_eq_ok {token : TokenMetadata} (hdec : token.tokenDecimals ≤ 18) {t : Text} {a : ℕ} :
    readAmount U token t = .ok a ↔ parseU128 (plainText t) = some a ∨
      parseU128 (plainText t) = none ∧ ∃ c rest d, (plainText t).dropWhile U.leads = c :: rest ∧
        (UnitPrefix.ofChar c = .one ∨ rest ≠ []) ∧
        Decimal.fromStrExact ((plainText t).rdropWhile U.isAlphabetic) = some d ∧
        0 ≤ zerosOf token (UnitPrefix.ofChar c) ∧
        (a : ℚ) = d.value * 10 ^ zerosOf token (UnitPrefix.ofChar c) ∧ a < 2 ^ 96 := by
  rw [readAmount]
  cases hraw : parseU128 (plainText t) with
  | some n =>
    rw [fromStr_of_raw hraw]
    change Except.ok n = _ ↔ _
    simp
  | none =>
    rw [fromStr_of_text hraw]
    constructor
    · intro h
      obtain ⟨v, hv, hden⟩ := bind_eq_ok h
      cases hb : DenominatedBalance.fromStr U (plainText t) with
      | error e =>
        rw [hb] at hv
        cases hv
      | ok b =>
        rw [hb] at hv
        obtain rfl := Except.ok.inj hv
        obtain ⟨c, rest, d, hdrop, hor, hd, rfl⟩ := fromStr_eq_ok.mp hb
        have hworth := (denominate_eq_ok hdec d.reduced_normalize).mp hden
        rw [Decimal.value_normalize] at hworth
        exact .inr ⟨rfl, c, rest, d, hdrop, hor, hd, hworth⟩
    · rintro (h | ⟨-, c, rest, d, hdrop, hor, hd, hworth⟩)
      · cases h
      · rw [fromStr_eq_ok.mpr ⟨c, rest, d, hdrop, hor, hd, rfl⟩]
        refine (denominate_eq_ok hdec d.reduced_normalize).mpr ?_
        rw [Decimal.value_normalize]
        exact hworth

/-! ### What a text denotes -/

/-- The amount that a text denotes for a token: the raw number, or the numeral times the power of ten of
the unit prefix in front of the symbol. -/
def Denotes (token : TokenMetadata) (t : Text) (a : ℕ) : Prop :=
  parseU128 (plainText t) = some a ∨
    parseU128 (plainText t) = none ∧ ∃ num u m s, plainText t = num ++ (u.text ++ token.symbol) ∧
      numeral num = some (m, s) ∧ (a : ℚ) = m / 10 ^ s * 10 ^ zerosOf token u

/-- The letters at the end are a unit prefix and the symbol, and the number is zero or the prefix is
where the reader looks for it. -/
def NamesUnit (U : CharClasses) (token : TokenMetadata) (t : Text) : Prop :=
  ∃ u : UnitPrefix, t.rtakeWhile U.isAlphabetic = u.text ++ token.symbol ∧
    ((∃ s, numeral (t.rdropWhile U.isAlphabetic) = some (0, s)) ∨ Signed t ∧ u = .one ∨
      ¬Signed t ∧ (u ≠ .one ∨ ∀ c ∈ (token.symbol.dropWhile U.isNumeric).head?, UnitPrefix.ofChar c = .one))

theorem tail_letters {token : TokenMetadata} (hsym : ∀ c ∈ token.symbol, U.isAlphabetic c = true)
    (u : UnitPrefix) : ∀ c ∈ u.text ++ token.symbol, U.isAlphabetic c = true := by
  intro c hc
  rcases List.mem_append.mp hc with hc | hc
  · exact (text_letters c hc).1
  · exact hsym c hc

theorem rdropWhile_append_rtakeWhile (p : Char → Bool) (t : Text) : t.rdropWhile p ++ t.rtakeWhile p = t := by
  rw [List.rdropWhile, List.rtakeWhile, ← List.reverse_append, List.takeWhile_append_dropWhile,
    List.reverse_reverse]

/-- The first character that the reader does not take off in front, behind a unit prefix. -/
theorem dropWhile_prefix {u : UnitPrefix} (hu : u ≠ .one) (symbol : Text) :
    ∃ c, (u.text ++ symbol).dropWhile U.isNumeric = c :: symbol ∧ UnitPrefix.ofChar c = u := by
  obtain ⟨c, htext, hc⟩ := UnitPrefix.text_of_ne_one hu
  have hnum : U.isNumeric c = false := (text_letters c (by rw [htext]; exact List.mem_singleton_self c)).2
  exact ⟨c, by rw [htext, List.singleton_append, List.dropWhile_cons, hnum]; rfl, hc⟩

theorem zpow_ten_inj {j k : ℤ} {q : ℚ} : q * 10 ^ j = q * 10 ^ k ↔ q = 0 ∨ j = k := by
  rw [mul_eq_mul_left_iff, or_comm, zpow_right_inj₀ (by positivity) (by simp)]

/-- Where the reader finds the unit that is named. -/
theorem unit_found_iff {token : TokenMetadata} (hsym : ∀ c ∈ token.symbol, U.isAlphabetic c = true)
    {t num rest : Text} {c : Char} {u : UnitPrefix} {p : ℤ × ℕ} (hnum : numeral num = some p)
    (ht : t = num ++ (u.text ++ token.symbol)) (hdrop : t.dropWhile U.leads = c :: rest) :
    u = UnitPrefix.ofChar c ↔ Signed t ∧ u = .one ∨
      ¬Signed t ∧ (u ≠ .one ∨ ∀ c ∈ (token.symbol.dropWhile U.isNumeric).head?, UnitPrefix.ofChar c = .one) := by
  by_cases hsigned : Signed t
  · obtain ⟨c', rest', hdrop', hone⟩ := dropWhile_signed (U := U) hsigned
    rw [hdrop'] at hdrop
    obtain ⟨rfl, rfl⟩ := List.cons.inj hdrop
    simp [hsigned, hone]
  · have htail : (u.text ++ token.symbol).dropWhile U.isNumeric = c :: rest := by
      subst ht
      rw [← hdrop, dropWhile_unsigned hnum hsigned (tail_letters hsym u)]
    by_cases hu : u = .one
    · subst hu
      change token.symbol.dropWhile U.isNumeric = c :: rest at htail
      rw [htail]
      simp [hsigned, eq_comm]
    · obtain ⟨c', htail', hc'⟩ := dropWhile_prefix (U := U) hu token.symbol
      rw [htail'] at htail
      obtain ⟨rfl, rfl⟩ := List.cons.inj htail
      simp [hsigned, hu, hc']

/-- Which texts are denominated to what they denote. -/
theorem denotes_iff {token : TokenMetadata} (hdec : token.tokenDecimals ≤ 18)
    (hsym : ∀ c ∈ token.symbol, U.isAlphabetic c = true) {t : Text} {a : ℕ}
    (h : readAmount U token t = .ok a) :
    Denotes token t a ↔ (parseU128 (plainText t)).isSome = true ∨ NamesUnit U token (plainText t) := by
  rcases (readAmount_eq_ok hdec).mp h with hraw | ⟨hraw, c, rest, d, hdrop, -, hd, -, hworth, -⟩
  · simp [Denotes, hraw]
  · obtain ⟨⟨m, s⟩, hnum, hparts⟩ := Option.bind_eq_some_iff.mp hd
    obtain ⟨hm, hs⟩ := Decimal.ofParts_eq_some hparts
    have hval : d.value = m / 10 ^ s := by rw [Decimal.value, hm, hs]
    have hzero : d.value = 0 ↔ m = 0 := by
      rw [hval, div_eq_zero_iff]
      simp
    have hequal : ∀ u, (a : ℚ) = m / 10 ^ s * 10 ^ zerosOf token u ↔ m = 0 ∨ u = UnitPrefix.ofChar c := by
      intro u
      rw [← hval, hworth, zpow_ten_inj, hzero, zerosOf, zerosOf]
      constructor
      · rintro (h0 | hexp)
        · exact .inl h0
        · exact .inr (UnitPrefix.exponent_injective (by omega))
      · rintro (h0 | rfl)
        · exact .inl h0
        · exact .inr rfl
    rw [Denotes, hraw, NamesUnit]
    constructor
    · rintro (h | ⟨-, num, u, m', s', ht, hnum', ha⟩)
      · cases h
      · obtain ⟨hbody, htail⟩ := parts_of_numeral hnum' (tail_letters hsym u)
        rw [← ht] at hbody htail
        rw [hbody, hnum'] at hnum
        obtain ⟨rfl, rfl⟩ := Prod.mk.inj (Option.some.inj hnum)
        refine .inr ⟨u, htail, ?_⟩
        rcases (hequal u).mp ha with rfl | hu
        · exact .inl ⟨s', by rw [hbody, hnum']⟩
        · exact .inr ((unit_found_iff hsym hnum' ht hdrop).mp hu)
    · rintro (h | ⟨u, htail, hcond⟩)
      · cases h
      · have ht : plainText t = (plainText t).rdropWhile U.isAlphabetic ++ (u.text ++ token.symbol) := by
          rw [← htail, rdropWhile_append_rtakeWhile]
        refine .inr ⟨rfl, _, u, m, s, ht, hnum, (hequal u).mpr ?_⟩
        rcases hcond with ⟨s', hzero'⟩ | hcond
        · rw [hnum] at hzero'
          exact .inl (Prod.mk.inj (Option.some.inj hzero')).1
        · exact .inr ((unit_found_iff hsym hnum ht hdrop).mpr hcond)

end PvmContract.Extrinsics
