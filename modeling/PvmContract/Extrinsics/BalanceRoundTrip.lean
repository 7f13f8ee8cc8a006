import PvmContract.Extrinsics.BalanceText

/-!
# Showing a balance and reading it back

A raw balance is shown as a numeral, a unit prefix and the symbol of the token. The
reader takes the prefix from the first character behind the numeral, which is one of
the symbol where no prefix is shown. So the balance comes back except for symbols that
start with the letter of a prefix, and for some that have one character or none
(`ReadsBack`).
-/

namespace PvmContract.Extrinsics

open Data BalanceVariant

variable {U : CharClasses}

/-! ### The numeral -/

theorem display_chars {d : Decimal} (h : 0 ≤ d.mantissa) : d.display ≠ [] ∧ ∀ c ∈ d.display, NumeralChar c := by
  rw [Decimal.display, if_neg (not_lt.mpr h), List.nil_append]
  constructor
  · exact List.append_ne_nil_of_left_ne_nil Nat.toDigits_ne_nil _
  · intro c hc
    rcases List.mem_append.mp hc with hc | hc
    · exact .inl (isDigit_of_mem hc)
    · split at hc
      · cases hc
      · rcases List.mem_cons.mp hc with rfl | hc
        · exact .inr rfl
        · exact .inl (isDigit_of_mem_fracDigits hc)

theorem not_signed_display {d : Decimal} (h : 0 ≤ d.mantissa) (tail : Text) : ¬Signed (d.display ++ tail) := by
  obtain ⟨hne, hchars⟩ := display_chars h
  obtain ⟨c, t, hdisplay⟩ := List.exists_cons_of_ne_nil hne
  obtain ⟨hminus, hplus⟩ := (hchars c (hdisplay ▸ List.mem_cons_self)).not_sign
  rw [hdisplay]
  rintro (hs | hs)
  · exact hminus (Option.some.inj hs)
  · exact hplus (Option.some.inj hs)

/-- Nothing shown is an underscore. -/
theorem plainText_display {d : Decimal} (h : 0 ≤ d.mantissa) {tail : Text}
    (htail : ∀ c ∈ tail, U.isAlphabetic c = true) : plainText (d.display ++ tail) = d.display ++ tail := by
  refine List.filter_eq_self.mpr fun c hc => decide_eq_true ?_
  rintro rfl
  rcases List.mem_append.mp hc with hc | hc
  · rcases (display_chars h).2 _ hc with hdigit | hdot
    · cases hdigit
    · cases hdot
  · have hletter := htail _ hc
    rw [U.isAlphabetic_ascii '_' (by decide)] at hletter
    cases hletter

theorem parseU128_letters {num tail : Text} (htail : ∀ c ∈ tail, U.isAlphabetic c = true) (hne : tail ≠ []) :
    parseU128 (num ++ tail) = none := by
  obtain ⟨c, rest, rfl⟩ := List.exists_cons_of_ne_nil hne
  have hletter := htail c List.mem_cons_self
  refine parseUnsigned_of_mem (List.mem_append_right _ List.mem_cons_self) (isDigit_of_alphabetic hletter) ?_
  rintro rfl
  rw [U.isAlphabetic_ascii '+' (by decide)] at hletter
  cases hletter

/-- A numeral with fractional digits is no raw number, and one without is. -/
theorem parseU128_display {d : Decimal} (h : 0 ≤ d.mantissa) :
    parseU128 d.display = if d.scale = 0 then some d.mantissa.natAbs else none := by
  by_cases hs : d.scale = 0
  · have hlt := d.mantissa_lt
    rw [if_pos hs, Decimal.display, if_neg (not_lt.mpr h), if_pos hs, hs, pow_zero, Nat.div_one, List.nil_append,
      List.append_nil, parseU128, parseUnsigned_toDigits (lt_of_lt_of_le hlt (by decide))]
  · rw [if_neg hs]
    refine parseUnsigned_of_mem (c := '.') ?_ (by decide) (by decide)
    rw [Decimal.display, if_neg hs]
    exact List.mem_append_right _ List.mem_cons_self

/-- A balance without a prefix and a symbol is read as a raw one. -/
theorem parseU128_shown {token : TokenMetadata} {n : ℕ} {b : DenominatedBalance} (h : Shows token n b)
    (hone : b.unit = .one) : parseU128 b.value.display = some n ↔ n = 0 ∨ token.tokenDecimals = 0 := by
  have hworth : (n : ℚ) = b.value.value * 10 ^ (token.tokenDecimals : ℤ) := by
    have hvalue := h.value
    rwa [hone, zerosOf, UnitPrefix.exponent, add_zero] at hvalue
  have hint := Decimal.value_mul_pow_eq_iff.mp hworth
  have hnat : (b.value.mantissa.natAbs : ℤ) = b.value.mantissa := Int.natAbs_of_nonneg h.nonneg
  rw [parseU128_display h.nonneg]
  constructor
  · intro hparse
    split at hparse
    case isFalse => cases hparse
    case isTrue hs =>
      obtain rfl := Option.some.inj hparse
      rw [hs, pow_zero, mul_one, hnat] at hint
      by_cases hm : b.value.mantissa = 0
      · exact .inl (Int.natAbs_eq_zero.mpr hm)
      · right
        have hpow : (10 : ℤ) ^ token.tokenDecimals = 1 := mul_left_cancel₀ hm (by rw [← hint, mul_one])
        by_contra hne
        exact absurd ((pow_eq_one_iff_of_nonneg (by decide) hne).mp hpow) (by decide)
  · rintro (rfl | hdec)
    · have hm : b.value.mantissa = 0 := by
        rw [Nat.cast_zero, zero_mul, eq_comm, mul_eq_zero] at hint
        exact hint.resolve_right (by positivity)
      have hs : b.value.scale = 0 := by
        rcases h.reduced with hs | hs
        · exact hs
        · rw [hm] at hs
          exact absurd rfl hs
      rw [if_pos hs, hm]
      rfl
    · have hs : b.value.scale = 0 := by
        have hle := h.reduced.scale_le hint
        omega
      rw [hs, hdec, pow_zero, mul_one, mul_one] at hint
      rw [if_pos hs, ← hint, Int.natAbs_natCast]

/-! ### The round trip -/

/-- The raw balances that come back. -/
def ReadsBack (U : CharClasses) (token : TokenMetadata) (n : ℕ) : Prop :=
  (¬ShownWhole token n → token.symbol ≠ []) ∧
    (ShownWhole token n → token.symbol = [] ∧ (n = 0 ∨ token.tokenDecimals = 0) ∨
      ∃ c rest, token.symbol.dropWhile U.isNumeric = c :: rest ∧
        (UnitPrefix.ofChar c = .one ∨ n = 0 ∧ rest ≠ [] ∧ 0 ≤ zerosOf token (UnitPrefix.ofChar c)))

/-- What the reader makes of a balance that is shown. -/
theorem readAmount_shown {token : TokenMetadata} (hdec : token.tokenDecimals ≤ 18)
    (hsym : ∀ c ∈ token.symbol, U.isAlphabetic c = true) {n : ℕ} {b : DenominatedBalance} (h : Shows token n b) :
    readAmount U token (display (.denominated b)) = .ok n ↔
      parseU128 (b.value.display ++ (b.unit.text ++ token.symbol)) = some n ∨
        parseU128 (b.value.display ++ (b.unit.text ++ token.symbol)) = none ∧
          ∃ c rest, (b.unit.text ++ token.symbol).dropWhile U.isNumeric = c :: rest ∧
            (UnitPrefix.ofChar c = .one ∨ rest ≠ []) ∧ 0 ≤ zerosOf token (UnitPrefix.ofChar c) ∧
            (n = 0 ∨ b.unit = UnitPrefix.ofChar c) := by
  have hletters := tail_letters hsym b.unit
  have hnum := numeral_display h.nonneg
  have ht : display (.denominated b) = b.value.display ++ (b.unit.text ++ token.symbol) := by
    rw [display, h.symbol, List.append_assoc]
  have hvalue : ∀ u, (n : ℚ) = b.value.value * 10 ^ zerosOf token u ↔ n = 0 ∨ b.unit = u := by
    intro u
    have hzero : b.value.value = 0 ↔ n = 0 := by
      have hpow : (10 : ℚ) ^ zerosOf token b.unit ≠ 0 := zpow_ne_zero _ (by simp)
      have hcast : (n : ℚ) = 0 ↔ n = 0 := Nat.cast_eq_zero
      rw [← hcast, h.value, mul_eq_zero, or_iff_left hpow]
    rw [h.value, zpow_ten_inj, hzero, zerosOf, zerosOf]
    constructor
    · rintro (h0 | hexp)
      · exact .inl h0
      · exact .inr (UnitPrefix.exponent_injective (by omega))
    · rintro (h0 | hu)
      · exact .inl h0
      · exact .inr (by rw [hu])
  rw [readAmount_eq_ok hdec, ht, plainText_display h.nonneg hletters, (parts_of_numeral hnum hletters).1,
    dropWhile_unsigned hnum (not_signed_display h.nonneg _) hletters, fromStrExact_display h.nonneg]
  refine or_congr Iff.rfl (and_congr Iff.rfl ?_)
  constructor
  · rintro ⟨c, rest, d, hdrop, hor, hd, hzeros, hn, -⟩
    obtain rfl := Option.some.inj hd
    exact ⟨c, rest, hdrop, hor, hzeros, (hvalue _).mp hn⟩
  · rintro ⟨c, rest, hdrop, hor, hzeros, hn⟩
    exact ⟨c, rest, b.value, hdrop, hor, rfl, hzeros, (hvalue _).mpr hn, h.lt⟩

theorem reads_back_iff {token : TokenMetadata} (hdec : token.tokenDecimals ≤ 18)
    (hsym : ∀ c ∈ token.symbol, U.isAlphabetic c = true) {n : ℕ} {b : DenominatedBalance} (h : Shows token n b) :
    readAmount U token (display (.denominated b)) = .ok n ↔ ReadsBack U token n := by
  have hletters := tail_letters hsym b.unit
  rw [readAmount_shown hdec hsym h, ReadsBack]
  by_cases hu : b.unit = .one
  · -- The number is shown without a prefix, so the symbol stands right behind it.
    have hwhole := h.unit.mp hu
    rw [hu]
    change (parseU128 (_ ++ token.symbol) = _ ∨ parseU128 (_ ++ token.symbol) = _ ∧
      ∃ c rest, token.symbol.dropWhile _ = _ ∧ _) ↔ _
    by_cases hnil : token.symbol = []
    · rw [hnil, List.append_nil, parseU128_shown h hu]
      simp [hwhole]
    · rw [parseU128_letters hsym hnil]
      simp only [hwhole, hnil, reduceCtorEq, false_or, true_and, not_true_eq_false, false_implies, true_implies,
        false_and]
      constructor
      · rintro ⟨c, rest, hdrop, hor, hzeros, hn⟩
        refine ⟨c, rest, hdrop, ?_⟩
        by_cases hone : UnitPrefix.ofChar c = .one
        · exact .inl hone
        · exact .inr ⟨hn.resolve_right fun h => hone h.symm, hor.resolve_left hone, hzeros⟩
      · rintro ⟨c, rest, hdrop, hone | ⟨hn, hrest, hzeros⟩⟩
        · have hzeros := h.zeros
          rw [hu, ← hone] at hzeros
          exact ⟨c, rest, hdrop, .inl hone, hzeros, .inr hone.symm⟩
        · exact ⟨c, rest, hdrop, .inr hrest, hzeros, .inl hn⟩
  · -- The prefix is shown and found, but not without a second character.
    have hwhole : ¬ShownWhole token n := fun hw => hu (h.unit.mpr hw)
    obtain ⟨c, hdrop, hc⟩ := dropWhile_prefix (U := U) hu token.symbol
    have hne : b.unit.text ++ token.symbol ≠ [] := by
      intro hnil
      rw [hnil] at hdrop
      cases hdrop
    rw [parseU128_letters hletters hne, hdrop]
    simp only [hwhole, reduceCtorEq, false_or, true_and, not_false_eq_true, true_implies, false_implies, and_true]
    constructor
    · rintro ⟨c', rest, hcons, hor, -⟩
      obtain ⟨rfl, rfl⟩ := List.cons.inj hcons
      exact hor.resolve_left (hc ▸ hu)
    · intro hsymbol
      exact ⟨c, _, rfl, .inr hsymbol, hc ▸ h.zeros, .inr hc.symm⟩

/-- **Where balances are exact.** What is shown for a raw balance is read back exactly for the balances of
`ReadsBack`, and a text that is denominated is denominated to what it denotes exactly when it is a raw
number or names its unit where the reader finds it. -/
theorem balances_exact_iff (U : CharClasses) (token : TokenMetadata) (hdec : token.tokenDecimals ≤ 18)
    (hsym : ∀ c ∈ token.symbol, U.isAlphabetic c = true) :
    (∀ n v, fromValue n (some token) = .ok v →
      (readAmount U token v.display = .ok n ↔ ReadsBack U token n)) ∧
    ∀ t a, readAmount U token t = .ok a →
      (Denotes token t a ↔ (parseU128 (plainText t)).isSome = true ∨ NamesUnit U token (plainText t)) := by
  constructor
  · intro n v hv
    obtain ⟨b, rfl, hshows⟩ := shows_of_fromValue hv
    exact reads_back_iff hdec hsym hshows
  · intro t a h
    exact denotes_iff hdec hsym h

theorem zero_le_scale : 0 ≤ 28 := by decide

/-- Five units of a token. -/
def fiveUnits (symbol : Text) : BalanceVariant := .denominated ⟨⟨5, 0, by decide, zero_le_scale⟩, .one, symbol⟩

/-- Five units of a token whose symbol starts with no prefix come back. -/
theorem balances_exact_dot :
    let dot : TokenMetadata := ⟨10, ['D', 'O', 'T']⟩
    fromValue 50000000000 (some dot) = .ok (fiveUnits dot.symbol) ∧
      readAmount asciiClasses dot (fiveUnits dot.symbol).display = .ok 50000000000 := by
  intro dot
  have hshown : fromValue 50000000000 (some dot) = .ok (fiveUnits dot.symbol) := by decide +kernel
  have hsym : ∀ c ∈ dot.symbol, asciiClasses.isAlphabetic c = true := List.all_eq_true.mp rfl
  refine ⟨hshown, ((balances_exact_iff asciiClasses dot (by decide) hsym).1 _ _ hshown).mpr ?_⟩
  exact ⟨fun _ => List.cons_ne_nil _ _, fun _ => .inr ⟨'D', ['O', 'T'], rfl, .inl rfl⟩⟩

/-- Five units of a token `MYTH` come back as five million units: the first letter of the symbol is read as
a prefix. -/
theorem five_myth_reads_mega :
    let myth : TokenMetadata := ⟨12, ['M', 'Y', 'T', 'H']⟩
    fromValue 5000000000000 (some myth) = .ok (fiveUnits myth.symbol) ∧
      (fiveUnits myth.symbol).display = ['5', 'M', 'Y', 'T', 'H'] ∧
      readAmount asciiClasses myth (fiveUnits myth.symbol).display = .ok 5000000000000000000 := by
  decide +kernel

end PvmContract.Extrinsics
