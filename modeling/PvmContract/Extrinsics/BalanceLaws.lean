import PvmContract.Extrinsics.Balance
import Mathlib.Tactic.Linarith

/-!
# Denominating and showing a raw balance

Denominating is exact: a number of units with a prefix is worth a raw balance when that
is an integer of 96 bits, and then it is this balance (`denominate_eq_ok`). What is
shown for a raw balance is worth it (`shows_of_fromValue`).
-/

namespace PvmContract.Extrinsics

open Data

namespace Decimal

theorem exists_of_findSome_range {β : Type} {f : ℕ → Option β} {k : ℕ} {b : β}
    (h : (List.range k).findSome? f = some b) : ∃ s < k, f s = some b ∧ ∀ t < s, f t = none := by
  induction k with
  | zero => cases h
  | succ k ih =>
    rw [List.range_succ, List.findSome?_append] at h
    cases hk : (List.range k).findSome? f with
    | some b' =>
      rw [hk] at h
      obtain rfl := Option.some.inj h
      obtain ⟨s, hs, hfs, hnone⟩ := ih hk
      exact ⟨s, by omega, hfs, hnone⟩
    | none =>
      rw [hk] at h
      refine ⟨k, by omega, ?_, ?_⟩
      · cases hfk : f k with
        | none => simp [hfk] at h
        | some b' => simpa [hfk] using h
      · intro t ht
        exact List.findSome?_eq_none_iff.mp hk t (List.mem_range.mpr ht)

/-- Quotients have no trailing fractional zeros. -/
theorem reduced_div {a b q : Decimal} (hb : b.mantissa ≠ 0) (h : a.div b = some q) : q.Reduced := by
  obtain ⟨s, hs, hq, hleast⟩ := exists_of_findSome_range h
  rw [quotientAt] at hq
  split at hq
  case isFalse => cases hq
  case isTrue hdvd =>
    obtain ⟨hm, hscale⟩ := ofParts_eq_some hq
    rw [Reduced, hscale]
    by_contra hcon
    obtain ⟨hpos, hten⟩ := not_or.mp hcon
    obtain ⟨t, rfl⟩ := Nat.exists_eq_succ_of_ne_zero hpos
    obtain ⟨m, hm'⟩ := Int.dvd_of_emod_eq_zero (not_not.mp hten)
    have hden : b.mantissa * 10 ^ a.scale ≠ 0 := mul_ne_zero hb (by positivity)
    have hmul : a.mantissa * 10 ^ (b.scale + t) = b.mantissa * 10 ^ a.scale * m := by
      have hprod := Int.mul_ediv_cancel' hdvd
      rw [← hm, hm', Nat.succ_eq_add_one, ← Nat.add_assoc, pow_succ, ← mul_assoc] at hprod
      linarith
    have hlt := q.mantissa_lt
    have hone : quotientAt a b t = ofParts m t := by
      rw [quotientAt, hmul, if_pos (Dvd.intro _ rfl), Int.mul_ediv_cancel_left _ hden]
    have hnone := hleast t (Nat.lt_succ_self t)
    rw [hone, ofParts_of_lt (by omega) (by omega)] at hnone
    cases hnone

theorem isDigit_oneAndZeros {k : ℕ} : ∀ c ∈ oneAndZeros k, c.isDigit = true := by
  intro c hc
  rcases List.mem_cons.mp hc with rfl | hc
  · rfl
  · rw [List.eq_of_mem_replicate hc]
    rfl

theorem ten_pow_lt {k : ℕ} (h : k ≤ 28) : 10 ^ k < 2 ^ 96 :=
  lt_of_le_of_lt (Nat.pow_le_pow_right (by decide) h) (by decide)

/-- The factor of a unit. -/
theorem fromStrExact_oneAndZeros (k : ℕ) : fromStrExact (oneAndZeros k) = ofParts (10 ^ k) 0 := by
  obtain ⟨htake, hdrop⟩ := takeWhile_digits (isDigit_oneAndZeros (k := k)) [] (by simp)
  rw [List.append_nil] at htake hdrop
  have hval : Nat.ofDigitChars 10 (oneAndZeros k) 0 = 10 ^ k := by
    rw [oneAndZeros, Nat.ofDigitChars_cons, Nat.ofDigitChars_replicate_zero]
    exact Nat.mul_one _
  have hnum : numeral (oneAndZeros k) = some (((10 ^ k : ℕ) : ℤ), 0) := by
    rw [numeral_digits, unsignedNumeral, htake, hdrop]
    · have hne : oneAndZeros k ≠ [] := List.cons_ne_nil _ _
      dsimp only
      rw [if_neg hne, hval]
      rfl
    · intro c hc
      exact isDigit_oneAndZeros c (List.mem_of_mem_head? hc)
  rw [fromStrExact, hnum]
  push_cast
  rfl

/-- A number times a power of ten that clears its fractional digits. -/
theorem checkedMul_pow {d c : Decimal} {k : ℕ} (hc : ofParts (10 ^ k) 0 = some c) (h : d.scale ≤ k) :
    d.checkedMul c = ofParts (d.mantissa * 10 ^ (k - d.scale)) 0 := by
  obtain ⟨hm, hs⟩ := ofParts_eq_some hc
  have hprod : d.mantissa * 10 ^ k = d.mantissa * 10 ^ (k - d.scale) * 10 ^ d.scale := by
    rw [mul_assoc, ← pow_add, Nat.sub_add_cancel h]
  rw [checkedMul, hm, hs, Nat.add_zero, hprod, reduce_mul_pow]

theorem toU128_eq_some {i : ℤ} {a : ℕ} :
    (∃ d, ofParts i 0 = some d ∧ d.toU128 = some a) ↔ i = a ∧ a < 2 ^ 96 := by
  constructor
  · rintro ⟨d, hd, ha⟩
    obtain ⟨hm, hs⟩ := ofParts_eq_some hd
    have hlt := d.mantissa_lt
    rw [toU128, hs, pow_zero, Int.ediv_one, hm] at ha
    rw [hm] at hlt
    split at ha
    · cases ha
    · obtain rfl := Option.some.inj ha
      omega
  · rintro ⟨rfl, hlt⟩
    refine ⟨_, ofParts_of_lt (by omega) (by decide), ?_⟩
    rw [toU128, if_neg (not_lt.mpr (Int.natCast_nonneg a))]
    simp

theorem value_mul_pow_eq_iff {d : Decimal} {k a : ℕ} :
    (a : ℚ) = d.value * 10 ^ (k : ℤ) ↔ (a : ℤ) * 10 ^ d.scale = d.mantissa * 10 ^ k := by
  rw [value, zpow_natCast, div_mul_eq_mul_div, eq_div_iff (by positivity)]
  norm_cast

/-- A reduced number is an integer only without fractional digits. -/
theorem Reduced.scale_le {d : Decimal} (hd : d.Reduced) {k : ℕ} {a : ℤ}
    (h : a * 10 ^ d.scale = d.mantissa * 10 ^ k) : d.scale ≤ k := by
  rcases hd with hd | hd
  · rw [hd]
    exact Nat.zero_le k
  · by_contra hlt
    obtain ⟨t, ht⟩ := Nat.exists_eq_add_of_lt (not_le.mp hlt)
    refine hd (Int.emod_eq_zero_of_dvd ⟨a * 10 ^ t, ?_⟩)
    have hpow : (10 : ℤ) ^ k ≠ 0 := by positivity
    refine mul_right_cancel₀ hpow ?_
    rw [← h, ht]
    ring

end Decimal

open BalanceVariant

/-- The power of ten between a unit and the raw balance. -/
def zerosOf (token : TokenMetadata) (unit : UnitPrefix) : ℤ := token.tokenDecimals + unit.exponent

theorem denominate_eq_ok_nat {token : TokenMetadata} {b : DenominatedBalance} {a k : ℕ}
    (hk : zerosOf token b.unit = k) (hle : k ≤ 28) (hred : b.value.Reduced) :
    denominateBalance token (.denominated b) = .ok a ↔
      (a : ℤ) * 10 ^ b.value.scale = b.value.mantissa * 10 ^ k ∧ a < 2 ^ 96 := by
  obtain ⟨c, hc⟩ : ∃ c, Decimal.ofParts (10 ^ k) 0 = some c :=
    ⟨_, Decimal.ofParts_of_lt (by simpa using Decimal.ten_pow_lt hle) (by decide)⟩
  have hneg : ¬zerosOf token b.unit < 0 := by omega
  have hmul : okOr .decimal (Decimal.fromStrExact (oneAndZeros k)) = .ok c := by
    rw [Decimal.fromStrExact_oneAndZeros, hc]
    rfl
  rw [denominateBalance]
  unfold zerosOf at hk hneg
  rw [if_neg hneg, hk, Int.toNat_natCast, hmul]
  change (if (k : ℤ) - b.value.scale < 0 then _ else _) = _ ↔ _
  by_cases hscale : b.value.scale ≤ k
  · have hprod : b.value.mantissa * 10 ^ k =
        b.value.mantissa * 10 ^ (k - b.value.scale) * 10 ^ b.value.scale := by
      rw [mul_assoc, ← pow_add, Nat.sub_add_cancel hscale]
    have hpow : (10 : ℤ) ^ b.value.scale ≠ 0 := by positivity
    rw [if_neg (by omega), Decimal.checkedMul_pow hc hscale, hprod, mul_left_inj' hpow,
      eq_comm (a := (a : ℤ)), ← Decimal.toU128_eq_some]
    constructor
    · intro h
      cases hd : Decimal.ofParts (b.value.mantissa * 10 ^ (k - b.value.scale)) 0 with
      | none =>
        rw [hd] at h
        cases h
      | some d =>
        rw [hd] at h
        exact ⟨d, rfl, okOr_eq_ok h⟩
    · rintro ⟨d, hd, ha⟩
      rw [hd]
      change okOr _ d.toU128 = _
      rw [ha]
      rfl
  · rw [if_pos (by omega)]
    constructor
    · intro h
      cases h
    · rintro ⟨h, -⟩
      exact absurd (hred.scale_le h) hscale

/-- **Denominating is exact.** An amount of units is denominated to the raw balance that it is worth, when
it is worth one of 96 bits and the unit is not below the raw one. -/
theorem denominate_eq_ok {token : TokenMetadata} {b : DenominatedBalance} {a : ℕ}
    (hdec : token.tokenDecimals ≤ 18) (hred : b.value.Reduced) :
    denominateBalance token (.denominated b) = .ok a ↔
      0 ≤ zerosOf token b.unit ∧ (a : ℚ) = b.value.value * 10 ^ zerosOf token b.unit ∧ a < 2 ^ 96 := by
  have hexp := b.unit.exponent_le
  by_cases hneg : zerosOf token b.unit < 0
  · have herr : denominateBalance token (.denominated b) = .error .tryFromInt := if_pos hneg
    rw [herr]
    constructor
    · intro h
      cases h
    · rintro ⟨h, -⟩
      omega
  · obtain ⟨k, hk⟩ := Int.eq_ofNat_of_zero_le (not_lt.mp hneg)
    have hle : k ≤ 28 := by
      unfold zerosOf at hk
      omega
    rw [denominate_eq_ok_nat hk hle hred, hk, Decimal.value_mul_pow_eq_iff]
    simp

/-! ### What is shown -/

theorem checkedSub_eq_some {a b c : ℕ} (h : checkedSub a b = some c) : a = b + c := by
  rw [checkedSub] at h
  split at h
  · obtain rfl := Option.some.inj h
    omega
  · cases h

/-- The zeros are those of the unit, and the plain unit is taken for one to three digits before the
point. -/
theorem chooseUnit_spec {decimals digits zeros : ℕ} {unit : UnitPrefix}
    (h : chooseUnit decimals digits = some (unit, zeros)) :
    (zeros : ℤ) = decimals + unit.exponent ∧ (unit = .one ↔ decimals < digits ∧ digits ≤ decimals + 3) := by
  rw [chooseUnit] at h
  split_ifs at h with hgiga hmega hkilo hone
  · cases h
    exact ⟨rfl, by simp; omega⟩
  · cases h
    exact ⟨rfl, by simp; omega⟩
  · cases h
    exact ⟨rfl, by simp; omega⟩
  · cases h
    exact ⟨by simp [UnitPrefix.exponent], by simp; omega⟩
  · cases hmilli : checkedSub decimals 3 with
    | none =>
      rw [hmilli] at h
      cases hnano : checkedSub decimals 9 with
      | none =>
        rw [hnano] at h
        cases h
      | some nano =>
        have hle := checkedSub_eq_some hnano
        rw [checkedSub, if_pos (by omega)] at hmilli
        cases hmilli
    | some milli =>
      have h3 := checkedSub_eq_some hmilli
      rw [hmilli] at h
      dsimp only at h
      split_ifs at h with hm
      · cases h
        refine ⟨?_, by simp; omega⟩
        rw [h3]
        simp [UnitPrefix.exponent]
      · cases hmicro : checkedSub decimals 6 with
        | none =>
          rw [hmicro] at h
          cases h
        | some micro =>
          have h6 := checkedSub_eq_some hmicro
          rw [hmicro] at h
          dsimp only at h
          split_ifs at h with hu
          · cases h
            refine ⟨?_, by simp; omega⟩
            rw [h6]
            simp [UnitPrefix.exponent]
          · cases hnano : checkedSub decimals 9 with
            | none =>
              rw [hnano] at h
              cases h
            | some nano =>
              have h9 := checkedSub_eq_some hnano
              rw [hnano] at h
              dsimp only at h
              split_ifs at h with hn
              cases h
              refine ⟨?_, by simp; omega⟩
              rw [h9]
              simp [UnitPrefix.exponent]

/-- A raw balance that is shown without a prefix. -/
def ShownWhole (token : TokenMetadata) (n : ℕ) : Prop :=
  n = 0 ∨ 10 ^ token.tokenDecimals ≤ n ∧ n < 10 ^ (token.tokenDecimals + 3)

/-- A denominated balance that is worth a raw one. -/
structure Shows (token : TokenMetadata) (n : ℕ) (b : DenominatedBalance) : Prop where
  symbol : b.symbol = token.symbol
  reduced : b.value.Reduced
  nonneg : 0 ≤ b.value.mantissa
  zeros : 0 ≤ zerosOf token b.unit
  value : (n : ℚ) = b.value.value * 10 ^ zerosOf token b.unit
  lt : n < 2 ^ 96
  unit : b.unit = .one ↔ ShownWhole token n

theorem digits_iff_shownWhole {token : TokenMetadata} {n : ℕ} (hn : n ≠ 0) :
    (token.tokenDecimals < (Nat.toDigits 10 n).length ∧
      (Nat.toDigits 10 n).length ≤ token.tokenDecimals + 3) ↔ ShownWhole token n := by
  have hlow : token.tokenDecimals < (Nat.toDigits 10 n).length ↔ 10 ^ token.tokenDecimals ≤ n := by
    rcases Nat.eq_zero_or_pos token.tokenDecimals with hd | hd
    · have hlen := List.length_pos_iff.mpr (Nat.toDigits_ne_nil (n := n) (b := 10))
      rw [hd, pow_zero]
      omega
    · rw [← not_le, Nat.length_toDigits_le_iff (by decide) hd, not_lt]
  rw [hlow, Nat.length_toDigits_le_iff (by decide) (by omega), ShownWhole]
  constructor
  · exact Or.inr
  · rintro (h | h)
    · exact absurd h hn
    · exact h

/-- What is shown for a raw balance is worth it. -/
theorem shows_of_fromValue {token : TokenMetadata} {n : ℕ} {v : BalanceVariant}
    (h : fromValue n (some token) = .ok v) : ∃ b, v = .denominated b ∧ Shows token n b := by
  rw [fromValue] at h
  split at h
  case isTrue hn =>
    obtain rfl := Except.ok.inj h
    refine ⟨_, rfl, rfl, .inl rfl, le_rfl, ?_, ?_, by omega, by simp [ShownWhole, hn]⟩
    · simp [zerosOf, UnitPrefix.exponent]
    · simp [hn, Decimal.value, Decimal.zero]
  case isFalse hn =>
    split at h
    case h_1 => cases h
    case h_2 unit zeros hunit =>
      obtain ⟨hzeros, hone⟩ := chooseUnit_spec hunit
      obtain ⟨c, hc, h⟩ := bind_eq_ok h
      obtain ⟨b, hb, h⟩ := bind_eq_ok h
      obtain ⟨q, hq, h⟩ := bind_eq_ok h
      obtain rfl := Except.ok.inj h
      have hc := okOr_eq_ok hc
      have hb := okOr_eq_ok hb
      have hq := okOr_eq_ok hq
      rw [Decimal.fromStrExact_oneAndZeros] at hc
      obtain ⟨hcm, hcs⟩ := Decimal.ofParts_eq_some hc
      obtain ⟨hbm, hbs⟩ := Decimal.ofParts_eq_some hb
      have hval := Decimal.value_div hq
      have hcval : c.value = 10 ^ (zeros : ℤ) := by
        rw [Decimal.value, hcm, hcs]
        simp
      have hbval : b.value = n := by
        rw [Decimal.value, hbm, hbs]
        simp
      have hworth : (n : ℚ) = q.value * 10 ^ (zeros : ℤ) := by rw [← hbval, ← hval, hcval]
      have hint := Decimal.value_mul_pow_eq_iff.mp hworth
      refine ⟨_, rfl, rfl, ?_, ?_, ?_, ?_, ?_, ?_⟩
      · exact Decimal.reduced_div (by rw [hcm]; positivity) hq
      · refine nonneg_of_mul_nonneg_left (hint ▸ ?_) (show (0 : ℤ) < 10 ^ zeros by positivity)
        positivity
      · show 0 ≤ (token.tokenDecimals : ℤ) + unit.exponent
        omega
      · show (n : ℚ) = q.value * 10 ^ ((token.tokenDecimals : ℤ) + unit.exponent)
        rw [← hzeros]
        exact hworth
      · have hlt := b.mantissa_lt
        rw [hbm] at hlt
        simpa using hlt
      · exact hone.trans (digits_iff_shownWhole hn)

end PvmContract.Extrinsics
