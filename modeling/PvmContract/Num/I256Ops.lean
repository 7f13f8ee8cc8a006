import PvmContract.Num.I256

/-!
# Division, shifts and order of signed integers

Division works on magnitudes and puts the sign on afterwards, as `Int.tdiv` and
`Int.tmod` do. The one quotient that has no word is that of the least integer and
`-1`. An arithmetic shift to the right is division by a power of two that rounds down,
also by more than the width, and the words with their sign bits flipped are in the
order of their integers.
-/

namespace PvmContract.Num.I256

/-! ### Division -/

section

variable (R : Ruint) (a b : I256)

/-- What division promises. -/
structure Divides (a b : ℤ) (q r : I256) : Prop where
  quotient : q.toInt = a.tdiv b
  identity : a = q.toInt * b + r.toInt
  /-- The remainder has the sign of the dividend. -/
  sign : r.toInt = 0 ∨ (r.toInt < 0 ↔ a < 0)
  small : |r.toInt| < |b|

/-- The quotient, from the magnitudes and the signs. -/
theorem tdiv_cases (m n : ℤ) : m.tdiv n = (m.natAbs / n.natAbs : ℕ) ∧ (m < 0 ↔ n < 0) ∨
    m.tdiv n = -(m.natAbs / n.natAbs : ℕ) ∧ ¬ (m < 0 ↔ n < 0) := by
  rw [Int.ofNat_tdiv]
  rcases lt_or_ge m 0 with hm | hm
  · rcases lt_or_ge n 0 with hn | hn
    · left
      rw [Int.ofNat_natAbs_of_nonpos (le_of_lt hm), Int.ofNat_natAbs_of_nonpos (le_of_lt hn), Int.neg_tdiv, Int.tdiv_neg,
        Int.neg_neg]
      exact ⟨rfl, by omega⟩
    · right
      rw [Int.ofNat_natAbs_of_nonpos (le_of_lt hm), Int.natAbs_of_nonneg hn, Int.neg_tdiv, Int.neg_neg]
      exact ⟨rfl, by omega⟩
  · rcases lt_or_ge n 0 with hn | hn
    · right
      rw [Int.natAbs_of_nonneg hm, Int.ofNat_natAbs_of_nonpos (le_of_lt hn), Int.tdiv_neg, Int.neg_neg]
      exact ⟨rfl, by omega⟩
    · left
      rw [Int.natAbs_of_nonneg hm, Int.natAbs_of_nonneg hn]
      exact ⟨rfl, by omega⟩

/-- The remainder, from the magnitudes and the sign of the dividend. -/
theorem tmod_cases (m n : ℤ) : m.tmod n = (m.natAbs % n.natAbs : ℕ) ∧ 0 ≤ m ∨
    m.tmod n = -(m.natAbs % n.natAbs : ℕ) ∧ m < 0 := by
  have hmod : ∀ k : ℤ, k.tmod n.natAbs = k.tmod n := by
    intro k
    rcases Int.natAbs_eq n with h | h
    · rw [← h]
    · rw [h, Int.natAbs_neg, Int.natAbs_natCast, Int.tmod_neg]
  rw [Int.ofNat_tmod, hmod]
  rcases lt_or_ge m 0 with hm | hm
  · right
    rw [Int.ofNat_natAbs_of_nonpos (le_of_lt hm), Int.neg_tmod, Int.neg_neg]
    exact ⟨rfl, hm⟩
  · left
    rw [Int.natAbs_of_nonneg hm]
    exact ⟨rfl, hm⟩

/-- Every other quotient has a word. -/
theorem tdiv_inRange (hmin : ¬ (a.toInt = -2 ^ 255 ∧ b.toInt = -1)) : InRange (a.toInt.tdiv b.toInt) := by
  obtain ⟨halow, hahigh⟩ := a.toInt_inRange
  have hle := Nat.div_le_self a.toInt.natAbs b.toInt.natAbs
  have hhalf : 2 ≤ b.toInt.natAbs → a.toInt.natAbs / b.toInt.natAbs ≤ a.toInt.natAbs / 2 := fun h =>
    Nat.div_le_div_left h Nat.two_pos
  have hcases := tdiv_cases a.toInt b.toInt
  generalize a.toInt.natAbs / b.toInt.natAbs = k at hcases hle hhalf
  rw [InRange]
  rcases hcases with ⟨hdiv, hsame⟩ | ⟨hdiv, -⟩
  · rw [hdiv]
    by_cases hone : b.toInt = -1
    · omega
    · by_cases hneg : a.toInt < 0
      · -- The divisor is less than `-1`.
        have hle := hhalf (by omega)
        omega
      · omega
  · rw [hdiv]
    omega

theorem tmod_inRange (hb : b.toInt ≠ 0) : InRange (a.toInt.tmod b.toInt) := by
  obtain ⟨hblow, hbhigh⟩ := b.toInt_inRange
  have hlt := Nat.mod_lt a.toInt.natAbs (Int.natAbs_pos.mpr hb)
  have hcases := tmod_cases a.toInt b.toInt
  generalize a.toInt.natAbs % b.toInt.natAbs = k at hcases hlt
  rw [InRange]
  rcases hcases with ⟨hmod, -⟩ | ⟨hmod, -⟩
  · omega
  · omega

variable {a b}

theorem eq_min_iff : a = min R ↔ a.toInt = -2 ^ 255 := by
  constructor
  · rintro rfl
    exact toInt_min
  · intro h
    exact ext_toInt (h.trans toInt_min.symm)

theorem eq_minusOne_iff : a = minusOne R ↔ a.toInt = -1 := by
  constructor
  · rintro rfl
    exact toInt_minusOne
  · intro h
    exact ext_toInt (h.trans toInt_minusOne.symm)

theorem not_min_div (hmin : ¬ (a.toInt = -2 ^ 255 ∧ b.toInt = -1)) : ¬ (a = min R ∧ b = minusOne R) := by
  rintro ⟨ha, hb⟩
  exact hmin ⟨(eq_min_iff R).mp ha, (eq_minusOne_iff R).mp hb⟩

variable (hb : b.toInt ≠ 0) (hmin : ¬ (a.toInt = -2 ^ 255 ∧ b.toInt = -1))

include hb

theorem unsignedAbs_ne_zero : b.unsignedAbs R ≠ 0 := by
  intro h
  have hnum := congrArg BitVec.toNat h
  rw [toNat_unsignedAbs] at hnum
  exact hb (Int.natAbs_eq_zero.mp hnum)

include hmin

theorem div_eq : a.div R b = some (wrap (a.toInt.tdiv b.toInt)) := by
  have hzero : b.bits ≠ 0 := fun h => hb (bits_eq_zero_iff.mp h)
  have habs := R.wrappingDiv_eq (a.unsignedAbs R) _ (unsignedAbs_ne_zero R hb)
  rw [toNat_unsignedAbs, toNat_unsignedAbs] at habs
  have hlt := (R.wrappingDiv (a.unsignedAbs R) (b.unsignedAbs R)).isLt
  rw [habs] at hlt
  rw [div, if_neg hzero, if_neg (not_min_div R hmin), ← apply_ite some]
  refine congrArg some (signed_eq_wrap R (habs.trans (Nat.mod_eq_of_lt hlt).symm) ?_)
  rcases tdiv_cases a.toInt b.toInt with ⟨hdiv, hsame⟩ | ⟨hdiv, hdiffer⟩
  · exact .inl ⟨hdiv, xor_isNegative_eq_false hsame⟩
  · exact .inr ⟨hdiv, xor_isNegative_eq_true hdiffer⟩

theorem rem_eq : a.rem R b = some (wrap (a.toInt.tmod b.toInt)) := by
  have hzero : b.bits ≠ 0 := fun h => hb (bits_eq_zero_iff.mp h)
  have habs := R.wrappingRem_eq (a.unsignedAbs R) _ (unsignedAbs_ne_zero R hb)
  rw [toNat_unsignedAbs, toNat_unsignedAbs] at habs
  have hlt := (R.wrappingRem (a.unsignedAbs R) (b.unsignedAbs R)).isLt
  rw [habs] at hlt
  rw [rem, if_neg hzero, if_neg (not_min_div R hmin), ← apply_ite some]
  refine congrArg some (signed_eq_wrap R (habs.trans (Nat.mod_eq_of_lt hlt).symm) ?_)
  rcases tmod_cases a.toInt b.toInt with ⟨hmod, hpos⟩ | ⟨hmod, hneg⟩
  · exact .inl ⟨hmod, by rw [isNegative_eq, decide_eq_false (not_lt.mpr hpos)]⟩
  · exact .inr ⟨hmod, isNegative_iff.mpr hneg⟩

theorem divides : ∃ q r, a.div R b = some q ∧ a.rem R b = some r ∧ Divides a.toInt b.toInt q r := by
  refine ⟨_, _, div_eq R hb hmin, rem_eq R hb hmin, ?_⟩
  have hq := toInt_wrap (tdiv_inRange a b hmin)
  have hr := toInt_wrap (tmod_inRange a b hb)
  have hlt := Nat.mod_lt a.toInt.natAbs (Int.natAbs_pos.mpr hb)
  have hcases := tmod_cases a.toInt b.toInt
  generalize a.toInt.natAbs % b.toInt.natAbs = k at hcases hlt
  refine ⟨hq, ?_, ?_, ?_⟩
  · rw [hq, hr, Int.mul_comm]
    exact (Int.mul_tdiv_add_tmod _ _).symm
  · rw [hr]
    rcases hcases with ⟨hmod, hpos⟩ | ⟨hmod, hneg⟩
    · omega
    · omega
  · rw [hr, Int.abs_eq_natAbs, Int.abs_eq_natAbs]
    rcases hcases with ⟨hmod, -⟩ | ⟨hmod, -⟩
    · omega
    · omega

end

/-! ### Shifts -/

section

variable (R : Ruint) (a : I256) (s : ℕ)

theorem shl_eq : a.shl R s = wrap (a.toInt * 2 ^ s) := by
  have hshl := R.wrappingShl_eq a.bits s
  have hnum : ((R.wrappingShl a.bits s).toNat : ℤ) = (a.bits.toNat * 2 ^ s) % 2 ^ 256 := by
    rw [hshl]
    push_cast
    rfl
  refine eq_wrap ?_
  change (((R.wrappingShl a.bits s).toNat : ℤ) - a.toInt * 2 ^ s) % 2 ^ 256 = 0
  rw [hnum]
  rcases a.bits_cases with ⟨hbits, -⟩ | ⟨hbits, -⟩
  · rw [hbits]
    omega
  · rw [hbits, Int.add_mul]
    omega

/-- The mask that fills the high bits after a shift by less than the width. -/
theorem toNat_mask (hs : s < 256) :
    (R.wrappingShl (~~~(0 : U256)) (256 - s)).toNat = 2 ^ (256 - s) * (2 ^ s - 1) := by
  have hones : (~~~(0 : U256)).toNat = 2 ^ 256 - 1 := by decide
  have hpow : 2 ^ (256 - s) * 2 ^ s = 2 ^ 256 := by rw [← pow_add, Nat.sub_add_cancel (le_of_lt hs)]
  have hhigh : 0 < 2 ^ s := Nat.two_pow_pos _
  have hlow : 0 < 2 ^ (256 - s) := Nat.two_pow_pos _
  have hle : 2 ^ (256 - s) ≤ 2 ^ 256 := Nat.pow_le_pow_right Nat.two_pos (Nat.sub_le _ _)
  rw [R.wrappingShl_eq, hones, Nat.mul_sub_one, hpow]
  generalize 2 ^ (256 - s) = t at hlow hle
  have hsplit : (2 ^ 256 - 1) * t = 2 ^ 256 * (t - 1) + (2 ^ 256 - t) := by omega
  rw [hsplit, Nat.mul_add_mod, Nat.mod_eq_of_lt (by omega)]

/-- The bits of a negative word, shifted and filled. -/
theorem shr_of_neg (hneg : a.toInt < 0) (hpos : 0 < s) : (a.shr R s).toInt = a.toInt / 2 ^ s := by
  have hcond : (a.isNegative R && decide (s > 0)) = true := by
    rw [isNegative_iff.mpr hneg, decide_eq_true hpos]
    rfl
  have hbits := a.bits_cases
  obtain ⟨hmin, -⟩ := a.toInt_inRange
  rw [shr, hcond, if_pos rfl]
  by_cases hs : 256 ≤ s
  · have hle : (2 ^ 255 : ℤ) ≤ 2 ^ s := by exact_mod_cast Nat.pow_le_pow_right Nat.two_pos (by omega : 255 ≤ s)
    have hlow : -1 ≤ a.toInt / 2 ^ s := (Int.le_ediv_iff_mul_le (by omega)).mpr (by omega)
    have hhigh : a.toInt / 2 ^ s < 0 := Int.ediv_lt_of_lt_mul (by omega) (by omega)
    rw [if_pos hs, toInt_minusOne]
    omega
  · have hpow : 2 ^ (256 - s) * 2 ^ s = 2 ^ 256 := by rw [← pow_add, Nat.sub_add_cancel (by omega)]
    have hhalf : 2 ^ (256 - s) ≤ 2 ^ 255 := Nat.pow_le_pow_right Nat.two_pos (by omega)
    have hlt : a.bits.toNat / 2 ^ s < 2 ^ (256 - s) := by
      rw [Nat.div_lt_iff_lt_mul (Nat.two_pow_pos s), hpow]
      exact a.bits.isLt
    have hnum : (R.wrappingShr a.bits s ||| R.wrappingShl (~~~(0 : U256)) (256 - s)).toNat =
        2 ^ 256 - 2 ^ (256 - s) + a.bits.toNat / 2 ^ s := by
      rw [BitVec.toNat_or, toNat_mask R s (Nat.lt_of_not_le hs), R.wrappingShr_eq, Nat.or_comm, ← Nat.two_pow_add_eq_or_of_lt hlt,
        Nat.mul_sub_one, hpow]
    have hfloor : a.toInt / 2 ^ s = (a.bits.toNat / 2 ^ s : ℕ) - (2 ^ (256 - s) : ℕ) := by
      have hne : (2 ^ s : ℤ) ≠ 0 := by exact_mod_cast (Nat.two_pow_pos s).ne'
      have hcast : (2 ^ (256 - s) * 2 ^ s : ℤ) = 2 ^ 256 := by exact_mod_cast hpow
      have hint : a.toInt = a.bits.toNat - 2 ^ (256 - s) * 2 ^ s := by omega
      rw [hint, Int.sub_mul_ediv_right _ _ hne]
      push_cast
      rfl
    rw [if_neg hs, toInt_eq, hfloor]
    dsimp only
    rw [hnum]
    generalize a.bits.toNat / 2 ^ s = q at hlt
    generalize 2 ^ (256 - s) = t at hhalf hlt
    rw [if_neg (by omega)]
    omega

theorem toInt_shr : (a.shr R s).toInt = a.toInt / 2 ^ s := by
  by_cases hneg : a.toInt < 0 ∧ 0 < s
  · exact shr_of_neg R a s hneg.1 hneg.2
  · have hcond : (a.isNegative R && decide (s > 0)) = false := by
      rw [isNegative_eq, ← Bool.decide_and, decide_eq_false_iff_not]
      exact hneg
    have hnum := R.wrappingShr_eq a.bits s
    have hbits := a.bits_cases
    obtain ⟨hmin, hmax⟩ := a.toInt_inRange
    have hle := Nat.div_le_self a.bits.toNat (2 ^ s)
    rw [shr, hcond, if_neg Bool.false_ne_true, toInt_eq]
    dsimp only
    rw [hnum]
    rcases hbits with ⟨hbits, hpos⟩ | ⟨hbits, hlt⟩
    · rw [if_pos (by omega), ← hbits]
      push_cast
      rfl
    · have hs : s = 0 := by omega
      rw [hs, pow_zero, pow_zero, Nat.div_one, Int.ediv_one, if_neg (by omega)]
      omega

/-! ### Order -/

/-- A word with its sign bit flipped is the integer, counted from the least one. -/
theorem toNat_flip : ((a.bits ^^^ R.fromLimbs 0 0 0 signBitLimb).toNat : ℤ) = a.toInt + 2 ^ 255 := by
  have hsign : (R.fromLimbs 0 0 0 signBitLimb).toNat = 2 ^ 255 := by
    rw [R.fromLimbs_eq]
    decide
  have hdiv := Nat.xor_div_two_pow (a := a.bits.toNat) (b := 2 ^ 255) (n := 255)
  have hmod := Nat.xor_mod_two_pow (a := a.bits.toNat) (b := 2 ^ 255) (n := 255)
  have hlt := a.bits.isLt
  rw [BitVec.toNat_xor, hsign]
  rw [Nat.div_self (Nat.two_pow_pos 255)] at hdiv
  rw [Nat.mod_self, Nat.xor_zero] at hmod
  have htop : a.bits.toNat / 2 ^ 255 = 0 ∨ a.bits.toNat / 2 ^ 255 = 1 := by omega
  have htop' : (a.bits.toNat ^^^ 2 ^ 255) / 2 ^ 255 = 1 - a.bits.toNat / 2 ^ 255 := by
    rw [hdiv]
    rcases htop with h | h
    · rw [h]
      rfl
    · rw [h]
      rfl
  rw [toInt_eq]
  split_ifs with h
  · omega
  · omega

theorem cmp_toInt (b : I256) : a.cmp R b = compare a.toInt b.toInt := by
  have ha := toNat_flip R a
  have hb := toNat_flip R b
  rw [cmp, R.cmp_eq]
  rcases lt_trichotomy a.toInt b.toInt with h | h | h
  · rw [compare_lt_iff_lt.mpr h, compare_lt_iff_lt]
    omega
  · rw [compare_eq_iff_eq.mpr h, compare_eq_iff_eq]
    omega
  · rw [compare_gt_iff_gt.mpr h, compare_gt_iff_gt]
    omega

/-- **Division, shifts and comparison are those of the integers.** -/
theorem integer_laws (R : Ruint) (a b : I256) :
    (b.toInt ≠ 0 → ¬ (a.toInt = -2 ^ 255 ∧ b.toInt = -1) →
      ∃ q r, a.div R b = some q ∧ a.rem R b = some r ∧ Divides a.toInt b.toInt q r) ∧
    (∀ s, (a.shr R s).toInt = a.toInt / 2 ^ s) ∧
    (∀ s, a.shl R s = wrap (a.toInt * 2 ^ s)) ∧
    a.cmp R b = compare a.toInt b.toInt :=
  ⟨divides R, toInt_shr R a, shl_eq R a, cmp_toInt R a b⟩

end

/-- The least number and 3: the quotient is rounded to zero, and nothing but the sign is left of the
number that is shifted by 256. -/
theorem integer_laws_min :
    (∃ q r, (min .reference).div .reference ⟨3⟩ = some q ∧ (min .reference).rem .reference ⟨3⟩ = some r ∧
        Divides (-2 ^ 255) 3 q r ∧ r.toInt = -2) ∧
      ((min .reference).shr .reference 256).toInt = -1 ∧
      (min .reference).shl .reference 1 = zero ∧
      (min .reference).cmp .reference ⟨3⟩ = .lt := by
  have hthree : (⟨3⟩ : I256).toInt = 3 := by decide
  obtain ⟨hdivides, hshr, hshl, hcmp⟩ := integer_laws .reference (min .reference) ⟨3⟩
  rw [toInt_min] at hdivides hshr hshl hcmp
  rw [hthree] at hdivides hcmp
  obtain ⟨q, r, hq, hr, h⟩ := hdivides (by decide) (by decide)
  have hrem : (min .reference).rem .reference ⟨3⟩ = some (wrap (-2)) := by decide
  have hsign : r = wrap (-2) := Option.some.inj (hr.symm.trans hrem)
  refine ⟨⟨q, r, hq, hr, h, by rw [hsign]; decide⟩, (hshr 256).trans (by decide), (hshl 1).trans (by decide), ?_⟩
  exact hcmp.trans (by decide)

end PvmContract.Num.I256
