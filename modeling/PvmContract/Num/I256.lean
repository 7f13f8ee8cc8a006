import PvmContract.Num.Ruint

/-!
# Signed integers of 256 bits

`I256` is a word that is read in two's complement. What the operations do is said of
the integer that a word stands for (`I256.toInt`), with no further mention of words:
the magnitude and the sign of a word are those of its integer (`toNat_unsignedAbs`,
`isNegative_iff`), and a word that is computed modulo `2 ^ 256` is the wrapped exact
result (`eq_wrap`).
-/

namespace PvmContract.Num

/-- `I256`: the bits in two's complement. -/
structure I256 where
  bits : U256
  deriving DecidableEq

namespace I256

/-- The integer that a word stands for. -/
def toInt (a : I256) : ℤ := a.bits.toInt

/-- The word of an integer modulo `2 ^ 256`. -/
def wrap (n : ℤ) : I256 := ⟨BitVec.ofInt 256 n⟩

/-- The integers that have a word. -/
def InRange (n : ℤ) : Prop := -2 ^ 255 ≤ n ∧ n < 2 ^ 255

instance (n : ℤ) : Decidable (InRange n) := inferInstanceAs (Decidable (_ ∧ _))

section

variable (R : Ruint)

/-- `ZERO`. -/
def zero : I256 := ⟨0⟩

/-- `MINUS_ONE`. -/
def minusOne : I256 := ⟨R.fromLimbs (-1) (-1) (-1) (-1)⟩

/-- `MIN`. -/
def min : I256 := ⟨R.fromLimbs 0 0 0 (1 <<< 63)⟩

/-- `MAX`. -/
def max : I256 := ⟨R.fromLimbs (-1) (-1) (-1) ((-1 : BitVec 64) >>> 1)⟩

/-- `SIGN_BIT_LIMB`. -/
def signBitLimb : BitVec 64 := 1 <<< 63

/-- `is_negative`. -/
def isNegative (a : I256) : Bool := R.asLimbs a.bits 3 &&& signBitLimb != 0

/-- `Neg`. -/
def neg (a : I256) : I256 := ⟨R.wrappingNeg a.bits⟩

/-- `abs`. -/
def abs (a : I256) : I256 := if a.isNegative R then a.neg R else a

/-- `unsigned_abs`. -/
def unsignedAbs (a : I256) : U256 := if a.isNegative R then R.wrappingNeg a.bits else a.bits

/-- `overflowing_add`. -/
def overflowingAdd (a rhs : I256) : I256 × Bool :=
  let result : I256 := ⟨R.wrappingAdd a.bits rhs.bits⟩
  let overflow := a.isNegative R == rhs.isNegative R && result.isNegative R != a.isNegative R
  (result, overflow)

/-- `checked_add`. -/
def checkedAdd (a rhs : I256) : Option I256 :=
  let (result, overflow) := a.overflowingAdd R rhs
  if overflow then none else some result

/-- `overflowing_sub`. -/
def overflowingSub (a rhs : I256) : I256 × Bool :=
  let result : I256 := ⟨R.wrappingSub a.bits rhs.bits⟩
  let overflow := a.isNegative R != rhs.isNegative R && result.isNegative R == rhs.isNegative R
  (result, overflow)

/-- `checked_sub`. -/
def checkedSub (a rhs : I256) : Option I256 :=
  let (result, overflow) := a.overflowingSub R rhs
  if overflow then none else some result

/-- `overflowing_mul`. -/
def overflowingMul (a rhs : I256) : I256 × Bool :=
  if a.bits = 0 ∨ rhs.bits = 0 then (zero, false)
  else
    let resultNegative := a.isNegative R ^^ rhs.isNegative R
    let (abs, absOverflow) := R.overflowingMul (a.unsignedAbs R) (rhs.unsignedAbs R)
    let maxAbsPos := (max R).bits
    let signed : I256 := if resultNegative then ⟨R.wrappingNeg abs⟩ else ⟨abs⟩
    let rangeOverflow :=
      if resultNegative then R.cmp abs ((min R).unsignedAbs R) == .gt else R.cmp abs maxAbsPos == .gt
    (signed, absOverflow || rangeOverflow)

/-- `checked_mul`. -/
def checkedMul (a rhs : I256) : Option I256 :=
  let (result, overflow) := a.overflowingMul R rhs
  if overflow then none else some result

/-- `Shl`. -/
def shl (a : I256) (rhs : ℕ) : I256 := ⟨R.wrappingShl a.bits rhs⟩

/-- `Shr`. -/
def shr (a : I256) (rhs : ℕ) : I256 :=
  let logical := R.wrappingShr a.bits rhs
  if a.isNegative R && rhs > 0 then
    if rhs ≥ 256 then minusOne R
    else
      let mask := R.wrappingShl (~~~(0 : U256)) (256 - rhs)
      ⟨logical ||| mask⟩
  else ⟨logical⟩

/-- `Div`, which panics for a divisor of zero. -/
def div (a rhs : I256) : Option I256 :=
  if rhs.bits = 0 then none
  else if a = min R ∧ rhs = minusOne R then some (min R)
  else
    let neg := a.isNegative R ^^ rhs.isNegative R
    let abs := R.wrappingDiv (a.unsignedAbs R) (rhs.unsignedAbs R)
    if neg then some ⟨R.wrappingNeg abs⟩ else some ⟨abs⟩

/-- `Rem`, which panics for a divisor of zero. -/
def rem (a rhs : I256) : Option I256 :=
  if rhs.bits = 0 then none
  else if a = min R ∧ rhs = minusOne R then some zero
  else
    let abs := R.wrappingRem (a.unsignedAbs R) (rhs.unsignedAbs R)
    if a.isNegative R then some ⟨R.wrappingNeg abs⟩ else some ⟨abs⟩

/-- `Ord`. -/
def cmp (a other : I256) : Ordering :=
  let sign := R.fromLimbs 0 0 0 signBitLimb
  R.cmp (a.bits ^^^ sign) (other.bits ^^^ sign)

end

/-! ### Two's complement -/

section

variable {R : Ruint} {a b : I256}

theorem toInt_eq (a : I256) : a.toInt = if a.bits.toNat < 2 ^ 255 then (a.bits.toNat : ℤ) else a.bits.toNat - 2 ^ 256 := by
  rw [toInt, BitVec.toInt_eq_toNat_cond]
  have hlt := a.bits.isLt
  by_cases h : a.bits.toNat < 2 ^ 255
  · rw [if_pos h, if_pos (by omega)]
  · rw [if_neg h, if_neg (by omega)]
    rfl

theorem toInt_inRange (a : I256) : InRange a.toInt := by
  have hlt := a.bits.isLt
  rw [toInt_eq]
  constructor
  · split_ifs with h <;> omega
  · split_ifs with h <;> omega

/-- A word is known from its integer. -/
theorem ext_toInt (h : a.toInt = b.toInt) : a = b := by
  have hbits : a.bits = b.bits := BitVec.eq_of_toInt_eq h
  cases a
  cases b
  exact congrArg I256.mk hbits

/-- **A word whose number is the result modulo `2 ^ 256` is the wrapped result.** -/
theorem eq_wrap {n : ℤ} (h : ((a.bits.toNat : ℤ) - n) % 2 ^ 256 = 0) : a = wrap n := by
  have hlt := a.bits.isLt
  have hbits : a.bits = BitVec.ofInt 256 n := by
    apply BitVec.eq_of_toNat_eq
    rw [BitVec.toNat_ofInt]
    push_cast
    omega
  cases a
  exact congrArg I256.mk hbits

theorem toInt_wrap {n : ℤ} (h : InRange n) : (wrap n).toInt = n := by
  obtain ⟨hlow, hhigh⟩ := h
  have hnum : (wrap n).bits.toNat = (n % 2 ^ 256).toNat := BitVec.toNat_ofInt n
  rw [toInt_eq, hnum]
  split_ifs with h <;> omega

/-- A wrapped result is off by a multiple of `2 ^ 256`. -/
theorem wrap_cases (n : ℤ) : InRange (wrap n).toInt ∧ ((wrap n).toInt - n) % 2 ^ 256 = 0 := by
  refine ⟨toInt_inRange _, ?_⟩
  have hnum : ((wrap n).bits.toNat : ℤ) = n % 2 ^ 256 := by
    have h : (wrap n).bits.toNat = (n % 2 ^ 256).toNat := BitVec.toNat_ofInt n
    omega
  rw [toInt_eq]
  split_ifs with h <;> omega

/-- The number of a word is its integer modulo `2 ^ 256`. -/
theorem bits_cases (a : I256) : (a.bits.toNat : ℤ) = a.toInt ∧ 0 ≤ a.toInt ∨ (a.bits.toNat : ℤ) = a.toInt + 2 ^ 256 ∧ a.toInt < 0 := by
  have hlt := a.bits.isLt
  rw [toInt_eq]
  split_ifs with h
  · exact .inl ⟨rfl, Int.natCast_nonneg _⟩
  · exact .inr ⟨by omega, by omega⟩

theorem and_signBitLimb (limb : BitVec 64) : (limb &&& signBitLimb != 0) = decide (2 ^ 63 ≤ limb.toNat) := by
  have hsign : signBitLimb = BitVec.twoPow 64 63 := by decide
  have htwo : BitVec.twoPow 64 63 ≠ 0 := by decide
  have hmsb := BitVec.msb_eq_decide limb
  have hbit : limb.getLsbD 63 = limb.msb := (BitVec.msb_eq_getLsbD_last limb).symm
  rw [hsign, BitVec.and_twoPow, hbit, hmsb]
  by_cases h : 2 ^ (64 - 1) ≤ limb.toNat
  · rw [decide_eq_true h, if_pos rfl, bne_iff_ne.mpr htwo]
  · rw [decide_eq_false h, if_neg Bool.false_ne_true]
    exact bne_self_eq_false (0 : BitVec 64)

/-- The sign bit of the last limb. -/
theorem isNegative_iff : a.isNegative R = true ↔ a.toInt < 0 := by
  have hlt := a.bits.isLt
  have hlimb : (R.asLimbs a.bits 3).toNat = a.bits.toNat / 2 ^ 192 := by
    rw [R.asLimbs_eq]
    change a.bits.toNat / 2 ^ 192 % 2 ^ 64 = _
    exact Nat.mod_eq_of_lt (by omega)
  rw [isNegative, and_signBitLimb, hlimb, decide_eq_true_iff, toInt_eq]
  split_ifs with h
  · omega
  · omega

/-- The magnitude of a word is that of its integer. -/
theorem toNat_unsignedAbs (a : I256) : (a.unsignedAbs R).toNat = a.toInt.natAbs := by
  have hlt := a.bits.isLt
  rw [unsignedAbs]
  by_cases h : a.toInt < 0
  · have hneg := R.wrappingNeg_eq a.bits
    have hbits := a.bits_cases
    obtain ⟨hlow, -⟩ := a.toInt_inRange
    rw [if_pos (isNegative_iff.mpr h)]
    omega
  · have hbits := a.bits_cases
    rw [if_neg fun hneg => h (isNegative_iff.mp hneg)]
    omega

theorem toInt_zero : zero.toInt = 0 := rfl

/-- Only zero has no bits. -/
theorem bits_eq_zero_iff : a.bits = 0 ↔ a.toInt = 0 := by
  constructor
  · intro h
    rw [toInt, h]
    rfl
  · intro h
    exact congrArg bits (ext_toInt (h.trans toInt_zero.symm))

theorem toInt_min : (min R).toInt = -2 ^ 255 := by
  have hnum : (min R).bits.toNat = 2 ^ 255 := by
    rw [min, R.fromLimbs_eq]
    decide
  rw [toInt_eq, hnum]
  decide

theorem toInt_max : (max R).toInt = 2 ^ 255 - 1 := by
  have hnum : (max R).bits.toNat = 2 ^ 255 - 1 := by
    rw [max, R.fromLimbs_eq]
    decide
  rw [toInt_eq, hnum]
  decide

theorem toInt_minusOne : (minusOne R).toInt = -1 := by
  have hnum : (minusOne R).bits.toNat = 2 ^ 256 - 1 := by
    rw [minusOne, R.fromLimbs_eq]
    decide
  rw [toInt_eq, hnum]
  decide

/-- `Neg` of a magnitude. -/
theorem neg_magnitude (m : U256) : (⟨R.wrappingNeg m⟩ : I256) = wrap (-(m.toNat : ℤ)) := by
  have hneg := R.wrappingNeg_eq m
  refine eq_wrap ?_
  change (((R.wrappingNeg m).toNat : ℤ) - _) % 2 ^ 256 = 0
  omega

theorem magnitude (m : U256) : (⟨m⟩ : I256) = wrap m.toNat := by
  refine eq_wrap ?_
  change ((m.toNat : ℤ) - _) % 2 ^ 256 = 0
  omega

end

/-! ### Operations that report overflow -/

/-- An operation with the exact result `n`: it returns the wrapped result, with a flag that is set if the
exact one is out of range, and its checked form returns nothing if the flag is set. -/
structure Reports (n : ℤ) (overflowing : I256 × Bool) (checked : Option I256) : Prop where
  value : overflowing.1 = wrap n
  flag : overflowing.2 = true ↔ ¬ InRange n
  none_iff : checked = none ↔ overflowing.2 = true
  some_eq : ∀ v, checked = some v → v = overflowing.1

/-- The checked form of an operation. -/
theorem Reports.of_overflowing {n : ℤ} {overflowing : I256 × Bool} (hvalue : overflowing.1 = wrap n)
    (hflag : overflowing.2 = true ↔ ¬ InRange n) :
    Reports n overflowing (if overflowing.2 then none else some overflowing.1) := by
  obtain ⟨result, overflow⟩ := overflowing
  cases overflow with
  | true => exact ⟨hvalue, hflag, by simp, by simp⟩
  | false => exact ⟨hvalue, hflag, by simp, fun v hv => (Option.some.inj hv).symm⟩

section

variable (R : Ruint) (a b : I256)

/-- Whether a word that is computed is negative. -/
theorem isNegative_eq (R : Ruint) (a : I256) : a.isNegative R = decide (a.toInt < 0) := by
  by_cases h : a.toInt < 0
  · rw [isNegative_iff.mpr h, decide_eq_true h]
  · rw [decide_eq_false h, Bool.eq_false_iff]
    exact fun hneg => h (isNegative_iff.mp hneg)

theorem reports_add : Reports (a.toInt + b.toInt) (a.overflowingAdd R b) (a.checkedAdd R b) := by
  have hvalue : (⟨R.wrappingAdd a.bits b.bits⟩ : I256) = wrap (a.toInt + b.toInt) := by
    have hadd := R.wrappingAdd_eq a.bits b.bits
    have ha := a.bits_cases
    have hb := b.bits_cases
    refine eq_wrap ?_
    change (((R.wrappingAdd a.bits b.bits).toNat : ℤ) - _) % 2 ^ 256 = 0
    omega
  refine .of_overflowing hvalue ?_
  obtain ⟨⟨hlow, hhigh⟩, hmod⟩ := wrap_cases (a.toInt + b.toInt)
  obtain ⟨halow, hahigh⟩ := a.toInt_inRange
  obtain ⟨hblow, hbhigh⟩ := b.toInt_inRange
  simp only [overflowingAdd, hvalue, isNegative_eq, Bool.and_eq_true, beq_iff_eq, bne_iff_ne, decide_eq_decide, ne_eq,
    InRange]
  omega

theorem reports_sub : Reports (a.toInt - b.toInt) (a.overflowingSub R b) (a.checkedSub R b) := by
  have hvalue : (⟨R.wrappingSub a.bits b.bits⟩ : I256) = wrap (a.toInt - b.toInt) := by
    have hsub := R.wrappingSub_eq a.bits b.bits
    have ha := a.bits_cases
    have hb := b.bits_cases
    refine eq_wrap ?_
    change (((R.wrappingSub a.bits b.bits).toNat : ℤ) - _) % 2 ^ 256 = 0
    omega
  refine .of_overflowing hvalue ?_
  obtain ⟨⟨hlow, hhigh⟩, hmod⟩ := wrap_cases (a.toInt - b.toInt)
  obtain ⟨halow, hahigh⟩ := a.toInt_inRange
  obtain ⟨hblow, hbhigh⟩ := b.toInt_inRange
  simp only [overflowingSub, hvalue, isNegative_eq, Bool.and_eq_true, beq_iff_eq, bne_iff_ne, decide_eq_decide, ne_eq,
    InRange]
  omega

variable {R a b}

theorem xor_isNegative_eq_false (h : a.toInt < 0 ↔ b.toInt < 0) : (a.isNegative R ^^ b.isNegative R) = false := by
  rw [isNegative_eq, isNegative_eq, decide_eq_decide.mpr h, Bool.xor_self]

theorem xor_isNegative_eq_true (h : ¬ (a.toInt < 0 ↔ b.toInt < 0)) : (a.isNegative R ^^ b.isNegative R) = true := by
  rw [isNegative_eq, isNegative_eq, Bool.xor_iff_ne, ne_eq, decide_eq_decide]
  exact h

theorem toNat_max : (max R).bits.toNat = 2 ^ 255 - 1 := by
  have hbits := (max R).bits_cases
  rw [toInt_max] at hbits
  omega

variable (R a b)

theorem cmp_gt_iff {m n : U256} : (R.cmp m n == .gt) = true ↔ n.toNat < m.toNat := by
  rw [beq_iff_eq, R.cmp_eq, Nat.compare_eq_gt]

/-- The exact product, from the magnitudes and the signs. -/
theorem mul_cases : a.toInt * b.toInt = (a.toInt.natAbs * b.toInt.natAbs : ℕ) ∧ (a.toInt < 0 ↔ b.toInt < 0) ∨
    a.toInt * b.toInt = -(a.toInt.natAbs * b.toInt.natAbs : ℕ) ∧ ¬ (a.toInt < 0 ↔ b.toInt < 0) := by
  rw [Nat.cast_mul]
  rcases lt_or_ge a.toInt 0 with ha | ha
  · rcases lt_or_ge b.toInt 0 with hb | hb
    · left
      rw [Int.ofNat_natAbs_of_nonpos (le_of_lt ha), Int.ofNat_natAbs_of_nonpos (le_of_lt hb), Int.neg_mul_neg]
      exact ⟨rfl, by omega⟩
    · right
      rw [Int.ofNat_natAbs_of_nonpos (le_of_lt ha), Int.natAbs_of_nonneg hb, Int.neg_mul, Int.neg_neg]
      exact ⟨rfl, by omega⟩
  · rcases lt_or_ge b.toInt 0 with hb | hb
    · right
      rw [Int.natAbs_of_nonneg ha, Int.ofNat_natAbs_of_nonpos (le_of_lt hb), Int.mul_neg, Int.neg_neg]
      exact ⟨rfl, by omega⟩
    · left
      rw [Int.natAbs_of_nonneg ha, Int.natAbs_of_nonneg hb]
      exact ⟨rfl, by omega⟩

/-- The product of magnitudes, with the sign of the operands, wraps to the product. -/
theorem signed_eq_wrap {p : ℕ} {m : U256} (hm : m.toNat = p % 2 ^ 256) {negative : Bool} {n : ℤ}
    (hn : n = p ∧ negative = false ∨ n = -p ∧ negative = true) :
    (if negative then ⟨R.wrappingNeg m⟩ else ⟨m⟩ : I256) = wrap n := by
  rcases hn with ⟨rfl, rfl⟩ | ⟨rfl, rfl⟩
  · refine eq_wrap ?_
    change ((m.toNat : ℤ) - _) % 2 ^ 256 = 0
    omega
  · have hneg := R.wrappingNeg_eq m
    refine eq_wrap ?_
    change (((R.wrappingNeg m).toNat : ℤ) - _) % 2 ^ 256 = 0
    omega

theorem reports_mul : Reports (a.toInt * b.toInt) (a.overflowingMul R b) (a.checkedMul R b) := by
  by_cases hzero : a.bits = 0 ∨ b.bits = 0
  · have hmul : a.overflowingMul R b = (zero, false) := if_pos hzero
    have hexact : a.toInt * b.toInt = 0 := by
      rcases hzero with h | h
      · rw [bits_eq_zero_iff.mp h, Int.zero_mul]
      · rw [bits_eq_zero_iff.mp h, Int.mul_zero]
    rw [checkedMul, hmul, hexact]
    have hvalue : ((zero, false) : I256 × Bool).1 = wrap 0 := rfl
    refine .of_overflowing hvalue ?_
    decide
  · refine .of_overflowing ?_ ?_
    · have habs := R.overflowingMul_eq (a.unsignedAbs R) (b.unsignedAbs R)
      rw [toNat_unsignedAbs, toNat_unsignedAbs] at habs
      rw [overflowingMul, if_neg hzero]
      refine signed_eq_wrap R habs ?_
      rcases mul_cases a b with ⟨hexact, hsame⟩ | ⟨hexact, hdiffer⟩
      · exact .inl ⟨hexact, xor_isNegative_eq_false hsame⟩
      · exact .inr ⟨hexact, xor_isNegative_eq_true hdiffer⟩
    · have habs := R.overflowingMul_eq (a.unsignedAbs R) (b.unsignedAbs R)
      have hflag := R.overflowingMul_flag (a.unsignedAbs R) (b.unsignedAbs R)
      rw [toNat_unsignedAbs, toNat_unsignedAbs] at habs hflag
      rw [overflowingMul, if_neg hzero]
      generalize R.overflowingMul (a.unsignedAbs R) (b.unsignedAbs R) = product at habs hflag ⊢
      obtain ⟨abs, absOverflow⟩ := product
      dsimp only at habs
      simp only [Bool.or_eq_true] at hflag ⊢
      rw [hflag, InRange]
      rcases mul_cases a b with ⟨hexact, hsame⟩ | ⟨hexact, hdiffer⟩
      · -- The product is not negative, and must not exceed `MAX`.
        rw [xor_isNegative_eq_false hsame, if_neg Bool.false_ne_true, cmp_gt_iff, toNat_max, hexact]
        omega
      · -- The product is not positive, and its magnitude must not exceed that of `MIN`.
        have hmin : (-2 ^ 255 : ℤ).natAbs = 2 ^ 255 := by decide
        rw [xor_isNegative_eq_true hdiffer, if_pos rfl, cmp_gt_iff, toNat_unsignedAbs, toInt_min, hmin, hexact]
        omega

/-- **Arithmetic that reports overflow is exact.** -/
theorem overflow_reported : Reports (a.toInt + b.toInt) (a.overflowingAdd R b) (a.checkedAdd R b) ∧
    Reports (a.toInt - b.toInt) (a.overflowingSub R b) (a.checkedSub R b) ∧
    Reports (a.toInt * b.toInt) (a.overflowingMul R b) (a.checkedMul R b) :=
  ⟨reports_add R a b, reports_sub R a b, reports_mul R a b⟩

end

/-- The largest number and `-1`: sum and product are numbers, the difference overflows. -/
theorem overflow_reported_max :
    Reports (2 ^ 255 - 1 + -1) ((max .reference).overflowingAdd .reference (minusOne .reference))
        ((max .reference).checkedAdd .reference (minusOne .reference)) ∧
      Reports (2 ^ 255 - 1 - -1) ((max .reference).overflowingSub .reference (minusOne .reference))
        ((max .reference).checkedSub .reference (minusOne .reference)) ∧
      Reports ((2 ^ 255 - 1) * -1) ((max .reference).overflowingMul .reference (minusOne .reference))
        ((max .reference).checkedMul .reference (minusOne .reference)) ∧
      (max .reference).overflowingSub .reference (minusOne .reference) = (min .reference, true) := by
  have hreports := overflow_reported .reference (max .reference) (minusOne .reference)
  rw [toInt_max, toInt_minusOne] at hreports
  exact ⟨hreports.1, hreports.2.1, hreports.2.2, by decide⟩

end I256

end PvmContract.Num
