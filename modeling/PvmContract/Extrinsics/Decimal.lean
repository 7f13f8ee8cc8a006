import PvmContract.Data.Text
import Mathlib.Algebra.Order.Field.Basic
import Mathlib.Algebra.Order.Ring.Rat
import Mathlib.Data.Int.Order.Lemmas
import Mathlib.Tactic.FieldSimp
import Mathlib.Tactic.NormNum.Pow
import Mathlib.Tactic.Positivity
import Mathlib.Tactic.Ring

/-!
# Decimal numbers with a 96-bit mantissa

`rust_decimal` as the balance code uses it: a number is a mantissa of 96 bits with a
sign and a count of at most 28 fractional digits, and its arithmetic is exact where
the result is such a number. Results are kept without trailing fractional zeros
(`reduce`). The operations here answer `none` where the exact result is no such
number; the theorems about balances never go there.

A number is written with all its fractional digits (`display`), and a numeral is
read to the mantissa of all its digits (`numeral`), so what was written is read
back (`numeral_display`).
-/

namespace PvmContract.Extrinsics

open Data

/-- `rust_decimal::Decimal`. -/
structure Decimal where
  /-- All digits, with the sign. -/
  mantissa : ℤ
  /-- How many of them are fractional. -/
  scale : ℕ
  /-- The mantissa has 96 bits. -/
  mantissa_lt : mantissa.natAbs < 2 ^ 96
  /-- There are at most 28 fractional digits. -/
  scale_le : scale ≤ 28
  deriving DecidableEq

/-- Trailing fractional zeros taken off. -/
def reduce : ℕ → ℤ → ℤ × ℕ
  | 0, m => (m, 0)
  | s + 1, m => if m % 10 = 0 then reduce s (m / 10) else (m, s + 1)

theorem reduce_spec (s : ℕ) (m : ℤ) :
    (reduce s m).1 * 10 ^ s = m * 10 ^ (reduce s m).2 ∧ (reduce s m).2 ≤ s ∧
      (reduce s m).1.natAbs ≤ m.natAbs ∧ ((reduce s m).2 = 0 ∨ (reduce s m).1 % 10 ≠ 0) := by
  induction s generalizing m with
  | zero => exact ⟨rfl, le_rfl, le_rfl, .inl rfl⟩
  | succ s ih =>
    rw [reduce]
    by_cases h : m % 10 = 0
    · obtain ⟨hval, hle, habs, hlast⟩ := ih (m / 10)
      rw [if_pos h]
      refine ⟨?_, by omega, by omega, hlast⟩
      have hm : m / 10 * 10 = m := Int.ediv_mul_cancel (Int.dvd_of_emod_eq_zero h)
      rw [pow_succ, ← mul_assoc, hval, mul_right_comm, hm]
    · rw [if_neg h]
      exact ⟨rfl, le_rfl, le_rfl, .inr h⟩

/-- A mantissa that is a multiple of the power of ten is reduced to an integer. -/
theorem reduce_mul_pow (s : ℕ) (a : ℤ) : reduce s (a * 10 ^ s) = (a, 0) := by
  induction s with
  | zero => rw [pow_zero, mul_one, reduce]
  | succ s ih =>
    have hten : a * 10 ^ (s + 1) = a * 10 ^ s * 10 := by rw [pow_succ, mul_assoc]
    rw [reduce, hten, if_pos (by omega), Int.mul_ediv_cancel _ (by decide), ih]

namespace Decimal

/-- `Decimal::ZERO`. -/
def zero : Decimal := ⟨0, 0, by decide, by decide⟩

/-- The number with a mantissa and a scale, if it is one. -/
def ofParts (m : ℤ) (s : ℕ) : Option Decimal :=
  if h : m.natAbs < 2 ^ 96 ∧ s ≤ 28 then some ⟨m, s, h.1, h.2⟩ else none

/-- `normalize`. -/
def normalize (d : Decimal) : Decimal :=
  ⟨(reduce d.scale d.mantissa).1, (reduce d.scale d.mantissa).2,
    lt_of_le_of_lt (reduce_spec d.scale d.mantissa).2.2.1 d.mantissa_lt,
    le_trans (reduce_spec d.scale d.mantissa).2.1 d.scale_le⟩

/-- `fract`. -/
def fract (d : Decimal) : Decimal :=
  ⟨d.mantissa.tmod (10 ^ d.scale), d.scale, lt_of_le_of_lt (by
    rw [Int.natAbs_tmod]
    exact Nat.mod_le _ _) d.mantissa_lt, d.scale_le⟩

/-- `checked_mul`. -/
def checkedMul (a b : Decimal) : Option Decimal :=
  ofParts (reduce (a.scale + b.scale) (a.mantissa * b.mantissa)).1
    (reduce (a.scale + b.scale) (a.mantissa * b.mantissa)).2

/-- The quotient with a count of fractional digits, if it is one. -/
def quotientAt (a b : Decimal) (s : ℕ) : Option Decimal :=
  if b.mantissa * 10 ^ a.scale ∣ a.mantissa * 10 ^ (b.scale + s) then
    ofParts (a.mantissa * 10 ^ (b.scale + s) / (b.mantissa * 10 ^ a.scale)) s
  else none

/-- `/`, with as few fractional digits as it takes. -/
def div (a b : Decimal) : Option Decimal := (List.range 29).findSome? (quotientAt a b)

/-- `Decimal::from_u128`. -/
def fromU128 (n : ℕ) : Option Decimal := ofParts n 0

/-- `u128::try_from`: what is behind the point is cut off. -/
def toU128 (d : Decimal) : Option ℕ :=
  if d.mantissa < 0 then none else some (d.mantissa / 10 ^ d.scale).toNat

/-- The number. -/
def value (d : Decimal) : ℚ := d.mantissa / 10 ^ d.scale

theorem ofParts_eq_some {m : ℤ} {s : ℕ} {d : Decimal} (h : ofParts m s = some d) :
    d.mantissa = m ∧ d.scale = s := by
  rw [ofParts] at h
  split at h
  · obtain rfl := Option.some.inj h
    exact ⟨rfl, rfl⟩
  · cases h

theorem ofParts_of_lt {m : ℤ} {s : ℕ} (hm : m.natAbs < 2 ^ 96) (hs : s ≤ 28) :
    ofParts m s = some ⟨m, s, hm, hs⟩ := dif_pos ⟨hm, hs⟩

theorem div_pow_eq_iff {m n : ℤ} {s t : ℕ} :
    (m : ℚ) / 10 ^ s = n / 10 ^ t ↔ m * 10 ^ t = n * 10 ^ s := by
  rw [div_eq_div_iff (by positivity) (by positivity)]
  norm_cast

theorem value_normalize (d : Decimal) : d.normalize.value = d.value := by
  rw [value, value, div_pow_eq_iff]
  exact (reduce_spec d.scale d.mantissa).1

/-- Normalized numbers: no fractional digits, or a last one that is not zero. -/
def Reduced (d : Decimal) : Prop := d.scale = 0 ∨ d.mantissa % 10 ≠ 0

theorem reduced_normalize (d : Decimal) : d.normalize.Reduced := (reduce_spec d.scale d.mantissa).2.2.2

/-- Quotients are exact. -/
theorem value_div {a b q : Decimal} (h : a.div b = some q) : q.value * b.value = a.value := by
  obtain ⟨s, -, hs⟩ := List.exists_of_findSome?_eq_some h
  rw [quotientAt] at hs
  split at hs
  case isTrue hdvd =>
    obtain ⟨hm, hscale⟩ := ofParts_eq_some hs
    have hmul : q.mantissa * (b.mantissa * 10 ^ a.scale) = a.mantissa * 10 ^ (b.scale + s) := by
      rw [hm]
      exact Int.ediv_mul_cancel hdvd
    have hcast : (q.mantissa : ℚ) * (b.mantissa * 10 ^ a.scale) = a.mantissa * 10 ^ (b.scale + s) := by
      exact_mod_cast hmul
    rw [value, value, value, hscale, div_mul_div_comm, ← pow_add,
      div_eq_div_iff (by positivity) (by positivity), Nat.add_comm s b.scale, ← hcast]
    ring
  case isFalse => cases hs

end Decimal

/-! ### Numerals -/

/-- Digits with at most one point among them, and at least one digit: the number of all digits, and how
many are behind the point. -/
def unsignedNumeral (t : Text) : Option (ℕ × ℕ) :=
  let int := t.takeWhile Char.isDigit
  match t.dropWhile Char.isDigit with
  | [] => if int = [] then none else some (Nat.ofDigitChars 10 int 0, 0)
  | '.' :: frac =>
    if frac.all Char.isDigit && int ++ frac ≠ [] then some (Nat.ofDigitChars 10 (int ++ frac) 0, frac.length)
    else none
  | _ => none

/-- The same with a sign. -/
def numeral : Text → Option (ℤ × ℕ)
  | '-' :: t => (unsignedNumeral t).map fun p => (-(p.1 : ℤ), p.2)
  | '+' :: t => (unsignedNumeral t).map fun p => ((p.1 : ℤ), p.2)
  | t => (unsignedNumeral t).map fun p => ((p.1 : ℤ), p.2)

/-- `Decimal::from_str_exact`. -/
def Decimal.fromStrExact (t : Text) : Option Decimal := do
  let (m, s) ← numeral t
  ofParts m s

/-- `Display` of a decimal. -/
def Decimal.display (d : Decimal) : Text :=
  let whole := Nat.toDigits 10 (d.mantissa.natAbs / 10 ^ d.scale)
  let frac := Nat.toDigits 10 (d.mantissa.natAbs % 10 ^ d.scale)
  (if d.mantissa < 0 then ['-'] else []) ++ whole ++
    if d.scale = 0 then [] else '.' :: (List.replicate (d.scale - frac.length) '0' ++ frac)

/-- The digits behind the point. -/
def fracDigits (s n : ℕ) : Text :=
  List.replicate (s - (Nat.toDigits 10 n).length) '0' ++ Nat.toDigits 10 n

theorem length_fracDigits {s n : ℕ} (hs : 0 < s) (h : n < 10 ^ s) : (fracDigits s n).length = s := by
  have hle := (Nat.length_toDigits_le_iff (by decide) hs).mpr h
  rw [fracDigits, List.length_append, List.length_replicate]
  omega

theorem isDigit_of_mem_fracDigits {s n : ℕ} {c : Char} (h : c ∈ fracDigits s n) : c.isDigit = true := by
  rcases List.mem_append.mp h with h | h
  · rw [List.eq_of_mem_replicate h]
    rfl
  · exact isDigit_of_mem h

theorem ofDigitChars_fracDigits {s n : ℕ} (hs : 0 < s) (h : n < 10 ^ s) (a : ℕ) :
    Nat.ofDigitChars 10 (fracDigits s n) a = 10 ^ s * a + n := by
  rw [Nat.ofDigitChars_eq_ofDigitChars_zero, length_fracDigits hs h, fracDigits, Nat.ofDigitChars_append,
    Nat.ofDigitChars_replicate_zero, Nat.mul_zero, Nat.ofDigitChars_ten_toDigits]

theorem takeWhile_digits {int : Text} (h : ∀ c ∈ int, c.isDigit = true) (rest : Text)
    (hrest : ∀ c ∈ rest.head?, c.isDigit = false) :
    (int ++ rest).takeWhile Char.isDigit = int ∧ (int ++ rest).dropWhile Char.isDigit = rest := by
  have htake : rest.takeWhile Char.isDigit = [] := by
    cases rest with
    | nil => rfl
    | cons c rest => simp [hrest c rfl]
  have hdrop : rest.dropWhile Char.isDigit = rest := by
    cases rest with
    | nil => rfl
    | cons c rest => simp [hrest c rfl]
  rw [List.takeWhile_append_of_pos h, List.dropWhile_append_of_pos h, htake, hdrop, List.append_nil]
  exact ⟨rfl, rfl⟩

/-- What is written for a number that is not negative has no sign. -/
theorem numeral_digits {t : Text} (h : ∀ c ∈ t.head?, c.isDigit = true) :
    numeral t = (unsignedNumeral t).map fun p => ((p.1 : ℤ), p.2) := by
  cases t with
  | nil => rfl
  | cons c t =>
    have hc := h c rfl
    have hminus : c ≠ '-' := fun heq => by rw [heq] at hc; cases hc
    have hplus : c ≠ '+' := fun heq => by rw [heq] at hc; cases hc
    rw [numeral]
    · exact fun t' heq => hminus (List.cons.inj heq).1
    · exact fun t' heq => hplus (List.cons.inj heq).1

/-- What is written is read back. -/
theorem numeral_display {d : Decimal} (h : 0 ≤ d.mantissa) : numeral d.display = some (d.mantissa, d.scale) := by
  have hne : Nat.toDigits 10 (d.mantissa.natAbs / 10 ^ d.scale) ≠ [] := Nat.toDigits_ne_nil
  have hdigits : ∀ c ∈ Nat.toDigits 10 (d.mantissa.natAbs / 10 ^ d.scale), c.isDigit = true :=
    fun c hc => isDigit_of_mem hc
  have hnat : (d.mantissa.natAbs : ℤ) = d.mantissa := Int.natAbs_of_nonneg h
  rw [Decimal.display]
  rw [if_neg (not_lt.mpr h), List.nil_append]
  by_cases hs : d.scale = 0
  · obtain ⟨htake, hdrop⟩ := takeWhile_digits hdigits [] (by simp)
    rw [if_pos hs, numeral_digits, unsignedNumeral, htake, hdrop]
    · dsimp only
      rw [if_neg hne, hs, pow_zero, Nat.div_one, Nat.ofDigitChars_ten_toDigits, Option.map_some, hnat]
    · intro c hc
      rw [List.append_nil] at hc
      exact hdigits c (List.mem_of_mem_head? hc)
  · have hpos : 0 < d.scale := Nat.pos_of_ne_zero hs
    have hlt : d.mantissa.natAbs % 10 ^ d.scale < 10 ^ d.scale := Nat.mod_lt _ (Nat.pow_pos (by decide))
    have hfrac : List.replicate (d.scale - (Nat.toDigits 10 (d.mantissa.natAbs % 10 ^ d.scale)).length) '0' ++
        Nat.toDigits 10 (d.mantissa.natAbs % 10 ^ d.scale) =
        fracDigits d.scale (d.mantissa.natAbs % 10 ^ d.scale) := rfl
    have hall : (fracDigits d.scale (d.mantissa.natAbs % 10 ^ d.scale)).all Char.isDigit = true :=
      List.all_eq_true.mpr fun c hc => isDigit_of_mem_fracDigits hc
    rw [if_neg hs, hfrac, numeral_digits, unsignedNumeral]
    · obtain ⟨htake, hdrop⟩ := takeWhile_digits hdigits
        ('.' :: fracDigits d.scale (d.mantissa.natAbs % 10 ^ d.scale)) fun c hc => by
          obtain rfl := Option.some.inj hc
          rfl
      rw [htake, hdrop]
      simp only
      rw [hall, if_pos (by simp [hne]), Nat.ofDigitChars_append, ofDigitChars_fracDigits hpos hlt,
        Nat.ofDigitChars_ten_toDigits, Nat.div_add_mod, length_fracDigits hpos hlt, Option.map_some, hnat]
    · intro c hc
      rw [List.head?_append_of_ne_nil _ hne] at hc
      exact hdigits c (List.mem_of_mem_head? hc)

theorem fromStrExact_display {d : Decimal} (h : 0 ≤ d.mantissa) : Decimal.fromStrExact d.display = some d := by
  rw [Decimal.fromStrExact, numeral_display h, Option.bind_eq_bind, Option.bind_some]
  exact Decimal.ofParts_of_lt d.mantissa_lt d.scale_le

end PvmContract.Extrinsics
