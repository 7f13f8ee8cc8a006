import Mathlib.Data.Nat.Digits.Defs
import Mathlib.Data.Int.Order.Basic
import Mathlib.Tactic.Ring

/-!
# Unsigned words of 256 bits

The crate `ruint`, as far as the signed integers of the contract types and the token are
built on it. `Ruint` is the crate as a parameter: the operations that are called, and for each
of them what its documentation says, as an equation on the number of a word. A shift
differs from that of the primitive integers in that its amount is not reduced first,
so that nothing is left of a word that is shifted by its width or more.

The text syntax of a word is not fixed here. `numeral` is the number that a string
spells, if it spells one, whatever the size; `from_str` accepts the numerals of words,
and the decimal form of a word is a numeral of it without a sign.

`Ruint.reference` is one such crate. It has the syntax of the real one: a prefix for the
bases 2, 8 and 16, digits of either case, and underscores anywhere between them.
-/

namespace PvmContract.Num

/-- `ruint::aliases::U256`. -/
abbrev U256 : Type := BitVec 256

/-- The crate `ruint`. -/
structure Ruint where
  /-- `as_limbs`, least significant first. -/
  asLimbs : U256 → Fin 4 → BitVec 64
  /-- `from_limbs`. -/
  fromLimbs : BitVec 64 → BitVec 64 → BitVec 64 → BitVec 64 → U256
  wrappingAdd : U256 → U256 → U256
  wrappingSub : U256 → U256 → U256
  saturatingAdd : U256 → U256 → U256
  wrappingNeg : U256 → U256
  wrappingMul : U256 → U256 → U256
  overflowingMul : U256 → U256 → U256 × Bool
  /-- Panics for a divisor of zero. -/
  wrappingDiv : U256 → U256 → U256
  /-- Panics for a divisor of zero. -/
  wrappingRem : U256 → U256 → U256
  wrappingShl : U256 → ℕ → U256
  wrappingShr : U256 → ℕ → U256
  cmp : U256 → U256 → Ordering
  /-- The number that a string spells in the syntax of `from_str`. -/
  numeral : String → Option ℕ
  /-- `from_str`, where all errors are one. -/
  fromStr : String → Option U256
  /-- `Display`. -/
  display : U256 → String
  asLimbs_eq : ∀ a i, (asLimbs a i).toNat = a.toNat / 2 ^ (64 * i.1) % 2 ^ 64
  fromLimbs_eq : ∀ l₀ l₁ l₂ l₃, (fromLimbs l₀ l₁ l₂ l₃).toNat =
    l₀.toNat + 2 ^ 64 * l₁.toNat + 2 ^ 128 * l₂.toNat + 2 ^ 192 * l₃.toNat
  wrappingAdd_eq : ∀ a b, (wrappingAdd a b).toNat = (a.toNat + b.toNat) % 2 ^ 256
  wrappingSub_eq : ∀ a b, ((wrappingSub a b).toNat : ℤ) = ((a.toNat : ℤ) - b.toNat) % 2 ^ 256
  saturatingAdd_eq : ∀ a b, (saturatingAdd a b).toNat = min (a.toNat + b.toNat) (2 ^ 256 - 1)
  wrappingNeg_eq : ∀ a, ((wrappingNeg a).toNat : ℤ) = -(a.toNat : ℤ) % 2 ^ 256
  wrappingMul_eq : ∀ a b, (wrappingMul a b).toNat = a.toNat * b.toNat % 2 ^ 256
  overflowingMul_eq : ∀ a b, (overflowingMul a b).1.toNat = a.toNat * b.toNat % 2 ^ 256
  overflowingMul_flag : ∀ a b, (overflowingMul a b).2 = true ↔ 2 ^ 256 ≤ a.toNat * b.toNat
  wrappingDiv_eq : ∀ a b, b ≠ 0 → (wrappingDiv a b).toNat = a.toNat / b.toNat
  wrappingRem_eq : ∀ a b, b ≠ 0 → (wrappingRem a b).toNat = a.toNat % b.toNat
  wrappingShl_eq : ∀ a n, (wrappingShl a n).toNat = a.toNat * 2 ^ n % 2 ^ 256
  wrappingShr_eq : ∀ a n, (wrappingShr a n).toNat = a.toNat / 2 ^ n
  cmp_eq : ∀ a b, cmp a b = compare a.toNat b.toNat
  fromStr_eq : ∀ s a, fromStr s = some a ↔ numeral s = some a.toNat
  numeral_display : ∀ a, numeral (display a) = some a.toNat
  /-- The decimal form has no sign. -/
  display_unsigned : ∀ a, ∀ c ∈ (display a).toList, c ≠ '-' ∧ c ≠ '+'

/-! ### A reference -/

/-- The value of a digit. -/
def digitValue (c : Char) : Option ℕ :=
  if c.isDigit then some (c.toNat - '0'.toNat)
  else if c.isLower then some (c.toNat - 'a'.toNat + 10)
  else if c.isUpper then some (c.toNat - 'A'.toNat + 10)
  else none

/-- Digits in front of which a number was read. -/
def readDigits (radix : ℕ) : List Char → ℕ → Option ℕ
  | [], acc => some acc
  | '_' :: cs, acc => readDigits radix cs acc
  | c :: cs, acc =>
    match digitValue c with
    | some d => if d < radix then readDigits radix cs (acc * radix + d) else none
    | none => none

/-- A string of digits with a prefix for the base. -/
def readNumeral : List Char → Option ℕ
  | '0' :: 'x' :: cs | '0' :: 'X' :: cs => readDigits 16 cs 0
  | '0' :: 'o' :: cs | '0' :: 'O' :: cs => readDigits 8 cs 0
  | '0' :: 'b' :: cs | '0' :: 'B' :: cs => readDigits 2 cs 0
  | cs => readDigits 10 cs 0

/-- The decimal digits of a number, most significant first. -/
def decimalDigits (n : ℕ) : List ℕ := if n = 0 then [0] else (Nat.digits 10 n).reverse

def decimal (n : ℕ) : List Char := (decimalDigits n).map Nat.digitChar

theorem decimalDigits_lt {n d : ℕ} (h : d ∈ decimalDigits n) : d < 10 := by
  rw [decimalDigits] at h
  split_ifs at h with hzero
  · rw [List.mem_singleton.mp h]
    decide
  · exact Nat.digits_lt_base (by decide) (List.mem_reverse.mp h)

theorem foldl_decimalDigits (n : ℕ) : (decimalDigits n).foldl (fun acc d => acc * 10 + d) 0 = n := by
  rw [decimalDigits]
  split_ifs with hzero
  · rw [hzero]
    rfl
  · rw [List.foldl_reverse]
    have hdigits := Nat.ofDigits_digits 10 n
    rw [Nat.ofDigits_eq_foldr] at hdigits
    refine Eq.trans ?_ hdigits
    congr 1
    funext d acc
    rw [Nat.cast_id, Nat.mul_comm, Nat.add_comm]

/-- A decimal digit is a digit, and no letter of a prefix. -/
theorem digitChar_spec : ∀ d < 10, digitValue d.digitChar = some d ∧
    d.digitChar ∉ ['_', 'x', 'X', 'o', 'O', 'b', 'B', '-', '+'] := by decide

theorem readDigits_map {ds : List ℕ} (h : ∀ d ∈ ds, d < 10) (acc : ℕ) :
    readDigits 10 (ds.map Nat.digitChar) acc = some (ds.foldl (fun acc d => acc * 10 + d) acc) := by
  induction ds generalizing acc with
  | nil => rfl
  | cons d ds ih =>
    obtain ⟨hvalue, hletters⟩ := digitChar_spec d (h d List.mem_cons_self)
    have hrest := ih (fun e he => h e (List.mem_cons_of_mem _ he)) (acc * 10 + d)
    rw [List.map_cons, List.foldl_cons, ← hrest, readDigits, hvalue]
    · exact if_pos (h d List.mem_cons_self)
    · rintro hunder
      exact hletters (by rw [hunder]; decide)

theorem decimal_spec {n : ℕ} {c : Char} (h : c ∈ decimal n) : c ∉ ['_', 'x', 'X', 'o', 'O', 'b', 'B', '-', '+'] := by
  obtain ⟨d, hd, rfl⟩ := List.mem_map.mp h
  exact (digitChar_spec d (decimalDigits_lt hd)).2

/-- No prefix is found in front of decimal digits. -/
theorem readNumeral_decimal (n : ℕ) : readNumeral (decimal n) = some n := by
  have hdigits := readDigits_map (fun _ => decimalDigits_lt (n := n)) 0
  rw [foldl_decimalDigits] at hdigits
  have hspec : ∀ a c cs, decimal n = a :: c :: cs → c ∉ ['_', 'x', 'X', 'o', 'O', 'b', 'B', '-', '+'] := by
    intro a c cs h
    exact decimal_spec (n := n) (by rw [h]; exact List.mem_cons_of_mem _ List.mem_cons_self)
  have hread : ∀ cs, (∀ a c cs', cs = a :: c :: cs' → c ∉ ['_', 'x', 'X', 'o', 'O', 'b', 'B', '-', '+']) →
      readNumeral cs = readDigits 10 cs 0 := by
    intro cs hcs
    unfold readNumeral
    split
    all_goals first
      | rfl
      | exact absurd (hcs _ _ _ rfl) (by decide)
  rw [hread _ hspec]
  exact hdigits

/-- A sum, or the largest word. -/
def saturated (a b : U256) : U256 := if a.toNat + b.toNat < 2 ^ 256 then a + b else BitVec.allOnes 256

theorem toNat_saturated (a b : U256) : (saturated a b).toNat = min (a.toNat + b.toNat) (2 ^ 256 - 1) := by
  rw [saturated]
  by_cases h : a.toNat + b.toNat < 2 ^ 256
  · rw [if_pos h, BitVec.toNat_add, Nat.mod_eq_of_lt h]
    omega
  · rw [if_neg h, BitVec.toNat_allOnes]
    omega

/-- One such crate, on bit vectors and on decimal digits. -/
def Ruint.reference : Ruint where
  asLimbs a i := BitVec.ofNat 64 (a.toNat / 2 ^ (64 * i.1))
  fromLimbs l₀ l₁ l₂ l₃ :=
    BitVec.ofNat 256 (l₀.toNat + 2 ^ 64 * l₁.toNat + 2 ^ 128 * l₂.toNat + 2 ^ 192 * l₃.toNat)
  wrappingAdd a b := a + b
  wrappingSub a b := a - b
  saturatingAdd := saturated
  wrappingNeg a := -a
  wrappingMul a b := a * b
  overflowingMul a b := (a * b, decide (2 ^ 256 ≤ a.toNat * b.toNat))
  wrappingDiv a b := a / b
  wrappingRem a b := a % b
  wrappingShl a n := a <<< n
  wrappingShr a n := a >>> n
  cmp a b := compare a.toNat b.toNat
  numeral s := readNumeral s.toList
  fromStr s := (readNumeral s.toList).bind fun n => if n < 2 ^ 256 then some (BitVec.ofNat 256 n) else none
  display a := String.ofList (decimal a.toNat)
  asLimbs_eq a i := BitVec.toNat_ofNat _ _
  fromLimbs_eq l₀ l₁ l₂ l₃ := by
    have h₀ := l₀.isLt
    have h₁ := l₁.isLt
    have h₂ := l₂.isLt
    have h₃ := l₃.isLt
    rw [BitVec.toNat_ofNat, Nat.mod_eq_of_lt (by omega)]
  wrappingAdd_eq := BitVec.toNat_add
  wrappingSub_eq a b := by
    have ha := a.isLt
    have hb := b.isLt
    rw [BitVec.toNat_sub]
    omega
  saturatingAdd_eq := toNat_saturated
  wrappingNeg_eq a := by
    have ha := a.isLt
    rw [BitVec.toNat_neg]
    omega
  wrappingMul_eq := BitVec.toNat_mul
  overflowingMul_eq := BitVec.toNat_mul
  overflowingMul_flag a b := decide_eq_true_iff
  wrappingDiv_eq a b _ := BitVec.toNat_udiv
  wrappingRem_eq a b _ := BitVec.toNat_umod
  wrappingShl_eq a n := by rw [BitVec.toNat_shiftLeft, Nat.shiftLeft_eq]
  wrappingShr_eq a n := by rw [BitVec.toNat_ushiftRight, Nat.shiftRight_eq_div_pow]
  cmp_eq _ _ := rfl
  fromStr_eq s a := by
    have ha := a.isLt
    rw [Option.bind_eq_some_iff]
    constructor
    · rintro ⟨n, hn, h⟩
      split_ifs at h with hlt
      rw [hn, ← Option.some.inj h, BitVec.toNat_ofNat, Nat.mod_eq_of_lt hlt]
    · intro h
      exact ⟨_, h, by rw [if_pos ha, BitVec.ofNat_toNat, BitVec.setWidth_eq]⟩
  numeral_display a := by rw [String.toList_ofList, readNumeral_decimal]
  display_unsigned a c hc := by
    rw [String.toList_ofList] at hc
    have hspec := decimal_spec hc
    simp only [List.mem_cons, not_or] at hspec
    exact ⟨hspec.2.2.2.2.2.2.2.1, hspec.2.2.2.2.2.2.2.2.1⟩

end PvmContract.Num
