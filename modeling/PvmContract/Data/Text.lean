import Mathlib.Data.Nat.Notation
import Mathlib.Data.List.Basic
import Mathlib.Tactic.Basic

/-!
# Texts and numerals

Texts by their characters: the ASCII classes as bounds on the code, the parts of a text
around a prefix, a suffix or the last occurrence of a character, and the reading of
unsigned decimal numerals.
-/

namespace PvmContract.Data

/-- A text, by its characters. -/
abbrev Text := List Char

/-! ### Characters -/

theorem isUpper_iff {c : Char} : c.isUpper = true ↔ 65 ≤ c.toNat ∧ c.toNat ≤ 90 := by
  change decide (c.val ≥ 'A'.val ∧ c.val ≤ 'Z'.val) = true ↔ _
  simp only [decide_eq_true_eq, ge_iff_le, UInt32.le_iff_toNat_le]
  rfl

theorem isLower_iff {c : Char} : c.isLower = true ↔ 97 ≤ c.toNat ∧ c.toNat ≤ 122 := by
  change (decide (c.val ≥ 'a'.val) && decide (c.val ≤ 'z'.val)) = true ↔ _
  simp only [Bool.and_eq_true, decide_eq_true_eq, ge_iff_le, UInt32.le_iff_toNat_le]
  rfl

theorem isAlpha_eq (c : Char) : c.isAlpha = (c.isUpper || c.isLower) := rfl

theorem isDigit_iff {c : Char} : c.isDigit = true ↔ 48 ≤ c.toNat ∧ c.toNat ≤ 57 := by
  simp only [Char.isDigit, Bool.and_eq_true, decide_eq_true_eq, ge_iff_le, UInt32.le_iff_toNat_le]
  rfl

/-- Digits are no letters. -/
theorem isAlpha_of_isDigit {c : Char} (h : c.isDigit = true) : c.isAlpha = false := by
  have hle := isDigit_iff.mp h
  rw [isAlpha_eq, Bool.or_eq_false_iff, Bool.eq_false_iff, Bool.eq_false_iff, ne_eq, ne_eq, isUpper_iff, isLower_iff]
  omega

/-! ### Parts of a text -/

/-- `str::strip_prefix`. -/
def stripPrefix (p t : Text) : Option Text := if p <+: t then some (t.drop p.length) else none

/-- `str::strip_suffix`. -/
def stripSuffix (p t : Text) : Option Text := if p <:+ t then some (t.take (t.length - p.length)) else none

/-- `str::rfind` of a character: the parts in front of its last occurrence and behind it. -/
def splitLast (c : Char) : Text → Option (Text × Text)
  | [] => none
  | x :: t =>
    match splitLast c t with
    | some (front, back) => some (x :: front, back)
    | none => if x = c then some ([], t) else none

theorem stripPrefix_eq_some {p t s : Text} : stripPrefix p t = some s ↔ t = p ++ s := by
  rw [stripPrefix]
  constructor
  · intro h
    split at h
    · rename_i hprefix
      obtain ⟨s', rfl⟩ := hprefix
      rw [List.drop_left] at h
      rw [Option.some.inj h]
    · cases h
  · rintro rfl
    rw [if_pos (List.prefix_append p s), List.drop_left]

theorem stripSuffix_eq_some {p t s : Text} : stripSuffix p t = some s ↔ t = s ++ p := by
  have htake : ∀ s' : Text, (s' ++ p).take ((s' ++ p).length - p.length) = s' := by
    intro s'
    rw [List.length_append, Nat.add_sub_cancel, List.take_left]
  rw [stripSuffix]
  constructor
  · intro h
    split at h
    · rename_i hsuffix
      obtain ⟨s', rfl⟩ := hsuffix
      rw [htake] at h
      rw [Option.some.inj h]
    · cases h
  · rintro rfl
    rw [if_pos (List.suffix_append s p), htake]

theorem splitLast_eq_none {c : Char} {t : Text} : splitLast c t = none ↔ c ∉ t := by
  induction t with
  | nil => simp [splitLast]
  | cons x t ih =>
    rw [splitLast, List.mem_cons, not_or]
    cases hsplit : splitLast c t with
    | some p =>
      rw [hsplit] at ih
      simp only [reduceCtorEq, false_iff, not_not] at ih
      simp [ih]
    | none =>
      have hc := ih.mp hsplit
      by_cases hx : x = c
      · simp [hx]
      · simp [hx, hc, Ne.symm hx]

theorem splitLast_append {c : Char} {back : Text} (hc : c ∉ back) (front : Text) :
    splitLast c (front ++ c :: back) = some (front, back) := by
  induction front with
  | nil =>
    rw [List.nil_append, splitLast, splitLast_eq_none.mpr hc]
    exact if_pos rfl
  | cons x front ih => rw [List.cons_append, splitLast, ih]

theorem splitLast_eq_some {c : Char} {t front back : Text} :
    splitLast c t = some (front, back) ↔ t = front ++ c :: back ∧ c ∉ back := by
  constructor
  · intro h
    induction t generalizing front with
    | nil => cases h
    | cons x t ih =>
      rw [splitLast] at h
      split at h
      · rename_i front' back' hsplit
        obtain ⟨rfl, rfl⟩ := Prod.mk.inj (Option.some.inj h)
        obtain ⟨rfl, hc⟩ := ih hsplit
        exact ⟨rfl, hc⟩
      · rename_i hnone
        split at h
        · rename_i hx
          obtain ⟨rfl, rfl⟩ := Prod.mk.inj (Option.some.inj h)
          exact ⟨by rw [hx]; rfl, splitLast_eq_none.mp hnone⟩
        · cases h
  · rintro ⟨rfl, hc⟩
    exact splitLast_append hc front

/-! ### Numerals -/

/-- One plus sign taken off. -/
def stripPlus : Text → Text
  | '+' :: rest => rest
  | t => t

/-- `str::parse` for the unsigned integers below a bound: digits, with a plus sign in front of them or
without one. -/
def parseUnsigned (bound : ℕ) (t : Text) : Option ℕ :=
  let digits := stripPlus t
  if digits ≠ [] ∧ digits.all Char.isDigit = true ∧ Nat.ofDigitChars 10 digits 0 < bound then
    some (Nat.ofDigitChars 10 digits 0)
  else none

theorem isDigit_of_mem {n : ℕ} {c : Char} (h : c ∈ Nat.toDigits 10 n) : c.isDigit = true :=
  Nat.isDigit_of_mem_toDigits (by decide) (by decide) h

theorem stripPlus_cons {c : Char} (h : c ≠ '+') (t : Text) : stripPlus (c :: t) = c :: t := by
  rw [stripPlus]
  rintro rest hrest
  exact h (List.cons.inj hrest).1

theorem mem_stripPlus {t : Text} {c : Char} (hc : c ∈ t) (hplus : c ≠ '+') : c ∈ stripPlus t := by
  cases t with
  | nil => cases hc
  | cons c' t =>
    by_cases h : c' = '+'
    · subst h
      exact (List.mem_cons.mp hc).resolve_left hplus
    · rw [stripPlus_cons h]
      exact hc

theorem parseUnsigned_of_mem {bound : ℕ} {t : Text} {c : Char} (hc : c ∈ t) (hdigit : c.isDigit = false)
    (hplus : c ≠ '+') : parseUnsigned bound t = none := by
  rw [parseUnsigned, if_neg]
  rintro ⟨-, hall, -⟩
  rw [List.all_eq_true.mp hall c (mem_stripPlus hc hplus)] at hdigit
  cases hdigit

/-- The numeral of a number is read. -/
theorem parseUnsigned_toDigits {bound n : ℕ} (h : n < bound) : parseUnsigned bound (Nat.toDigits 10 n) = some n := by
  have hdigits : ∀ c ∈ Nat.toDigits 10 n, c.isDigit = true := fun c hc => isDigit_of_mem hc
  have hstrip : stripPlus (Nat.toDigits 10 n) = Nat.toDigits 10 n := by
    cases ht : Nat.toDigits 10 n with
    | nil => rfl
    | cons c t =>
      refine stripPlus_cons ?_ t
      rintro rfl
      have hplus := hdigits '+' (ht ▸ List.mem_cons_self)
      cases hplus
  rw [parseUnsigned, hstrip, Nat.ofDigitChars_ten_toDigits]
  exact if_pos ⟨Nat.toDigits_ne_nil, List.all_eq_true.mpr hdigits, h⟩

theorem lt_of_parseUnsigned {bound n : ℕ} {t : Text} (h : parseUnsigned bound t = some n) : n < bound := by
  rw [parseUnsigned] at h
  split at h
  case isTrue hcond =>
    obtain rfl := Option.some.inj h
    exact hcond.2.2
  case isFalse => cases h

end PvmContract.Data
