import PvmContract.Num.I256

/-!
# Signed integers as text

`from_str` takes a sign off the front and leaves the rest to the unsigned parser. The
magnitude is then negated or taken as it is, with no look at its size, so a numeral
whose magnitude has a word but whose value is out of range is accepted and wraps
around (`parses_iff`). The other numerals, and the text of every word, are read
exactly.
-/

namespace PvmContract.Num.I256

variable (R : Ruint)

/-- `Display`. -/
def display (a : I256) : String :=
  if a.isNegative R then "-" ++ R.display (a.unsignedAbs R) else R.display a.bits

/-- The sign, if the first byte is one, and the rest. -/
def splitSign (s : String) : Bool × String :=
  match s.toList with
  | '-' :: rest => (true, String.ofList rest)
  | '+' :: rest => (false, String.ofList rest)
  | _ => (false, s)

/-- `from_str`. -/
def fromStr (s : String) : Option I256 :=
  let (negative, rest) := splitSign s
  (R.fromStr rest).map fun value => if negative then ⟨R.wrappingNeg value⟩ else ⟨value⟩

/-- The integer that an optionally signed numeral spells. -/
def signedNumeral (s : String) : Option ℤ :=
  let (negative, rest) := splitSign s
  (R.numeral rest).map fun (n : ℕ) => if negative then -(n : ℤ) else n

/-- A string is parsed to the word of the integer that it spells, if it spells one in range, and rejected
otherwise. -/
def Parses (s : String) : Prop :=
  ∀ v, fromStr R s = some v ↔ ∃ z, signedNumeral R s = some z ∧ InRange z ∧ v.toInt = z

variable {R}

theorem signed_magnitude (negative : Bool) (m : U256) :
    (if negative then ⟨R.wrappingNeg m⟩ else ⟨m⟩ : I256) = wrap (if negative then -(m.toNat : ℤ) else m.toNat) := by
  cases negative with
  | true => exact neg_magnitude m
  | false => exact magnitude m

/-- What is accepted: the numerals of words, with a sign, wrapped. -/
theorem fromStr_iff {s : String} {v : I256} :
    fromStr R s = some v ↔ ∃ z, signedNumeral R s = some z ∧ z.natAbs < 2 ^ 256 ∧ v = wrap z := by
  rw [fromStr, signedNumeral]
  generalize splitSign s = split
  obtain ⟨negative, rest⟩ := split
  simp only [Option.map_eq_some_iff, signed_magnitude]
  constructor
  · rintro ⟨m, hm, rfl⟩
    refine ⟨_, ⟨m.toNat, (R.fromStr_eq rest m).mp hm, rfl⟩, ?_, rfl⟩
    have hlt := m.isLt
    split_ifs
    · omega
    · omega
  · rintro ⟨_, ⟨n, hn, rfl⟩, hlt, rfl⟩
    have hn256 : n < 2 ^ 256 := by
      split_ifs at hlt
      · omega
      · omega
    have hnum : (BitVec.ofNat 256 n).toNat = n := by rw [BitVec.toNat_ofNat, Nat.mod_eq_of_lt hn256]
    refine ⟨BitVec.ofNat 256 n, (R.fromStr_eq rest _).mpr (by rw [hnum, hn]), by rw [hnum]⟩

/-- Every string but the numerals that wrap around is parsed exactly. -/
theorem parses_iff (s : String) :
    Parses R s ↔ ∀ z, signedNumeral R s = some z → InRange z ∨ 2 ^ 256 ≤ z.natAbs := by
  constructor
  · intro h z hz
    by_contra hout
    rw [not_or, Nat.not_le] at hout
    obtain ⟨hrange, hlt⟩ := hout
    obtain ⟨z', hz', hrange', -⟩ := (h (wrap z)).mp (fromStr_iff.mpr ⟨z, hz, hlt, rfl⟩)
    rw [hz, Option.some.injEq] at hz'
    exact hrange (hz' ▸ hrange')
  · intro h v
    rw [fromStr_iff]
    constructor
    · rintro ⟨z, hz, hlt, rfl⟩
      have hrange := (h z hz).resolve_right (Nat.not_le.mpr hlt)
      exact ⟨z, hz, hrange, toInt_wrap hrange⟩
    · rintro ⟨z, hz, hrange, hv⟩
      refine ⟨z, hz, ?_, ext_toInt (hv.trans (toInt_wrap hrange).symm)⟩
      obtain ⟨hlow, hhigh⟩ := hrange
      omega

/-- The text of a magnitude has no sign. -/
theorem splitSign_display (m : U256) : splitSign (R.display m) = (false, R.display m) := by
  have hchars := R.display_unsigned m
  rw [splitSign]
  split
  · rename_i rest heq
    exact absurd rfl (hchars '-' (by rw [heq]; exact List.mem_cons_self)).1
  · rename_i rest heq
    exact absurd rfl (hchars '+' (by rw [heq]; exact List.mem_cons_self)).2
  · rfl

theorem splitSign_neg (s : String) : splitSign ("-" ++ s) = (true, s) := by
  have hlist : ("-" ++ s).toList = '-' :: s.toList := String.toList_append
  rw [splitSign, hlist]
  exact congrArg (Prod.mk true) String.ofList_toList

/-- The text of a word is a numeral of its integer. -/
theorem signedNumeral_display (v : I256) : signedNumeral R (v.display R) = some v.toInt := by
  have hbits := v.bits_cases
  rw [display, signedNumeral]
  by_cases hneg : v.toInt < 0
  · rw [if_pos (isNegative_iff.mpr hneg), splitSign_neg]
    dsimp only
    rw [R.numeral_display, toNat_unsignedAbs, Option.map_some, if_pos rfl, Option.some.injEq]
    omega
  · rw [if_neg fun h => hneg (isNegative_iff.mp h), splitSign_display]
    dsimp only
    rw [R.numeral_display, Option.map_some, if_neg Bool.false_ne_true, Option.some.injEq]
    omega

theorem fromStr_display (v : I256) : fromStr R (v.display R) = some v := by
  obtain ⟨hlow, hhigh⟩ := v.toInt_inRange
  refine fromStr_iff.mpr ⟨_, signedNumeral_display v, by omega, ?_⟩
  exact ext_toInt (toInt_wrap ⟨hlow, hhigh⟩).symm

/-- **Text.** A string is parsed exactly, unless it is a numeral out of range whose magnitude has a word;
and the text of a word is parsed to the word. -/
theorem text_exact (R : Ruint) :
    (∀ s, Parses R s ↔ ∀ z, signedNumeral R s = some z → InRange z ∨ 2 ^ 256 ≤ z.natAbs) ∧
    ∀ v, fromStr R (v.display R) = some v :=
  ⟨parses_iff, fromStr_display⟩

/-- `2 ^ 255` is accepted, as the least integer. -/
theorem numeral_wraps :
    fromStr .reference "57896044618658097711785492504343953926634992332820282019728792003956564819968" =
        some (min .reference) ∧
      ¬ Parses .reference "57896044618658097711785492504343953926634992332820282019728792003956564819968" := by
  have hnumeral : signedNumeral .reference
      "57896044618658097711785492504343953926634992332820282019728792003956564819968" = some (2 ^ 255) := by decide
  constructor
  · decide
  · rw [parses_iff]
    intro h
    rcases h _ hnumeral with hrange | hlarge
    · exact absurd hrange (by decide)
    · exact absurd hlarge (by decide)

end PvmContract.Num.I256
