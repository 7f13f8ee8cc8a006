import PvmContract.Extrinsics.Decimal
import Mathlib.Data.List.DropRight

/-!
# Token amounts on the command line

The balance type of the extrinsics crate (`balance.rs`). An amount is a raw number or
a decimal number of token units with a unit prefix. Raw balances are shown in the
largest unit that leaves an integer part (`fromValue`, `display`), texts are read back
(`fromStr`), and a denominated amount is turned into the raw number of a token
(`denominateBalance`).

The reader has no token to hand: it takes the first character behind the number for a
unit prefix when it is one of six letters. The classes of characters are those of the
Unicode tables of the standard library, and only their values on ASCII and on `μ` are
used (`CharClasses`). The balance type is `u128`.
-/

namespace PvmContract.Extrinsics

open Data

/-- `char::is_numeric` and `char::is_alphabetic`. -/
structure CharClasses where
  isNumeric : Char → Bool
  isAlphabetic : Char → Bool
  /-- The ASCII digits are the numeric ASCII characters. -/
  isNumeric_ascii : ∀ c : Char, c.toNat < 128 → isNumeric c = c.isDigit
  /-- The ASCII letters are the alphabetic ASCII characters. -/
  isAlphabetic_ascii : ∀ c : Char, c.toNat < 128 → isAlphabetic c = c.isAlpha
  isNumeric_micro : isNumeric 'μ' = false
  isAlphabetic_micro : isAlphabetic 'μ' = true

/-- The classes on ASCII and `μ`, with no other characters in them. -/
def asciiClasses : CharClasses where
  isNumeric := Char.isDigit
  isAlphabetic c := c.isAlpha || c == 'μ'
  isNumeric_ascii _ _ := rfl
  isAlphabetic_ascii c h := by
    have hne : c ≠ 'μ' := by
      rintro rfl
      exact absurd h (by decide)
    rw [beq_eq_false_iff_ne.mpr hne, Bool.or_false]
  isNumeric_micro := rfl
  isAlphabetic_micro := rfl

/-- The errors: a text of this crate, or an error of the decimal or integer types. -/
inductive BalanceError where
  | message (text : String)
  | decimal
  | tryFromInt
  deriving DecidableEq

/-- `ok_or`. -/
def okOr {α : Type} (e : BalanceError) : Option α → Except BalanceError α
  | some a => .ok a
  | none => .error e

theorem okOr_eq_ok {α : Type} {e : BalanceError} {o : Option α} {a : α} (h : okOr e o = .ok a) :
    o = some a := by
  cases o with
  | none => cases h
  | some b => exact congrArg some (Except.ok.inj h)

theorem bind_eq_ok {α β : Type} {x : Except BalanceError α} {f : α → Except BalanceError β} {b : β}
    (h : x >>= f = .ok b) : ∃ a, x = .ok a ∧ f a = .ok b := by
  cases x with
  | error e => cases h
  | ok a => exact ⟨a, rfl, h⟩

/-- `TokenMetadata`. -/
structure TokenMetadata where
  tokenDecimals : ℕ
  symbol : Text

/-- `UnitPrefix`. -/
inductive UnitPrefix where
  | giga
  | mega
  | kilo
  | one
  | milli
  | micro
  | nano
  deriving DecidableEq

namespace UnitPrefix

/-- The power of ten, as in `denominate_balance`. -/
def exponent : UnitPrefix → ℤ
  | giga => 9
  | mega => 6
  | kilo => 3
  | one => 0
  | milli => -3
  | micro => -6
  | nano => -9

/-- The prefix, as in `Display`. -/
def text : UnitPrefix → Text
  | giga => ['G']
  | mega => ['M']
  | kilo => ['k']
  | one => []
  | milli => ['m']
  | micro => ['μ']
  | nano => ['n']

/-- The unit of a character, as in `FromStr`. -/
def ofChar : Char → UnitPrefix
  | 'G' => giga
  | 'M' => mega
  | 'k' => kilo
  | 'm' => milli
  | 'μ' => micro
  | 'n' => nano
  | _ => one

theorem exponent_injective {u v : UnitPrefix} (h : u.exponent = v.exponent) : u = v := by
  cases u <;> cases v <;> first | rfl | cases h

theorem exponent_le (u : UnitPrefix) : u.exponent ≤ 9 := by cases u <;> decide

/-- A prefix is one character, which names it. -/
theorem text_of_ne_one {u : UnitPrefix} (h : u ≠ one) : ∃ c, u.text = [c] ∧ ofChar c = u := by
  cases u with
  | one => exact absurd rfl h
  | giga => exact ⟨'G', rfl, rfl⟩
  | mega => exact ⟨'M', rfl, rfl⟩
  | kilo => exact ⟨'k', rfl, rfl⟩
  | milli => exact ⟨'m', rfl, rfl⟩
  | micro => exact ⟨'μ', rfl, rfl⟩
  | nano => exact ⟨'n', rfl, rfl⟩

end UnitPrefix

/-- `DenominatedBalance`. -/
structure DenominatedBalance where
  value : Decimal
  unit : UnitPrefix
  symbol : Text
  deriving DecidableEq

/-- `BalanceVariant<u128>`. -/
inductive BalanceVariant where
  | default (balance : ℕ)
  | denominated (balance : DenominatedBalance)
  deriving DecidableEq

/-- `str::parse::<u128>`. -/
def parseU128 (t : Text) : Option ℕ := parseUnsigned (2 ^ 128) t

/-- The characters that are taken off in front of the unit. -/
def CharClasses.leads (U : CharClasses) (c : Char) : Bool := U.isNumeric c || c == '.' || c == ','

/-- `FromStr` of a denominated balance. -/
def DenominatedBalance.fromStr (U : CharClasses) (value : Text) : Except BalanceError DenominatedBalance :=
  match value.dropWhile U.leads with
  | [] => .error (.message "no units or symbols present")
  | unitChar :: rest =>
    let unit := UnitPrefix.ofChar unitChar
    if unit ≠ .one ∧ rest = [] then .error (.message "cannot find the first char's index")
    else
      match Decimal.fromStrExact (value.rdropWhile U.isAlphabetic) with
      | none => .error (.message "Error while parsing the value.")
      | some d => .ok ⟨d.normalize, unit, if unit ≠ .one then rest else []⟩

/-- `FromStr`. -/
def BalanceVariant.fromStr (U : CharClasses) (input : Text) : Except BalanceError BalanceVariant :=
  let input := input.filter (· ≠ '_')
  match parseU128 input with
  | some balance => .ok (.default balance)
  | none => (DenominatedBalance.fromStr U input).map .denominated

/-- `format!("1{}", "0".repeat(zeros))`. -/
def oneAndZeros (zeros : ℕ) : Text := '1' :: List.replicate zeros '0'

/-- `denominate_balance`. -/
def BalanceVariant.denominateBalance (token : TokenMetadata) : BalanceVariant → Except BalanceError ℕ
  | .default balance => .ok balance
  | .denominated b =>
    let zeros : ℤ := token.tokenDecimals + b.unit.exponent
    if zeros < 0 then .error .tryFromInt
    else do
      let multiple ← okOr .decimal (Decimal.fromStrExact (oneAndZeros zeros.toNat))
      if zeros - b.value.fract.scale < 0 then
        .error (.message "Given precision of a Balance value is higher than allowed")
      else
        let balance ← okOr
          (.message "error while converting balance to raw format. Overflow during multiplication!")
          (b.value.checkedMul multiple)
        okOr .decimal balance.toU128

/-- `checked_sub`. -/
def checkedSub (a b : ℕ) : Option ℕ := if b ≤ a then some (a - b) else none

/-- The unit and the zeros of `BalanceVariant::from`. -/
def chooseUnit (tokenDecimals numberOfDigits : ℕ) : Option (UnitPrefix × ℕ) :=
  let giga := tokenDecimals + 9
  let mega := tokenDecimals + 6
  let kilo := tokenDecimals + 3
  let one := tokenDecimals
  if giga + 1 ≤ numberOfDigits then some (.giga, giga)
  else if mega + 1 ≤ numberOfDigits ∧ numberOfDigits ≤ giga then some (.mega, mega)
  else if kilo + 1 ≤ numberOfDigits ∧ numberOfDigits ≤ mega then some (.kilo, kilo)
  else if one + 1 ≤ numberOfDigits ∧ numberOfDigits ≤ kilo then some (.one, one)
  else
    match checkedSub tokenDecimals 3 with
    | some milli =>
      if milli + 1 ≤ numberOfDigits ∧ numberOfDigits ≤ one then some (.milli, milli)
      else
        match checkedSub tokenDecimals 6 with
        | some micro =>
          if micro + 1 ≤ numberOfDigits ∧ numberOfDigits ≤ milli then some (.micro, micro)
          else
            match checkedSub tokenDecimals 9 with
            | some nano =>
              if nano + 1 ≤ numberOfDigits ∧ numberOfDigits ≤ micro then some (.nano, nano) else none
            | none => none
        | none => none
    | none =>
      match checkedSub tokenDecimals 9 with
      | some nano => some (.nano, nano)
      | none => none

/-- `BalanceVariant::from`. -/
def BalanceVariant.fromValue (n : ℕ) : Option TokenMetadata → Except BalanceError BalanceVariant
  | none => .ok (.default n)
  | some token =>
    if n = 0 then .ok (.denominated ⟨Decimal.zero, .one, token.symbol⟩)
    else
      match chooseUnit token.tokenDecimals (Nat.toDigits 10 n).length with
      | none => .error (.message "Invalid denomination")
      | some (unit, zeros) => do
        let multiple ← okOr .decimal (Decimal.fromStrExact (oneAndZeros zeros))
        let balance ← okOr (.message "value can not be converted into decimal") (Decimal.fromU128 n)
        let value ← okOr .decimal (balance.div multiple)
        .ok (.denominated ⟨value, unit, token.symbol⟩)

/-- `Display`. -/
def BalanceVariant.display : BalanceVariant → Text
  | .default balance => Nat.toDigits 10 balance
  | .denominated b => b.value.display ++ b.unit.text ++ b.symbol

/-- A text given for an amount of a token, read and denominated. -/
def readAmount (U : CharClasses) (token : TokenMetadata) (input : Text) : Except BalanceError ℕ := do
  let balance ← BalanceVariant.fromStr U input
  balance.denominateBalance token

end PvmContract.Extrinsics
