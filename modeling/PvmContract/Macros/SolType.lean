import Mathlib.Data.Nat.Notation

/-!
# Types as the macros see them

`SolType` is what the macros read off the syntax of a Rust type or of a Solidity
type. A path that names none of the built-in types is `custom`, and whatever
depends on it cannot be told from syntax: `isDynamic` and `headSize` answer
`none`. What a custom type carries is a parameter: its text, or, after name
resolution, what the path stands for.
-/

namespace PvmContract.Macros

/-- The types that the macros tell apart. -/
inductive SolType (π : Type*) where
  | address
  | bool
  | uint (bits : ℕ)
  | int (bits : ℕ)
  | bytes (size : ℕ)
  | dynBytes
  | string
  | array (inner : SolType π)
  | fixedArray (inner : SolType π) (size : ℕ)
  | tuple (types : List (SolType π))
  | custom (path : π)

namespace SolType

variable {π : Type*}

mutual

/-- Dynamic or static, where syntax alone decides it. -/
def isDynamic : SolType π → Option Bool
  | dynBytes | string | array _ => some true
  | tuple types => anyDynamic types
  | fixedArray inner _ => isDynamic inner
  | custom _ => none
  | _ => some false

/-- The loop over the components of a tuple: one undecided component leaves the tuple undecided. -/
def anyDynamic : List (SolType π) → Option Bool
  | [] => some false
  | ty :: types => do
    let isDyn ← isDynamic ty
    let rest ← anyDynamic types
    pure (isDyn || rest)

end

mutual

/-- The size of the head, where syntax alone decides it. -/
def headSize : SolType π → Option ℕ
  | fixedArray inner size => do
    if ← inner.isDynamic then pure 32
    else
      let innerSize ← headSize inner
      pure (innerSize * size)
  | tuple types => do
    if ← (tuple types).isDynamic then pure 32 else headSizes types
  | custom _ => none
  | _ => some 32

/-- The sum of the head sizes. -/
def headSizes : List (SolType π) → Option ℕ
  | [] => some 0
  | ty :: types => do
    let size ← headSize ty
    let rest ← headSizes types
    pure (size + rest)

end

mutual

/-- The canonical name, with the text of a custom type in its place. -/
def canonicalName (pathText : π → String) : SolType π → String
  | address => "address"
  | bool => "bool"
  | uint bits => "uint" ++ toString bits
  | int bits => "int" ++ toString bits
  | bytes size => "bytes" ++ toString size
  | dynBytes => "bytes"
  | string => "string"
  | array inner => inner.canonicalName pathText ++ "[]"
  | fixedArray inner size => inner.canonicalName pathText ++ "[" ++ toString size ++ "]"
  | tuple types => "(" ++ ",".intercalate (canonicalNames pathText types) ++ ")"
  | custom path => pathText path

/-- The canonical names of a list of types. -/
def canonicalNames (pathText : π → String) : List (SolType π) → List String
  | [] => []
  | ty :: types => ty.canonicalName pathText :: canonicalNames pathText types

end

mutual

/-- Whether a custom type occurs. -/
def hasCustomTypes : SolType π → Bool
  | custom _ => true
  | array inner => inner.hasCustomTypes
  | fixedArray inner _ => inner.hasCustomTypes
  | tuple types => anyCustom types
  | _ => false

/-- Whether a custom type occurs in a list. -/
def anyCustom : List (SolType π) → Bool
  | [] => false
  | ty :: types => ty.hasCustomTypes || anyCustom types

end

mutual

/-- Where syntax knows no custom type, it knows whether a type is dynamic. -/
theorem isDynamic_of_plain : (ty : SolType π) → ty.hasCustomTypes = false → ∃ b, ty.isDynamic = some b
  | dynBytes, _ | string, _ | array _, _ => ⟨true, rfl⟩
  | address, _ | bool, _ | uint _, _ | int _, _ | bytes _, _ => ⟨false, rfl⟩
  | fixedArray inner _, h => isDynamic_of_plain inner h
  | tuple types, h => anyDynamic_of_plain types h
  | custom _, h => Bool.noConfusion h

theorem anyDynamic_of_plain : (types : List (SolType π)) → anyCustom types = false →
    ∃ b, anyDynamic types = some b
  | [], _ => ⟨false, rfl⟩
  | ty :: types, h => by
    rw [anyCustom, Bool.or_eq_false_iff] at h
    obtain ⟨b, hb⟩ := isDynamic_of_plain ty h.1
    obtain ⟨c, hc⟩ := anyDynamic_of_plain types h.2
    exact ⟨b || c, by rw [anyDynamic, hb, hc]; rfl⟩

end

end SolType

end PvmContract.Macros
