import PvmContract.Abi.Indexed
import PvmContract.Contract.Events
import PvmContract.Macros.RoomLaws

/-!
# The topics of an event

What the derive and the traits make of an indexed field, against the topic of its
ABI value. The provided `indexed_topic` is right for the types of one word only.
It is also what a derived struct with a field of a custom type has, whose
expansion does not override it, and an array or a tuple that is named by an alias,
which the derive takes for a derived type (`EventField.defaulted`). A value of
such a type is written to a word as it is: it is not hashed, and if it takes more
than a word the writer panics.
-/

namespace PvmContract.Contract

open PvmContract.Data PvmContract.Types PvmContract.Macros PvmContract.Abi AbiType Run

section

variable (keccak : List UInt8 → Word)

/-- The encoding of a value, without an offset word. -/
def encoding (t : Ty) (v : t.impl.Carrier) : List UInt8 := enc t.abi (t.toAbi v)

end

section

variable {t : Ty} (h : t.Codable = true) (hd : t.impl.isDynamic = false)

include h hd

end

/-! ### One field -/

/-- What is known of an indexed field of an accepted event. -/
structure EventField.Indexable (f : EventField) : Prop where
  codable : f.ty.Codable = true
  assertion : f.indexedAssert.1 = true
  notVec : ∀ inner, f.field.sol ≠ .array inner
  sized : f.ty.impl.headSize < 2 ^ 63

/-- A field that the derive hashes, or takes for a custom type, is static. -/
theorem EventField.Indexable.static {f : EventField} (h : f.Indexable)
    (hsol : needsAbiEncodeHash f.field.sol = true ∨ ∃ c, f.field.sol = .custom c) : f.ty.impl.isDynamic = false := by
  have hassert := h.assertion
  unfold EventField.indexedAssert at hassert
  by_cases hhash : needsAbiEncodeHash f.field.sol = true
  · rw [if_pos hhash] at hassert
    simpa using hassert
  · obtain ⟨c, hc⟩ := hsol.resolve_left hhash
    rw [if_neg hhash, hc] at hassert
    simpa using hassert

section

variable (keccak : List UInt8 → Word)

end

end PvmContract.Contract
