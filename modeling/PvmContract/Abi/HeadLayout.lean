import Mathlib.Algebra.Ring.Nat

/-!
# Places in a head

What a type takes in the head of the tuple that it is a component of: a static type
takes the words of its value, a dynamic type the one word of its offset. `repeated` is
the place of an array of a fixed length, and `joined` that of a tuple or a struct.
-/

namespace PvmContract.Abi

/-- The place of a type in a head. -/
@[ext] structure HeadLayout where
  /-- The value is in the tail. -/
  dynamic : Bool
  /-- The words in the head. -/
  words : ℕ
  /-- A value in the tail has its offset in the head. -/
  words_of_dynamic : dynamic = true → words = 1

namespace HeadLayout

/-- A static value of some words. -/
def inPlace (words : ℕ) : HeadLayout := ⟨false, words, nofun⟩

/-- The offset of a dynamic value. -/
def offset : HeadLayout := ⟨true, 1, fun _ => rfl⟩

/-- One word. -/
abbrev word : HeadLayout := inPlace 1

/-- A value that has the given words if it is static. -/
def ofParts (dynamic : Bool) (words : ℕ) : HeadLayout := if dynamic then offset else inPlace words

/-- An array of a fixed length. -/
def repeated (l : HeadLayout) (n : ℕ) : HeadLayout := ofParts l.dynamic (l.words * n)

/-- The components of a tuple together. -/
def joined (ls : List HeadLayout) : HeadLayout := ofParts (ls.any dynamic) (ls.map words).sum

@[simp] theorem inPlace_dynamic (n : ℕ) : (inPlace n).dynamic = false := rfl

@[simp] theorem inPlace_words (n : ℕ) : (inPlace n).words = n := rfl

@[simp] theorem offset_dynamic : offset.dynamic = true := rfl

@[simp] theorem offset_words : offset.words = 1 := rfl

@[simp] theorem ofParts_dynamic (b : Bool) (n : ℕ) : (ofParts b n).dynamic = b := by cases b <;> rfl

theorem ofParts_words (b : Bool) (n : ℕ) : (ofParts b n).words = if b then 1 else n := by cases b <;> rfl

@[simp] theorem repeated_dynamic (l : HeadLayout) (n : ℕ) : (l.repeated n).dynamic = l.dynamic :=
  ofParts_dynamic _ _

theorem repeated_words (l : HeadLayout) (n : ℕ) :
    (l.repeated n).words = if l.dynamic then 1 else l.words * n := ofParts_words _ _

@[simp] theorem joined_dynamic (ls : List HeadLayout) : (joined ls).dynamic = ls.any dynamic :=
  ofParts_dynamic _ _

theorem joined_words (ls : List HeadLayout) :
    (joined ls).words = if ls.any dynamic then 1 else (ls.map words).sum := ofParts_words _ _

/-- A place is known by whether it is an offset and by its words. -/
theorem ofParts_eq (l : HeadLayout) : ofParts l.dynamic l.words = l := by
  apply HeadLayout.ext
  · exact ofParts_dynamic _ _
  · rw [ofParts_words]
    split
    case isTrue h => exact (l.words_of_dynamic h).symm
    case isFalse => rfl

/-- A tuple of one component takes what the component takes. -/
theorem joined_singleton (l : HeadLayout) : joined [l] = l := by
  have hparts : joined [l] = ofParts l.dynamic l.words := by simp [joined]
  rw [hparts, ofParts_eq]

/-- The place of one word. -/
theorem eq_word {l : HeadLayout} (hdyn : l.dynamic = false) (hwords : l.words = 1) : l = word :=
  HeadLayout.ext hdyn hwords

end HeadLayout

end PvmContract.Abi
