import PvmContract.Storage.Fields
import PvmContract.Contract.Errors

/-!
# The slots of elements

Where a vector keeps its elements: in the region of its root, packed, several to a
slot, if they are narrower than one, and else one after the other, each in its own
slots. Only the shape of an element matters. The functions are those of the source;
an index of 64 bits is a natural number below `2 ^ 64`.

Two elements are in different slots, or side by side in one (`elements_apart`).
-/

namespace PvmContract.Storage.StorageVec

open PvmContract.Data PvmContract.Contract

section

variable (E : Shape)

/-- `per_slot`. -/
def perSlot : ℕ := if E.packedBytes = 32 then 1 else 32 / E.packedBytes

/-- `slot_index_for`. -/
def slotIndexFor (i : ℕ) : Except Panic ℕ :=
  if E.packedBytes < 32 then .ok (i / perSlot E)
  else if E.slots > 1 then
    if i * E.slots < 2 ^ 64 then .ok (i * E.slots) else .error .overflow
  else .ok i

/-- `element_offset`. -/
def elementOffset (i : ℕ) : ℕ :=
  if E.packedBytes < 32 then
    let within := i % perSlot E
    32 - E.packedBytes * (within + 1)
  else 0

/-- `element_slot`. -/
def elementSlot (keccak : Hash) (root : Key) (i : ℕ) : Except Panic Key := do
  let index ← slotIndexFor E i
  return (dynBodyRoot keccak root).add index

/-- `elem_alone`. -/
def elemAlone (i : ℕ) : Bool := if E.packedBytes < 32 then i % perSlot E == 0 else true

/-- How many elements there is room for. -/
def limit : ℕ := (2 ^ 64 - 1) / E.slots + 1

/-- The slot of an element, counted from the root of the region. -/
def slotNum (i : ℕ) : ℕ := if E.packedBytes < 32 then i / perSlot E else i * E.slots

def elemKey (keccak : Hash) (root : Key) (i : ℕ) : Key := (dynBodyRoot keccak root).add (slotNum E i)

end

variable {E : Shape}

theorem perSlot_of_full (h : E.packedBytes = 32) : perSlot E = 1 := if_pos h

theorem perSlot_of_narrow (h : E.packedBytes < 32) : perSlot E = 32 / E.packedBytes := if_neg (ne_of_lt h)

theorem perSlot_pos : 0 < perSlot E := by
  by_cases h : E.packedBytes = 32
  · rw [perSlot_of_full h]
    exact Nat.one_pos
  · rw [perSlot, if_neg h]
    exact Nat.div_pos E.packedBytes_le E.packedBytes_pos

/-- The elements of a slot fit in it. -/
theorem mul_succ_le {w : ℕ} (hw : w < perSlot E) : E.packedBytes * (w + 1) ≤ 32 := by
  rcases Nat.lt_or_ge E.packedBytes 32 with h | h
  · rw [perSlot_of_narrow h] at hw
    exact le_trans (Nat.mul_le_mul_left _ hw) (Nat.mul_div_le 32 _)
  · have hfull := le_antisymm E.packedBytes_le h
    rw [perSlot_of_full hfull] at hw
    rw [Nat.lt_one_iff.mp hw, hfull]

theorem elementOffset_within (i : ℕ) : elementOffset E i + E.packedBytes ≤ 32 := by
  have hle := E.packedBytes_le
  rw [elementOffset]
  split_ifs with h
  · have hmul := mul_succ_le (Nat.mod_lt i (perSlot_pos (E := E)))
    have hself : E.packedBytes ≤ E.packedBytes * (i % perSlot E + 1) := Nat.le_mul_of_pos_right _ (Nat.succ_pos _)
    dsimp only
    omega
  · omega

theorem lt_limit_iff {i : ℕ} : i < limit E ↔ i * E.slots < 2 ^ 64 := by
  have hpos := E.slots_pos
  rw [limit, Nat.lt_succ_iff, Nat.le_div_iff_mul_le hpos]
  omega

theorem slotNum_lt {i : ℕ} (hi : i * E.slots < 2 ^ 64) : slotNum E i < 2 ^ 64 := by
  have hle : i ≤ i * E.slots := Nat.le_mul_of_pos_right _ E.slots_pos
  have hdiv := Nat.div_le_self i (perSlot E)
  rw [slotNum]
  split_ifs
  · omega
  · exact hi

theorem slotIndexFor_eq {i : ℕ} (hi : i * E.slots < 2 ^ 64) : slotIndexFor E i = .ok (slotNum E i) := by
  rw [slotIndexFor, slotNum]
  split_ifs with hnarrow hslots
  · rfl
  · rfl
  · have hone : E.slots = 1 := le_antisymm (Nat.le_of_not_lt hslots) E.slots_pos
    rw [hone, Nat.mul_one]

/-- The check in the source is about components of several slots only, but no index is too large for
the others. -/
theorem slotIndexFor_overflow {i : ℕ} (hi : i < 2 ^ 64) (h : 2 ^ 64 ≤ i * E.slots) :
    slotIndexFor E i = .error .overflow := by
  have hslots : 1 < E.slots := by
    by_contra hle
    have hone : E.slots = 1 := le_antisymm (Nat.le_of_not_lt hle) E.slots_pos
    rw [hone] at h
    omega
  have hwide : ¬ E.packedBytes < 32 := fun hnarrow => by
    have hone := E.slots_eq_one hnarrow
    omega
  rw [slotIndexFor, if_neg hwide, if_pos hslots, if_neg (Nat.not_lt.mpr h)]

theorem elementSlot_eq {keccak : Hash} {root : Key} {i : ℕ} (hi : i < limit E) :
    elementSlot E keccak root i = .ok (elemKey E keccak root i) := by
  rw [elementSlot, slotIndexFor_eq (lt_limit_iff.mp hi)]
  rfl

theorem elementSlot_overflow {keccak : Hash} {root : Key} {i : ℕ} (hi : i < 2 ^ 64) (h : ¬ i < limit E) :
    elementSlot E keccak root i = .error .overflow := by
  rw [elementSlot, slotIndexFor_overflow hi (Nat.le_of_not_lt fun hlt => h (lt_limit_iff.mpr hlt))]
  rfl

/-! ### Elements do not meet -/

/-- Elements in one slot are side by side. -/
theorem windows_apart {i j : ℕ} (narrow : E.packedBytes < 32) (hslot : i / perSlot E = j / perSlot E)
    (hne : i ≠ j) : elementOffset E i + E.packedBytes ≤ elementOffset E j ∨
      elementOffset E j + E.packedBytes ≤ elementOffset E i := by
  have hmod : i % perSlot E ≠ j % perSlot E := by
    intro hmod
    have hdi := Nat.div_add_mod i (perSlot E)
    have hdj := Nat.div_add_mod j (perSlot E)
    rw [hslot, hmod] at hdi
    omega
  have hmi := mul_succ_le (Nat.mod_lt i (perSlot_pos (E := E)))
  have hmj := mul_succ_le (Nat.mod_lt j (perSlot_pos (E := E)))
  simp only [elementOffset, if_pos narrow]
  have hsi : E.packedBytes * (i % perSlot E + 1) = _ := Nat.mul_succ _ _
  have hsj : E.packedBytes * (j % perSlot E + 1) = _ := Nat.mul_succ _ _
  rcases Nat.lt_or_gt_of_ne hmod with hlt | hgt
  · have hmul : E.packedBytes * (i % perSlot E + 1) ≤ _ := Nat.mul_le_mul_left _ hlt
    omega
  · have hmul : E.packedBytes * (j % perSlot E + 1) ≤ _ := Nat.mul_le_mul_left _ hgt
    omega

/-- **Two elements are in different slots, or side by side in one.** -/
theorem elements_apart (E : Shape) {i j : ℕ} (hne : i ≠ j) :
    slotNum E i + E.slots ≤ slotNum E j ∨ slotNum E j + E.slots ≤ slotNum E i ∨
      E.packedBytes < 32 ∧ (elementOffset E i + E.packedBytes ≤ elementOffset E j ∨
        elementOffset E j + E.packedBytes ≤ elementOffset E i) := by
  by_cases narrow : E.packedBytes < 32
  · have hone := E.slots_eq_one narrow
    by_cases hslot : i / perSlot E = j / perSlot E
    · exact .inr (.inr ⟨narrow, windows_apart narrow hslot hne⟩)
    · rw [slotNum, slotNum, if_pos narrow, if_pos narrow, hone]
      omega
  · rw [slotNum, slotNum, if_neg narrow, if_neg narrow]
    rcases Nat.lt_or_gt_of_ne hne with hlt | hgt
    · have hmul := Nat.mul_le_mul_right E.slots (Nat.succ_le_of_lt hlt)
      rw [Nat.succ_mul] at hmul
      exact .inl hmul
    · have hmul := Nat.mul_le_mul_right E.slots (Nat.succ_le_of_lt hgt)
      rw [Nat.succ_mul] at hmul
      exact .inr (.inl hmul)

end PvmContract.Storage.StorageVec
