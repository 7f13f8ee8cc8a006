import PvmContract.Storage.Row
import PvmContract.Storage.Codec

/-!
# Fields that do not meet

`Owned` says which keys belong to a part of storage: its slots, the regions of those
that are hashed, the regions of the keys in these that are hashed in turn, and so on.
Every key has one owner only, as long as the hash keeps regions apart.

`Occupies` says which cells a component may own, given where the layout walker has
placed it: a component narrower than a slot has a window of its slot, any other owns
what belongs to its slots. `Fills` is the same for a component without components of
its own. Two fields of one struct then never own the same cell (`occupies_disjoint`).

`aloneFlag` is the flag that the macros compute for each field from its two
neighbours. It is right about all fields: no other field is in the slot of a field
that is alone (`ranges_disjoint_of_alone`).
-/

namespace PvmContract.Storage

open PvmContract.Data

/-! ### Owned keys -/

/-- A key that belongs to the owner of `slots`, who hashes `points`: one of the slots, or a key in the
region of a point that belongs to the same owner. -/
inductive Owned (keccak : Hash) (points slots : Set Key) : Key → Prop where
  | slot {k} : k ∈ slots → Owned keccak points slots k
  | body {p k} : p ∈ points → Owned keccak points slots p → k ∈ region keccak p → Owned keccak points slots k

section

variable {keccak : Hash} {points slots P Q S T : Set Key} {k : Key}

/-- What belongs to a part belongs to the whole. -/
theorem Owned.inside (h : Owned keccak P S k) (hP : P ⊆ points) (hS : ∀ j ∈ S, Owned keccak points slots j) :
    Owned keccak points slots k := by
  induction h with
  | slot hk => exact hS _ hk
  | body hp _ hk ih => exact .body (hP hp) ih hk

theorem Owned.mono (h : Owned keccak P S k) (hP : P ⊆ points) (hS : S ⊆ slots) : Owned keccak points slots k :=
  h.inside hP fun _ hj => .slot (hS hj)

theorem owned_of_mem_ownKeys (hP : P ⊆ S) (h : k ∈ ownKeys keccak P S) : Owned keccak P S k := by
  rcases h with hk | ⟨p, hp, hk⟩
  · exact .slot hk
  · exact .body hp (.slot (hP hp)) hk

/-- A slot is in no region. -/
theorem Separate.not_mem_region (h : Separate keccak points slots) {p : Key} (hp : p ∈ points) (hk : k ∈ slots) :
    k ∉ region keccak p := fun hbody => Set.disjoint_left.mp (h.slots p hp) hbody hk

/-- **Owners of different slots own different keys.** The induction goes up from a key to the point in
whose region it is, which is the same for both owners, until it comes to a slot. -/
theorem Separate.owned_disjoint (h : Separate keccak points slots) (hP : P ⊆ points) (hQ : Q ⊆ points) (hS : S ⊆ slots)
    (hT : T ⊆ slots) (hST : Disjoint S T) (hk : Owned keccak P S k) : ¬ Owned keccak Q T k := by
  induction hk with
  | slot hk =>
    intro hk'
    cases hk' with
    | slot hk' => exact Set.disjoint_left.mp hST hk hk'
    | body hq _ hbody => exact h.not_mem_region (hQ hq) (hS hk) hbody
  | @body p k hp _ hbody ih =>
    intro hk'
    cases hk' with
    | slot hk' => exact h.not_mem_region (hP hp) (hT hk') hbody
    | @body q _ hq hqowned hbody' =>
      have hpq : p = q := by
        by_contra hne
        exact Set.disjoint_left.mp (h.regions p (hP hp) q (hQ hq) hne) hbody hbody'
      exact ih (hpq ▸ hqowned)

/-- The cells of a component of a struct or of a vector, and the keys that it hashes. -/
structure Occupies (keccak : Hash) (shape : Shape) (key : Key) (offset : ℕ) (points : Set Key) (cells : Set Cell) :
    Prop where
  points_owned : ∀ p ∈ points, Owned keccak points (key.range shape.slots) p
  cells_owned : ∀ c ∈ cells, Owned keccak points (key.range shape.slots) c.1
  /-- A component narrower than a slot has no cell beside its window. -/
  window : shape.packedBytes < 32 → cells ⊆ Store.windowCells key offset shape.packedBytes

namespace Occupies

variable {shape shape' : Shape} {key key' : Key} {offset offset' : ℕ} {cells cells' : Set Cell}
  (h : Occupies keccak shape key offset P cells) (h' : Occupies keccak shape' key' offset' Q cells')

include h h'

theorem disjoint (hsep : Separate keccak points slots) (hP : P ⊆ points) (hQ : Q ⊆ points)
    (hS : key.range shape.slots ⊆ slots) (hT : key'.range shape'.slots ⊆ slots)
    (hST : Disjoint (key.range shape.slots) (key'.range shape'.slots)) : Disjoint cells cells' := by
  rw [Set.disjoint_left]
  intro c hc hc'
  exact hsep.owned_disjoint hP hQ hS hT hST (h.cells_owned c hc) (h'.cells_owned c hc')

/-- Narrow components are side by side. -/
theorem disjoint_of_windows (narrow : shape.packedBytes < 32) (narrow' : shape'.packedBytes < 32)
    (hw : offset + shape.packedBytes ≤ offset' ∨ offset' + shape'.packedBytes ≤ offset) : Disjoint cells cells' := by
  refine Disjoint.mono (h.window narrow) (h'.window narrow') ?_
  rw [Set.disjoint_left]
  rintro ⟨_, p⟩ ⟨-, hlow, hhigh⟩ ⟨-, hlow', hhigh'⟩
  dsimp only at hlow hhigh hlow' hhigh'
  omega

end Occupies

/-- The cells of a field that has no components, and the slots of it that are hashed. -/
structure Fills (keccak : Hash) (shape : Shape) (key : Key) (offset : ℕ) (points : Set Key) (cells : Set Cell) :
    Prop where
  points_subset : points ⊆ key.range shape.slots
  cells_subset : cells ⊆ Store.cellsOf (ownKeys keccak points (key.range shape.slots))
  /-- A field narrower than a slot has no cell beside its window. -/
  window : shape.packedBytes < 32 → cells ⊆ Store.windowCells key offset shape.packedBytes

theorem Fills.occupies {shape : Shape} {key : Key} {offset : ℕ} {cells : Set Cell}
    (h : Fills keccak shape key offset P cells) : Occupies keccak shape key offset P cells where
  points_owned _ hp := .slot (h.points_subset hp)
  cells_owned _ hc := owned_of_mem_ownKeys h.points_subset (h.cells_subset hc)
  window := h.window

end

/-! ### Fields of a struct -/

/-- Slots behind one another are different keys. -/
theorem range_disjoint {k : Key} {m n m' n' : ℕ} (hfit : m + n < 2 ^ 256) (hfit' : m' + n' < 2 ^ 256)
    (h : m + n ≤ m' ∨ m' + n' ≤ m) : Disjoint ((k.add m).range n) ((k.add m').range n') := by
  rw [Set.disjoint_left]
  rintro _ ⟨i, hi, rfl⟩ ⟨j, hj, heq⟩
  rw [Key.add_add, Key.add_add] at heq
  have := Key.add_inj (by omega) (by omega) heq
  omega

theorem range_add_subset {k : Key} {m n total : ℕ} (h : m + n ≤ total) : (k.add m).range n ⊆ k.range total := by
  rintro _ ⟨i, hi, rfl⟩
  rw [Key.add_add]
  exact Key.mem_range_add (by omega)

section

variable {α : Type*} (shape : α → Shape) {fields : List α}

/-- The slots of a field are among those of the struct. -/
theorem placed_slots_le (i : Fin fields.length) :
    (placed shape fields i).slot + (shape (fields.get i)).slots ≤ rowSlots shape fields := by
  have hpos := (shape (fields.get i)).slots_pos
  have h := placed_slot_lt shape i (t := (shape (fields.get i)).slots - 1) (by omega)
  omega

variable {shape} {keccak : Hash} {k : Key} {points slots : Set Key}

/-- **Two components of a struct own different cells.** -/
theorem occupies_disjoint (hfit : rowSlots shape fields < 2 ^ 256) (hsep : Separate keccak points slots)
    {P : Fin fields.length → Set Key} {cells : Fin fields.length → Set Cell}
    (hP : ∀ i, P i ⊆ points) (hslots : k.range (rowSlots shape fields) ⊆ slots)
    (hocc : ∀ i, Occupies keccak (shape (fields.get i)) (k.add (placed shape fields i).slot)
      (placed shape fields i).offset (P i) (cells i)) {i j : Fin fields.length} (hne : i ≠ j) :
    Disjoint (cells i) (cells j) := by
  have hlei := placed_slots_le shape i
  have hlej := placed_slots_le shape j
  by_cases hrange : (placed shape fields i).slot + (shape (fields.get i)).slots ≤ (placed shape fields j).slot ∨
      (placed shape fields j).slot + (shape (fields.get j)).slots ≤ (placed shape fields i).slot
  · have hd := range_disjoint (k := k) (by omega) (by omega) hrange
    exact (hocc i).disjoint (hocc j) hsep (hP i) (hP j) ((range_add_subset hlei).trans hslots)
      ((range_add_subset hlej).trans hslots) hd
  · -- The fields share a slot, so both are narrow, side by side.
    have hposi := (shape (fields.get i)).packedBytes_pos
    have hposj := (shape (fields.get j)).packedBytes_pos
    have hwi := placed_within shape i
    have hwj := placed_within shape j
    have happart := placed_apart shape hne
    exact (hocc i).disjoint_of_windows (hocc j) (by omega) (by omega) (by omega)

/-- **Two fields of a struct own different cells.** -/
theorem fills_disjoint (hfit : rowSlots shape fields < 2 ^ 256) (hsep : Separate keccak points slots)
    {P : Fin fields.length → Set Key} {cells : Fin fields.length → Set Cell}
    (hP : ∀ i, P i ⊆ points) (hslots : k.range (rowSlots shape fields) ⊆ slots)
    (hfills : ∀ i, Fills keccak (shape (fields.get i)) (k.add (placed shape fields i).slot) (placed shape fields i).offset
      (P i) (cells i)) {i j : Fin fields.length} (hne : i ≠ j) : Disjoint (cells i) (cells j) :=
  occupies_disjoint hfit hsep hP hslots (fun i => (hfills i).occupies) hne

end

/-! ### Fields that are alone in their slot -/

section

variable {α : Type*} (shape : α → Shape) (fields : List α)

/-- `alone_chain_consts`: the slot of the field is not the one of the field before, nor of the one behind. -/
def aloneFlag (i : Fin fields.length) : Bool :=
  let curSlot := (placed shape fields i).slot
  let prevCheck := if h : i.1 = 0 then true else curSlot != (placed shape fields ⟨i.1 - 1, by omega⟩).slot
  let nextCheck := if h : i.1 + 1 = fields.length then true else curSlot != (placed shape fields ⟨i.1 + 1, by omega⟩).slot
  prevCheck && nextCheck

variable {shape fields}

theorem placed_slot_mono {i j : Fin fields.length} (h : i.1 ≤ j.1) :
    (placed shape fields i).slot ≤ (placed shape fields j).slot := by
  by_cases heq : i = j
  · rw [heq]
  · have hlt : i.1 < j.1 := Nat.lt_of_le_of_ne h fun hval => heq (Fin.ext hval)
    rcases placed_before shape hlt with hb | ⟨-, hslot, -⟩
    · omega
    · exact le_of_eq hslot

/-- The neighbours decide about all fields. -/
theorem slot_ne_of_alone {i j : Fin fields.length} (halone : aloneFlag shape fields i = true) (hne : j ≠ i) :
    (placed shape fields j).slot ≠ (placed shape fields i).slot := by
  simp only [aloneFlag, Bool.and_eq_true] at halone
  obtain ⟨hprev, hnext⟩ := halone
  intro hslot
  rcases Nat.lt_or_gt_of_ne fun heq => hne (Fin.ext heq) with hlt | hlt
  · have hzero : i.1 ≠ 0 := by omega
    rw [dif_neg hzero, bne_iff_ne] at hprev
    have hlow : (placed shape fields j).slot ≤ (placed shape fields ⟨i.1 - 1, by omega⟩).slot :=
      placed_slot_mono (Nat.le_sub_one_of_lt hlt)
    have hhigh : (placed shape fields ⟨i.1 - 1, by omega⟩).slot ≤ (placed shape fields i).slot :=
      placed_slot_mono (Nat.sub_le _ _)
    omega
  · have hlast : i.1 + 1 ≠ fields.length := by
      have := j.2
      omega
    rw [dif_neg hlast, bne_iff_ne] at hnext
    have hlow : (placed shape fields i).slot ≤ (placed shape fields ⟨i.1 + 1, by omega⟩).slot :=
      placed_slot_mono (Nat.le_succ _)
    have hhigh : (placed shape fields ⟨i.1 + 1, by omega⟩).slot ≤ (placed shape fields j).slot :=
      placed_slot_mono hlt
    omega

/-- **No other field is in the slots of a field that is alone.** -/
theorem ranges_disjoint_of_alone (hfit : rowSlots shape fields < 2 ^ 256) {k : Key} {i j : Fin fields.length}
    (halone : aloneFlag shape fields i = true) (hne : j ≠ i) :
    Disjoint ((k.add (placed shape fields j).slot).range (shape (fields.get j)).slots)
      ((k.add (placed shape fields i).slot).range (shape (fields.get i)).slots) := by
  have hlei := placed_slots_le shape i
  have hlej := placed_slots_le shape j
  have hslot := slot_ne_of_alone halone hne
  have happart := placed_apart shape hne
  exact range_disjoint (by omega) (by omega) (by omega)

end

end PvmContract.Storage
