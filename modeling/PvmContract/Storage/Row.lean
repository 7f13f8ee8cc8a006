import PvmContract.Storage.StaticCodec

/-!
# Fields placed by the layout walker

Tuples, derived structs and `#[storage]` structs all place their fields with the
layout walker. `placed` is where a field ends up, with the walker's promises
restated for two fields of one struct.

`packRow` is the slot buffer that the encoders of tuples and derived structs
build: those fields that are placed in the slot, each copied to its window.
Fields with a dynamic body are passed over. From it come the tuples and the
derived structs that have packable fields only (`staticRow`), which both expand
to the same code.
-/

namespace PvmContract.Storage

open PvmContract.Data PvmContract.Types

/-! ### Placed fields -/

section

variable {α : Type*} (shape : α → Shape) (fields : List α)

theorem length_placements : (placements (fields.map shape)).length = fields.length := by
  have h := congrArg List.length (placements_declared (fields.map shape))
  rwa [List.length_map, List.length_map] at h

/-- Where the walker places field `i`. -/
def placed (i : Fin fields.length) : Placement :=
  (placements (fields.map shape)).get (i.cast (length_placements shape fields).symm)

/-- `STORAGE_SLOTS` of the struct. -/
def rowSlots : ℕ := totalSlots (fields.map shape)

variable {fields}

theorem placed_mem (i : Fin fields.length) : placed shape fields i ∈ placements (fields.map shape) :=
  List.get_mem _ _

theorem placed_shape (i : Fin fields.length) : (placed shape fields i).shape = shape (fields.get i) := by
  have h := placements_declared (fields.map shape)
  have hget : ((placements (fields.map shape)).map Placement.shape)[i.1]? = (fields.map shape)[i.1]? := by rw [h]
  rw [List.getElem?_map, List.getElem?_map, List.getElem?_eq_getElem i.2,
    List.getElem?_eq_getElem (by rw [length_placements]; exact i.2)] at hget
  exact Option.some.inj hget

theorem placed_within (i : Fin fields.length) :
    (placed shape fields i).offset + (shape (fields.get i)).packedBytes ≤ 32 := by
  rw [← placed_shape shape]
  exact placements_within (placed_mem shape i)

theorem placed_before {i j : Fin fields.length} (h : i < j) :
    (placed shape fields i).Before (placed shape fields j) :=
  List.pairwise_iff_get.mp (placements_monotone (fields.map shape)) _ _ h

/-- A field ends within the slots that are counted. -/
theorem placed_slot_lt (i : Fin fields.length) {t : ℕ} (h : t < (shape (fields.get i)).slots) :
    (placed shape fields i).slot + t < rowSlots shape fields := by
  rw [rowSlots, lt_totalSlots_iff]
  refine ⟨_, placed_mem shape i, Nat.le_add_right _ _, ?_⟩
  rw [placed_shape]
  exact Nat.add_lt_add_left h _

/-- Two fields of a struct do not meet: they are in different slots, or in one slot side by side. -/
theorem placed_apart {i j : Fin fields.length} (h : i ≠ j) :
    (placed shape fields i).slot + (shape (fields.get i)).slots ≤ (placed shape fields j).slot ∨
    (placed shape fields j).slot + (shape (fields.get j)).slots ≤ (placed shape fields i).slot ∨
    (placed shape fields i).slot = (placed shape fields j).slot ∧
      (shape (fields.get i)).slots = 1 ∧ (shape (fields.get j)).slots = 1 ∧
        ((placed shape fields j).offset + (shape (fields.get j)).packedBytes ≤ (placed shape fields i).offset ∨
          (placed shape fields i).offset + (shape (fields.get i)).packedBytes ≤ (placed shape fields j).offset) := by
  have hwi := placed_within shape i
  have hwj := placed_within shape j
  have hposi := (shape (fields.get i)).packedBytes_pos
  have hposj := (shape (fields.get j)).packedBytes_pos
  have hone : ∀ s : Shape, s.packedBytes < 32 → s.slots = 1 := fun s => s.slots_eq_one
  rcases Nat.lt_or_gt_of_ne fun heq => h (Fin.ext heq) with hlt | hlt
  · have hb := placed_before shape (show i < j from hlt)
    rw [Placement.Before, placed_shape, placed_shape] at hb
    rcases hb with hb | ⟨h1, hslot, hoff⟩
    · exact .inl hb
    · exact .inr (.inr ⟨hslot, h1, hone _ (by omega), .inl hoff⟩)
  · have hb := placed_before shape (show j < i from hlt)
    rw [Placement.Before, placed_shape, placed_shape] at hb
    rcases hb with hb | ⟨h1, hslot, hoff⟩
    · exact .inr (.inl hb)
    · exact .inr (.inr ⟨hslot.symm, hone _ (by omega), h1, .inr hoff⟩)

/-! ### The slot buffer of a row -/

/-- The windows of the fields placed in slot `slotIdx`, of those that have bytes to pack. -/
def rowWindows (shape : α → Shape) (fields : List α) (bytesOf : Fin fields.length → Option (List UInt8)) (slotIdx : ℕ) :
    List (ℕ × List UInt8) :=
  (List.finRange fields.length).filterMap fun i =>
    let p := placed shape fields i
    if p.slot = slotIdx then (bytesOf i).map fun bs => (p.offset, bs) else none

/-- The arms of `encode_slot` and `__encode_static_slot`, on a zero buffer. -/
def packRow (shape : α → Shape) (fields : List α) (bytesOf : Fin fields.length → Option (List UInt8)) (slotIdx : ℕ) :
    Word :=
  Word.zero.copyAll (rowWindows shape fields bytesOf slotIdx)

variable {shape} {bytesOf : Fin fields.length → Option (List UInt8)}
  (hlen : ∀ i, ∀ bs ∈ bytesOf i, bs.length = (shape (fields.get i)).packedBytes)

theorem mem_rowWindows {slotIdx : ℕ} {w : ℕ × List UInt8} :
    w ∈ rowWindows shape fields bytesOf slotIdx ↔
      ∃ i, (placed shape fields i).slot = slotIdx ∧ ∃ bs ∈ bytesOf i, w = ((placed shape fields i).offset, bs) := by
  simp only [rowWindows, List.mem_filterMap, List.mem_finRange, true_and]
  constructor
  · rintro ⟨i, hi⟩
    split_ifs at hi with hslot
    obtain ⟨bs, hbs, rfl⟩ := Option.map_eq_some_iff.mp hi
    exact ⟨i, hslot, bs, hbs, rfl⟩
  · rintro ⟨i, hslot, bs, hbs, rfl⟩
    refine ⟨i, ?_⟩
    rw [if_pos hslot, hbs, Option.map_some]

include hlen

theorem rowWindows_fit {slotIdx : ℕ} : ∀ w ∈ rowWindows shape fields bytesOf slotIdx, w.1 + w.2.length ≤ 32 := by
  intro w hw
  obtain ⟨i, -, bs, hbs, rfl⟩ := mem_rowWindows.mp hw
  change (placed shape fields i).offset + bs.length ≤ 32
  rw [hlen i bs hbs]
  exact placed_within shape i

theorem rowWindows_apart (slotIdx : ℕ) : (rowWindows shape fields bytesOf slotIdx).Pairwise Word.Apart := by
  refine List.Pairwise.filterMap _ ?_ (List.nodup_finRange fields.length)
  intro i j hne v hv w hw
  dsimp only at hv hw
  split_ifs at hv hw with hi hj
  obtain ⟨bs, hbs, rfl⟩ := Option.map_eq_some_iff.mp hv
  obtain ⟨cs, hcs, rfl⟩ := Option.map_eq_some_iff.mp hw
  have happart := placed_apart shape hne
  change _ + bs.length ≤ _ ∨ _ + cs.length ≤ _
  have hpos := (shape (fields.get i)).slots_pos
  have hpos' := (shape (fields.get j)).slots_pos
  rw [hlen i bs hbs, hlen j cs hcs]
  omega

/-- The bytes of a field are in its window. -/
theorem getD_packRow {i : Fin fields.length} {bs : List UInt8} (hbs : bs ∈ bytesOf i) {j : ℕ} (hj : j < bs.length) :
    (packRow shape fields bytesOf (placed shape fields i).slot).1.getD ((placed shape fields i).offset + j) 0 =
      bs.getD j 0 :=
  Word.getD_copyAll_of_mem (rowWindows_fit hlen) (rowWindows_apart hlen _) _ (mem_rowWindows.mpr ⟨i, rfl, bs, hbs, rfl⟩) hj

/-- Elsewhere there are zeros. -/
theorem getD_packRow_of_not_mem {slotIdx p : ℕ} (h : ∀ i, (placed shape fields i).slot = slotIdx → bytesOf i ≠ none →
      ¬ ((placed shape fields i).offset ≤ p ∧ p < (placed shape fields i).offset + (shape (fields.get i)).packedBytes)) :
    (packRow shape fields bytesOf slotIdx).1.getD p 0 = 0 := by
  rw [packRow, Word.getD_copyAll_of_not_mem (rowWindows_fit hlen), Word.getD_zero]
  intro w hw
  obtain ⟨i, hslot, bs, hbs, rfl⟩ := mem_rowWindows.mp hw
  have hi := h i hslot (by rw [hbs]; simp)
  rwa [← hlen i bs hbs] at hi

/-- Zero bytes make zero slots. -/
theorem packRow_zero (hzero : ∀ i, ∀ bs ∈ bytesOf i, ∀ j, bs.getD j 0 = 0) (slotIdx : ℕ) :
    packRow shape fields bytesOf slotIdx = Word.zero := by
  apply Word.ext_getD
  intro p
  rw [Word.getD_zero]
  by_cases hin : ∃ i, (placed shape fields i).slot = slotIdx ∧ bytesOf i ≠ none ∧
      (placed shape fields i).offset ≤ p ∧ p < (placed shape fields i).offset + (shape (fields.get i)).packedBytes
  · obtain ⟨i, rfl, hne, hlow, hhigh⟩ := hin
    obtain ⟨bs, hbs⟩ := Option.ne_none_iff_exists'.mp hne
    obtain ⟨j, rfl⟩ := Nat.exists_eq_add_of_le hlow
    have hbs' := hlen i bs hbs
    rw [getD_packRow hlen hbs (by omega), hzero i bs hbs]
  · exact getD_packRow_of_not_mem hlen fun i hslot hne hp => hin ⟨i, hslot, hne, hp⟩

end

/-! ### Rows of packable fields -/

section

variable (ps : List Packable)

/-- The values of the fields. -/
abbrev RowValue : Type := (i : Fin ps.length) → (ps.get i).Carrier

/-- The bytes of each field. -/
def rowBytes (v : RowValue ps) (i : Fin ps.length) : Option (List UInt8) := some ((ps.get i).toBytes (v i)).1

theorem length_rowBytes (v : RowValue ps) : ∀ i, ∀ bs ∈ rowBytes ps v i, bs.length = (ps.get i).shape.packedBytes := by
  rintro i _ ⟨⟩
  exact ((ps.get i).toBytes (v i)).2

/-- `from_slots`. -/
def rowFromSlots (slots : ℕ → Word) (i : Fin ps.length) : (ps.get i).Carrier :=
  let p := placed Packable.shape ps i
  (ps.get i).unpackFrom (slots p.slot) p.offset

/-- A tuple or a derived struct of packable fields. The buffer is zeroed first. -/
def rowCodec : SlotCodec where
  Carrier := RowValue ps
  storageSlots := rowSlots Packable.shape ps
  packedBytes := 32
  encodeSlot v slotIdx _ := packRow Packable.shape ps (rowBytes ps v) slotIdx
  fromSlots := rowFromSlots ps

theorem rowCodec_lawful : (rowCodec ps).Lawful where
  packedBytes_pos := Nat.succ_pos 31
  packedBytes_le := le_refl 32
  encodeSlot_congr _ _ _ _ := rfl
  narrow h := absurd h (lt_irrefl 32)
  fromSlots_congr := by
    intro slots slots' h
    funext i
    have hlt := placed_slot_lt Packable.shape i (Shape.slots_pos _)
    rw [Nat.add_zero] at hlt
    change rowFromSlots ps slots i = rowFromSlots ps slots' i
    rw [rowFromSlots, h _ hlt]
    rfl
  fromSlots_word v := by
    funext i
    refine ((ps.get i).unpackFrom_eq fun j hj => ?_).trans ((ps.get i).ofBytes_toBytes (v i))
    exact getD_packRow (length_rowBytes ps v) (i := i) rfl (lt_of_lt_of_eq hj ((ps.get i).toBytes (v i)).2.symm)
  word_zero slotIdx _ := by
    have hfield : ∀ i, rowFromSlots ps (fun _ => Word.zero) i = (ps.get i).zero := by
      intro i
      refine (ps.get i).unpackFrom_eq fun j _ => ?_
      rw [Word.getD_zero, getD_zeroBytes]
    refine packRow_zero (length_rowBytes ps _) ?_ slotIdx
    rintro i _ ⟨⟩ j
    change ((ps.get i).toBytes (rowFromSlots ps (fun _ => Word.zero) i)).1.getD j 0 = 0
    rw [hfield, Packable.toBytes_zeroValue, getD_zeroBytes]

/-- A tuple or a derived struct that the build accepts. -/
def staticRow (hne : ps ≠ []) (hle : rowSlots Packable.shape ps ≤ maxStaticSlots) : StaticCodec where
  toSlotCodec := rowCodec ps
  lawful := rowCodec_lawful ps
  storageSlots_pos := by
    have hpos := placed_slot_lt Packable.shape (⟨0, List.length_pos_iff.mpr hne⟩ : Fin ps.length)
      (Shape.slots_pos _)
    exact lt_of_le_of_lt (Nat.zero_le _) hpos
  storageSlots_le := hle

end

end PvmContract.Storage
