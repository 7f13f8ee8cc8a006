import Mathlib.Data.Set.Disjoint
import Mathlib.Data.List.Pairwise
import Mathlib.Order.Disjoint
import Mathlib.Algebra.Ring.Nat
import Mathlib.Order.CompletePartialOrder
import Mathlib.Data.Set.Lattice

/-!
# The storage layout walker

Where the fields of a contract, of a `#[storage]` struct, of a derived value
struct and of a tuple are placed: one const function, `layout_step`, folded over
the fields' `PACKED_BYTES` and `SLOTS` from `LayoutStep::FIRST`.

Slot numbers are natural numbers. In the source they are `u64` constants, and a
sum past the last one is a compile error of the contract, not a value.

The walker counts a field's byte offset from the most significant byte, and fills
a slot from its least significant end. On the *tape* of bytes numbered
`32 * slot + low`, with `low` counted from the least significant byte as solc
counts it, the walker only ever moves forward: `LayoutStep.cursor` is where the
next field may begin, and `LayoutStep.start`, `LayoutStep.stop` are where the
current one does begin and end. The facts about one step are gathered in
`layoutStep_spec`; every statement about a whole walk is an induction on them.
-/

namespace PvmContract.Storage

/-- One step of the walker: the placement of the current field, and the entry
conditions for the next one. -/
structure LayoutStep where
  /-- Slot the current field starts at. -/
  slot : ℕ
  /-- Byte offset within `slot` where the current field begins. -/
  offset : ℕ
  /-- Slot the next field's step starts from. -/
  nextSlot : ℕ
  /-- Bytes remaining in `nextSlot`. -/
  nextSpace : ℕ
  deriving DecidableEq, Repr

/-- `LayoutStep::FIRST`, the seed of every chain. -/
def LayoutStep.first : LayoutStep := ⟨0, 0, 0, 32⟩

/-- `layout_step`. -/
def layoutStep (prev : LayoutStep) (packedBytes slots : ℕ) : LayoutStep :=
  let bytes := packedBytes % 256
  let entry := if prev.nextSpace < bytes then (prev.nextSlot + 1, 32) else (prev.nextSlot, prev.nextSpace)
  let slot := entry.1
  let space := entry.2
  let offset := space - bytes
  let exit := if slots > 1 then (slot + slots - 1, 0) else (slot, offset)
  ⟨slot, offset, exit.1, exit.2⟩

/-- What the walker reads of a field's type: `PACKED_BYTES` and `SLOTS`. A type
narrower than a slot packs with its neighbours and has one slot. -/
structure Shape where
  packedBytes : ℕ
  slots : ℕ
  packedBytes_pos : 0 < packedBytes
  packedBytes_le : packedBytes ≤ 32
  slots_pos : 0 < slots
  slots_eq_one : packedBytes < 32 → slots = 1

/-! What the bounds of a shape of 32 bytes say. -/

theorem word_pos : 0 < 32 := by decide

theorem word_le : 32 ≤ 32 := le_refl 32

theorem one_slot : 32 < 32 → 1 = 1 := fun _ => rfl

/-- A field that does not pack: a full slot or several. -/
def Shape.Full (s : Shape) : Prop := s.packedBytes = 32

/-- A field and the step that places it. -/
structure Placement where
  shape : Shape
  step : LayoutStep

/-- `slot_chain_consts`: the step of every field, each seeded by the one before. -/
def slotChain (prev : LayoutStep) : List Shape → List Placement
  | [] => []
  | s :: rest =>
    let step := layoutStep prev s.packedBytes s.slots
    ⟨s, step⟩ :: slotChain step rest

/-- The step the chain ends with. -/
def lastStep (prev : LayoutStep) : List Shape → LayoutStep
  | [] => prev
  | s :: rest => lastStep (layoutStep prev s.packedBytes s.slots) rest

/-- The placements of a struct's fields, in declaration order. -/
def placements (shapes : List Shape) : List Placement := slotChain .first shapes

/-- The slot count of a struct: nothing for no fields, else `step.next_slot + 1`. -/
def totalSlots : List Shape → ℕ
  | [] => 0
  | s :: rest => (lastStep .first (s :: rest)).nextSlot + 1

namespace Placement

/-- The first slot of the field. -/
def slot (p : Placement) : ℕ := p.step.slot

/-- The field's offset from the most significant byte. -/
def offset (p : Placement) : ℕ := p.step.offset

/-- The offset `generate_layout_emit` prints, from the least significant byte. -/
def solcOffset (p : Placement) : ℕ := 32 - p.offset - p.shape.packedBytes

/-- The slots of the field. -/
def Touches (p : Placement) (t : ℕ) : Prop := p.slot ≤ t ∧ t < p.slot + p.shape.slots

/-- The bytes of the field: slots and positions in them, the most significant
byte of a slot being its position `0`. -/
def footprint (p : Placement) : Set (ℕ × ℕ) :=
  {x | p.Touches x.1 ∧ p.offset ≤ x.2 ∧ x.2 < p.offset + p.shape.packedBytes}

/-- The tape position of the field's first byte. -/
def start (p : Placement) : ℕ := 32 * p.slot + p.solcOffset

/-- The tape position after the field's last byte. -/
def stop (p : Placement) : ℕ := p.start + (if 1 < p.shape.slots then 32 * p.shape.slots else p.shape.packedBytes)

/-- `p` is declared, and placed, before `q`. -/
def Before (p q : Placement) : Prop :=
  p.slot + p.shape.slots ≤ q.slot ∨
    p.shape.slots = 1 ∧ p.slot = q.slot ∧ q.offset + q.shape.packedBytes ≤ p.offset

end Placement

/-! ### solc's layout -/

/-- The cursor of solc's layout: a slot and the bytes of it in use. -/
structure SolcCursor where
  slotOffset : ℕ
  byteOffset : ℕ
  deriving DecidableEq, Repr

/-- The place solc gives to a type of `bytes` storage bytes at a cursor: the
next slot when the type does not fit in the rest of this one. -/
def SolcCursor.place (c : SolcCursor) (bytes : ℕ) : SolcCursor :=
  if c.byteOffset + bytes > 32 then ⟨c.slotOffset + 1, 0⟩ else c

/-- The cursor after a type placed at `c`: past its bytes if it shares the slot,
else at the slot after its last. -/
def SolcCursor.advance (c : SolcCursor) (bytes size : ℕ) : SolcCursor :=
  if size = 1 ∧ c.byteOffset + bytes ≤ 32 then ⟨c.slotOffset, c.byteOffset + bytes⟩
  else ⟨c.slotOffset + size, 0⟩

/-- solc's storage offsets of a sequence of types, from a cursor. -/
def solcOffsets (c : SolcCursor) : List Shape → List SolcCursor
  | [] => []
  | s :: rest =>
    let here := c.place s.packedBytes
    here :: solcOffsets (here.advance s.packedBytes s.slots) rest

/-- The cursor solc ends with. -/
def solcEnd (c : SolcCursor) : List Shape → SolcCursor
  | [] => c
  | s :: rest => solcEnd ((c.place s.packedBytes).advance s.packedBytes s.slots) rest

/-- solc's storage size: a slot in partial use counts. -/
def SolcCursor.size (c : SolcCursor) : ℕ := if c.byteOffset > 0 then c.slotOffset + 1 else c.slotOffset

/-! ### One step -/

/-- The tape position the next field may begin at. -/
def LayoutStep.cursor (l : LayoutStep) : ℕ := 32 * l.nextSlot + (32 - l.nextSpace)

/-- A walker state that a step can be taken from. -/
def LayoutStep.Sound (l : LayoutStep) : Prop := l.nextSpace ≤ 32

theorem LayoutStep.sound_first : LayoutStep.first.Sound := le_refl 32

theorem Shape.mod_packedBytes (s : Shape) : s.packedBytes % 256 = s.packedBytes :=
  Nat.mod_eq_of_lt (lt_of_le_of_lt s.packedBytes_le (by decide))

/-- The field fits in what is left of the slot. -/
theorem layoutStep_fits {prev : LayoutStep} {s : Shape} (h : s.packedBytes ≤ prev.nextSpace) :
    (layoutStep prev s.packedBytes s.slots).slot = prev.nextSlot ∧
      (layoutStep prev s.packedBytes s.slots).offset = prev.nextSpace - s.packedBytes := by
  simp only [layoutStep, Shape.mod_packedBytes, Nat.not_lt.mpr h, if_false, and_self]

/-- The field does not fit, and opens the next slot. -/
theorem layoutStep_breaks {prev : LayoutStep} {s : Shape} (h : prev.nextSpace < s.packedBytes) :
    (layoutStep prev s.packedBytes s.slots).slot = prev.nextSlot + 1 ∧
      (layoutStep prev s.packedBytes s.slots).offset = 32 - s.packedBytes := by
  simp only [layoutStep, Shape.mod_packedBytes, h, if_true, and_self]

/-- A field of several slots leaves its last one consumed. -/
theorem layoutStep_multi {prev : LayoutStep} {s : Shape} (h : 1 < s.slots) :
    (layoutStep prev s.packedBytes s.slots).nextSlot =
        (layoutStep prev s.packedBytes s.slots).slot + s.slots - 1 ∧
      (layoutStep prev s.packedBytes s.slots).nextSpace = 0 := by
  simp only [layoutStep, h, if_true, and_self]

/-- A field of one slot leaves the bytes below it. -/
theorem layoutStep_single {prev : LayoutStep} {s : Shape} (h : s.slots = 1) :
    (layoutStep prev s.packedBytes s.slots).nextSlot = (layoutStep prev s.packedBytes s.slots).slot ∧
      (layoutStep prev s.packedBytes s.slots).nextSpace =
        (layoutStep prev s.packedBytes s.slots).offset := by
  simp only [layoutStep, h, gt_iff_lt, lt_irrefl, if_false, and_self]

theorem Shape.slots_cases (s : Shape) : s.slots = 1 ∨ 1 < s.slots ∧ s.packedBytes = 32 := by
  rcases Nat.lt_or_ge s.packedBytes 32 with h | h
  · exact Or.inl (s.slots_eq_one h)
  · rcases Nat.lt_or_ge 1 s.slots with h1 | h1
    · exact Or.inr ⟨h1, le_antisymm s.packedBytes_le h⟩
    · exact Or.inl (le_antisymm h1 s.slots_pos)

/-- What one step does: the field begins at the cursor, or at the next slot if it
does not fit in what is left of this one; it lies within its slots; the new
cursor is where it stops. -/
structure StepSpec (prev : LayoutStep) (p : Placement) : Prop where
  space_lt : p.step.nextSpace < 32
  /-- The field ends within its slot. -/
  within : p.offset + p.shape.packedBytes ≤ 32
  /-- The field begins at the cursor, or at the least significant end of a slot. -/
  start_eq : p.start = prev.cursor ∨ prev.cursor < p.start ∧ p.solcOffset = 0
  /-- At most the rest of one slot is skipped, and only if the field is larger. -/
  start_lt : p.start < prev.cursor + p.shape.packedBytes
  cursor_eq : p.step.cursor = p.stop
  nextSlot_eq : p.step.nextSlot + 1 = p.slot + p.shape.slots
  slot_le : prev.nextSlot ≤ p.slot
  slot_le_succ : p.slot ≤ prev.nextSlot + 1

/-- The step lemma of the walk. -/
theorem layoutStep_spec {prev : LayoutStep} (hprev : prev.Sound) (s : Shape) :
    StepSpec prev ⟨s, layoutStep prev s.packedBytes s.slots⟩ := by
  have hle := s.packedBytes_le
  have hpos := s.packedBytes_pos
  have hslots := s.slots_pos
  have hsound : prev.nextSpace ≤ 32 := hprev
  have hplace : (layoutStep prev s.packedBytes s.slots).slot = prev.nextSlot ∧
        (layoutStep prev s.packedBytes s.slots).offset = prev.nextSpace - s.packedBytes ∧
          s.packedBytes ≤ prev.nextSpace ∨
      (layoutStep prev s.packedBytes s.slots).slot = prev.nextSlot + 1 ∧
        (layoutStep prev s.packedBytes s.slots).offset = 32 - s.packedBytes ∧
          prev.nextSpace < s.packedBytes := by
    rcases Nat.lt_or_ge prev.nextSpace s.packedBytes with h | h
    · exact Or.inr ⟨(layoutStep_breaks h).1, (layoutStep_breaks h).2, h⟩
    · exact Or.inl ⟨(layoutStep_fits h).1, (layoutStep_fits h).2, h⟩
  have hnext : (layoutStep prev s.packedBytes s.slots).nextSlot + 1 =
        (layoutStep prev s.packedBytes s.slots).slot + s.slots ∧
      ((layoutStep prev s.packedBytes s.slots).nextSpace =
          (layoutStep prev s.packedBytes s.slots).offset ∧ s.slots = 1 ∨
        (layoutStep prev s.packedBytes s.slots).nextSpace = 0 ∧ 1 < s.slots ∧ s.packedBytes = 32) := by
    rcases s.slots_cases with h | ⟨h, hfull⟩
    · obtain ⟨h1, h2⟩ := @layoutStep_single prev s h
      exact ⟨by rw [h1, h], Or.inl ⟨h2, h⟩⟩
    · obtain ⟨h1, h2⟩ := @layoutStep_multi prev s h
      exact ⟨by rw [h1]; omega, Or.inr ⟨h2, h, hfull⟩⟩
  generalize layoutStep prev s.packedBytes s.slots = l at hplace hnext
  obtain ⟨hns, hspace⟩ := hnext
  have hstop : (⟨s, l⟩ : Placement).stop = (⟨s, l⟩ : Placement).start +
      (if 1 < s.slots then 32 * s.slots else s.packedBytes) := rfl
  constructor <;> simp only [Placement.start, hstop, Placement.solcOffset, Placement.slot,
    Placement.offset, LayoutStep.cursor] <;> try omega
  rcases hspace with ⟨h, h1⟩ | ⟨h, h1, hfull⟩
  · rw [if_neg (by omega)]
    omega
  · rw [if_pos h1]
    omega

theorem StepSpec.sound {prev : LayoutStep} {p : Placement} (h : StepSpec prev p) : p.step.Sound :=
  le_of_lt h.space_lt

/-! ### Placements in order -/

namespace Placement

theorem start_lt (p : Placement) : p.start < 32 * p.slot + 32 := by
  have := p.shape.packedBytes_pos
  simp only [start, solcOffset]
  omega

theorem before_of_stop_le {p q : Placement} (hp : p.offset + p.shape.packedBytes ≤ 32)
    (hq : q.offset + q.shape.packedBytes ≤ 32) (h : p.stop ≤ q.start) : p.Before q := by
  have hlt := q.start_lt
  have hpos := p.shape.packedBytes_pos
  rcases p.shape.slots_cases with h1 | ⟨h1, -⟩
  · have hstop : p.stop = p.start + p.shape.packedBytes := by
      rw [stop, if_neg (by omega)]
    rw [hstop] at h
    simp only [start, solcOffset] at h hlt
    by_cases heq : p.slot = q.slot
    · exact Or.inr ⟨h1, heq, by omega⟩
    · exact Or.inl (by omega)
  · have hstop : p.stop = p.start + 32 * p.shape.slots := by
      rw [stop, if_pos h1]
    rw [hstop] at h
    simp only [start] at h hlt
    exact Or.inl (by omega)

theorem Before.disjoint {p q : Placement} (h : p.Before q) : Disjoint p.footprint q.footprint := by
  rw [Set.disjoint_left]
  rintro ⟨t, b⟩ ⟨⟨hp1, hp2⟩, hpb, -⟩ ⟨⟨hq1, hq2⟩, -, hqb⟩
  simp only at hp1 hp2 hpb hq1 hq2 hqb
  rcases h with h | ⟨h1, hslot, h⟩
  · omega
  · omega

end Placement

/-! ### The whole walk -/

theorem slotChain_cursor {prev : LayoutStep} (hprev : prev.Sound) (shapes : List Shape) :
    ∀ p ∈ slotChain prev shapes, p.offset + p.shape.packedBytes ≤ 32 ∧ prev.cursor ≤ p.start := by
  induction shapes generalizing prev with
  | nil => simp [slotChain]
  | cons s rest ih =>
    have hstep := layoutStep_spec hprev s
    intro p hp
    rcases List.mem_cons.mp hp with rfl | hp
    · refine ⟨hstep.within, ?_⟩
      rcases hstep.start_eq with h | ⟨h, -⟩
      · exact le_of_eq h.symm
      · exact le_of_lt h
    · obtain ⟨hin, hle⟩ := ih hstep.sound p hp
      refine ⟨hin, le_trans ?_ hle⟩
      have hstart := hstep.start_eq
      have hstop : prev.cursor ≤ Placement.stop ⟨s, layoutStep prev s.packedBytes s.slots⟩ := by
        rw [Placement.stop]
        rcases hstart with h | ⟨h, -⟩ <;> omega
      exact le_of_le_of_eq hstop hstep.cursor_eq.symm

theorem slotChain_before {prev : LayoutStep} (hprev : prev.Sound) (shapes : List Shape) :
    (slotChain prev shapes).Pairwise Placement.Before := by
  induction shapes generalizing prev with
  | nil => exact List.Pairwise.nil
  | cons s rest ih =>
    have hstep := layoutStep_spec hprev s
    refine List.Pairwise.cons ?_ (ih hstep.sound)
    intro q hq
    obtain ⟨hin, hle⟩ := slotChain_cursor hstep.sound rest q hq
    exact Placement.before_of_stop_le hstep.within hin (le_of_eq_of_le hstep.cursor_eq.symm hle)

theorem slotChain_map_shape (prev : LayoutStep) (shapes : List Shape) :
    (slotChain prev shapes).map Placement.shape = shapes := by
  induction shapes generalizing prev with
  | nil => rfl
  | cons s rest ih => rw [slotChain, List.map_cons, ih]

/-! ### Slot counts -/

theorem nextSlot_le_lastStep {prev : LayoutStep} (hprev : prev.Sound) (shapes : List Shape) :
    prev.nextSlot ≤ (lastStep prev shapes).nextSlot := by
  induction shapes generalizing prev with
  | nil => exact le_refl _
  | cons s rest ih =>
    have hstep := layoutStep_spec hprev s
    have hnext := hstep.nextSlot_eq
    have hle := hstep.slot_le
    have hpos := s.slots_pos
    refine le_trans ?_ (ih hstep.sound)
    simp only at hnext
    omega

theorem touches_le_lastStep {prev : LayoutStep} (hprev : prev.Sound) (shapes : List Shape) :
    ∀ p ∈ slotChain prev shapes, ∀ t, p.Touches t → t ≤ (lastStep prev shapes).nextSlot := by
  induction shapes generalizing prev with
  | nil => simp [slotChain]
  | cons s rest ih =>
    have hstep := layoutStep_spec hprev s
    intro p hp t ht
    rcases List.mem_cons.mp hp with rfl | hp
    · have hnext := hstep.nextSlot_eq
      have hlast := nextSlot_le_lastStep hstep.sound rest
      refine le_trans ?_ hlast
      have htop := ht.2
      simp only at hnext htop ⊢
      omega
    · exact ih hstep.sound p hp t ht

theorem exists_touches {prev : LayoutStep} (hprev : prev.Sound) (shapes : List Shape) {t : ℕ}
    (hlo : prev.nextSlot < t) (hhi : t ≤ (lastStep prev shapes).nextSlot) :
    ∃ p ∈ slotChain prev shapes, p.Touches t := by
  induction shapes generalizing prev with
  | nil => exact absurd hhi (Nat.not_le.mpr hlo)
  | cons s rest ih =>
    have hstep := layoutStep_spec hprev s
    by_cases h : t ≤ (layoutStep prev s.packedBytes s.slots).nextSlot
    · refine ⟨_, List.mem_cons_self, ?_, ?_⟩
      · exact le_trans hstep.slot_le_succ hlo
      · exact lt_of_lt_of_eq (Nat.lt_succ_of_le h) hstep.nextSlot_eq
    · obtain ⟨p, hp, ht⟩ := ih hstep.sound (Nat.not_le.mp h) hhi
      exact ⟨p, List.mem_cons_of_mem _ hp, ht⟩

theorem lt_totalSlots_iff (shapes : List Shape) (t : ℕ) :
    t < totalSlots shapes ↔ ∃ p ∈ placements shapes, p.Touches t := by
  cases shapes with
  | nil => simp [totalSlots, placements, slotChain]
  | cons s rest =>
    rw [totalSlots, Nat.lt_succ_iff]
    constructor
    · intro h
      rcases Nat.eq_zero_or_pos t with rfl | hpos
      · -- the first field fits in the first slot
        have hslot := (@layoutStep_fits .first s s.packedBytes_le).1
        refine ⟨_, List.mem_cons_self, ?_, ?_⟩
        · exact le_of_eq hslot
        · exact Nat.lt_add_left _ s.slots_pos
      · exact exists_touches LayoutStep.sound_first _ hpos h
    · rintro ⟨p, hp, ht⟩
      exact touches_le_lastStep LayoutStep.sound_first _ p hp t ht

/-! ### Agreement with solc -/

/-- A solc cursor and a walker state that stand at the same byte of the tape. -/
def SolcCursor.Matches (c : SolcCursor) (l : LayoutStep) : Prop :=
  32 * c.slotOffset + c.byteOffset = l.cursor ∧ c.byteOffset ≤ 32

theorem SolcCursor.place_eq {c : SolcCursor} {prev : LayoutStep} (hc : c.Matches prev) {p : Placement}
    (hstep : StepSpec prev p) : c.place p.shape.packedBytes = ⟨p.slot, p.solcOffset⟩ := by
  obtain ⟨hcur, hle⟩ := hc
  have hin := hstep.within
  have hlt := hstep.start_lt
  have hpos := p.shape.packedBytes_pos
  have hstart := hstep.start_eq
  obtain ⟨slotOffset, byteOffset⟩ := c
  simp only [SolcCursor.place, Placement.start, Placement.solcOffset] at *
  by_cases h : byteOffset + p.shape.packedBytes > 32
  · rw [if_pos h]
    simp only [SolcCursor.mk.injEq]
    omega
  · rw [if_neg h]
    simp only [SolcCursor.mk.injEq]
    omega

theorem SolcCursor.matches_advance {prev : LayoutStep} {p : Placement} (hstep : StepSpec prev p) :
    (SolcCursor.advance ⟨p.slot, p.solcOffset⟩ p.shape.packedBytes p.shape.slots).Matches p.step := by
  have hin := hstep.within
  have hcur := hstep.cursor_eq
  have hfit : p.solcOffset + p.shape.packedBytes ≤ 32 := by
    rw [Placement.solcOffset]
    omega
  rcases p.shape.slots_cases with h | ⟨h, hfull⟩
  · rw [SolcCursor.advance, if_pos ⟨h, hfit⟩]
    refine ⟨?_, hfit⟩
    rw [hcur, Placement.stop, if_neg (by omega), Placement.start, ← Nat.add_assoc]
  · rw [SolcCursor.advance, if_neg (by omega)]
    refine ⟨?_, Nat.zero_le _⟩
    rw [hcur, Placement.stop, if_pos h, Placement.start]
    simp only
    omega

theorem solcOffsets_eq {c : SolcCursor} {prev : LayoutStep} (hprev : prev.Sound) (hc : c.Matches prev)
    (shapes : List Shape) :
    (slotChain prev shapes).map (fun p => SolcCursor.mk p.slot p.solcOffset) = solcOffsets c shapes ∧
      (solcEnd c shapes).Matches (lastStep prev shapes) := by
  induction shapes generalizing c prev with
  | nil => exact ⟨rfl, hc⟩
  | cons s rest ih =>
    have hstep := layoutStep_spec hprev s
    have hplace : c.place s.packedBytes = _ := SolcCursor.place_eq hc hstep
    obtain ⟨hmap, hend⟩ := ih hstep.sound (SolcCursor.matches_advance hstep)
    constructor
    · rw [slotChain, List.map_cons, solcOffsets, hplace, hmap]
    · rw [solcEnd, hplace, lastStep]
      exact hend

theorem nextSpace_lastStep_lt {prev : LayoutStep} (hprev : prev.Sound) (s : Shape) (rest : List Shape) :
    (lastStep prev (s :: rest)).nextSpace < 32 := by
  induction rest generalizing prev s with
  | nil => exact (layoutStep_spec hprev s).space_lt
  | cons s' rest ih => exact ih (layoutStep_spec hprev s).sound s'

theorem totalSlots_eq_solc (shapes : List Shape) : totalSlots shapes = (solcEnd ⟨0, 0⟩ shapes).size := by
  cases shapes with
  | nil => rfl
  | cons s rest =>
    have hend := (solcOffsets_eq LayoutStep.sound_first (c := ⟨0, 0⟩) ⟨rfl, Nat.zero_le _⟩ (s :: rest)).2
    have hspace := nextSpace_lastStep_lt LayoutStep.sound_first s rest
    obtain ⟨hcur, hle⟩ := hend
    rw [totalSlots, SolcCursor.size]
    rw [LayoutStep.cursor] at hcur
    split_ifs <;> omega

/-! ### The walker's contract -/

theorem placements_declared (shapes : List Shape) : (placements shapes).map Placement.shape = shapes :=
  slotChain_map_shape .first shapes

theorem placements_monotone (shapes : List Shape) : (placements shapes).Pairwise Placement.Before :=
  slotChain_before LayoutStep.sound_first shapes

theorem placements_disjoint (shapes : List Shape) :
    (placements shapes).Pairwise fun p q => Disjoint p.footprint q.footprint :=
  (placements_monotone shapes).imp Placement.Before.disjoint

theorem placements_within {shapes : List Shape} {p : Placement} (hp : p ∈ placements shapes) :
    p.offset + p.shape.packedBytes ≤ 32 :=
  (slotChain_cursor LayoutStep.sound_first shapes p hp).1

theorem placements_solc (shapes : List Shape) :
    (placements shapes).map (fun p => SolcCursor.mk p.slot p.solcOffset) = solcOffsets ⟨0, 0⟩ shapes :=
  (solcOffsets_eq LayoutStep.sound_first ⟨rfl, Nat.zero_le _⟩ shapes).1

end PvmContract.Storage
