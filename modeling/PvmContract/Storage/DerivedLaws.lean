import PvmContract.Storage.Derived
import PvmContract.Storage.Fields
import Mathlib.Data.Nat.Bitwise

/-!
# Derived storage structs, written and read

The laws of the expansion for structs with dynamic fields. `isStaticSlot_mask`
says what the mask is for: the slots it leaves to the shared helpers are those
without a dynamic field. Writing and clearing then have the same shape: the
helpers lead the packable fields to their new values (`sweep_moves`), and each
dynamic field moves on its own.
-/

namespace PvmContract.Storage

open PvmContract.Data PvmContract.Types

/-! ### The mask -/

theorem isStaticSlot_iff (mask i : ℕ) : isStaticSlot mask i = true ↔ mask.testBit i = false := by
  rw [isStaticSlot, Nat.one_shiftLeft, beq_iff_eq, Nat.and_two_pow]
  cases mask.testBit i with
  | true => simp
  | false => simp

section

variable {fields : List StructField}

/-- The mask has the bits of the dynamic fields' slots. -/
theorem testBit_dynamicMask (slotIdx : ℕ) : (DynStruct.dynamicMask fields).testBit slotIdx = true ↔
    ∃ i, (fields.get i).isDynamic = true ∧ (placed StructField.shape fields i).slot = slotIdx := by
  have hfold : ∀ (l : List (Fin fields.length)) (mask : ℕ),
      (l.foldl (fun mask i => if (fields.get i).isDynamic then
        mask ||| (1 <<< (placed StructField.shape fields i).slot) else mask) mask).testBit slotIdx = true ↔
      mask.testBit slotIdx = true ∨ ∃ i ∈ l, (fields.get i).isDynamic = true ∧
        (placed StructField.shape fields i).slot = slotIdx := by
    intro l
    induction l with
    | nil => simp
    | cons i l ih =>
      intro mask
      rw [List.foldl_cons, ih]
      by_cases hi : (fields.get i).isDynamic = true
      · rw [if_pos hi, Nat.testBit_or, Nat.one_shiftLeft, Nat.testBit_two_pow]
        simp only [Bool.or_eq_true, decide_eq_true_eq, List.mem_cons, exists_eq_or_imp, hi, true_and, or_assoc]
      · rw [if_neg hi]
        simp only [List.mem_cons, exists_eq_or_imp, eq_false hi, false_and, false_or]
  rw [DynStruct.dynamicMask, hfold, Nat.zero_testBit]
  simp only [Bool.false_eq_true, false_or, List.mem_finRange, true_and]

/-- The slots that are left to the shared helpers are those without a dynamic field. -/
theorem isStaticSlot_mask (slotIdx : ℕ) : isStaticSlot (DynStruct.dynamicMask fields) slotIdx = true ↔
    ∀ i, (fields.get i).isDynamic = true → (placed StructField.shape fields i).slot ≠ slotIdx := by
  rw [isStaticSlot_iff, ← Bool.not_eq_true, testBit_dynamicMask]
  constructor
  · exact fun h i hi hslot => h ⟨i, hi, hslot⟩
  · exact fun h ⟨i, hi, hslot⟩ => h i hi hslot

end

/-! ### The helpers -/

theorem get_writeStaticSlots_of_not_mem (s : Store) {k j : Key} (mask i : ℕ) {slots : List Word}
    (h : j ∉ k.range slots.length) : (writeStaticSlots s k mask i slots).getStorageOrZero j = s.getStorageOrZero j := by
  induction slots generalizing s k i with
  | nil => rfl
  | cons slot slots ih =>
    have hne : j ≠ k := by
      rintro rfl
      exact h (Key.mem_range_self (Nat.succ_pos _))
    rw [writeStaticSlots, ih _ _ fun hj => h (Key.mem_range_inc hj)]
    split_ifs
    · exact Store.get_set_of_ne s slot hne
    · rfl

theorem get_writeStaticSlots (s : Store) {k : Key} (mask i : ℕ) {slots : List Word} (hfit : slots.length < 2 ^ 256)
    {j : ℕ} (h : j < slots.length) : (writeStaticSlots s k mask i slots).getStorageOrZero (k.add j) =
      if isStaticSlot mask (i + j) then slots.getD j Word.zero else s.getStorageOrZero (k.add j) := by
  induction slots generalizing s k i j with
  | nil => exact absurd h (Nat.not_lt_zero j)
  | cons slot slots ih =>
    rw [List.length_cons] at hfit h
    cases j with
    | zero =>
      have hnot : k ∉ k.inc.range slots.length := Key.not_mem_range_inc (by omega)
      rw [Key.add_zero, writeStaticSlots, get_writeStaticSlots_of_not_mem _ _ _ hnot, Nat.add_zero, List.getD_cons_zero]
      split_ifs
      · exact Store.get_set_self s k slot
      · rfl
    | succ j =>
      have hadd : k.add (j + 1) = k.inc.add j := by rw [Key.inc_eq_add, Key.add_add, Nat.add_comm]
      have hne : k.inc.add j ≠ k := by
        intro heq
        have h0 := Key.add_inj (by omega : j + 1 < 2 ^ 256) (by omega) (hadd.trans (heq.trans (Key.add_zero k).symm))
        omega
      rw [hadd, writeStaticSlots, ih _ _ (by omega) (by omega), List.getD_cons_succ, Nat.add_right_comm, Nat.add_assoc i j 1]
      congr 1
      split_ifs
      · exact Store.get_set_of_ne s slot hne
      · rfl

theorem getD_loadStaticSlots (s : Store) {k : Key} (mask i : ℕ) {n j : ℕ} (h : j < n) :
    (loadStaticSlots s k mask i n).getD j Word.zero =
      if isStaticSlot mask (i + j) then s.getStorageOrZero (k.add j) else Word.zero := by
  induction n generalizing k i j with
  | zero => omega
  | succ n ih =>
    cases j with
    | zero => rw [loadStaticSlots, List.getD_cons_zero, Key.add_zero, Nat.add_zero]
    | succ j =>
      rw [loadStaticSlots, List.getD_cons_succ, ih _ (by omega), Key.inc_eq_add, Key.add_add, Nat.add_comm 1 j,
        Nat.add_assoc, Nat.add_comm 1 j]

/-- The slots are those of `load_static_slots`, and they are all looked at. -/
theorem tryLoadStaticSlots_snd (s : Store) (k : Key) (mask i n : ℕ) :
    (tryLoadStaticSlots s k mask i n).2 = loadStaticSlots s k mask i n := by
  induction n generalizing k i with
  | zero => rfl
  | succ n ih => rw [tryLoadStaticSlots, loadStaticSlots, ih]

theorem tryLoadStaticSlots_fst (s : Store) (k : Key) (mask i n : ℕ) :
    (tryLoadStaticSlots s k mask i n).1 = true ↔ ∃ j < n, s.getStorageOrZero (k.add j) ≠ Word.zero := by
  induction n generalizing k i with
  | zero => simp [tryLoadStaticSlots]
  | succ n ih =>
    simp only [tryLoadStaticSlots, Bool.or_eq_true, bne_iff_ne, ih]
    constructor
    · rintro (h | ⟨j, hj, h⟩)
      · exact ⟨0, Nat.succ_pos n, by rwa [Key.add_zero]⟩
      · refine ⟨j + 1, by omega, ?_⟩
        rwa [Key.inc_eq_add, Key.add_add, Nat.add_comm] at h
    · rintro ⟨j, hj, h⟩
      cases j with
      | zero =>
        rw [Key.add_zero] at h
        exact .inl h
      | succ j =>
        refine .inr ⟨j, by omega, ?_⟩
        rwa [Key.inc_eq_add, Key.add_add, Nat.add_comm]

/-! ### The places of the fields -/

namespace StructField

variable (f : StructField) (keccak : Hash) (key : Key) (offset : ℕ)

/-- A window of the field's slot, or a dynamic value with its header there. -/
def place : (f : StructField) → Hash → Key → ℕ → Place Cell UInt8 (Option f.Carrier)
  | packable p, _, key, offset => p.place key offset
  | dynamic d, keccak, key, _ => d.codec.place keccak key

/-- The bytes that a field's value has in the slots of the struct. -/
def slotBytes : (f : StructField) → Option f.Carrier → Option (List UInt8)
  | packable p, o => some (o.elim (zeroBytes p.packedBytes) p.toBytes).1
  | dynamic _, _ => none

theorem slotBytes_some (v : f.Carrier) : f.slotBytes (some v) = f.packedBytes v := by
  cases f with
  | packable p => rfl
  | dynamic d => rfl

theorem length_slotBytes (o : Option f.Carrier) : ∀ bs ∈ f.slotBytes o, bs.length = f.shape.packedBytes := by
  cases f with
  | packable p =>
    rintro _ ⟨⟩
    exact (o.elim (zeroBytes p.packedBytes) p.toBytes).2
  | dynamic d =>
    rintro _ ⟨⟩

theorem slotBytes_none : ∀ bs ∈ f.slotBytes none, ∀ j, bs.getD j 0 = 0 := by
  cases f with
  | packable p =>
    rintro _ ⟨⟩ j
    exact getD_zeroBytes _ j
  | dynamic d =>
    rintro _ ⟨⟩

theorem slots_eq_one : f.shape.slots = 1 := by
  cases f with
  | packable p => rfl
  | dynamic d => rfl

theorem slotBytes_ne_none {o : Option f.Carrier} (h : f.slotBytes o ≠ none) : f.isDynamic = false := by
  cases f with
  | packable p => rfl
  | dynamic d => exact absurd rfl h

/-- The slots of a field that are hashed. -/
def points : Set Key := if f.isDynamic then {key} else ∅

/-- What a field fills. -/
theorem fills : Fills keccak f.shape key offset (f.points key) (f.place keccak key offset).cells := by
  cases f with
  | packable p =>
    refine ⟨Set.empty_subset _, ?_, fun _ => subset_refl _⟩
    exact Store.windowCells_subset (.inl (Key.mem_range_self Nat.one_pos)) _ _
  | dynamic d =>
    refine ⟨?_, ?_, fun h => absurd h (lt_irrefl 32)⟩
    · rintro j rfl
      exact Key.mem_range_self Nat.one_pos
    · rintro c (h | ⟨i, hi, h⟩)
      · exact .inl (h ▸ Key.mem_range_self Nat.one_pos)
      · exact .inr ⟨key, rfl, i, lt_of_lt_of_le hi maxChunks_le_span, h⟩

/-- A field is in its slot, and a dynamic one in its body. -/
theorem cells_cases {f : StructField} {keccak : Hash} {key : Key} {offset : ℕ} {c : Cell}
    (h : c ∈ (f.place keccak key offset).cells) :
    c.1 = key ∨ f.isDynamic = true ∧ c.1 ∈ (dynBodyRoot keccak key).range maxChunks := by
  cases f with
  | packable p => exact .inl h.1
  | dynamic d =>
    rcases h with h | h
    · exact .inl h
    · exact .inr ⟨rfl, h⟩

theorem mem_cells_of_body {f : StructField} {keccak : Hash} {key : Key} {offset : ℕ} (hi : f.isDynamic = true) {c : Cell}
    (h : c.1 ∈ (dynBodyRoot keccak key).range maxChunks) : c ∈ (f.place keccak key offset).cells := by
  cases f with
  | packable p => exact absurd hi (by simp [isDynamic])
  | dynamic d => exact Set.mem_insert_of_mem _ h

/-- The header of a dynamic field fills its slot. -/
theorem mem_cells_of_isDynamic (h : f.isDynamic = true) (p : ℕ) : (key, p) ∈ (f.place keccak key offset).cells := by
  cases f with
  | packable p => exact absurd h (by simp [isDynamic])
  | dynamic d => exact Set.mem_insert _ _

variable {f keccak key offset}

theorem packedBytes_of_isDynamic (h : f.isDynamic = true) : f.shape.packedBytes = 32 := by
  cases f with
  | packable p => exact absurd h (by simp [isDynamic])
  | dynamic d => rfl

/-- A packable field has the cells of its window. -/
theorem mem_cells_of_window (h : f.isDynamic = false) {p : ℕ} (hp : offset ≤ p ∧ p < offset + f.shape.packedBytes) :
    (key, p) ∈ (f.place keccak key offset).cells := by
  cases f with
  | packable q => exact ⟨rfl, hp⟩
  | dynamic d => exact absurd h (by simp [isDynamic])

/-- After a sweep over the slots, a packable field has the new bytes and a dynamic one what it had. -/
theorem holds_sweep {x y : Cell → UInt8} {o o' : Option f.Carrier} (h : (f.place keccak key offset).Holds x o)
    (hpack : ∀ bs ∈ f.slotBytes o', ∀ j < bs.length, y (key, offset + j) = bs.getD j 0)
    (hdyn : f.isDynamic = true → ∀ c ∈ (f.place keccak key offset).cells, y c = x c) :
    (f.place keccak key offset).Holds y (if f.isDynamic then o else o') := by
  cases f with
  | packable p =>
    intro j hj
    exact hpack _ rfl j (lt_of_lt_of_eq hj (o'.elim (zeroBytes p.packedBytes) p.toBytes).2.symm)
  | dynamic d => exact Place.congr _ h (hdyn rfl)

/-- No value is all zeros. -/
theorem none_iff {x : Cell → UInt8} :
    (f.place keccak key offset).Holds x none ↔ ∀ c ∈ (f.place keccak key offset).cells, x c = 0 := by
  cases f with
  | packable p => exact Packable.place_none_iff
  | dynamic d => exact d.codec.none_iff

theorem write_of_packable (h : f.isDynamic = false) (s : Store) (v : f.Carrier) : f.write keccak s key v = s := by
  cases f with
  | packable p => rfl
  | dynamic d => exact absurd h (by simp [isDynamic])

theorem clear_of_packable (h : f.isDynamic = false) (s : Store) : f.clear keccak s key = s := by
  cases f with
  | packable p => rfl
  | dynamic d => exact absurd h (by simp [isDynamic])

/-- A dynamic field has one slot, which is hashed. -/
theorem separate_codec {points slots : Set Key} (hsep : Separate keccak points slots) (hpoint : key ∈ points)
    (hslot : key ∈ slots) : Separate keccak (pointsAt {0} key) (key.range 1) := by
  refine hsep.mono ?_ ?_
  · rintro j ⟨_, rfl, rfl⟩
    rwa [Key.add_zero]
  · rintro j ⟨i, hi, rfl⟩
    rwa [Nat.lt_one_iff.mp hi, Key.add_zero]

theorem write_moves {points slots : Set Key} (hsep : Separate keccak points slots) (hpoint : key ∈ points)
    (hslot : key ∈ slots) (hi : f.isDynamic = true) {s : Store} {o : Option f.Carrier}
    (h : (f.place keccak key offset).Holds s.bytes o) {v : f.Carrier} (hv : f.Fits v) :
    (f.place keccak key offset).Moves s.bytes (f.write keccak s key v).bytes (some v) := by
  cases f with
  | packable p => exact absurd hi (by simp [isDynamic])
  | dynamic d => exact d.codec.write_moves (separate_codec hsep hpoint hslot) h hv

theorem clear_moves {points slots : Set Key} (hsep : Separate keccak points slots) (hpoint : key ∈ points)
    (hslot : key ∈ slots) (hi : f.isDynamic = true) {s : Store} {o : Option f.Carrier}
    (h : (f.place keccak key offset).Holds s.bytes o) :
    (f.place keccak key offset).Moves s.bytes (f.clear keccak s key).bytes none := by
  cases f with
  | packable p => exact absurd hi (by simp [isDynamic])
  | dynamic d => exact d.codec.clear_moves (separate_codec hsep hpoint hslot) h

/-- The header of a dynamic value is not zero. -/
theorem header_ne_zero (hi : f.isDynamic = true) {s : Store} {v : f.Carrier}
    (h : (f.place keccak key offset).Holds s.bytes (some v)) : s.getStorageOrZero key ≠ Word.zero := by
  cases f with
  | packable p => exact absurd hi (by simp [isDynamic])
  | dynamic d =>
    obtain ⟨hfit, hholds⟩ := dynPlace_holds_iff.mp h
    rw [hholds.header, Ne, headerWord_eq_zero hfit]
    exact Option.some_ne_none _

/-- A dynamic field is not read from the slots. -/
theorem read_congr {s : Store} {w w' : Word} (h : f.isDynamic = false → w = w') :
    f.read keccak s key w offset = f.read keccak s key w' offset := by
  cases f with
  | packable p => rw [h rfl]
  | dynamic d => rfl

/-- Reading a field. -/
theorem read_eq {s : Store} {o : Option f.Carrier} (h : (f.place keccak key offset).Holds s.bytes o) :
    f.read keccak s key (s.getStorageOrZero key) offset = o.getD f.zero := by
  cases f with
  | packable p => exact Packable.unpackFrom_of_holds h
  | dynamic d => exact d.codec.read_eq h

end StructField

/-! ### The place of a struct -/

namespace DynStruct

variable (fields : List StructField)

/-- The slots with a dynamic field. -/
def headers : Set ℕ := {t | ∃ i, (fields.get i).isDynamic = true ∧ (placed StructField.shape fields i).slot = t}

/-- The place of a field. -/
def fieldPlace (keccak : Hash) (baseKey : Key) (i : Fin fields.length) :
    Place Cell UInt8 (Option (fields.get i).Carrier) :=
  (fields.get i).place keccak (baseKey.add (placed StructField.shape fields i).slot)
    (placed StructField.shape fields i).offset

/-- The fields, each with its own value or none; the rest of the slots is blank. -/
def fieldsPlace (keccak : Hash) (baseKey : Key) : Place Cell UInt8 (∀ i, Option (fields.get i).Carrier) :=
  .family (fieldPlace fields keccak baseKey) (Store.cellsOf (baseKey.range (storageSlots fields))) 0

/-- The place of a struct. -/
def place (keccak : Hash) (baseKey : Key) : Place Cell UInt8 (Option (Value fields)) :=
  (fieldsPlace fields keccak baseKey).comap fun o i => o.map (· i)

variable {fields} {keccak : Hash} {k : Key} (hle : storageSlots fields ≤ maxStaticSlots)

theorem subKey_eq (i : Fin fields.length) : subKey fields k i = k.add (placed StructField.shape fields i).slot :=
  incTimes_eq k _

theorem slot_lt (i : Fin fields.length) : (placed StructField.shape fields i).slot < storageSlots fields :=
  placed_slot_lt StructField.shape i (Shape.slots_pos _)

/-- The slots of a struct that are hashed are those of its dynamic fields. -/
theorem field_points_subset (i : Fin fields.length) :
    (fields.get i).points (k.add (placed StructField.shape fields i).slot) ⊆ pointsAt (headers fields) k := by
  rw [StructField.points]
  split_ifs with hi
  · rintro j rfl
    exact ⟨_, ⟨i, hi, rfl⟩, rfl⟩
  · exact Set.empty_subset _

/-- The keys of a field are its slot, and for a dynamic one its body. -/
theorem field_cells_subset (i : Fin fields.length) : (fieldPlace fields keccak k i).cells ⊆
    Store.cellsOf (valueKeys keccak (headers fields) (storageSlots fields) k) := by
  intro c hc
  have hslot : k.add (placed StructField.shape fields i).slot ∈ k.range (storageSlots fields) :=
    Key.mem_range_add (slot_lt i)
  rcases StructField.cells_cases hc with h | ⟨hi, h⟩
  · exact .inl (h ▸ hslot)
  · exact .inr ⟨_, ⟨i, hi, rfl⟩, h⟩

theorem place_cells :
    (place fields keccak k).cells = Store.cellsOf (valueKeys keccak (headers fields) (storageSlots fields) k) := by
  apply Set.Subset.antisymm
  · rintro c (hc | hc)
    · exact .inl hc
    · obtain ⟨i, hi⟩ := Set.mem_iUnion.mp hc
      exact field_cells_subset i hi
  · rintro c (hc | ⟨_, ⟨i, hi, rfl⟩, hc⟩)
    · exact .inl hc
    · exact .inr (Set.mem_iUnion.mpr ⟨i, StructField.mem_cells_of_body hi hc⟩)

theorem mem_points {i : Fin fields.length} (hi : (fields.get i).isDynamic = true) :
    k.add (placed StructField.shape fields i).slot ∈ pointsAt (headers fields) k := ⟨_, ⟨i, hi, rfl⟩, rfl⟩

/-- A packable field is in a slot that is left to the shared helpers. -/
theorem isStaticSlot_of_packable {i : Fin fields.length} (hi : (fields.get i).isDynamic = false) :
    isStaticSlot (dynamicMask fields) (placed StructField.shape fields i).slot = true := by
  rw [isStaticSlot_mask]
  intro j hj hslot
  have hne : i ≠ j := by
    rintro rfl
    rw [hi] at hj
    exact absurd hj (by simp)
  have happart := placed_apart StructField.shape hne
  have hwi := placed_within StructField.shape i
  have hwj := placed_within StructField.shape j
  have hpos := (fields.get i).shape.packedBytes_pos
  rw [StructField.slots_eq_one, StructField.slots_eq_one, StructField.packedBytes_of_isDynamic hj] at happart
  rw [StructField.packedBytes_of_isDynamic hj] at hwj
  omega

include hle

theorem storageSlots_lt : storageSlots fields < 2 ^ 256 := by
  rw [maxStaticSlots] at hle
  omega

/-- **The fields do not meet.** -/
theorem fields_disjoint (hsep : Separate keccak (pointsAt (headers fields) k) (k.range (storageSlots fields)))
    (i j : Fin fields.length) (hne : i ≠ j) :
    Disjoint (fieldPlace fields keccak k i).cells (fieldPlace fields keccak k j).cells :=
  fills_disjoint (storageSlots_lt hle) hsep field_points_subset (subset_refl _)
    (fun i => (fields.get i).fills keccak _ _) hne

/-- **The sweep** over the slots leads the packable fields to new values, and leaves the dynamic ones alone. -/
theorem sweep_moves (hsep : Separate keccak (pointsAt (headers fields) k) (k.range (storageSlots fields)))
    {s : Store} {o o' : ∀ i, Option (fields.get i).Carrier} (h : (fieldsPlace fields keccak k).Holds s.bytes o)
    {slots : List Word} (hlen : slots.length = storageSlots fields)
    (hslots : ∀ t < storageSlots fields, isStaticSlot (dynamicMask fields) t = true →
      slots.getD t Word.zero = packRow StructField.shape fields (fun i => (fields.get i).slotBytes (o' i)) t) :
    (fieldsPlace fields keccak k).Moves s.bytes (writeStaticSlots s k (dynamicMask fields) 0 slots).bytes
      fun i => if (fields.get i).isDynamic then o i else o' i := by
  have hbytes : ∀ i, ∀ bs ∈ (fields.get i).slotBytes (o' i), bs.length = (fields.get i).shape.packedBytes := fun i =>
    (fields.get i).length_slotBytes (o' i)
  have hfit : slots.length < 2 ^ 256 := hlen.symm ▸ storageSlots_lt hle
  have hout : ∀ {j}, j ∉ k.range (storageSlots fields) → ∀ p,
      (writeStaticSlots s k (dynamicMask fields) 0 slots).bytes (j, p) = s.bytes (j, p) := by
    intro j hj p
    rw [Store.bytes, Store.bytes, get_writeStaticSlots_of_not_mem _ _ _ (by rwa [hlen])]
  have hin : ∀ t < storageSlots fields, ∀ p, (writeStaticSlots s k (dynamicMask fields) 0 slots).bytes (k.add t, p) =
      if isStaticSlot (dynamicMask fields) t = true then
        (packRow StructField.shape fields (fun i => (fields.get i).slotBytes (o' i)) t).1.getD p 0
      else s.bytes (k.add t, p) := by
    intro t ht p
    rw [Store.bytes, Store.bytes, get_writeStaticSlots _ _ _ hfit (hlen.symm ▸ ht), Nat.zero_add]
    split_ifs with hstatic
    · rw [hslots t ht hstatic]
    · rfl
  refine ⟨⟨fun i => StructField.holds_sweep (h.1 i) (fun bs hbs j hj => ?_) fun hi c hc => ?_, ?_⟩, ?_⟩
  · have hne : (fields.get i).slotBytes (o' i) ≠ none := by
      rw [hbs]
      simp
    have hstatic := isStaticSlot_of_packable ((fields.get i).slotBytes_ne_none hne)
    rw [hin _ (slot_lt i), if_pos hstatic]
    exact getD_packRow hbytes hbs hj
  · obtain ⟨j, p⟩ := c
    rcases StructField.cells_cases hc with rfl | ⟨hi, hj⟩
    · have hmask : ¬ isStaticSlot (dynamicMask fields) (placed StructField.shape fields i).slot = true := by
        rw [isStaticSlot_mask]
        exact fun hall => hall i hi rfl
      rw [hin _ (slot_lt i), if_neg hmask]
    · refine hout (fun hmem => ?_) p
      obtain ⟨q, hq, rfl⟩ := hj
      exact Set.disjoint_left.mp (hsep.slots _ (mem_points hi)) ⟨q, lt_of_lt_of_le hq maxChunks_le_span, rfl⟩ hmem
  · rintro ⟨_, p⟩ ⟨t, ht, rfl⟩ hspare
    by_cases hstatic : isStaticSlot (dynamicMask fields) t = true
    · rw [hin t ht, if_pos hstatic]
      refine getD_packRow_of_not_mem hbytes fun i hslot hne hp => hspare i ?_
      have hi := (fields.get i).slotBytes_ne_none hne
      subst hslot
      exact StructField.mem_cells_of_window hi hp
    · rw [isStaticSlot_mask, not_forall] at hstatic
      obtain ⟨i, hi⟩ := hstatic
      rw [Classical.not_imp, not_not] at hi
      obtain ⟨hi, rfl⟩ := hi
      exact absurd (StructField.mem_cells_of_isDynamic _ _ _ _ hi p) (hspare i)
  · rintro ⟨j, p⟩ hc
    exact hout (fun hj => hc (.inl hj)) p

/-- **Each dynamic field moves on its own**: `step` moves the field it is given, or does nothing to a
packable one. -/
theorem dynamicFields_moves (hsep : Separate keccak (pointsAt (headers fields) k) (k.range (storageSlots fields)))
    {step : Store → Fin fields.length → Store} {target : ∀ i, Option (fields.get i).Carrier}
    (hpack : ∀ s i, (fields.get i).isDynamic = false → step s i = s)
    (hdyn : ∀ s i o, (fields.get i).isDynamic = true → (fieldPlace fields keccak k i).Holds s.bytes o →
      (fieldPlace fields keccak k i).Moves s.bytes (step s i).bytes (target i))
    {s : Store} {o : ∀ i, Option (fields.get i).Carrier} (h : (fieldsPlace fields keccak k).Holds s.bytes o) :
    (fieldsPlace fields keccak k).Moves s.bytes ((List.finRange fields.length).foldl step s).bytes
      fun i => if (fields.get i).isDynamic then target i else o i := by
  have hfilter : (List.finRange fields.length).foldl step s =
      ((List.finRange fields.length).filter fun i => (fields.get i).isDynamic).foldl step s := by
    rw [List.foldl_filter]
    congr 1
    funext s i
    by_cases hi : (fields.get i).isDynamic = true
    · rw [if_pos hi]
    · rw [if_neg hi, hpack s i (by simpa using hi)]
  have hmoves : (fieldsPlace fields keccak k).Moves s.bytes
      (((List.finRange fields.length).filter fun i => (fields.get i).isDynamic).foldl step s).bytes
      fun i => if i ∈ (List.finRange fields.length).filter fun i => (fields.get i).isDynamic then target i else o i :=
    Place.family_foldl Store.bytes (fields_disjoint hle hsep)
      (fun i hi s v hv => hdyn s i _ (List.mem_filter.mp hi).2 (hv.1 i)) h
  rw [hfilter]
  simp only [List.mem_filter, List.mem_finRange, true_and] at hmoves
  exact hmoves

/-- Both together lead every field to its target. -/
theorem sweep_dynamicFields_moves
    (hsep : Separate keccak (pointsAt (headers fields) k) (k.range (storageSlots fields))) {slots : List Word}
    {step : Store → Fin fields.length → Store} {target : Option (Value fields)}
    (hlen : slots.length = storageSlots fields)
    (hslots : ∀ t < storageSlots fields, isStaticSlot (dynamicMask fields) t = true → slots.getD t Word.zero =
      packRow StructField.shape fields (fun i => (fields.get i).slotBytes (target.map (· i))) t)
    (hpack : ∀ s i, (fields.get i).isDynamic = false → step s i = s)
    (hdyn : ∀ s i o, (fields.get i).isDynamic = true → (fieldPlace fields keccak k i).Holds s.bytes o →
      (fieldPlace fields keccak k i).Moves s.bytes (step s i).bytes (target.map (· i)))
    {s : Store} {o : Option (Value fields)} (h : (place fields keccak k).Holds s.bytes o) :
    (place fields keccak k).Moves s.bytes ((List.finRange fields.length).foldl step
      (writeStaticSlots s k (dynamicMask fields) 0 slots)).bytes target := by
  have hsweep := sweep_moves hle hsep h hlen hslots
  have hfields := dynamicFields_moves hle hsep hpack hdyn hsweep.holds
  have hmoves := hsweep.trans hfields
  have htarget : (fun i => if (fields.get i).isDynamic then target.map (· i) else
      if (fields.get i).isDynamic then (o.map (· i) : Option (fields.get i).Carrier) else target.map (· i)) =
      fun i => target.map (· i) := by
    funext i
    split_ifs
    · rfl
    · rfl
  rw [htarget] at hmoves
  exact ⟨hmoves.holds, hmoves.outside⟩

/-- **Writing.** -/
theorem write_moves (hsep : Separate keccak (pointsAt (headers fields) k) (k.range (storageSlots fields))) {s : Store}
    {o : Option (Value fields)} (h : (place fields keccak k).Holds s.bytes o) {v : Value fields}
    (hv : ∀ i, (fields.get i).Fits (v i)) :
    (place fields keccak k).Moves s.bytes (writeToStorage fields keccak s k v).bytes (some v) := by
  refine sweep_dynamicFields_moves hle hsep ?_ ?_ ?_ ?_ h
  · rw [List.length_map, List.length_range]
  · intro t ht hstatic
    rw [List.getD_eq_getElem?_getD, List.getElem?_map, List.getElem?_range ht, Option.map_some, Option.getD_some,
      if_pos hstatic, encodeStaticSlot]
    simp only [Option.map_some, StructField.slotBytes_some]
  · exact fun s i hi => StructField.write_of_packable hi s _
  · intro s i o hi hi'
    rw [subKey_eq]
    exact StructField.write_moves hsep (mem_points hi) (Key.mem_range_add (slot_lt i)) hi hi' (hv i)

/-- **Clearing.** -/
theorem clear_moves (hsep : Separate keccak (pointsAt (headers fields) k) (k.range (storageSlots fields))) {s : Store}
    {o : Option (Value fields)} (h : (place fields keccak k).Holds s.bytes o) :
    (place fields keccak k).Moves s.bytes (clearStorage fields keccak s k).bytes none := by
  refine sweep_dynamicFields_moves hle hsep ?_ ?_ ?_ ?_ h
  · rw [List.length_replicate]
  · intro t ht _
    have hzero : packRow StructField.shape fields (fun i => (fields.get i).slotBytes none) t = Word.zero :=
      packRow_zero (fun i => (fields.get i).length_slotBytes none) (fun i => (fields.get i).slotBytes_none) t
    rw [List.getD_eq_getElem?_getD, List.getElem?_replicate, if_pos ht]
    exact hzero.symm
  · exact fun s i hi => StructField.clear_of_packable hi s
  · intro s i o hi hi'
    rw [subKey_eq]
    exact StructField.clear_moves hsep (mem_points hi) (Key.mem_range_add (slot_lt i)) hi hi'

omit hle

/-- The fields are read from slots that agree with storage wherever there is no dynamic field. -/
theorem readFields_eq {s : Store} {o : Option (Value fields)} (h : (place fields keccak k).Holds s.bytes o) {slots : List Word}
    (hslots : ∀ t < storageSlots fields, isStaticSlot (dynamicMask fields) t = true →
      slots.getD t Word.zero = s.getStorageOrZero (k.add t)) :
    readFields fields keccak s k slots = o.getD fun i => (fields.get i).zero := by
  funext i
  have hread := StructField.read_eq (h.1 i)
  have hvalue : (o.map (· i)).getD (fields.get i).zero = (o.getD fun i => (fields.get i).zero) i := by
    cases o with
    | none => rfl
    | some v => rfl
  rw [← hvalue, ← hread]
  simp only [readFields, subKey_eq]
  refine StructField.read_congr fun hi => ?_
  exact hslots _ (slot_lt i) (isStaticSlot_of_packable hi)

theorem getD_load {s : Store} {t : ℕ} (ht : t < storageSlots fields)
    (hstatic : isStaticSlot (dynamicMask fields) t = true) :
    (loadStaticSlots s k (dynamicMask fields) 0 (storageSlots fields)).getD t Word.zero = s.getStorageOrZero (k.add t) := by
  rw [getD_loadStaticSlots s _ _ ht, Nat.zero_add, if_pos hstatic]

/-- **Reading.** -/
theorem read_eq {s : Store} {o : Option (Value fields)} (h : (place fields keccak k).Holds s.bytes o) :
    readFromStorage fields keccak s k = o.getD fun i => (fields.get i).zero :=
  readFields_eq h fun _ ht hstatic => getD_load ht hstatic

/-- No value is all zeros. -/
theorem none_iff {x : Cell → UInt8} :
    (place fields keccak k).Holds x none ↔ ∀ c ∈ (place fields keccak k).cells, x c = 0 :=
  Place.family_blank_iff fun _ => StructField.none_iff

/-- A struct with a dynamic field that was written has a header that is not zero. -/
theorem exists_ne_zero_iff (hdyn : ∃ i, (fields.get i).isDynamic = true) {s : Store} {o : Option (Value fields)}
    (h : (place fields keccak k).Holds s.bytes o) :
    (∃ t < storageSlots fields, s.getStorageOrZero (k.add t) ≠ Word.zero) ↔ o ≠ none := by
  constructor
  · rintro ⟨t, ht, hne⟩ rfl
    apply hne
    refine Store.get_eq_of_bytes fun p => ?_
    rw [none_iff.mp h (k.add t, p) (.inl (Key.mem_range_add ht)), Word.getD_zero]
  · intro hne
    obtain ⟨v, rfl⟩ := Option.ne_none_iff_exists'.mp hne
    obtain ⟨i, hi⟩ := hdyn
    exact ⟨_, slot_lt i, StructField.header_ne_zero hi (h.1 i)⟩

/-- **Reading if present.** -/
theorem tryRead_eq (hdyn : ∃ i, (fields.get i).isDynamic = true) {s : Store} {o : Option (Value fields)}
    (h : (place fields keccak k).Holds s.bytes o) : tryReadFromStorage fields keccak s k = o := by
  have hany := (tryLoadStaticSlots_fst s k (dynamicMask fields) 0 (storageSlots fields)).trans (exists_ne_zero_iff hdyn h)
  have hread : readFields fields keccak s k (tryLoadStaticSlots s k (dynamicMask fields) 0 (storageSlots fields)).2 =
      o.getD fun i => (fields.get i).zero :=
    readFields_eq h fun t ht hstatic => by rw [tryLoadStaticSlots_snd, getD_load ht hstatic]
  simp only [tryReadFromStorage, hread]
  cases o with
  | none =>
    rw [if_pos]
    simpa using hany
  | some v =>
    rw [if_neg]
    · rfl
    · simpa using hany

end DynStruct

/-- A derived struct with a dynamic field. -/
def dynStruct (fields : List StructField) (hdyn : ∃ i, (fields.get i).isDynamic = true)
    (hle : DynStruct.storageSlots fields ≤ maxStaticSlots) : StorageCodec where
  Carrier := DynStruct.Value fields
  Fits v := ∀ i, (fields.get i).Fits (v i)
  storageSlots := DynStruct.storageSlots fields
  hasDynamicBody := true
  writeToStorage := DynStruct.writeToStorage fields
  clearStorage := DynStruct.clearStorage fields
  readFromStorage := DynStruct.readFromStorage fields
  tryReadFromStorage := DynStruct.tryReadFromStorage fields
  zero i := (fields.get i).zero
  presence o := o
  headers := DynStruct.headers fields
  place := DynStruct.place fields
  storageSlots_pos := by
    obtain ⟨i, -⟩ := hdyn
    exact Nat.lt_of_le_of_lt (Nat.zero_le _) (DynStruct.slot_lt i)
  storageSlots_le := hle
  headers_lt := by
    rintro _ ⟨i, -, rfl⟩
    exact DynStruct.slot_lt i
  headers_of_static h := absurd h (by simp)
  cells_eq _ _ := DynStruct.place_cells
  none_iff := DynStruct.none_iff
  write_moves hsep h hv := DynStruct.write_moves hle hsep h hv
  clear_moves hsep h := DynStruct.clear_moves hle hsep h
  read_eq h := DynStruct.read_eq h
  tryRead_eq h := DynStruct.tryRead_eq hdyn h

end PvmContract.Storage
