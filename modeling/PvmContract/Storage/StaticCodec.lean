import PvmContract.Storage.Packable

/-!
# Static storage values

`StaticCodec` is one implementation of `StaticStorageEncode` and
`StaticStorageDecode`: a value as a fixed number of slots. The provided methods of
the two traits write, clear and read those slots one after the other. What a type
has to satisfy is part of the record: the slots of a value are decoded to it, and
the value of zero slots is encoded as zero slots.

The slots in storage are a place that holds a value or none, and none is all
zeros (`StaticCodec.place`). Each provided method is described by what it does to
that place.

Members are the packable types, alone in a slot, and the fixed arrays
`[T; N]`: elements narrower than a slot are packed from its least significant end,
the others follow each other.
-/

namespace PvmContract.Storage

open PvmContract.Data PvmContract.Types

/-- `MAX_STATIC_SLOTS`. -/
def maxStaticSlots : ℕ := 8

theorem one_le_maxStaticSlots : 1 ≤ maxStaticSlots := by decide

/-- One implementation of `StaticStorageEncode` and `StaticStorageDecode`. The slots to decode are
given by their index. -/
structure SlotCodec where
  Carrier : Type
  /-- `STORAGE_SLOTS`. -/
  storageSlots : ℕ
  /-- `PACKED_BYTES`. -/
  packedBytes : ℕ
  /-- `encode_slot`, on a buffer with anything in it. -/
  encodeSlot : Carrier → ℕ → Word → Word
  fromSlots : (ℕ → Word) → Carrier

namespace SlotCodec

/-- What `encode_slot` makes of a zero buffer. -/
def word (c : SlotCodec) (v : c.Carrier) (i : ℕ) : Word := c.encodeSlot v i Word.zero

/-- The value of slots that were never written. -/
def zero (c : SlotCodec) : c.Carrier := c.fromSlots fun _ => Word.zero

/-- What a static type has to satisfy. -/
structure Lawful (c : SlotCodec) : Prop where
  packedBytes_pos : 0 < c.packedBytes
  packedBytes_le : c.packedBytes ≤ 32
  /-- Nothing of the buffer is kept. -/
  encodeSlot_congr : ∀ v i buf buf', c.encodeSlot v i buf = c.encodeSlot v i buf'
  /-- A type narrower than a slot has one slot, and fills it from the least significant end. -/
  narrow : c.packedBytes < 32 → c.storageSlots = 1 ∧ ∀ v, ∀ p < 32 - c.packedBytes, (c.word v 0).1.getD p 0 = 0
  fromSlots_congr : ∀ {slots slots'}, (∀ i < c.storageSlots, slots i = slots' i) → c.fromSlots slots = c.fromSlots slots'
  fromSlots_word : ∀ v, c.fromSlots (c.word v) = v
  word_zero : ∀ i < c.storageSlots, c.word c.zero i = Word.zero

end SlotCodec

/-- A static type that the build accepts: it has a slot, and no more of them than a buffer for all. -/
structure StaticCodec extends SlotCodec where
  lawful : toSlotCodec.Lawful
  storageSlots_pos : 0 < storageSlots
  storageSlots_le : storageSlots ≤ maxStaticSlots

namespace StaticCodec

variable (c : StaticCodec)

/-! ### The provided methods -/

/-- The slots that an array of words is. -/
def slotsOf (ws : List Word) (i : ℕ) : Word := ws.getD i Word.zero

/-- `write_to_storage_static`. -/
def writeToStorageStatic (s : Store) (baseKey : Key) (v : c.Carrier) : Store :=
  if c.storageSlots = 1 then s.setStorageOrClear baseKey (c.word v 0)
  else s.setRange baseKey ((List.range c.storageSlots).map (c.word v))

/-- `clear_storage_static`. -/
def clearStorageStatic (s : Store) (baseKey : Key) : Store :=
  if c.storageSlots = 1 then s.setStorageOrClear baseKey Word.zero
  else s.setRange baseKey ((List.range c.storageSlots).map fun _ => Word.zero)

/-- `read_from_storage_static`. -/
def readFromStorageStatic (s : Store) (baseKey : Key) : c.Carrier :=
  if c.storageSlots = 1 then c.fromSlots (slotsOf [s.getStorageOrZero baseKey])
  else c.fromSlots (slotsOf (s.getRange baseKey c.storageSlots))

/-- `try_read_from_storage_static`. -/
def tryReadFromStorageStatic (s : Store) (baseKey : Key) : Option c.Carrier :=
  if c.storageSlots = 1 then
    let buf := s.getStorageOrZero baseKey
    if buf = Word.zero then none else some (c.fromSlots (slotsOf [buf]))
  else
    let slots := s.getRange baseKey c.storageSlots
    if slots.all (· == Word.zero) then none else some (c.fromSlots (slotsOf slots))

/-! ### The place of a value -/

/-- The slots of a value, or of none. -/
def slotImage : Option c.Carrier → ℕ → Word
  | none, _ => Word.zero
  | some v, i => c.word v i

/-- The slots at a base key. -/
def place (baseKey : Key) : Place Cell UInt8 (Option c.Carrier) :=
  (Store.words baseKey c.storageSlots).comap c.slotImage

/-- What `try_read` makes of a value: one whose slots are all zero does not count. -/
def presence : Option c.Carrier → Option c.Carrier
  | none => none
  | some v => if ∀ i < c.storageSlots, c.word v i = Word.zero then none else some v

/-- Such a value is the zero value. -/
theorem word_eq_zero_iff (v : c.Carrier) : (∀ i < c.storageSlots, c.word v i = Word.zero) ↔ v = c.zero := by
  constructor
  · intro h
    rw [← c.lawful.fromSlots_word v]
    exact c.lawful.fromSlots_congr h
  · rintro rfl
    exact c.lawful.word_zero

theorem fromSlots_slotImage (o : Option c.Carrier) : c.fromSlots (c.slotImage o) = o.getD c.zero := by
  cases o with
  | none => rfl
  | some v => exact c.lawful.fromSlots_word v

theorem storageSlots_lt : c.storageSlots < 2 ^ 256 := by
  have h := c.storageSlots_le
  rw [maxStaticSlots] at h
  omega

/-- With one slot, the loops do what the short forms do. -/
theorem setRange_one (s : Store) (k : Key) (f : ℕ → Word) :
    s.setRange k ((List.range 1).map f) = s.setStorageOrClear k (f 0) := rfl

theorem getRange_one (s : Store) (k : Key) : s.getRange k 1 = [s.getStorageOrZero k] := rfl

theorem writeToStorageStatic_eq (s : Store) (k : Key) (v : c.Carrier) :
    c.writeToStorageStatic s k v = s.setRange k ((List.range c.storageSlots).map (c.slotImage (some v))) := by
  rw [writeToStorageStatic]
  split_ifs with h
  · rw [h, setRange_one]
    rfl
  · rfl

theorem clearStorageStatic_eq (s : Store) (k : Key) :
    c.clearStorageStatic s k = s.setRange k ((List.range c.storageSlots).map (c.slotImage none)) := by
  rw [clearStorageStatic]
  split_ifs with h
  · rw [h, setRange_one]
    rfl
  · rfl

theorem readFromStorageStatic_eq (s : Store) (k : Key) :
    c.readFromStorageStatic s k = c.fromSlots (slotsOf (s.getRange k c.storageSlots)) := by
  rw [readFromStorageStatic]
  split_ifs with h
  · rw [h, getRange_one]
  · rfl

theorem tryReadFromStorageStatic_eq (s : Store) (k : Key) :
    c.tryReadFromStorageStatic s k =
      if ∀ w ∈ s.getRange k c.storageSlots, w = Word.zero then none else some (c.readFromStorageStatic s k) := by
  have hall : (s.getRange k c.storageSlots).all (· == Word.zero) = true ↔
      ∀ w ∈ s.getRange k c.storageSlots, w = Word.zero := by
    simp only [List.all_eq_true, beq_iff_eq]
  rw [tryReadFromStorageStatic, readFromStorageStatic_eq]
  by_cases h : c.storageSlots = 1
  · rw [if_pos h, h, getRange_one]
    simp only [List.mem_singleton, forall_eq]
  · rw [if_neg h]
    simp only [hall]

variable {c} {s : Store} {k : Key} {o : Option c.Carrier}

/-- **Writing.** -/
theorem write_moves (v : c.Carrier) : (c.place k).Moves s.bytes (c.writeToStorageStatic s k v).bytes (some v) := by
  rw [writeToStorageStatic_eq]
  have h := Store.words_moves s k (c.slotImage (some v)) c.storageSlots_lt
  exact ⟨h.holds, h.outside⟩

/-- **Clearing.** -/
theorem clear_moves : (c.place k).Moves s.bytes (c.clearStorageStatic s k).bytes none := by
  rw [clearStorageStatic_eq]
  have h := Store.words_moves s k (c.slotImage none) c.storageSlots_lt
  exact ⟨h.holds, h.outside⟩

/-- **Reading.** -/
theorem read_eq (h : (c.place k).Holds s.bytes o) : c.readFromStorageStatic s k = o.getD c.zero := by
  rw [readFromStorageStatic_eq, Store.getRange_of_holds h, ← c.fromSlots_slotImage]
  apply c.lawful.fromSlots_congr
  intro i hi
  rw [slotsOf, List.getD_eq_getElem?_getD, List.getElem?_map, List.getElem?_range hi]
  rfl

/-- A value that was written is read. -/
theorem read_write (c : StaticCodec) (s : Store) (k : Key) (v : c.Carrier) :
    c.readFromStorageStatic (c.writeToStorageStatic s k v) k = v :=
  read_eq (write_moves v).holds

/-- **Reading if present.** -/
theorem tryRead_eq (h : (c.place k).Holds s.bytes o) : c.tryReadFromStorageStatic s k = c.presence o := by
  have hzero : (∀ w ∈ (List.range c.storageSlots).map (c.slotImage o), w = Word.zero) ↔
      ∀ i < c.storageSlots, c.slotImage o i = Word.zero := by
    simp only [List.mem_map, List.mem_range, forall_exists_index, and_imp, forall_apply_eq_imp_iff₂]
  rw [tryReadFromStorageStatic_eq, read_eq h, Store.getRange_of_holds h]
  simp only [hzero]
  cases o with
  | none => exact if_pos fun _ _ => rfl
  | some v => rfl

end StaticCodec

/-! ### Packable types -/

section

variable (p : Packable)

theorem getD_packInto_zero (v : p.Carrier) {q : ℕ} (h : q < 32 - p.packedBytes) :
    (p.packInto v Word.zero (32 - p.packedBytes)).1.getD q 0 = 0 := by
  have hle := p.packedBytes_le
  rw [p.getD_packInto v _ (by omega), if_neg (by omega), Word.getD_zero]

/-- A packable type as a value of its own, at the least significant end of its slot: the buffer is zeroed first. -/
def Packable.slots : SlotCodec where
  Carrier := p.Carrier
  storageSlots := 1
  packedBytes := p.packedBytes
  encodeSlot v _ _ := p.packInto v Word.zero (32 - p.packedBytes)
  fromSlots slots := p.unpackFrom (slots 0) (32 - p.packedBytes)

theorem Packable.slots_lawful : p.slots.Lawful where
  packedBytes_pos := p.packedBytes_pos
  packedBytes_le := p.packedBytes_le
  encodeSlot_congr _ _ _ _ := rfl
  narrow _ := ⟨rfl, fun v q hq => getD_packInto_zero p v hq⟩
  fromSlots_congr h := congrArg (p.unpackFrom · (32 - p.packedBytes)) (h 0 Nat.one_pos)
  fromSlots_word v := by
    have hle := p.packedBytes_le
    exact p.unpackFrom_packInto v _ (by omega)
  word_zero _ _ := by
    have hle := p.packedBytes_le
    change p.packInto (p.unpackFrom Word.zero (32 - p.packedBytes)) Word.zero (32 - p.packedBytes) = Word.zero
    have hzero : p.unpackFrom Word.zero (32 - p.packedBytes) = p.zero := by
      refine p.unpackFrom_eq fun j _ => ?_
      rw [Word.getD_zero, getD_zeroBytes]
    apply Word.ext_getD
    intro q
    rw [hzero, p.getD_packInto _ _ (by omega), p.toBytes_zeroValue, getD_zeroBytes, Word.getD_zero, ite_self]

/-- A packable type as a value of its own. -/
def Packable.static : StaticCodec where
  toSlotCodec := p.slots
  lawful := p.slots_lawful
  storageSlots_pos := Nat.one_pos
  storageSlots_le := one_le_maxStaticSlots

end

/-! ### Fixed arrays -/

namespace StaticArray

variable (T : SlotCodec) (n : ℕ)

/-- `density`: how many elements a slot takes. -/
def density : ℕ := 32 / T.packedBytes

/-- `STORAGE_SLOTS` of `[T; N]`. -/
def storageSlots : ℕ :=
  if T.packedBytes < 32 then (n + density T - 1) / density T else n * T.storageSlots

/-- The windows of slot `slotIdx`, where several elements share it. -/
def windows (v : Fin n → T.Carrier) (slotIdx : ℕ) : List (ℕ × List UInt8) :=
  let start := slotIdx * density T
  let stop := min ((slotIdx + 1) * density T) n
  ((List.ofFn v).extract start stop).zipIdx.map fun (elem, within) =>
    (32 - T.packedBytes * (within + 1), ((T.word elem 0).window (32 - T.packedBytes) T.packedBytes).1)

/-- `encode_slot`. The buffer is zeroed first, and so is the one for an element of a shared slot. -/
def encodeSlot (v : Fin n → T.Carrier) (slotIdx : ℕ) (_buf : Word) : Word :=
  let buf := Word.zero
  if T.packedBytes < 32 then buf.copyAll (windows T n v slotIdx)
  else if T.storageSlots = 1 then
    if h : slotIdx < n then T.encodeSlot (v ⟨slotIdx, h⟩) 0 buf else buf
  else
    let elemIdx := slotIdx / T.storageSlots
    let withinElem := slotIdx % T.storageSlots
    if h : elemIdx < n then T.encodeSlot (v ⟨elemIdx, h⟩) withinElem buf else buf

/-- `from_slots`. -/
def fromSlots (slots : ℕ → Word) (i : Fin n) : T.Carrier :=
  if T.packedBytes < 32 then
    let slotIdx := i.1 / density T
    let within := i.1 % density T
    let offset := 32 - T.packedBytes * (within + 1)
    T.fromSlots fun _ => Word.zero.copyAt (32 - T.packedBytes) ((slots slotIdx).window offset T.packedBytes).1
  else if T.storageSlots = 1 then T.fromSlots fun j => slots (i.1 + j)
  else
    let start := i.1 * T.storageSlots
    T.fromSlots fun j => slots (start + j)

end StaticArray

/-- `[T; N]`. -/
def arraySlots (T : SlotCodec) (n : ℕ) : SlotCodec where
  Carrier := Fin n → T.Carrier
  storageSlots := StaticArray.storageSlots T n
  packedBytes := 32
  encodeSlot := StaticArray.encodeSlot T n
  fromSlots := StaticArray.fromSlots T n

namespace StaticArray

variable {T : SlotCodec} {n : ℕ}

theorem density_pos (hT : T.Lawful) : 0 < density T := Nat.div_pos hT.packedBytes_le hT.packedBytes_pos

theorem density_mul_le : density T * T.packedBytes ≤ 32 := Nat.div_mul_le_self 32 T.packedBytes

/-- The windows of a slot, by the element. -/
theorem mem_windows {v : Fin n → T.Carrier} {slotIdx : ℕ} {w : ℕ × List UInt8} :
    w ∈ windows T n v slotIdx ↔ ∃ within, ∃ h : slotIdx * density T + within < n, within < density T ∧
      w = (32 - T.packedBytes * (within + 1),
        ((T.word (v ⟨_, h⟩) 0).window (32 - T.packedBytes) T.packedBytes).1) := by
  have hmul : (slotIdx + 1) * density T = slotIdx * density T + density T := Nat.succ_mul _ _
  simp only [windows, List.mem_map, Prod.exists, List.mem_zipIdx_iff_getElem?, List.extract_eq_take_drop]
  constructor
  · rintro ⟨elem, within, hget, rfl⟩
    have hlt := (List.getElem?_eq_some_iff.mp hget).1
    rw [List.length_take, List.length_drop, List.length_ofFn] at hlt
    have hin : slotIdx * density T + within < n := by omega
    rw [List.getElem?_take_of_lt (by omega), List.getElem?_drop, List.getElem?_ofFn, dif_pos hin,
      Option.some.injEq] at hget
    exact ⟨within, hin, by omega, by rw [hget]⟩
  · rintro ⟨within, hin, hlt, rfl⟩
    refine ⟨v ⟨_, hin⟩, within, ?_, rfl⟩
    rw [List.getElem?_take_of_lt (by omega), List.getElem?_drop, List.getElem?_ofFn, dif_pos hin]

theorem windows_fit (hT : T.Lawful) {v : Fin n → T.Carrier} {slotIdx : ℕ} : ∀ w ∈ windows T n v slotIdx, w.1 + w.2.length ≤ 32 := by
  intro w hw
  obtain ⟨within, hin, hlt, rfl⟩ := mem_windows.mp hw
  have hlen := ((T.word (v ⟨_, hin⟩) 0).window (32 - T.packedBytes) T.packedBytes).2
  have hmul : T.packedBytes ≤ T.packedBytes * (within + 1) := Nat.le_mul_of_pos_right _ (Nat.succ_pos _)
  have hle := hT.packedBytes_le
  change 32 - T.packedBytes * (within + 1) + List.length _ ≤ 32
  rw [hlen]
  have hle' : T.packedBytes * (within + 1) ≤ density T * T.packedBytes := by
    rw [Nat.mul_comm]
    exact Nat.mul_le_mul_right _ hlt
  have := density_mul_le (T := T)
  omega

/-- The elements of one slot do not meet. -/
theorem windows_apart (v : Fin n → T.Carrier) (slotIdx : ℕ) : (windows T n v slotIdx).Pairwise Word.Apart := by
  rw [windows, List.pairwise_map, List.pairwise_iff_getElem]
  intro i j hi hj hij
  simp only [List.getElem_zipIdx, Word.Apart, Nat.zero_add]
  rw [List.length_zipIdx, List.extract_eq_take_drop, List.length_take, List.length_drop, List.length_ofFn] at hj
  have hmul : (slotIdx + 1) * density T = slotIdx * density T + density T := Nat.succ_mul _ _
  have hlen : ∀ w : Word, (w.window (32 - T.packedBytes) T.packedBytes).1.length = T.packedBytes := fun w => (w.window _ _).2
  have hstep : T.packedBytes * (i + 1) + T.packedBytes ≤ T.packedBytes * (j + 1) := by
    rw [← Nat.mul_succ]
    exact Nat.mul_le_mul_left _ (by omega)
  have hle' : T.packedBytes * (j + 1) ≤ density T * T.packedBytes := by
    rw [Nat.mul_comm]
    exact Nat.mul_le_mul_right _ (by omega)
  have := density_mul_le (T := T)
  right
  rw [hlen]
  omega

/-- A value of a narrow type is its window. -/
theorem copyAt_window (hT : T.Lawful) (h : T.packedBytes < 32) (v : T.Carrier) :
    Word.zero.copyAt (32 - T.packedBytes) ((T.word v 0).window (32 - T.packedBytes) T.packedBytes).1 =
      T.word v 0 := by
  have hle := hT.packedBytes_le
  have hlen := ((T.word v 0).window (32 - T.packedBytes) T.packedBytes).2
  apply Word.ext_getD
  intro p
  rw [Word.getD_copyAt _ (by omega), hlen]
  by_cases hp : p < 32 - T.packedBytes
  · rw [if_neg (by omega), Word.getD_zero, (hT.narrow h).2 v p hp]
  · by_cases hp' : p < 32
    · rw [if_pos (by omega), Word.getD_window _ _ (by omega), Nat.add_sub_cancel' (by omega)]
    · rw [if_neg (by omega), Word.getD_zero, Word.getD_of_le _ (by omega)]

theorem fromSlots_word (hT : T.Lawful) (v : Fin n → T.Carrier) :
    fromSlots T n (fun slotIdx => encodeSlot T n v slotIdx Word.zero) = v := by
  funext i
  by_cases hnarrow : T.packedBytes < 32
  · have hdiv : i.1 / density T * density T + i.1 % density T = i.1 := Nat.div_add_mod' _ _
    have hmod : i.1 % density T < density T := Nat.mod_lt _ (density_pos hT)
    have hin : i.1 / density T * density T + i.1 % density T < n := by
      rw [hdiv]
      exact i.2
    have hi : (⟨_, hin⟩ : Fin n) = i := Fin.ext hdiv
    have hmem : _ ∈ windows T n v (i.1 / density T) := mem_windows.mpr ⟨i.1 % density T, hin, hmod, rfl⟩
    have hlen := ((T.word (v i) 0).window (32 - T.packedBytes) T.packedBytes).2
    rw [hi] at hmem
    have hwindow : (encodeSlot T n v (i.1 / density T) Word.zero).window (32 - T.packedBytes * (i.1 % density T + 1)) T.packedBytes =
        (T.word (v i) 0).window (32 - T.packedBytes) T.packedBytes := by
      apply Word.byteArr_ext
      intro j hj
      rw [Word.getD_window _ _ hj, encodeSlot, if_pos hnarrow,
        Word.getD_copyAll_of_mem (windows_fit hT) (windows_apart v _) _ hmem (hlen.symm ▸ hj)]
    simp only [fromSlots, if_pos hnarrow, hwindow, copyAt_window hT hnarrow]
    rw [← hT.fromSlots_word (v i)]
    refine hT.fromSlots_congr fun j hj => ?_
    rw [(hT.narrow hnarrow).1] at hj
    rw [Nat.lt_one_iff.mp hj, hT.fromSlots_word]
  · rw [fromSlots, if_neg hnarrow]
    by_cases hone : T.storageSlots = 1
    · rw [if_pos hone, ← hT.fromSlots_word (v i)]
      refine hT.fromSlots_congr fun j hj => ?_
      rw [hone] at hj
      rw [Nat.lt_one_iff.mp hj, encodeSlot, if_neg hnarrow, if_pos hone]
      exact dif_pos i.2
    · rw [if_neg hone, ← hT.fromSlots_word (v i)]
      refine hT.fromSlots_congr fun j hj => ?_
      have hdiv : (i.1 * T.storageSlots + j) / T.storageSlots = i.1 := by
        rw [Nat.mul_comm, Nat.mul_add_div (Nat.zero_lt_of_lt hj), Nat.div_eq_of_lt hj, Nat.add_zero]
      have hmod : (i.1 * T.storageSlots + j) % T.storageSlots = j := by
        rw [Nat.mul_comm, Nat.mul_add_mod, Nat.mod_eq_of_lt hj]
      simp only [encodeSlot, if_neg hnarrow, if_neg hone, hdiv, hmod, dif_pos i.2]
      rfl

/-- Only the slots that are counted are decoded. -/
theorem fromSlots_congr (hT : T.Lawful) {slots slots' : ℕ → Word} (h : ∀ i < storageSlots T n, slots i = slots' i) :
    fromSlots T n slots = fromSlots T n slots' := by
  funext i
  have hi := i.2
  by_cases hnarrow : T.packedBytes < 32
  · have hlt : i.1 / density T < storageSlots T n := by
      rw [storageSlots, if_pos hnarrow, Nat.div_lt_iff_lt_mul (density_pos hT)]
      have hceil := Nat.lt_mul_div_succ (n + density T - 1) (density_pos hT)
      rw [Nat.mul_succ, Nat.mul_comm] at hceil
      have := density_pos hT
      omega
    simp only [fromSlots, if_pos hnarrow, h _ hlt]
  · have hslots : storageSlots T n = n * T.storageSlots := if_neg hnarrow
    rw [fromSlots, fromSlots, if_neg hnarrow, if_neg hnarrow]
    by_cases hone : T.storageSlots = 1
    · rw [if_pos hone, if_pos hone]
      refine hT.fromSlots_congr fun j hj => h _ ?_
      rw [hslots, hone]
      omega
    · rw [if_neg hone, if_neg hone]
      refine hT.fromSlots_congr fun j hj => h _ ?_
      have hmul : (i.1 + 1) * T.storageSlots ≤ n * T.storageSlots := Nat.mul_le_mul_right _ hi
      rw [Nat.succ_mul] at hmul
      rw [hslots]
      omega

/-- Zero slots hold zero elements. -/
theorem fromSlots_zero (hT : T.Lawful) (i : Fin n) : fromSlots T n (fun _ => Word.zero) i = T.zero := by
  rw [fromSlots]
  split_ifs with hnarrow hone
  · refine hT.fromSlots_congr fun j _ => ?_
    have hle := hT.packedBytes_le
    apply Word.ext_getD
    intro p
    rw [Word.getD_copyAt _ (by rw [(Word.window _ _ _).2]; omega), Word.getD_zero]
    split_ifs with hp
    · rw [(Word.window _ _ _).2] at hp
      rw [Word.getD_window _ _ (by omega), Word.getD_zero]
    · rfl
  · rfl
  · rfl

theorem word_zero (hT : T.Lawful) {slotIdx : ℕ} (hslot : slotIdx < storageSlots T n) :
    (arraySlots T n).word (arraySlots T n).zero slotIdx = Word.zero := by
  have hvalue : (arraySlots T n).zero = fun _ => T.zero := funext (fromSlots_zero hT)
  rw [hvalue]
  change encodeSlot T n (fun _ => T.zero) slotIdx Word.zero = Word.zero
  rw [encodeSlot]
  by_cases hnarrow : T.packedBytes < 32
  · have helem : T.word T.zero 0 = Word.zero := hT.word_zero 0 (lt_of_lt_of_eq Nat.one_pos (hT.narrow hnarrow).1.symm)
    rw [if_pos hnarrow]
    apply Word.ext_getD
    intro p
    rw [Word.getD_zero]
    by_cases hin : ∃ w ∈ windows T n (fun _ => T.zero) slotIdx, w.1 ≤ p ∧ p < w.1 + w.2.length
    · obtain ⟨w, hw, hlow, hhigh⟩ := hin
      obtain ⟨j, rfl⟩ := Nat.exists_eq_add_of_le hlow
      rw [Word.getD_copyAll_of_mem (windows_fit hT) (windows_apart _ _) _ hw (by omega)]
      obtain ⟨within, hlt, -, rfl⟩ := mem_windows.mp hw
      rw [(Word.window _ _ _).2] at hhigh
      change ((T.word T.zero 0).window _ _).1.getD j 0 = 0
      rw [helem, Word.getD_window _ _ (by omega), Word.getD_zero]
    · rw [Word.getD_copyAll_of_not_mem (windows_fit hT) _ fun w hw hp => hin ⟨w, hw, hp⟩, Word.getD_zero]
  · rw [storageSlots, if_neg hnarrow] at hslot
    have hpos : 0 < T.storageSlots := Nat.pos_of_mul_pos_left (lt_of_le_of_lt (Nat.zero_le _) hslot)
    rw [if_neg hnarrow]
    by_cases hone : T.storageSlots = 1
    · rw [if_pos hone]
      split_ifs
      · exact hT.word_zero 0 hpos
      · rfl
    · rw [if_neg hone]
      dsimp only
      split_ifs
      · exact hT.word_zero _ (Nat.mod_lt _ hpos)
      · rfl

/-- The buffer is zeroed first. -/
theorem lawful (hT : T.Lawful) : (arraySlots T n).Lawful where
  packedBytes_pos := Nat.succ_pos 31
  packedBytes_le := le_refl 32
  encodeSlot_congr _ _ _ _ := rfl
  narrow h := absurd h (lt_irrefl 32)
  fromSlots_congr := fromSlots_congr hT
  fromSlots_word := fromSlots_word hT
  word_zero _ hslot := word_zero hT hslot

end StaticArray

end PvmContract.Storage
