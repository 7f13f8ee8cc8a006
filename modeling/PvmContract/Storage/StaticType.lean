import PvmContract.Storage.Row

/-!
# Static storage types

The types that are kept in a fixed number of slots: the packable ones, fixed arrays of
a static type, and tuples of packable types. `StaticType.codec` is the implementation
of each, and all of them are lawful.

`StaticType.solcByte` says where solc keeps what: which byte of a value is at a
position of a slot, counted from the least significant end as solc does. Elements
that are narrower than a slot share one, as many as fit side by side; any other
element begins a slot of its own; the members of a tuple are where solc's cursor puts
them. There are no bytes anywhere else. The slots that the code writes are the ones
with these bytes (`encodeSlot_eq_solcByte`), whatever was in the buffer before.
-/

namespace PvmContract.Storage

open PvmContract.Data PvmContract.Types

/-- A static storage type. The element of an array is any static type here, of which the
marker trait `StorageArrayElement` admits some. -/
inductive StaticType where
  | scalar (s : Scalar)
  /-- `[T; N]`. -/
  | array (elem : StaticType) (n : ℕ)
  | tuple (elems : List Scalar)

namespace StaticType

/-- The implementation of each. -/
def codec : StaticType → SlotCodec
  | scalar s => s.packable.slots
  | array elem n => arraySlots elem.codec n
  | tuple elems => rowCodec (elems.map Scalar.packable)

theorem lawful (T : StaticType) : T.codec.Lawful := by
  induction T with
  | scalar s => exact s.packable.slots_lawful
  | array elem n ih => exact StaticArray.lawful ih
  | tuple elems => exact rowCodec_lawful _

/-! ### solc's layout -/

/-- A byte of a packed value, from its least significant end. -/
def lowByte (p : Packable) (v : p.Carrier) (q : ℕ) : UInt8 := (p.toBytes v).1.getD (p.packedBytes - 1 - q) 0

/-- Where solc puts a member of a struct. -/
def solcMember (ps : List Packable) (i : ℕ) : SolcCursor :=
  (solcOffsets ⟨0, 0⟩ (ps.map Packable.shape)).getD i ⟨0, 0⟩

/-- Whether a member is kept at a position of a slot. -/
def MemberAt (ps : List Packable) (slot q : ℕ) (i : Fin ps.length) : Prop :=
  (solcMember ps i).slotOffset = slot ∧ (solcMember ps i).byteOffset ≤ q ∧
    q < (solcMember ps i).byteOffset + (ps.get i).packedBytes

instance (ps : List Packable) (slot q : ℕ) (i : Fin ps.length) : Decidable (MemberAt ps slot q i) :=
  inferInstanceAs (Decidable (_ ∧ _))

/-- Byte `q` of slot `slot` of a value, from the least significant end. -/
def solcByte : (T : StaticType) → T.codec.Carrier → ℕ → ℕ → UInt8
  | scalar s, v, _, q => if q < s.packable.packedBytes then lowByte s.packable v q else 0
  | array elem n, v, slot, q =>
    let size := elem.codec.packedBytes
    if size < 32 then
      let i := slot * (32 / size) + q / size
      if h : q / size < 32 / size ∧ i < n then elem.solcByte (v ⟨i, h.2⟩) 0 (q % size) else 0
    else
      let i := slot / elem.codec.storageSlots
      if h : i < n then elem.solcByte (v ⟨i, h⟩) (slot % elem.codec.storageSlots) q else 0
  | tuple elems, v, slot, q =>
    let ps := elems.map Scalar.packable
    match (List.finRange ps.length).find? fun i => decide (MemberAt ps slot q i) with
    | some i => lowByte (ps.get i) (v i) (q - (solcMember ps i).byteOffset)
    | none => 0

/-! ### The slots that are written -/

section

variable {T : SlotCodec} {n : ℕ}

/-- A byte of a slot that elements share. -/
theorem getD_shared (hT : T.Lawful) (hnarrow : T.packedBytes < 32) (v : Fin n → T.Carrier) {slot q : ℕ} (hq : q < 32)
    (buf : Word) :
    (StaticArray.encodeSlot T n v slot buf).1.getD (31 - q) 0 =
      if h : q / T.packedBytes < 32 / T.packedBytes ∧ slot * (32 / T.packedBytes) + q / T.packedBytes < n then
        (T.word (v ⟨_, h.2⟩) 0).1.getD (31 - q % T.packedBytes) 0
      else 0 := by
  have hpos := hT.packedBytes_pos
  have hle := hT.packedBytes_le
  have hdivmod := Nat.div_add_mod q T.packedBytes
  have hmod := Nat.mod_lt q hpos
  have hlen : ∀ w : Word, (w.window (32 - T.packedBytes) T.packedBytes).1.length = T.packedBytes := fun w => (w.window _ _).2
  rw [StaticArray.encodeSlot, if_pos hnarrow]
  by_cases h : q / T.packedBytes < 32 / T.packedBytes ∧ slot * (32 / T.packedBytes) + q / T.packedBytes < n
  · have hmem : _ ∈ StaticArray.windows T n v slot := StaticArray.mem_windows.mpr ⟨q / T.packedBytes, h.2, h.1, rfl⟩
    have hroom : T.packedBytes * (q / T.packedBytes + 1) ≤ 32 :=
      le_trans (Nat.mul_le_mul_left _ h.1) (Nat.mul_div_le 32 T.packedBytes)
    rw [Nat.mul_succ] at hroom
    have hposition : 31 - q =
        32 - T.packedBytes * (q / T.packedBytes + 1) + (T.packedBytes - 1 - q % T.packedBytes) := by
      rw [Nat.mul_succ]
      omega
    rw [dif_pos h, hposition, Word.getD_copyAll_of_mem (StaticArray.windows_fit hT) (StaticArray.windows_apart v slot) _ hmem
      (by rw [hlen]; omega), Word.getD_window _ _ (by omega)]
    exact congrArg (List.getD _ · 0) (by omega)
  · rw [dif_neg h, Word.getD_copyAll_of_not_mem (StaticArray.windows_fit hT), Word.getD_zero]
    intro w hw hin
    obtain ⟨within, hlt, hdensity, rfl⟩ := StaticArray.mem_windows.mp hw
    change 32 - T.packedBytes * (within + 1) ≤ 31 - q ∧ 31 - q < 32 - T.packedBytes * (within + 1) + List.length _ at hin
    rw [hlen, Nat.mul_succ] at hin
    have hroom : T.packedBytes * (within + 1) ≤ 32 :=
      le_trans (Nat.mul_le_mul_left _ hdensity) (Nat.mul_div_le 32 T.packedBytes)
    rw [Nat.mul_succ] at hroom
    -- the window begins where the element does
    have hwithin : q / T.packedBytes = within := by
      apply Nat.div_eq_of_lt_le
      · rw [Nat.mul_comm]
        omega
      · rw [Nat.succ_mul, Nat.mul_comm]
        omega
    rw [hwithin] at h
    exact h ⟨hdensity, hlt⟩

/-- A byte of a slot of an element that shares none. -/
theorem word_full (hfull : ¬ T.packedBytes < 32) (v : Fin n → T.Carrier) {slot : ℕ} (hslot : slot < n * T.storageSlots)
    (buf : Word) :
    ∃ h : slot / T.storageSlots < n, StaticArray.encodeSlot T n v slot buf =
      T.word (v ⟨slot / T.storageSlots, h⟩) (slot % T.storageSlots) := by
  have hin : slot / T.storageSlots < n := Nat.div_lt_of_lt_mul (by rwa [Nat.mul_comm])
  refine ⟨hin, ?_⟩
  rw [StaticArray.encodeSlot, if_neg hfull]
  by_cases hone : T.storageSlots = 1
  · have hlt : slot < n := by
      rwa [hone, Nat.mul_one] at hslot
    simp only [hone, Nat.div_one, Nat.mod_one, if_true, dif_pos hlt]
    rfl
  · rw [if_neg hone]
    exact dif_pos hin

end

/-- A byte of a packed value that is alone. -/
theorem getD_alone (p : Packable) (v : p.Carrier) {q : ℕ} (hq : q < 32) :
    (p.packInto v Word.zero (32 - p.packedBytes)).1.getD (31 - q) 0 = if q < p.packedBytes then lowByte p v q else 0 := by
  have hle := p.packedBytes_le
  rw [p.getD_packInto v _ (by omega), Word.getD_zero]
  by_cases h : q < p.packedBytes
  · rw [if_pos (by omega), if_pos h, lowByte]
    exact congrArg (List.getD _ · 0) (by omega)
  · rw [if_neg (by omega), if_neg h]

/-! ### Members of tuples -/

section

variable (ps : List Packable)

/-- The walker puts members where solc does. -/
theorem solcMember_eq (i : Fin ps.length) :
    solcMember ps i = ⟨(placed Packable.shape ps i).slot, (placed Packable.shape ps i).solcOffset⟩ := by
  have hi : i.1 < (placements (ps.map Packable.shape)).length := by
    rw [length_placements]
    exact i.2
  rw [solcMember, ← placements_solc (ps.map Packable.shape), List.getD_eq_getElem?_getD, List.getElem?_map,
    List.getElem?_eq_getElem hi]
  rfl

theorem byteOffset_eq (i : Fin ps.length) :
    (solcMember ps i).byteOffset + ((placed Packable.shape ps i).offset + (ps.get i).packedBytes) = 32 := by
  have hin := placed_within Packable.shape i
  have hoffset : (placed Packable.shape ps i).solcOffset =
      32 - (placed Packable.shape ps i).offset - (ps.get i).packedBytes := by
    rw [Placement.solcOffset, placed_shape]
    rfl
  change (placed Packable.shape ps i).offset + (ps.get i).packedBytes ≤ 32 at hin
  rw [solcMember_eq]
  change (placed Packable.shape ps i).solcOffset + _ = 32
  omega

theorem memberAt_iff {slot q : ℕ} (hq : q < 32) (i : Fin ps.length) :
    MemberAt ps slot q i ↔ (placed Packable.shape ps i).slot = slot ∧
      (placed Packable.shape ps i).offset ≤ 31 - q ∧
        31 - q < (placed Packable.shape ps i).offset + (ps.get i).packedBytes := by
  have hoffset := byteOffset_eq ps i
  have hslot : (solcMember ps i).slotOffset = (placed Packable.shape ps i).slot := by
    rw [solcMember_eq]
  rw [MemberAt, hslot]
  constructor
  · rintro ⟨hslot, hlow, hhigh⟩
    exact ⟨hslot, by omega, by omega⟩
  · rintro ⟨hslot, hlow, hhigh⟩
    exact ⟨hslot, by omega, by omega⟩

end

/-- **Every slot that is written has the bytes that solc keeps there.** -/
theorem encodeSlot_eq_solcByte (T : StaticType) (v : T.codec.Carrier) {slot q : ℕ} (hslot : slot < T.codec.storageSlots)
    (hq : q < 32) (buf : Word) : (T.codec.encodeSlot v slot buf).1.getD (31 - q) 0 = T.solcByte v slot q := by
  induction T generalizing slot q buf with
  | scalar s => exact getD_alone s.packable v hq
  | array elem n ih =>
    rw [solcByte]
    by_cases hnarrow : elem.codec.packedBytes < 32
    · refine (getD_shared elem.lawful hnarrow v hq buf).trans ?_
      rw [if_pos hnarrow]
      dsimp only
      have hone := (elem.lawful.narrow hnarrow).1
      have hmod : q % elem.codec.packedBytes < 32 := lt_of_le_of_lt (Nat.mod_le _ _) hq
      split_ifs with h
      · exact ih _ (lt_of_lt_of_eq Nat.one_pos hone.symm) hmod Word.zero
      · rfl
    · have hslots : (array elem n).codec.storageSlots = n * elem.codec.storageSlots := if_neg hnarrow
      rw [hslots] at hslot
      obtain ⟨hin, hword⟩ := word_full hnarrow v hslot buf
      have hpos : 0 < elem.codec.storageSlots := Nat.pos_of_mul_pos_left (lt_of_le_of_lt (Nat.zero_le _) hslot)
      rw [if_neg hnarrow]
      dsimp only
      rw [dif_pos hin]
      refine Eq.trans ?_ (ih _ (Nat.mod_lt _ hpos) hq Word.zero)
      exact congrArg (fun w : Word => w.1.getD (31 - q) 0) hword
  | tuple elems =>
    rw [solcByte]
    change (packRow Packable.shape (elems.map Scalar.packable) (rowBytes _ v) slot).1.getD (31 - q) 0 = _
    cases hfind : (List.finRange (elems.map Scalar.packable).length).find? fun i =>
        decide (MemberAt (elems.map Scalar.packable) slot q i) with
    | some i =>
      have hfound := List.find?_some hfind
      have hat : MemberAt (elems.map Scalar.packable) slot q i := of_decide_eq_true hfound
      obtain ⟨rfl, hlow, hhigh⟩ := (memberAt_iff _ hq i).mp hat
      have hoffset := byteOffset_eq (elems.map Scalar.packable) i
      have hbyte := getD_packRow (length_rowBytes _ v) (i := i) rfl
        (show 31 - q - (placed Packable.shape _ i).offset < _ from
          lt_of_lt_of_eq (by omega) ((List.get _ i).toBytes (v i)).2.symm)
      rw [Nat.add_sub_cancel' hlow] at hbyte
      have hposition : 31 - q - (placed Packable.shape (elems.map Scalar.packable) i).offset =
          ((elems.map Scalar.packable).get i).packedBytes - 1 -
            (q - (solcMember (elems.map Scalar.packable) i).byteOffset) := by
        omega
      exact hbyte.trans (congrArg (List.getD _ · 0) hposition)
    | none =>
      apply getD_packRow_of_not_mem (length_rowBytes _ v)
      intro i hslot _ hin
      have hat := (memberAt_iff _ hq i).mpr ⟨hslot, hin⟩
      exact absurd (decide_eq_true hat) (List.find?_eq_none.mp hfind i (List.mem_finRange i))

/-! ### Slots -/

/-- The slots that are written, whatever was in the buffers. -/
def words (T : StaticType) (v : T.codec.Carrier) (bufs : ℕ → Word) : List Word :=
  (List.range T.codec.storageSlots).map fun slot => T.codec.encodeSlot v slot (bufs slot)

/-- They are decoded to the value. -/
theorem fromSlots_words (T : StaticType) (v : T.codec.Carrier) (bufs : ℕ → Word) :
    T.codec.fromSlots (StaticCodec.slotsOf (T.words v bufs)) = v := by
  refine (T.lawful.fromSlots_congr fun slot hslot => ?_).trans (T.lawful.fromSlots_word v)
  rw [StaticCodec.slotsOf, words, List.getD_eq_getElem?_getD, List.getElem?_map, List.getElem?_range hslot]
  exact T.lawful.encodeSlot_congr v slot _ _

/-- Which slots of elements a type has. -/
structure Slots (elem : StaticType) (n : ℕ) : Prop where
  /-- Narrow elements use the slots that the last one is in and those before. -/
  shared : elem.codec.packedBytes < 32 →
    ∀ slot, slot < (array elem n).codec.storageSlots ↔ ∃ i < n, i / (32 / elem.codec.packedBytes) = slot
  /-- Any other element begins a slot of its own. -/
  own : ¬ elem.codec.packedBytes < 32 → (array elem n).codec.storageSlots = n * elem.codec.storageSlots ∧
    ∀ (v : Fin n → elem.codec.Carrier) (i : Fin n) (j : ℕ) (buf : Word), j < elem.codec.storageSlots →
      (array elem n).codec.encodeSlot v (i * elem.codec.storageSlots + j) buf = elem.codec.encodeSlot (v i) j buf

/-- Arrays and tuples are never packed: the layout walker begins a slot for them. -/
def Fresh (T : StaticType) : Prop :=
  T.codec.packedBytes = 32 ∧ ∀ prev : LayoutStep, prev.nextSpace < 32 →
    (layoutStep prev T.codec.packedBytes T.codec.storageSlots).slot = prev.nextSlot + 1 ∧
      (layoutStep prev T.codec.packedBytes T.codec.storageSlots).offset = 0

theorem slots (elem : StaticType) (n : ℕ) : Slots elem n where
  shared hnarrow slot := by
    have hpos : 0 < 32 / elem.codec.packedBytes := StaticArray.density_pos elem.lawful
    have hslots : (array elem n).codec.storageSlots =
        (n + 32 / elem.codec.packedBytes - 1) / (32 / elem.codec.packedBytes) := if_pos hnarrow
    rw [hslots]
    generalize 32 / elem.codec.packedBytes = d at hpos
    have hceil : slot < (n + d - 1) / d ↔ slot * d < n := by
      rw [Nat.lt_iff_add_one_le, Nat.le_div_iff_mul_le hpos, Nat.succ_mul]
      omega
    rw [hceil]
    constructor
    · intro h
      exact ⟨slot * d, h, Nat.mul_div_cancel _ hpos⟩
    · rintro ⟨i, hi, rfl⟩
      exact lt_of_le_of_lt (Nat.div_mul_le_self i d) hi
  own hfull := by
    have hslots : (array elem n).codec.storageSlots = n * elem.codec.storageSlots := if_neg hfull
    refine ⟨hslots, fun v i j buf hj => ?_⟩
    have hdiv : (i.1 * elem.codec.storageSlots + j) / elem.codec.storageSlots = i.1 := by
      rw [Nat.mul_comm, Nat.mul_add_div (Nat.zero_lt_of_lt hj), Nat.div_eq_of_lt hj, Nat.add_zero]
    have hmod : (i.1 * elem.codec.storageSlots + j) % elem.codec.storageSlots = j := by
      rw [Nat.mul_comm, Nat.mul_add_mod, Nat.mod_eq_of_lt hj]
    have hlt : i.1 * elem.codec.storageSlots + j < n * elem.codec.storageSlots := by
      have hmul : (i.1 + 1) * elem.codec.storageSlots ≤ n * elem.codec.storageSlots := Nat.mul_le_mul_right _ i.2
      rw [Nat.succ_mul] at hmul
      omega
    obtain ⟨hin, hword⟩ := word_full hfull v hlt buf
    refine hword.trans ?_
    have hi : (⟨_, hin⟩ : Fin n) = i := Fin.ext hdiv
    rw [hi, hmod]
    exact elem.lawful.encodeSlot_congr _ _ _ _

theorem fresh_of_full {T : StaticType} (h : T.codec.packedBytes = 32) : T.Fresh := by
  refine ⟨h, fun prev hspace => ?_⟩
  rw [h]
  simp [layoutStep, hspace]

/-- **Static values in slots.** The slots of a value are decoded to it. Every byte of them is the one that solc
keeps there, and it does not depend on what was in the buffer. The slots are those that are used, and an array or
a tuple begins a slot of its own, wherever it is. -/
theorem slots_exact (T : StaticType) :
    (∀ v bufs, T.codec.fromSlots (StaticCodec.slotsOf (T.words v bufs)) = v) ∧
      (∀ v buf, ∀ slot < T.codec.storageSlots, ∀ q < 32,
        (T.codec.encodeSlot v slot buf).1.getD (31 - q) 0 = T.solcByte v slot q) ∧
      match T with
      | scalar _ => T.codec.storageSlots = 1
      | array elem n => Slots elem n ∧ T.Fresh
      | tuple elems =>
        T.codec.storageSlots = (solcEnd ⟨0, 0⟩ (elems.map fun s => s.packable.shape)).size ∧ T.Fresh := by
  refine ⟨T.fromSlots_words, fun v buf slot hslot q hq => T.encodeSlot_eq_solcByte v hslot hq buf, ?_⟩
  cases T with
  | scalar s => rfl
  | array elem n => exact ⟨slots elem n, fresh_of_full rfl⟩
  | tuple elems =>
    refine ⟨?_, fresh_of_full rfl⟩
    have hsize := totalSlots_eq_solc ((elems.map Scalar.packable).map Packable.shape)
    rw [List.map_map] at hsize
    change totalSlots ((elems.map Scalar.packable).map Packable.shape) = _
    rw [List.map_map]
    exact hsize

end StaticType

end PvmContract.Storage
