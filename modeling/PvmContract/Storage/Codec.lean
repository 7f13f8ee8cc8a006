import PvmContract.Storage.StaticCodec
import PvmContract.Storage.Dynamic
import PvmContract.Types.SequenceLaws

/-!
# Storage values

`StorageCodec` is one implementation of `StorageEncode` and `StorageDecode` for a
type that has its slots to itself. Besides the four functions of the traits, the
record says what they do: at every base key there is a place that holds a value or
none, none is all zeros, and writing, clearing and reading are a move to the
value, a move to none, and the value held.

A value may own more than its slots: a dynamic field has its body in the region of
its header. The regions of distinct headers must not meet, nor meet the slots
(`Separate`); this is the only thing that is asked of the hash.

Members are the static types and the two dynamic ones, `Bytes` and `String`.
-/

namespace PvmContract.Storage

open PvmContract.Data PvmContract.Types

/-! ### Regions -/

/-- The hash of the host, `hash_keccak_256`. -/
abbrev Hash : Type := List UInt8 → Word

/-- How far a region reaches: an index of 64 bits, times or plus another one. -/
def span : ℕ := 2 ^ 65

/-- The keys behind the hash of a slot: the body of a dynamic value, or the elements of a vector. -/
def region (keccak : Hash) (p : Key) : Set Key := (dynBodyRoot keccak p).range span

/-- **What is asked of the hash**: the regions of distinct slots among `points` do not meet, and none
of them meets `slots`. -/
structure Separate (keccak : Hash) (points slots : Set Key) : Prop where
  regions : ∀ p ∈ points, ∀ q ∈ points, p ≠ q → Disjoint (region keccak p) (region keccak q)
  slots : ∀ p ∈ points, Disjoint (region keccak p) slots

theorem Separate.mono {keccak : Hash} {points points' slots slots' : Set Key} (h : Separate keccak points slots)
    (hpoints : points' ⊆ points) (hslots : slots' ⊆ slots) : Separate keccak points' slots' where
  regions p hp q hq := h.regions p (hpoints hp) q (hpoints hq)
  slots p hp := (h.slots p (hpoints hp)).mono_right hslots

/-- The first two slots are far from their hashes, and these from each other. -/
theorem slotHashes_separate : Separate slotHashes {.ofNum 0, .ofNum 1} {j | j.num < 2 ^ 64} where
  regions := by
    rintro p (rfl | rfl) q (rfl | rfl) hne
    · exact absurd rfl hne
    · exact slotHashes_disjoint (le_refl _)
    · exact (slotHashes_disjoint (le_refl _)).symm
    · exact absurd rfl hne
  slots := by
    rintro p (rfl | rfl)
    · rw [Set.disjoint_left]
      intro j hj (hlow : j.num < 2 ^ 64)
      have := slotHashes_zero (le_refl _) hj
      omega
    · rw [Set.disjoint_left]
      intro j hj (hlow : j.num < 2 ^ 64)
      have := slotHashes_one (le_refl _) hj
      omega

/-- The keys of a value: its slots, and the regions of those that are hashed. -/
def ownKeys (keccak : Hash) (points slots : Set Key) : Set Key := slots ∪ {j | ∃ p ∈ points, j ∈ region keccak p}

theorem ownKeys_mono {keccak : Hash} {points points' slots slots' : Set Key} (hpoints : points ⊆ points')
    (hslots : slots ⊆ slots') : ownKeys keccak points slots ⊆ ownKeys keccak points' slots' := by
  rintro j (hj | ⟨p, hp, hj⟩)
  · exact .inl (hslots hj)
  · exact .inr ⟨p, hpoints hp, hj⟩

/-- The slots of a value at `k` that are hashed. -/
def pointsAt (headers : Set ℕ) (k : Key) : Set Key := {j | ∃ h ∈ headers, j = k.add h}

/-- The keys that a value at `k` fills: its slots, and the bodies behind those that are hashed. -/
def valueKeys (keccak : Hash) (headers : Set ℕ) (storageSlots : ℕ) (k : Key) : Set Key :=
  k.range storageSlots ∪ {j | ∃ h ∈ headers, j ∈ (dynBodyRoot keccak (k.add h)).range maxChunks}

theorem maxChunks_le_span : maxChunks ≤ span := by decide

theorem valueKeys_subset (keccak : Hash) (headers : Set ℕ) (storageSlots : ℕ) (k : Key) :
    valueKeys keccak headers storageSlots k ⊆ ownKeys keccak (pointsAt headers k) (k.range storageSlots) := by
  rintro j (hj | ⟨h, hh, i, hi, rfl⟩)
  · exact .inl hj
  · exact .inr ⟨_, ⟨h, hh, rfl⟩, i, lt_of_lt_of_le hi maxChunks_le_span, rfl⟩

/-! ### The trait -/

/-- One implementation of `StorageEncode` and `StorageDecode` for a type of `PACKED_BYTES == 32`. -/
structure StorageCodec where
  Carrier : Type
  /-- The values that fit in memory. -/
  Fits : Carrier → Prop
  /-- `STORAGE_SLOTS`. -/
  storageSlots : ℕ
  /-- `HAS_DYNAMIC_BODY`. -/
  hasDynamicBody : Bool
  writeToStorage : Hash → Store → Key → Carrier → Store
  clearStorage : Hash → Store → Key → Store
  readFromStorage : Hash → Store → Key → Carrier
  tryReadFromStorage : Hash → Store → Key → Option Carrier
  /-- The value of storage that was never written. -/
  zero : Carrier
  /-- What `try_read` makes of a value that was written. -/
  presence : Option Carrier → Option Carrier
  /-- The slots that are hashed. -/
  headers : Set ℕ
  place : Hash → Key → Place Cell UInt8 (Option Carrier)
  storageSlots_pos : 0 < storageSlots
  /-- The build rejects a type with more slots. -/
  storageSlots_le : storageSlots ≤ maxStaticSlots
  headers_lt : ∀ h ∈ headers, h < storageSlots
  headers_of_static : hasDynamicBody = false → headers = ∅
  cells_eq : ∀ keccak k, (place keccak k).cells = Store.cellsOf (valueKeys keccak headers storageSlots k)
  none_iff : ∀ {keccak k x}, (place keccak k).Holds x none ↔ ∀ c ∈ (place keccak k).cells, x c = 0
  write_moves : ∀ {keccak k s o v}, Separate keccak (pointsAt headers k) (k.range storageSlots) →
    (place keccak k).Holds (Store.bytes s) o → Fits v →
      (place keccak k).Moves s.bytes (writeToStorage keccak s k v).bytes (some v)
  clear_moves : ∀ {keccak k s o}, Separate keccak (pointsAt headers k) (k.range storageSlots) →
    (place keccak k).Holds (Store.bytes s) o → (place keccak k).Moves s.bytes (clearStorage keccak s k).bytes none
  read_eq : ∀ {keccak k s o}, (place keccak k).Holds (Store.bytes s) o → readFromStorage keccak s k = o.getD zero
  tryRead_eq : ∀ {keccak k s o}, (place keccak k).Holds (Store.bytes s) o → tryReadFromStorage keccak s k = presence o

namespace StorageCodec

variable (c : StorageCodec) {keccak : Hash} {k : Key}

theorem cells_subset :
    (c.place keccak k).cells ⊆ Store.cellsOf (ownKeys keccak (pointsAt c.headers k) (k.range c.storageSlots)) := by
  rw [c.cells_eq]
  exact fun _ h => valueKeys_subset _ _ _ _ h

/-- Before a value is written, its keys have no entry. -/
theorem holds_none_iff {s : Store} : (c.place keccak k).Holds s.bytes none ↔
    ∀ j ∈ valueKeys keccak c.headers c.storageSlots k, s.entry j = none := by
  rw [c.none_iff, c.cells_eq]
  constructor
  · exact fun h j hj => (Store.entry_eq_none_iff_bytes s j).mpr fun p => h (j, p) hj
  · rintro h ⟨j, p⟩ hj
    exact (Store.entry_eq_none_iff_bytes s j).mp (h j hj) p

/-! ### Runs -/

/-- The values that fit in memory. -/
abbrev Value : Type := {v : c.Carrier // c.Fits v}

/-- One operation: a value is written, or the storage is cleared. -/
def exec (keccak : Hash) (k : Key) (s : Store) : Option c.Value → Store
  | some v => c.writeToStorage keccak s k v.1
  | none => c.clearStorage keccak s k

/-- A run of operations at one base key. -/
def run (keccak : Hash) (k : Key) (s : Store) (ops : List (Option c.Value)) : Store := ops.foldl (c.exec keccak k) s

variable {c} (hsep : Separate keccak (pointsAt c.headers k) (k.range c.storageSlots)) {s : Store} {o : Option c.Carrier}

include hsep

theorem exec_moves (h : (c.place keccak k).Holds s.bytes o) (op : Option c.Value) :
    (c.place keccak k).Moves s.bytes (c.exec keccak k s op).bytes (op.map Subtype.val) := by
  cases op with
  | none => exact c.clear_moves hsep h
  | some v => exact c.write_moves hsep h v.2

/-- After a run, the place holds a value or none, and nothing else has changed. -/
theorem run_moves (h : (c.place keccak k).Holds s.bytes o) (ops : List (Option c.Value)) :
    ∃ o', (c.place keccak k).Moves s.bytes (c.run keccak k s ops).bytes o' := by
  induction ops generalizing s o with
  | nil => exact ⟨o, .refl h⟩
  | cons op ops ih =>
    have hop := exec_moves hsep h op
    obtain ⟨o', hrest⟩ := ih hop.holds
    exact ⟨o', hop.trans hrest⟩

omit hsep

/-- Two ways to the same value are two ways to the same storage. -/
theorem eq_of_moves {t u : Store} (ht : (c.place keccak k).Moves s.bytes t.bytes o)
    (hu : (c.place keccak k).Moves s.bytes u.bytes o) : t = u := by
  refine Store.ext_bytes fun cell => ?_
  by_cases hcell : cell ∈ (c.place keccak k).cells
  · exact (c.place keccak k).unique ht.holds hu.holds cell hcell
  · rw [ht.outside cell hcell, hu.outside cell hcell]

/-- Other keys keep their words. -/
theorem get_of_moves {t : Store} (ht : (c.place keccak k).Moves s.bytes t.bytes o) {j : Key}
    (hj : j ∉ valueKeys keccak c.headers c.storageSlots k) : t.getStorageOrZero j = s.getStorageOrZero j :=
  Store.get_eq_of_bytes fun p => ht.outside (j, p) (by rw [c.cells_eq]; exact hj)

end StorageCodec

/-! ### Static types -/

/-- A static type. -/
def StaticCodec.codec (c : StaticCodec) : StorageCodec where
  Carrier := c.Carrier
  Fits _ := True
  storageSlots := c.storageSlots
  hasDynamicBody := false
  writeToStorage _ := c.writeToStorageStatic
  clearStorage _ := c.clearStorageStatic
  readFromStorage _ := c.readFromStorageStatic
  tryReadFromStorage _ := c.tryReadFromStorageStatic
  zero := c.zero
  presence := c.presence
  headers := ∅
  place _ k := c.place k
  storageSlots_pos := c.storageSlots_pos
  storageSlots_le := c.storageSlots_le
  headers_lt _ h := absurd h (Set.notMem_empty _)
  headers_of_static _ := rfl
  cells_eq keccak k := by
    have hbodies : {j | ∃ h ∈ (∅ : Set ℕ), j ∈ (dynBodyRoot keccak (k.add h)).range maxChunks} = (∅ : Set Key) := by
      ext j
      simp
    rw [valueKeys, hbodies, Set.union_empty]
    rfl
  none_iff := by
    intro _ k x
    constructor
    · rintro h ⟨j, p⟩ ⟨i, hi, rfl⟩
      exact (h i hi p).trans (Word.getD_zero p)
    · intro h i hi p
      exact (h (k.add i, p) (Key.mem_range_add hi)).trans (Word.getD_zero p).symm
  write_moves _ _ _ := StaticCodec.write_moves _
  clear_moves _ _ := StaticCodec.clear_moves
  read_eq := StaticCodec.read_eq
  tryRead_eq := StaticCodec.tryRead_eq

/-! ### Dynamic types -/

section

variable {keccak : Hash} {k : Key}

/-- The place of a dynamic value. -/
def dynPlace (keccak : Hash) (k : Key) : Place Cell UInt8 (Option (List UInt8)) where
  cells := Store.cellsOf (dynKeys keccak k)
  Holds x o := Fits o ∧ (∀ p, x (k, p) = (headerWord o).1.getD p 0) ∧
    ∀ i < maxChunks, ∀ p, x ((dynBodyRoot keccak k).add i, p) = (bodyWord o i).1.getD p 0
  congr := by
    rintro x y o ⟨hfit, hheader, hbody⟩ heq
    refine ⟨hfit, fun p => ?_, fun i hi p => ?_⟩
    · exact (heq _ (Set.mem_insert _ _)).trans (hheader p)
    · exact (heq _ (Set.mem_insert_of_mem _ (Key.mem_range_add hi))).trans (hbody i hi p)
  unique := by
    rintro x y o ⟨-, hheader, hbody⟩ ⟨-, hheader', hbody'⟩ ⟨j, p⟩ hj
    rcases hj with rfl | ⟨i, hi, rfl⟩
    · rw [hheader, hheader']
    · rw [hbody i hi, hbody' i hi]

theorem dynPlace_holds_iff {s : Store} {o : Option (List UInt8)} :
    (dynPlace keccak k).Holds s.bytes o ↔ Fits o ∧ Holds keccak s k o := by
  constructor
  · rintro ⟨hfit, hheader, hbody⟩
    exact ⟨hfit, Store.get_eq_of_bytes hheader, fun i hi => Store.get_eq_of_bytes (hbody i hi)⟩
  · rintro ⟨hfit, hholds⟩
    refine ⟨hfit, fun p => ?_, fun i hi p => ?_⟩
    · rw [Store.bytes, hholds.header]
    · rw [Store.bytes, hholds.body i hi]

/-- A header outside its region is outside its body. -/
theorem not_mem_body {points slots : Set Key} (h : Separate keccak points slots) (hpoint : k ∈ points) (hslot : k ∈ slots) :
    k ∉ (dynBodyRoot keccak k).range maxChunks := by
  rintro ⟨i, hi, heq⟩
  exact Set.disjoint_left.mp (h.slots k hpoint) ⟨i, lt_of_lt_of_le hi maxChunks_le_span, heq⟩ hslot

theorem dynPlace_write_moves {s : Store} {o : Option (List UInt8)} (hself : k ∉ (dynBodyRoot keccak k).range maxChunks)
    (h : (dynPlace keccak k).Holds s.bytes o) {data : List UInt8} (hdata : IsSlice data) :
    (dynPlace keccak k).Moves s.bytes (writeDynamicBytes keccak s k data).bytes (some data) := by
  obtain ⟨hfit, hholds⟩ := dynPlace_holds_iff.mp h
  refine ⟨dynPlace_holds_iff.mpr ⟨fun d hd => Option.some.inj hd ▸ hdata, write_holds hholds hself hfit hdata⟩, ?_⟩
  rintro ⟨j, p⟩ hj
  rw [Store.bytes, Store.bytes, get_write_of_not_mem hholds hfit hdata hj]

theorem dynPlace_clear_moves {s : Store} {o : Option (List UInt8)} (hself : k ∉ (dynBodyRoot keccak k).range maxChunks)
    (h : (dynPlace keccak k).Holds s.bytes o) :
    (dynPlace keccak k).Moves s.bytes (clearDynamicBytes keccak s k).bytes none := by
  obtain ⟨hfit, hholds⟩ := dynPlace_holds_iff.mp h
  refine ⟨dynPlace_holds_iff.mpr ⟨fun d hd => absurd hd (by simp), clear_holds hholds hself hfit⟩, ?_⟩
  rintro ⟨j, p⟩ hj
  rw [Store.bytes, Store.bytes, get_clear_of_not_mem hholds hfit hj]

/-- No value is all zeros. -/
theorem dynPlace_none_iff {x : Cell → UInt8} :
    (dynPlace keccak k).Holds x none ↔ ∀ c ∈ (dynPlace keccak k).cells, x c = 0 := by
  constructor
  · rintro ⟨-, hheader, hbody⟩ ⟨j, p⟩ (rfl | ⟨i, hi, rfl⟩)
    · exact (hheader p).trans (Word.getD_zero p)
    · exact (hbody i hi p).trans (Word.getD_zero p)
  · intro h
    refine ⟨fun d hd => absurd hd (by simp), fun p => ?_, fun i hi p => ?_⟩
    · exact (h (k, p) (Set.mem_insert _ _)).trans (Word.getD_zero p).symm
    · exact (h _ (Set.mem_insert_of_mem _ (Key.mem_range_add hi))).trans (Word.getD_zero p).symm

end

/-! ### Text that is not UTF-8 -/

/-- How many bytes a character takes that begins with this byte: none begins with most of the others. -/
def utf8CharWidth (b : UInt8) : ℕ :=
  if b < 0x80 then 1 else if b < 0xc2 then 0 else if b < 0xe0 then 2 else if b < 0xf0 then 3 else if b < 0xf5 then 4 else 0

/-- The second bytes that may follow the first of a character of three or four bytes. -/
def isSecond (first second : UInt8) : Bool :=
  if first = 0xe0 then 0xa0 ≤ second && second ≤ 0xbf
  else if first = 0xed then 0x80 ≤ second && second ≤ 0x9f
  else if first = 0xf0 then 0x90 ≤ second && second ≤ 0xbf
  else if first = 0xf4 then 0x80 ≤ second && second ≤ 0x8f
  else 0x80 ≤ second && second ≤ 0xbf

/-- A continuation byte. -/
def isContinuation (b : UInt8) : Bool := b &&& 192 == 128

/-- What stands at the front of bytes: a character, or how long the invalid sequence is. -/
def utf8Front (first : UInt8) (rest : List UInt8) : (Char ⊕ Unit) × ℕ :=
  let at_ i := rest.getD i 0
  let low i := (at_ i).toNat % 64
  match utf8CharWidth first with
  | 1 => (.inl (.ofNat first.toNat), 1)
  | 2 =>
    if !isContinuation (at_ 0) then (.inr (), 1) else (.inl (.ofNat (first.toNat % 32 * 64 + low 0)), 2)
  | 3 =>
    if !isSecond first (at_ 0) then (.inr (), 1)
    else if !isContinuation (at_ 1) then (.inr (), 2)
    else (.inl (.ofNat ((first.toNat % 16 * 64 + low 0) * 64 + low 1)), 3)
  | 4 =>
    if !isSecond first (at_ 0) then (.inr (), 1)
    else if !isContinuation (at_ 1) then (.inr (), 2)
    else if !isContinuation (at_ 2) then (.inr (), 3)
    else (.inl (.ofNat (((first.toNat % 8 * 64 + low 0) * 64 + low 1) * 64 + low 2)), 4)
  | _ => (.inr (), 1)

/-- Each invalid sequence becomes a replacement character. -/
def lossyChars : List UInt8 → List Char
  | [] => []
  | first :: rest =>
    let front := utf8Front first rest
    front.1.elim id (fun _ => '\uFFFD') :: lossyChars (rest.drop (front.2 - 1))
termination_by bs => bs.length
decreasing_by
  rw [List.length_drop, List.length_cons]
  omega

/-- `String::from_utf8_lossy(bytes)`: the text itself, if it is valid. -/
def fromUtf8Lossy (bytes : List UInt8) : String :=
  match fromUtf8 bytes with
  | some s => s
  | none => String.ofList (lossyChars bytes)

/-! ### Types with a dynamic body -/

/-- A type with a dynamic body: what its bytes are, and what bytes that are read make. -/
structure DynType where
  Carrier : Type
  toBytes : Carrier → List UInt8
  ofBytes : List UInt8 → Carrier
  ofBytes_toBytes : ∀ v, ofBytes (toBytes v) = v

namespace DynType

/-- `Bytes`. -/
def bytes : DynType := ⟨List UInt8, id, id, fun _ => rfl⟩

/-- `String`. -/
def string : DynType where
  Carrier := String
  toBytes := asBytes
  ofBytes := fromUtf8Lossy
  ofBytes_toBytes v := by
    rw [fromUtf8Lossy, fromUtf8_asBytes]

variable (d : DynType)

/-- The value of a header that was never written. -/
def zero : d.Carrier := d.ofBytes []

/-- The implementation of `StorageEncode` and `StorageDecode`. -/
def codec : StorageCodec where
  Carrier := d.Carrier
  Fits v := IsSlice (d.toBytes v)
  storageSlots := 1
  hasDynamicBody := true
  writeToStorage keccak s k v := writeDynamicBytes keccak s k (d.toBytes v)
  clearStorage := clearDynamicBytes
  readFromStorage keccak s k := d.ofBytes (readDynamicBytes keccak s k)
  tryReadFromStorage keccak s k := (tryReadDynamicBytes keccak s k).map d.ofBytes
  zero := d.zero
  presence o := o
  headers := {0}
  place keccak k := (dynPlace keccak k).comap (Option.map d.toBytes)
  storageSlots_pos := Nat.one_pos
  storageSlots_le := one_le_maxStaticSlots
  headers_lt := by
    rintro h rfl
    exact Nat.one_pos
  headers_of_static h := absurd h (by simp)
  cells_eq keccak k := by
    have hkeys : dynKeys keccak k = valueKeys keccak {0} 1 k := by
      have hslot : k.range 1 = {k} := by
        ext j
        constructor
        · rintro ⟨i, hi, rfl⟩
          rw [Nat.lt_one_iff.mp hi, Key.add_zero]
          rfl
        · rintro rfl
          exact Key.mem_range_self Nat.one_pos
      have hbody : {j | ∃ h ∈ ({0} : Set ℕ), j ∈ (dynBodyRoot keccak (k.add h)).range maxChunks} =
          (dynBodyRoot keccak k).range maxChunks := by
        ext j
        simp
      rw [dynKeys, valueKeys, hslot, hbody]
      rfl
    exact congrArg Store.cellsOf hkeys
  none_iff := dynPlace_none_iff
  write_moves {keccak k s o v} hsep h hfit := by
    have hself := not_mem_body hsep ⟨0, rfl, (Key.add_zero k).symm⟩ (Key.mem_range_self Nat.one_pos)
    have hmoves := dynPlace_write_moves hself h hfit
    exact ⟨hmoves.holds, hmoves.outside⟩
  clear_moves {keccak k s o} hsep h := by
    have hself := not_mem_body hsep ⟨0, rfl, (Key.add_zero k).symm⟩ (Key.mem_range_self Nat.one_pos)
    have hmoves := dynPlace_clear_moves hself h
    exact ⟨hmoves.holds, hmoves.outside⟩
  read_eq {keccak k s o} h := by
    obtain ⟨hfit, hholds⟩ := dynPlace_holds_iff.mp h
    rw [read_holds hholds hfit]
    cases o with
    | none => rfl
    | some v => exact d.ofBytes_toBytes v
  tryRead_eq {keccak k s o} h := by
    obtain ⟨hfit, hholds⟩ := dynPlace_holds_iff.mp h
    rw [tryRead_holds hholds hfit]
    cases o with
    | none => rfl
    | some v => exact congrArg some (d.ofBytes_toBytes v)

end DynType

end PvmContract.Storage
