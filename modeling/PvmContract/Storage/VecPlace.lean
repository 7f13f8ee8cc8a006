import PvmContract.Storage.Vec

/-!
# A vector is a list

The place of a vector: its length at the root, and the family of all the elements that
are in use, those past the end holding their initial value, with the rest of the region
blank. So what a vector holds is a list, and growing needs no write but that of the
length.

Elements in one slot keep to their windows, elements in different slots own different
keys, and none of them owns the root. With that each operation on an element moves one
member of the family. What is left to show for each function is which member, that the
slot is blank beside it where the code relies on it, and what the length becomes.
-/

namespace PvmContract.Storage

open PvmContract.Data PvmContract.Types PvmContract.Contract

/-! ### The length -/

/-- The place of a length. -/
def headerPlace (root : Key) : Place Cell UInt8 ℕ := (Store.words root 1).comap fun n _ => lenWord n

section

variable {root : Key} {s : Store} {n : ℕ}

theorem lenWord_bytes (n : ℕ) : (lenWord n).1 = List.replicate 24 0 ++ beBytes 8 n := by
  have hlen := length_beBytes 8 n
  change (List.replicate 32 0).take 24 ++ (beBytes 8 n).take (32 - 24) ++
    (List.replicate 32 0).drop (24 + (beBytes 8 n).length) = _
  rw [hlen, List.take_replicate, List.drop_replicate, List.take_of_length_le (by rw [hlen])]
  exact List.append_nil _

theorem lenWord_zero : lenWord 0 = Word.zero := by decide

theorem getD_lenWord_zero (p : ℕ) : (lenWord 0).1.getD p 0 = 0 := by rw [lenWord_zero, Word.getD_zero]

theorem get_of_header (h : (headerPlace root).Holds s.bytes n) : s.getStorageOrZero root = lenWord n := by
  have hget := Store.words_holds_iff.mp h 0 Nat.one_pos
  rwa [Key.add_zero] at hget

theorem ofBe_lenWord (hn : n < 2 ^ 64) : ofBe ((lenWord n).1.drop 24) = n := by
  rw [lenWord_bytes, List.drop_left' List.length_replicate]
  exact ofBe_beBytes_of_lt hn

theorem all_lenWord (n : ℕ) : ((lenWord n).1.take 24).all (· == 0) = true := by
  rw [lenWord_bytes, List.take_left' List.length_replicate]
  decide

theorem readLen_eq (h : (headerPlace root).Holds s.bytes n) (hn : n < 2 ^ 64) : readLen s root = .ok n := by
  simp only [readLen, get_of_header h, all_lenWord, Bool.not_true, Bool.false_eq_true, if_false, ofBe_lenWord hn]

theorem tryReadLen_eq (h : (headerPlace root).Holds s.bytes n) (hn : n < 2 ^ 64) : tryReadLen s root = some n := by
  simp only [tryReadLen, get_of_header h, all_lenWord, Bool.not_true, Bool.false_eq_true, if_false, ofBe_lenWord hn]

theorem writeLenU64_moves (s : Store) (root : Key) (n : ℕ) :
    (headerPlace root).Moves s.bytes (writeLenU64 s root n).bytes n := by
  have h := Store.words_moves s root (fun _ => lenWord n) (n := 1) (by decide)
  exact ⟨h.holds, h.outside⟩

end

namespace StorageVec

variable {E : Component} {u : Usage E}

/-! ### Slots of elements -/

variable {keccak : Hash} {root : Key}

/-- The slots of an element are in the region of the root. -/
theorem slots_subset_region {i : ℕ} (hi : i < limit E.shape) :
    (elemKey E.shape keccak root i).range E.shape.slots ⊆ region keccak root := by
  have hlt := slotNum_lt (lt_limit_iff.mp hi)
  have hslots := E.slots_lt
  have hspan : span = 2 ^ 64 + 2 ^ 64 := by decide
  exact range_add_subset (by omega)

theorem elemKey_mem_region {i : ℕ} (hi : i < limit E.shape) : elemKey E.shape keccak root i ∈ region keccak root :=
  slots_subset_region hi (Key.mem_range_self E.shape.slots_pos)

theorem slotNum_of_elemKey {i j : ℕ} (hi : i < limit E.shape) (hj : j < limit E.shape)
    (h : elemKey E.shape keccak root i = elemKey E.shape keccak root j) : slotNum E.shape i = slotNum E.shape j := by
  have hlt := slotNum_lt (lt_limit_iff.mp hi)
  have hlt' := slotNum_lt (lt_limit_iff.mp hj)
  exact Key.add_inj (by omega) (by omega) h

/-- Elements that do not share a slot have different keys. -/
theorem ranges_disjoint {i j : ℕ} (hi : i < limit E.shape) (hj : j < limit E.shape)
    (h : slotNum E.shape i + E.shape.slots ≤ slotNum E.shape j ∨
      slotNum E.shape j + E.shape.slots ≤ slotNum E.shape i) :
    Disjoint ((elemKey E.shape keccak root i).range E.shape.slots)
      ((elemKey E.shape keccak root j).range E.shape.slots) := by
  have hlt := slotNum_lt (lt_limit_iff.mp hi)
  have hlt' := slotNum_lt (lt_limit_iff.mp hj)
  have hslots := E.slots_lt
  exact range_disjoint (by omega) (by omega) h

/-! ### The place of a vector -/

section

variable (E) (u) (keccak) (root)

/-- How many elements are in use: no more than there is room for. -/
def size : ℕ := min u.count (limit E.shape)

/-- The keys that the elements hash. -/
def elemPoints : Set Key := {p | ∃ i < size E u, p ∈ E.points keccak (u.elem i) (elemKey E.shape keccak root i)}

/-- The keys that are hashed: the root, and those of the elements. -/
def points : Set Key := insert root (elemPoints E u keccak root)

/-- The place of an element. -/
def elemPlace (i : Fin (size E u)) : Place Cell UInt8 E.Val :=
  E.place keccak (u.elem i) (elemKey E.shape keccak root i) (elementOffset E.shape i)

/-- The place of all elements, with the rest of the region kept blank. -/
def elemsPlace : Place Cell UInt8 (Fin (size E u) → E.Val) :=
  Place.family (elemPlace E u keccak root) (Store.cellsOf (region keccak root)) 0

/-- The place of the length and the elements. -/
def partsPlace : Place Cell UInt8 (ℕ × (Fin (size E u) → E.Val)) :=
  (headerPlace root).prod (elemsPlace E u keccak root)

/-- A length that the code can count to, of elements in use. -/
def Bounded (l : List E.Val) : Prop := l.length < 2 ^ 64 ∧ l.length ≤ size E u

/-- The elements past the end are initial. -/
def elems (l : List E.Val) (i : Fin (size E u)) : E.Val := l.getD i E.initial

/-- The place of a vector. -/
def place : Place Cell UInt8 (List E.Val) :=
  ((partsPlace E u keccak root).comap fun l => (l.length, elems E u l)).restrict (Bounded E u)

end

theorem size_le : size E u ≤ limit E.shape := Nat.min_le_right _ _

theorem lt_limit_of_lt_size {i : ℕ} (hi : i < size E u) : i < limit E.shape := lt_of_lt_of_le hi size_le

theorem place_moves {x y : Cell → UInt8} {l : List E.Val} (hb : Bounded E u l)
    (h : (partsPlace E u keccak root).Moves x y (l.length, elems E u l)) : (place E u keccak root).Moves x y l :=
  ⟨⟨hb, h.holds⟩, h.outside⟩

theorem root_mem_points : root ∈ points E u keccak root := Set.mem_insert _ _

theorem elemPoints_subset : elemPoints E u keccak root ⊆ points E u keccak root := Set.subset_insert _ _

theorem points_subset_elemPoints (i : Fin (size E u)) :
    E.points keccak (u.elem i) (elemKey E.shape keccak root i) ⊆ elemPoints E u keccak root := fun _ hp => ⟨i, i.2, hp⟩

theorem elem_occupies (i : Fin (size E u)) :
    Occupies keccak E.shape (elemKey E.shape keccak root i) (elementOffset E.shape i)
    (E.points keccak (u.elem i) (elemKey E.shape keccak root i)) (elemPlace E u keccak root i).cells :=
  E.occupies keccak _ _ _

/-- What belongs to an element is in the region of the root, or further down. -/
theorem owned_of_elem {i : Fin (size E u)} {k : Key}
    (h : Owned keccak (E.points keccak (u.elem i) (elemKey E.shape keccak root i))
      ((elemKey E.shape keccak root i).range E.shape.slots) k) :
    Owned keccak (elemPoints E u keccak root) (region keccak root) k :=
  h.mono (points_subset_elemPoints i) (slots_subset_region (lt_limit_of_lt_size i.2))

theorem owned_of_elems {k : Key} (h : Owned keccak (elemPoints E u keccak root) (region keccak root) k) :
    Owned keccak (points E u keccak root) (root.range 1) k :=
  h.inside elemPoints_subset fun _ hj => .body root_mem_points (.slot (Key.mem_range_self Nat.one_pos)) hj

theorem owned_of_mem_elems {c : Cell} (hc : c ∈ (elemsPlace E u keccak root).cells) :
    Owned keccak (elemPoints E u keccak root) (region keccak root) c.1 := by
  rcases hc with hc | hc
  · exact .slot hc
  · obtain ⟨i, hi⟩ := Set.mem_iUnion.mp hc
    exact owned_of_elem ((elem_occupies i).cells_owned c hi)

theorem place_occupies (offset : ℕ) : Occupies keccak ⟨32, 1, word_pos, word_le, Nat.one_pos, one_slot⟩ root offset
    (points E u keccak root) (place E u keccak root).cells where
  points_owned := by
    rintro p (rfl | ⟨i, hi, hp⟩)
    · exact .slot (Key.mem_range_self Nat.one_pos)
    · exact owned_of_elems (owned_of_elem (i := ⟨i, hi⟩) (E.occupies keccak _ _ 0 |>.points_owned p hp))
  cells_owned := by
    rintro c (hc | hc)
    · exact .slot hc
    · exact owned_of_elems (owned_of_mem_elems hc)
  window h := absurd h (lt_irrefl 32)

/-- An empty vector is all zeros. -/
theorem initial_iff {x : Cell → UInt8} :
    (place E u keccak root).Holds x [] ↔ ∀ c ∈ (place E u keccak root).cells, x c = 0 := by
  have hheader : (headerPlace root).Holds x 0 ↔ ∀ c ∈ (headerPlace root).cells, x c = 0 := by
    constructor
    · rintro h ⟨j, p⟩ ⟨i, hi, rfl⟩
      exact (h i hi p).trans (getD_lenWord_zero p)
    · intro h i hi p
      exact (h _ (Key.mem_range_add hi)).trans (getD_lenWord_zero p).symm
  have helems : (elemsPlace E u keccak root).Holds x (elems E u []) ↔
      ∀ c ∈ (elemsPlace E u keccak root).cells, x c = 0 :=
    Place.family_blank_iff fun i => E.initial_iff
  constructor
  · rintro ⟨-, hlen, hparts⟩ c (hc | hc)
    · exact hheader.mp hlen c hc
    · exact helems.mp hparts c hc
  · intro h
    exact ⟨⟨Nat.two_pow_pos 64, Nat.zero_le _⟩, hheader.mpr fun c hc => h c (.inl hc),
      helems.mpr fun c hc => h c (.inr hc)⟩

/-! ### Elements do not meet -/

section

variable (hsep : Separate keccak (points E u keccak root) (root.range 1))

include hsep

/-- What belongs to the elements is not the root. -/
theorem ne_root_of_owned {k : Key} (h : Owned keccak (elemPoints E u keccak root) (region keccak root) k) :
    k ≠ root := by
  have hroot : root ∈ root.range 1 := Key.mem_range_self Nat.one_pos
  rintro rfl
  cases h with
  | slot hk => exact hsep.not_mem_region root_mem_points hroot hk
  | body hp _ hk => exact hsep.not_mem_region (elemPoints_subset hp) hroot hk

theorem elems_separate : Separate keccak (elemPoints E u keccak root) (region keccak root) where
  regions p hp q hq := hsep.regions p (elemPoints_subset hp) q (elemPoints_subset hq)
  slots p hp := by
    obtain ⟨i, hi, hpi⟩ := hp
    have howned := owned_of_elem (i := ⟨i, hi⟩) ((E.occupies keccak _ _ 0).points_owned p hpi)
    exact hsep.regions p (elemPoints_subset ⟨i, hi, hpi⟩) root root_mem_points (ne_root_of_owned hsep howned)

theorem elem_separate (i : Fin (size E u)) :
    Separate keccak (E.points keccak (u.elem i) (elemKey E.shape keccak root i))
      ((elemKey E.shape keccak root i).range E.shape.slots) :=
  (elems_separate hsep).mono (points_subset_elemPoints i) (slots_subset_region (lt_limit_of_lt_size i.2))

/-- **Elements do not meet.** -/
theorem elems_disjoint {i j : Fin (size E u)} (hne : i ≠ j) :
    Disjoint (elemPlace E u keccak root i).cells (elemPlace E u keccak root j).cells := by
  by_cases hrange : slotNum E.shape i + E.shape.slots ≤ slotNum E.shape j ∨
      slotNum E.shape j + E.shape.slots ≤ slotNum E.shape i
  · exact (elem_occupies i).disjoint (elem_occupies j) (elems_separate hsep) (points_subset_elemPoints i)
      (points_subset_elemPoints j) (slots_subset_region (lt_limit_of_lt_size i.2))
      (slots_subset_region (lt_limit_of_lt_size j.2))
      (ranges_disjoint (lt_limit_of_lt_size i.2) (lt_limit_of_lt_size j.2) hrange)
  · have happart := elements_apart E.shape fun h => hne (Fin.ext h)
    rw [← or_assoc] at happart
    obtain ⟨narrow, hw⟩ := happart.resolve_left hrange
    exact (elem_occupies i).disjoint_of_windows (elem_occupies j) narrow narrow hw

theorem header_disjoint : Disjoint (headerPlace root).cells (elemsPlace E u keccak root).cells := by
  rw [Set.disjoint_left]
  rintro ⟨j, p⟩ ⟨i, hi, rfl⟩ hc
  refine ne_root_of_owned hsep (owned_of_mem_elems hc) ?_
  rw [Nat.lt_one_iff.mp hi, Key.add_zero]

end

end StorageVec

end PvmContract.Storage
