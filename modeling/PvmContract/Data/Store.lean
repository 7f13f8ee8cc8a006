import PvmContract.Data.Bytes

/-!
# Word storage

A store of 32-byte words at 32-byte keys, as the two host functions
`set_storage_or_clear` and `get_storage_or_zero` present it: a zero word is never
kept, writing one deletes the entry, and reading an absent entry gives the zero
word. So a store is known from what it reads (`Store.ext_get`), and an entry is
absent exactly when it reads as zero (`Store.entry_eq_none_iff`).
-/

namespace PvmContract.Data

/-- A storage key. -/
abbrev Key : Type := ByteArr 32

/-- A storage word. -/
abbrev Word : Type := ByteArr 32

/-- The zero word. -/
def Word.zero : Word := ⟨List.replicate 32 0, List.length_replicate⟩

theorem ofBe_eq_zero_iff (bs : List UInt8) : ofBe bs = 0 ↔ ∀ b ∈ bs, b = 0 := by
  induction bs using List.reverseRecOn with
  | nil => simp
  | append_singleton bs b ih =>
    rw [ofBe_snoc]
    constructor
    · intro h c hc
      rcases List.mem_append.mp hc with hc | hc
      · exact ih.mp (by omega) c hc
      · rw [List.mem_singleton.mp hc]
        exact UInt8.toNat_inj.mp (show b.toNat = 0 by omega)
    · intro h
      have hbs := ih.mpr fun c hc => h c (List.mem_append_left _ hc)
      have hb := h b (List.mem_append_right _ List.mem_cons_self)
      rw [hbs, hb]
      rfl

theorem Word.eq_zero_iff (w : Word) : w = Word.zero ↔ ∀ b ∈ w.1, b = 0 := by
  constructor
  · rintro rfl b hb
    exact List.eq_of_mem_replicate hb
  · intro h
    apply Subtype.ext
    rw [List.eq_replicate_of_mem h, w.2]
    rfl

/-- A store: its entries are nonzero words. -/
structure Store where
  /-- The word kept at a key, if any. -/
  entry : Key → Option Word
  /-- Zero words are not kept. -/
  entry_ne_zero : ∀ k, entry k ≠ some Word.zero

namespace Store

/-- The store with no entry. -/
def empty : Store := ⟨fun _ => none, fun _ => by simp⟩

/-- `get_storage_or_zero`. -/
def getStorageOrZero (s : Store) (k : Key) : Word := (s.entry k).getD Word.zero

/-- `set_storage_or_clear`. -/
def setStorageOrClear (s : Store) (k : Key) (v : Word) : Store where
  entry j := if j = k then (if v = Word.zero then none else some v) else s.entry j
  entry_ne_zero j := by
    by_cases h : j = k
    · by_cases hv : v = Word.zero
      · simp [h, hv]
      · simp [h, hv]
    · simp only [h, if_false]
      exact s.entry_ne_zero j

@[simp] theorem get_empty (k : Key) : empty.getStorageOrZero k = Word.zero := rfl

theorem get_set (s : Store) (k j : Key) (v : Word) :
    (s.setStorageOrClear k v).getStorageOrZero j = if j = k then v else s.getStorageOrZero j := by
  by_cases h : j = k
  · by_cases hv : v = Word.zero
    · simp [getStorageOrZero, setStorageOrClear, h, hv]
    · simp [getStorageOrZero, setStorageOrClear, h, hv]
  · simp [getStorageOrZero, setStorageOrClear, h]

@[simp] theorem get_set_self (s : Store) (k : Key) (v : Word) :
    (s.setStorageOrClear k v).getStorageOrZero k = v := by
  rw [get_set, if_pos rfl]

theorem get_set_of_ne (s : Store) {k j : Key} (v : Word) (h : j ≠ k) :
    (s.setStorageOrClear k v).getStorageOrZero j = s.getStorageOrZero j := by
  rw [get_set, if_neg h]

theorem entry_eq_none_iff (s : Store) (k : Key) : s.entry k = none ↔ s.getStorageOrZero k = Word.zero := by
  rw [getStorageOrZero]
  cases h : s.entry k with
  | none => simp
  | some v =>
    have hv : v ≠ Word.zero := fun heq => s.entry_ne_zero k (heq ▸ h)
    simp [hv]

/-- A store is what it reads. -/
theorem ext_get {s t : Store} (h : ∀ k, s.getStorageOrZero k = t.getStorageOrZero k) : s = t := by
  have hentry : s.entry = t.entry := by
    funext k
    cases hs : s.entry k with
    | none =>
      have ht : t.entry k = none := by
        rw [entry_eq_none_iff, ← h k, ← entry_eq_none_iff, hs]
      exact ht.symm
    | some v =>
      cases ht : t.entry k with
      | none =>
        have hs' : s.entry k = none := by
          rw [entry_eq_none_iff, h k, ← entry_eq_none_iff, ht]
        rw [hs] at hs'
        exact absurd hs' (by simp)
      | some w =>
        have hk := h k
        rw [getStorageOrZero, getStorageOrZero, hs, ht] at hk
        exact congrArg some hk
  cases s
  cases t
  cases hentry
  rfl

end Store

end PvmContract.Data
