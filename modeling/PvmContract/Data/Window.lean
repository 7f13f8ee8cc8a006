import PvmContract.Data.Slot
import PvmContract.Data.Place
import Mathlib.Data.List.GetD

/-!
# Byte windows of words

A word is also 32 bytes, and a value that is narrower than a word is a window in
one. `copyAt` overwrites a window and `window` reads one; both are described by
the byte at each position (`getD_copyAt`, `getD_window`).

`Store.bytes` shows a store as single bytes, addressed by a key and a position.
Positions from 32 on read as zero, as everything else that is not kept. Over it
there are two kinds of places: the words at consecutive keys (`Store.words`) and
a window of one word (`Store.window`).
-/

namespace PvmContract.Data

/-! ### Words as bytes -/

namespace Word

theorem ext_getD {v w : Word} (h : ∀ p, v.1.getD p 0 = w.1.getD p 0) : v = w := by
  apply Subtype.ext
  apply List.ext_getElem (v.2.trans w.2.symm)
  intro p hp hp'
  have hget := h p
  rwa [List.getD_eq_getElem _ _ hp, List.getD_eq_getElem _ _ hp'] at hget

theorem getD_of_le (w : Word) {p : ℕ} (h : 32 ≤ p) : w.1.getD p 0 = 0 :=
  List.getD_eq_default _ _ (by rw [w.2]; exact h)

@[simp] theorem getD_zero (p : ℕ) : zero.1.getD p 0 = 0 := by
  change (List.replicate 32 (0 : UInt8)).getD p 0 = 0
  rw [List.getD_eq_getElem?_getD, List.getElem?_replicate]
  split_ifs
  · rfl
  · rfl

/-- `buf[offset..offset + bs.len()].copy_from_slice(bs)`. -/
def copyAt (buf : Word) (offset : ℕ) (bs : List UInt8) : Word :=
  ⟨buf.1.take offset ++ bs.take (32 - offset) ++ buf.1.drop (offset + bs.length), by
    rw [List.length_append, List.length_append, List.length_take, List.length_take, List.length_drop, buf.2]
    omega⟩

/-- `buf[offset..offset + n]`. -/
def window (buf : Word) (offset n : ℕ) : ByteArr n :=
  ⟨(List.range n).map fun j => buf.1.getD (offset + j) 0, by rw [List.length_map, List.length_range]⟩

theorem getD_copyAt (buf : Word) {offset : ℕ} {bs : List UInt8} (h : offset + bs.length ≤ 32) (p : ℕ) :
    (buf.copyAt offset bs).1.getD p 0 =
      if offset ≤ p ∧ p < offset + bs.length then bs.getD (p - offset) 0 else buf.1.getD p 0 := by
  have hbuf := buf.2
  have htake : (buf.1.take offset).length = offset := by
    rw [List.length_take]
    omega
  have hmid : (buf.1.take offset ++ bs).length = offset + bs.length := by
    rw [List.length_append, htake]
  change (buf.1.take offset ++ bs.take (32 - offset) ++ buf.1.drop (offset + bs.length)).getD p 0 = _
  rw [List.take_of_length_le (by omega : bs.length ≤ 32 - offset)]
  by_cases hlow : p < offset
  · rw [if_neg (by omega), List.append_assoc, List.getD_append _ _ _ _ (by omega), List.getD_eq_getElem?_getD,
      List.getElem?_take_of_lt hlow, ← List.getD_eq_getElem?_getD]
  · by_cases hin : p < offset + bs.length
    · rw [if_pos ⟨by omega, hin⟩, List.getD_append _ _ _ _ (by omega), List.getD_append_right _ _ _ _ (by omega), htake]
    · rw [if_neg (by omega), List.getD_append_right _ _ _ _ (by omega), hmid, List.getD_eq_getElem?_getD,
        List.getElem?_drop, ← List.getD_eq_getElem?_getD, Nat.add_sub_cancel' (by omega)]

theorem getD_window (buf : Word) (offset : ℕ) {n j : ℕ} (h : j < n) :
    (buf.window offset n).1.getD j 0 = buf.1.getD (offset + j) 0 := by
  change ((List.range n).map fun j => buf.1.getD (offset + j) 0).getD j 0 = _
  rw [List.getD_eq_getElem?_getD, List.getElem?_map, List.getElem?_range h]
  rfl

/-- Byte strings of one length that agree at every position. -/
theorem byteArr_ext {n : ℕ} {a b : ByteArr n} (h : ∀ j < n, a.1.getD j 0 = b.1.getD j 0) : a = b := by
  apply Subtype.ext
  apply List.ext_getElem (a.2.trans b.2.symm)
  intro j hj hj'
  have hget := h j (by rwa [a.2] at hj)
  rwa [List.getD_eq_getElem _ _ hj, List.getD_eq_getElem _ _ hj'] at hget

/-- A window that was written is read back. -/
theorem window_copyAt (buf : Word) {offset n : ℕ} (bs : ByteArr n) (h : offset + n ≤ 32) :
    (buf.copyAt offset bs.1).window offset n = bs := by
  apply byteArr_ext
  intro j hj
  have hlen := bs.2
  rw [getD_window _ _ hj, getD_copyAt _ (by omega), if_pos (by omega), Nat.add_sub_cancel_left]

/-- Several windows, each overwritten in turn. -/
def copyAll (buf : Word) (ws : List (ℕ × List UInt8)) : Word := ws.foldl (fun buf w => buf.copyAt w.1 w.2) buf

/-- Windows that do not meet. -/
def Apart (v w : ℕ × List UInt8) : Prop := v.1 + v.2.length ≤ w.1 ∨ w.1 + w.2.length ≤ v.1

/-- Bytes in none of the windows are kept. -/
theorem getD_copyAll_of_not_mem {ws : List (ℕ × List UInt8)} (hfit : ∀ w ∈ ws, w.1 + w.2.length ≤ 32) (buf : Word)
    {p : ℕ} (h : ∀ w ∈ ws, ¬ (w.1 ≤ p ∧ p < w.1 + w.2.length)) : (buf.copyAll ws).1.getD p 0 = buf.1.getD p 0 := by
  induction ws generalizing buf with
  | nil => rfl
  | cons w ws ih =>
    change ((buf.copyAt w.1 w.2).copyAll ws).1.getD p 0 = _
    rw [ih (fun u hu => hfit u (List.mem_cons_of_mem _ hu)) _ fun u hu => h u (List.mem_cons_of_mem _ hu),
      getD_copyAt _ (hfit w List.mem_cons_self), if_neg (h w List.mem_cons_self)]

/-- The bytes of each window are its own, if no two windows meet. -/
theorem getD_copyAll_of_mem {ws : List (ℕ × List UInt8)} (hfit : ∀ w ∈ ws, w.1 + w.2.length ≤ 32)
    (hapart : ws.Pairwise Apart) (buf : Word) {w : ℕ × List UInt8} (hw : w ∈ ws) {j : ℕ} (hj : j < w.2.length) :
    (buf.copyAll ws).1.getD (w.1 + j) 0 = w.2.getD j 0 := by
  induction ws generalizing buf with
  | nil => exact absurd hw (by simp)
  | cons u ws ih =>
    obtain ⟨hu, hrest⟩ := List.pairwise_cons.mp hapart
    have hfit' : ∀ x ∈ ws, x.1 + x.2.length ≤ 32 := fun x hx => hfit x (List.mem_cons_of_mem _ hx)
    change ((buf.copyAt u.1 u.2).copyAll ws).1.getD (w.1 + j) 0 = _
    rcases List.mem_cons.mp hw with rfl | hmem
    · have hout : ∀ x ∈ ws, ¬ (x.1 ≤ w.1 + j ∧ w.1 + j < x.1 + x.2.length) := by
        intro x hx
        rcases hu x hx with h | h
        · omega
        · omega
      rw [getD_copyAll_of_not_mem hfit' _ hout, getD_copyAt _ (hfit w List.mem_cons_self), if_pos (by omega),
        Nat.add_sub_cancel_left]
    · exact ih hfit' hrest _ hmem

end Word

/-! ### Stores as bytes -/

/-- The address of a byte: a key and a position in the word. -/
abbrev Cell : Type := Key × ℕ

namespace Store

/-- The bytes of a store. -/
def bytes (s : Store) (c : Cell) : UInt8 := (s.getStorageOrZero c.1).1.getD c.2 0

/-- The cells of a set of keys. -/
def cellsOf (keys : Set Key) : Set Cell := {c | c.1 ∈ keys}

/-- The cells of a window. -/
def windowCells (k : Key) (offset n : ℕ) : Set Cell := {c | c.1 = k ∧ offset ≤ c.2 ∧ c.2 < offset + n}

@[simp] theorem bytes_empty (c : Cell) : empty.bytes c = 0 := Word.getD_zero c.2

theorem bytes_set (s : Store) (k : Key) (w : Word) (c : Cell) :
    (s.setStorageOrClear k w).bytes c = if c.1 = k then w.1.getD c.2 0 else s.bytes c := by
  rw [bytes, get_set]
  split_ifs
  · rfl
  · rfl

theorem get_eq_of_bytes {s : Store} {k : Key} {w : Word} (h : ∀ p, s.bytes (k, p) = w.1.getD p 0) :
    s.getStorageOrZero k = w := Word.ext_getD h

/-- Stores with the same bytes are the same. -/
theorem ext_bytes {s t : Store} (h : ∀ c, s.bytes c = t.bytes c) : s = t :=
  ext_get fun k => get_eq_of_bytes fun p => h (k, p)

/-- A key has no entry exactly when all of its bytes are zero. -/
theorem entry_eq_none_iff_bytes (s : Store) (k : Key) : s.entry k = none ↔ ∀ p, s.bytes (k, p) = 0 := by
  rw [entry_eq_none_iff]
  constructor
  · intro h p
    rw [bytes, h, Word.getD_zero]
  · intro h
    exact get_eq_of_bytes fun p => (h p).trans (Word.getD_zero p).symm

theorem windowCells_subset {K : Set Key} {k : Key} (h : k ∈ K) (offset n : ℕ) : windowCells k offset n ⊆ cellsOf K := by
  rintro ⟨j, p⟩ ⟨rfl, -⟩
  exact h

/-! ### Words at consecutive keys -/

/-- The place of the words at `n` consecutive keys. -/
def words (k : Key) (n : ℕ) : Place Cell UInt8 (ℕ → Word) where
  cells := cellsOf (k.range n)
  Holds x f := ∀ i < n, ∀ p, x (k.add i, p) = (f i).1.getD p 0
  congr h heq i hi p := (heq _ (Key.mem_range_add hi)).trans (h i hi p)
  unique := by
    rintro x y f h h' ⟨j, p⟩ ⟨i, hi, rfl⟩
    rw [h i hi, h' i hi]

section

variable {s : Store} {k : Key} {n : ℕ} {f : ℕ → Word}

theorem words_holds_iff : (words k n).Holds s.bytes f ↔ ∀ i < n, s.getStorageOrZero (k.add i) = f i := by
  constructor
  · intro h i hi
    exact get_eq_of_bytes (h i hi)
  · intro h i hi p
    rw [bytes, h i hi]

/-- Reading what is held. -/
theorem getRange_of_holds (h : (words k n).Holds s.bytes f) : s.getRange k n = (List.range n).map f := by
  apply List.ext_getElem?
  intro i
  by_cases hi : i < n
  · rw [getElem?_getRange _ _ hi, words_holds_iff.mp h i hi, List.getElem?_map, List.getElem?_range hi, Option.map_some]
  · rw [List.getElem?_eq_none (by rw [length_getRange]; omega),
      List.getElem?_eq_none (by rw [List.length_map, List.length_range]; omega)]

/-- Writing the words one after the other. -/
theorem words_moves (s : Store) (k : Key) (f : ℕ → Word) (hn : n < 2 ^ 256) :
    (words k n).Moves s.bytes (s.setRange k ((List.range n).map f)).bytes f := by
  have hlen : ((List.range n).map f).length = n := by rw [List.length_map, List.length_range]
  constructor
  · rw [words_holds_iff]
    intro i hi
    have hget := get_setRange_add s (k := k) (by rw [hlen]; exact hn) (hlen.symm ▸ hi)
    rw [List.getElem?_map, List.getElem?_range hi, Option.map_some, Option.some.injEq] at hget
    exact hget
  · rintro ⟨j, p⟩ hj
    have hnot : j ∉ k.range ((List.range n).map f).length := by
      rw [hlen]
      exact hj
    rw [bytes, bytes, get_setRange_of_not_mem s hnot]

end

/-! ### A window of a word -/

/-- The place of a window. -/
def window (k : Key) (offset n : ℕ) : Place Cell UInt8 (ByteArr n) where
  cells := windowCells k offset n
  Holds x bs := ∀ j < n, x (k, offset + j) = bs.1.getD j 0
  congr h heq j hj := (heq _ ⟨rfl, by omega, by omega⟩).trans (h j hj)
  unique := by
    rintro x y bs h h' ⟨j, p⟩ ⟨rfl, hlow, hhigh⟩
    have hx := h (p - offset) (by omega)
    have hy := h' (p - offset) (by omega)
    rw [Nat.add_sub_cancel' hlow] at hx hy
    rw [hx, hy]

/-- Storing a word moves a window of it, if the word agrees with the old one elsewhere. -/
theorem window_moves {s : Store} {k : Key} {offset n : ℕ} {bs : ByteArr n} {w : Word}
    (hin : ∀ j < n, w.1.getD (offset + j) 0 = bs.1.getD j 0)
    (hout : ∀ p, ¬ (offset ≤ p ∧ p < offset + n) → w.1.getD p 0 = s.bytes (k, p)) :
    (window k offset n).Moves s.bytes (s.setStorageOrClear k w).bytes bs := by
  constructor
  · intro j hj
    rw [bytes_set, if_pos rfl]
    exact hin j hj
  · rintro ⟨j, p⟩ hj
    rw [bytes_set]
    by_cases hk : j = k
    · subst hk
      rw [if_pos rfl]
      exact hout p fun hp => hj ⟨rfl, hp⟩
    · rw [if_neg hk]

end Store

end PvmContract.Data
