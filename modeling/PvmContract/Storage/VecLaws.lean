import PvmContract.Storage.VecPlace

/-!
# Operations on a vector

Each function of a vector does to its place what the reference does to the list.

An operation that reaches an element moves that member of the family (`exec_related`,
`elemClear_related`). The handle may say that the element is alone in its slot: where an
element fills its slot that is always so, and where it does not the code says it of an
element only when all behind it are gone, so the rest of the slot is blank either way
(`undisturbed_of_behind`).
-/

namespace PvmContract.Storage.StorageVec

open PvmContract.Data PvmContract.Types PvmContract.Contract

variable {E : Component} {u : Usage E} {keccak : Hash} {root : Key} {s : Store}

/-! ### Lists as families -/

section

variable {l : List E.Val} {v : E.Val} {i : ℕ}

theorem elems_of_getElem? (hi : i < size E u) (h : l[i]? = some v) : elems E u l ⟨i, hi⟩ = v := by
  rw [elems, List.getD_eq_getElem?_getD, h, Option.getD_some]

theorem elems_of_le {i : Fin (size E u)} (h : l.length ≤ i.1) : elems E u l i = E.initial := by
  rw [elems, List.getD_eq_getElem?_getD, List.getElem?_eq_none h, Option.getD_none]

theorem elems_set (hi : i < size E u) (h : i < l.length) :
    elems E u (l.set i v) = Function.update (elems E u l) ⟨i, hi⟩ v := by
  funext j
  by_cases hj : j = ⟨i, hi⟩
  · subst hj
    rw [Function.update_self, elems, List.getD_eq_getElem?_getD, List.getElem?_set_self h, Option.getD_some]
  · have hne : i ≠ j.1 := fun heq => hj (Fin.ext heq.symm)
    rw [Function.update_of_ne hj, elems, elems, List.getD_eq_getElem?_getD, List.getD_eq_getElem?_getD,
      List.getElem?_set_ne hne]

theorem elems_append (h : l.length < size E u) :
    elems E u (l ++ [v]) = Function.update (elems E u l) ⟨l.length, h⟩ v := by
  funext j
  by_cases hj : j = ⟨l.length, h⟩
  · subst hj
    rw [Function.update_self, elems, List.getD_eq_getElem?_getD, List.getElem?_concat_length, Option.getD_some]
  · have hne : j.1 ≠ l.length := fun heq => hj (Fin.ext heq)
    rw [Function.update_of_ne hj, elems, elems]
    rcases Nat.lt_or_gt_of_ne hne with hlt | hgt
    · rw [List.getD_append _ _ _ _ hlt]
    · rw [List.getD_eq_default _ _ (le_of_lt hgt), List.getD_eq_default]
      rw [List.length_append, List.length_singleton]
      exact hgt

/-- To append an initial element nothing has to be written. -/
theorem elems_append_initial (h : l.length < size E u) : elems E u (l ++ [E.initial]) = elems E u l := by
  have hinitial : elems E u l ⟨l.length, h⟩ = E.initial := elems_of_le (le_refl _)
  rw [elems_append h, ← hinitial, Function.update_eq_self]

theorem elems_dropLast (hne : l ≠ []) (h : l.length - 1 < size E u) :
    elems E u l.dropLast = Function.update (elems E u l) ⟨l.length - 1, h⟩ E.initial := by
  have hpos := List.length_pos_iff.mpr hne
  funext j
  by_cases hj : j = ⟨l.length - 1, h⟩
  · subst hj
    rw [Function.update_self]
    exact elems_of_le (by rw [List.length_dropLast])
  · have hne : j.1 ≠ l.length - 1 := fun heq => hj (Fin.ext heq)
    rw [Function.update_of_ne hj]
    rcases Nat.lt_or_gt_of_ne hne with hlt | hgt
    · rw [elems, elems, List.getD_eq_getElem?_getD, List.getD_eq_getElem?_getD, List.getElem?_dropLast, if_pos hlt]
    · have hlen : l.dropLast.length = l.length - 1 := List.length_dropLast
      rw [elems_of_le (l := l.dropLast) (by omega), elems_of_le (l := l) (by omega)]

end

theorem ne_nil_of_getLast? {α : Type*} {l : List α} {v : α} (hv : l.getLast? = some v) : l ≠ [] := by
  rintro rfl
  exact absurd hv (by simp)

/-! ### Steps on the parts -/

section

variable {n : ℕ} {f : Fin (size E u) → E.Val}

/-- The rest of the slot of an element is blank, if those that share the slot are initial. -/
theorem undisturbed_of_beside {x : Cell → UInt8} (h : (elemsPlace E u keccak root).Holds x f) {i : Fin (size E u)}
    {alone : Bool} (hbeside : E.shape.packedBytes < 32 → alone = true → ∀ j ≠ i, slotNum E.shape j = slotNum E.shape i →
      f j = E.initial) : (elemAt (E := E) (elemKey E.shape keccak root i) i alone).Undisturbed x := by
  intro hnarrow halone p hp
  by_cases hin : ∃ j, (elemKey E.shape keccak root i, p) ∈ (elemPlace E u keccak root j).cells
  · obtain ⟨j, hj⟩ := hin
    obtain ⟨hkey, hwindow⟩ := (elem_occupies j).window hnarrow hj
    by_cases hij : j = i
    · subst hij
      exact absurd hwindow hp
    · have hslot := slotNum_of_elemKey (lt_limit_of_lt_size i.2) (lt_limit_of_lt_size j.2) hkey
      have hinitial := h.1 j
      rw [hbeside hnarrow halone j hij hslot.symm] at hinitial
      exact E.initial_iff.mp hinitial _ hj
  · exact h.2 _ (elemKey_mem_region (lt_limit_of_lt_size i.2)) fun j hj => hin ⟨j, hj⟩

/-- A cursor says that its element is alone where elements do not share slots. -/
theorem undisturbed_cursor {x : Cell → UInt8} (h : (elemsPlace E u keccak root).Holds x f) (i : Fin (size E u)) :
    (elemAt (E := E) (elemKey E.shape keccak root i) i (perSlot E.shape == 1)).Undisturbed x := by
  refine undisturbed_of_beside h fun hnarrow halone j hne hslot => ?_
  have hone : perSlot E.shape = 1 := beq_iff_eq.mp halone
  rw [slotNum, slotNum, if_pos hnarrow, if_pos hnarrow, hone, Nat.div_one, Nat.div_one] at hslot
  exact absurd (Fin.ext hslot) hne

/-- The code says of the last element that it is alone if it is the first one in its slot. -/
theorem undisturbed_of_behind {x : Cell → UInt8} (h : (elemsPlace E u keccak root).Holds x f) {i : Fin (size E u)}
    (hbehind : E.shape.packedBytes < 32 → ∀ j, i.1 < j.1 → f j = E.initial) :
    (elemAt (E := E) (elemKey E.shape keccak root i) i (elemAlone E.shape i)).Undisturbed x := by
  refine undisturbed_of_beside h fun hnarrow halone j hne hslot => hbehind hnarrow j ?_
  rw [elemAlone, if_pos hnarrow, beq_iff_eq] at halone
  rw [slotNum, slotNum, if_pos hnarrow, if_pos hnarrow] at hslot
  have hdi := Nat.div_add_mod i.1 (perSlot E.shape)
  have hdj := Nat.div_add_mod j.1 (perSlot E.shape)
  rw [hslot] at hdj
  have hne' : j.1 ≠ i.1 := fun heq => hne (Fin.ext heq)
  omega

variable (hsep : Separate keccak (points E u keccak root) (root.range 1))
  (h : (partsPlace E u keccak root).Holds s.bytes (n, f))

include hsep h

/-- The length is written. -/
theorem header_moves (m : ℕ) : (partsPlace E u keccak root).Moves s.bytes (writeLenU64 s root m).bytes (m, f) :=
  Place.prod_moves_left (header_disjoint hsep) h (writeLenU64_moves s root m)

/-- An element is moved. -/
theorem elem_moves {t : Store} {i : Fin (size E u)} {v : E.Val}
    (hm : (elemPlace E u keccak root i).Moves s.bytes t.bytes v) :
    (partsPlace E u keccak root).Moves s.bytes t.bytes (n, Function.update f i v) :=
  Place.prod_moves_right (header_disjoint hsep) h (Place.family_moves (fun _ _ => elems_disjoint hsep) h.2 hm)

/-- **An operation on an element.** -/
theorem elemMut_related (i : Fin (size E u)) {op : E.Op} (hlive : E.live (f i) op)
    (hwithin : E.within (u.elem i) (f i) op) :
    Related (fun a b => (partsPlace E u keccak root).Moves s.bytes a.1.bytes (n, Function.update f i b.1) ∧ a.2 = b.2)
      (elemMut keccak root s i op) (E.spec (f i) op) := by
  have hexec := E.exec_related (h := elemAt (elemKey E.shape keccak root i) i (perSlot E.shape == 1))
    (elem_separate hsep i) (h.2.1 i)
    (undisturbed_cursor h.2 i) op hlive hwithin
  rw [elemMut, elementSlot_eq (lt_limit_of_lt_size i.2)]
  exact hexec.mono fun a b hab => ⟨elem_moves hsep h hab.1, hab.2⟩

/-- **An element is cleared**, from the back where elements share slots. -/
theorem elemClear_related {i : Fin (size E u)} (hbehind : E.shape.packedBytes < 32 → ∀ j, i.1 < j.1 → f j = E.initial) :
    Related (fun t _ => (partsPlace E u keccak root).Moves s.bytes t.bytes (n, Function.update f i E.initial))
      (elemClear keccak root s E i) (E.clearSpec (f i)) := by
  have hclear := E.clear_related (h := elemAt (elemKey E.shape keccak root i) i (elemAlone E.shape i))
    (elem_separate hsep i) (h.2.1 i)
    (undisturbed_of_behind h.2 hbehind)
  rw [elemClear, elementSlot_eq (lt_limit_of_lt_size i.2)]
  exact hclear.mono fun t _ ht => elem_moves hsep h ht

end

/-! ### From the parts to the list -/

section

variable {l : List E.Val} {v : E.Val} {t : Store}

theorem append_eq (hroom : l.length + 1 < 2 ^ 64) (hlim : l.length < limit E.shape) : append l v = .ok (l ++ [v]) := by
  rw [append, if_neg (Nat.not_le.mpr hroom), if_neg (Nat.not_le.mpr (lt_limit_iff.mp hlim))]

theorem append_overflow (hroom : l.length + 1 < 2 ^ 64) (hlim : ¬ l.length < limit E.shape) :
    append l v = .error .overflow := by
  rw [append, if_neg (Nat.not_le.mpr hroom), if_pos (Nat.le_of_not_lt fun hlt => hlim (lt_limit_iff.mpr hlt))]

theorem append_oom (hroom : ¬ l.length + 1 < 2 ^ 64) : append l v = .error .oom := if_pos (Nat.le_of_not_lt hroom)

theorem set_of_parts (hb : Bounded E u l) {i : ℕ} (hi : i < l.length) {hlim : i < size E u}
    (ht : (partsPlace E u keccak root).Moves s.bytes t.bytes (l.length, Function.update (elems E u l) ⟨i, hlim⟩ v)) :
    (place E u keccak root).Moves s.bytes t.bytes (l.set i v) := by
  refine place_moves ?_ ?_
  · rw [Bounded, List.length_set]
    exact hb
  · rw [List.length_set, elems_set hlim hi]
    exact ht

variable (hsep : Separate keccak (points E u keccak root) (root.range 1))

include hsep

/-- The elements are those of a list, and its length is written. -/
theorem writeLenU64_of_parts {l' : List E.Val} {n m : ℕ} (hb : Bounded E u l') (hm : l'.length = m)
    (ht : (partsPlace E u keccak root).Moves s.bytes t.bytes (n, elems E u l')) :
    (place E u keccak root).Moves s.bytes (writeLenU64 t root m).bytes l' := by
  subst hm
  exact place_moves hb (ht.trans (header_moves hsep ht.holds l'.length))

theorem append_of_parts (hroom : l.length + 1 < 2 ^ 64) {hlim : l.length < size E u}
    (ht : (partsPlace E u keccak root).Moves s.bytes t.bytes
      (l.length, Function.update (elems E u l) ⟨l.length, hlim⟩ v)) :
    (place E u keccak root).Moves s.bytes (writeLenU64 t root (l.length + 1)).bytes (l ++ [v]) := by
  have hlen : (l ++ [v]).length = l.length + 1 := List.length_append
  rw [← elems_append hlim] at ht
  exact writeLenU64_of_parts hsep ⟨hlen.symm ▸ hroom, hlen.symm ▸ hlim⟩ hlen ht

theorem dropLast_of_parts (hb : Bounded E u l) (hne : l ≠ []) {hlim : l.length - 1 < size E u}
    (ht : (partsPlace E u keccak root).Moves s.bytes t.bytes
      (l.length, Function.update (elems E u l) ⟨l.length - 1, hlim⟩ E.initial)) :
    (place E u keccak root).Moves s.bytes (writeLenU64 t root (l.length - 1)).bytes l.dropLast := by
  have hlen : l.dropLast.length = l.length - 1 := List.length_dropLast
  obtain ⟨hlt, hle⟩ := hb
  rw [← elems_dropLast hne hlim] at ht
  exact writeLenU64_of_parts hsep ⟨by omega, by omega⟩ hlen ht

/-- The length is deleted after all elements are initial. -/
theorem nil_of_parts {n : ℕ} (ht : (partsPlace E u keccak root).Moves s.bytes t.bytes (n, fun _ => E.initial)) :
    (place E u keccak root).Moves s.bytes (t.setStorageOrClear root Word.zero).bytes [] := by
  rw [← lenWord_zero]
  exact writeLenU64_of_parts hsep ⟨Nat.two_pow_pos 64, Nat.zero_le _⟩ rfl ht

end

/-! ### Clearing all elements -/

section

variable {k : Key} {total : ℕ} {c : Cell}

theorem clearSlots_moves (s : Store) (k : Key) (h : total < 2 ^ 256) :
    (Store.words k total).Moves s.bytes (clearSlots s k total).bytes fun _ => Word.zero := by
  have hmoves := Store.words_moves s k (fun _ => Word.zero) h
  rwa [List.map_const', List.length_range, ← clearSlots_eq] at hmoves

theorem bytes_clearSlots_of_mem (s : Store) (h : total < 2 ^ 256) (hc : c.1 ∈ k.range total) :
    (clearSlots s k total).bytes c = 0 := by
  obtain ⟨j, p⟩ := c
  obtain ⟨i, hi, rfl⟩ := hc
  exact ((clearSlots_moves s k h).holds i hi p).trans (Word.getD_zero p)

theorem bytes_clearSlots_of_not_mem (s : Store) (h : total < 2 ^ 256) (hc : c.1 ∉ k.range total) :
    (clearSlots s k total).bytes c = s.bytes c := (clearSlots_moves s k h).outside c hc

end

/-- `len.div_ceil(per)` slots are not more than the elements in them. -/
theorem divCeil_le {l : List E.Val} (hpos : l.length > 0) :
    (l.length + perSlot E.shape - 1) / perSlot E.shape ≤ l.length := by
  obtain ⟨a, ha⟩ := Nat.exists_eq_add_of_le' (perSlot_pos (E := E.shape))
  obtain ⟨b, hb⟩ := Nat.exists_eq_add_of_le' hpos
  refine Nat.div_le_of_le_mul ?_
  rw [ha, hb, Nat.succ_mul_succ]
  omega

/-- And all the elements are in them. -/
theorem slot_lt_divCeil (hnarrow : E.shape.packedBytes < 32) {i len : ℕ} (hi : i < len) :
    slotNum E.shape i + E.shape.slots ≤ (len + perSlot E.shape - 1) / perSlot E.shape := by
  have hper := perSlot_pos (E := E.shape)
  have hdiv := Nat.div_add_mod (len + perSlot E.shape - 1) (perSlot E.shape)
  have hmod := Nat.mod_lt (len + perSlot E.shape - 1) hper
  rw [slotNum, if_pos hnarrow, E.shape.slots_eq_one hnarrow, Nat.succ_le_iff]
  exact Nat.div_lt_of_lt_mul (by omega)

section

variable {n : ℕ} (hsep : Separate keccak (points E u keccak root) (root.range 1))

include hsep

/-- The loop that clears one element after the other. -/
theorem elemClears_related (hfull : E.shape.packedBytes = 32) (l : List E.Val) {start : ℕ} {s : Store}
    {f : Fin (size E u) → E.Val} (h : (partsPlace E u keccak root).Holds s.bytes (n, f))
    (hf : ∀ i v, l[i]? = some v → ∃ hi : start + i < size E u, f ⟨start + i, hi⟩ = v) :
    Related (fun t _ => (partsPlace E u keccak root).Moves s.bytes t.bytes
        (n, fun j => if start ≤ j.1 ∧ j.1 < start + l.length then E.initial else f j))
      ((List.range' start l.length).foldlM (fun s i => elemClear keccak root s E i) s) (l.forM E.clearSpec) := by
  induction l generalizing start s f with
  | nil =>
    have hvalue : (fun j : Fin (size E u) => if start ≤ j.1 ∧ j.1 < start + 0 then E.initial else f j) = f := by
      funext j
      rw [if_neg (by omega)]
    refine .ok ?_
    rw [List.length_nil, hvalue]
    exact .refl h
  | cons v l ih =>
    obtain ⟨hi, hv⟩ := hf 0 v rfl
    have hcons : (v :: l).forM E.clearSpec = (E.clearSpec v >>= fun _ => l.forM E.clearSpec) := rfl
    rw [List.length_cons, List.range'_succ, List.foldlM_cons, hcons]
    have hstep := elemClear_related hsep h (i := ⟨start, hi⟩) fun hnarrow => absurd hfull (ne_of_lt hnarrow)
    have hv' : f ⟨start, hi⟩ = v := hv
    rw [hv'] at hstep
    refine hstep.bind fun t _ ht => ?_
    have hrest := @ih (start + 1) _ _ ht.holds fun i w hw => ?_
    · refine hrest.mono fun r _ hr => ?_
      have hvalue : (fun j : Fin (size E u) => if start + 1 ≤ j.1 ∧ j.1 < start + 1 + l.length then E.initial
            else Function.update f ⟨start, hi⟩ E.initial j) =
          fun j => if start ≤ j.1 ∧ j.1 < start + (l.length + 1) then E.initial else f j := by
        funext j
        by_cases hj : j = ⟨start, hi⟩
        · subst hj
          rw [Function.update_self, ite_self, if_pos ⟨le_refl _, by dsimp only; omega⟩]
        · have hne : j.1 ≠ start := fun heq => hj (Fin.ext heq)
          rw [Function.update_of_ne hj]
          by_cases hin : start + 1 ≤ j.1 ∧ j.1 < start + 1 + l.length
          · rw [if_pos hin, if_pos (by omega)]
          · rw [if_neg hin, if_neg (by omega)]
      rw [hvalue] at hr
      exact ht.trans hr
    · obtain ⟨hi', hw'⟩ := hf (i + 1) w hw
      have hidx : start + (i + 1) = start + 1 + i := by omega
      refine ⟨hidx ▸ hi', ?_⟩
      have hne : (⟨start + 1 + i, hidx ▸ hi'⟩ : Fin (size E u)) ≠ ⟨start, hi⟩ := fun heq => by
        have := congrArg Fin.val heq
        dsimp only at this
        omega
      rw [Function.update_of_ne hne, ← hw']
      congr 1
      exact Fin.ext hidx.symm

/-- The loops that delete slot by slot. -/
theorem clearSlots_elems (hflat : E.needsRecursiveClear = false) {l : List E.Val}
    (h : (partsPlace E u keccak root).Holds s.bytes (n, elems E u l)) {total : ℕ} (hle : total ≤ span)
    (hcover : ∀ i < l.length, slotNum E.shape i + E.shape.slots ≤ total) :
    (partsPlace E u keccak root).Moves s.bytes (clearSlots s (dynBodyRoot keccak root) total).bytes
      (n, fun _ => E.initial) := by
  have hfit : total < 2 ^ 256 := lt_of_le_of_lt hle (by decide)
  have hregion : (dynBodyRoot keccak root).range total ⊆ region keccak root := by
    rintro _ ⟨i, hi, rfl⟩
    exact Key.mem_range_add (lt_of_lt_of_le hi hle)
  have helem : ∀ i : Fin (size E u), i.1 < l.length → ∀ c ∈ (elemPlace E u keccak root i).cells,
      c.1 ∈ (dynBodyRoot keccak root).range total := by
    intro i hi c hc
    have howned := (elem_occupies i).cells_owned c hc
    rw [E.flat hflat] at howned
    cases howned with
    | slot hslot => exact range_add_subset (hcover i hi) hslot
    | body hp _ _ => exact absurd hp (Set.notMem_empty _)
  have hzero : ∀ i : Fin (size E u), ∀ c ∈ (elemPlace E u keccak root i).cells,
      (clearSlots s (dynBodyRoot keccak root) total).bytes c = 0 := by
    intro i c hc
    by_cases hin : c.1 ∈ (dynBodyRoot keccak root).range total
    · exact bytes_clearSlots_of_mem s hfit hin
    · rw [bytes_clearSlots_of_not_mem s hfit hin]
      have hlen : l.length ≤ i.1 := Nat.le_of_not_lt fun hi => hin (helem i hi c hc)
      have hinitial : (elemPlace E u keccak root i).Holds s.bytes (elems E u l i) := h.2.1 i
      rw [elems_of_le hlen] at hinitial
      exact E.initial_iff.mp hinitial c hc
  refine ⟨⟨(headerPlace root).congr h.1 fun c hc => ?_, fun i => E.initial_iff.mpr (hzero i), fun c hc hout => ?_⟩,
    fun c hc => ?_⟩
  · refine bytes_clearSlots_of_not_mem s hfit fun hin => ?_
    exact Set.disjoint_left.mp (header_disjoint hsep) hc (.inl (hregion hin))
  · by_cases hin : c.1 ∈ (dynBodyRoot keccak root).range total
    · exact bytes_clearSlots_of_mem s hfit hin
    · rw [bytes_clearSlots_of_not_mem s hfit hin]
      exact h.2.2 c hc hout
  · exact bytes_clearSlots_of_not_mem s hfit fun hin => hc (.inr (.inl (hregion hin)))

end

/-! ### The operations -/

section

variable {l : List E.Val} (h : (place E u keccak root).Holds s.bytes l)

include h

theorem len_eq : len root s = .ok l.length := readLen_eq h.2.1 h.1.1

theorem checkedLen_eq : checkedLen root s = some l.length := tryReadLen_eq h.2.1 h.1.1

/-- Every index in the list is that of an element in use. -/
theorem lt_size {i : ℕ} (hi : i < l.length) : i < size E u := lt_of_lt_of_le hi h.1.2

/-- And one that the code can reach. -/
theorem lt_limit {i : ℕ} (hi : i < l.length) : i < limit E.shape := lt_limit_of_lt_size (lt_size h hi)

theorem entry_eq (i : ℕ) :
    entry keccak root s E i = if i < l.length then .ok () else .error .outOfBoundsAccess := by
  by_cases hi : i < l.length
  · simp only [entry, len_eq h, bind, Except.bind, pure, Except.pure, ge_iff_le, Nat.not_le.mpr hi, if_false,
      elementSlot_eq (lt_limit h hi), hi, if_true]
  · simp only [entry, len_eq h, bind, Except.bind, ge_iff_le, Nat.le_of_not_lt hi, if_true, hi, if_false]

variable (hsep : Separate keccak (points E u keccak root) (root.range 1))

include hsep

/-- **A write through a cursor.** -/
theorem cursor_related {i : ℕ} {v : E.Val} (hv : l[i]? = some v) {op : E.Op} (hlive : E.live v op)
    (hwithin : E.within (u.elem i) v op) :
    Related (fun a b => (place E u keccak root).Moves s.bytes a.1.bytes (l.set i b.1) ∧ a.2 = b.2)
      (elemMut keccak root s i op) (E.spec v op) := by
  have hi : i < l.length := (List.getElem?_eq_some_iff.mp hv).1
  have hlim := lt_size h hi
  have hfv : elems E u l ⟨i, hlim⟩ = v := elems_of_getElem? hlim hv
  have hlive' : E.live (elems E u l ⟨i, hlim⟩) op := hfv.symm ▸ hlive
  have hwithin' : E.within (u.elem i) (elems E u l ⟨i, hlim⟩) op := hfv.symm ▸ hwithin
  have hmut := elemMut_related hsep h.2 ⟨i, hlim⟩ hlive' hwithin'
  rw [hfv] at hmut
  exact hmut.mono fun a b hab => ⟨set_of_parts h.1 hi hab.1, hab.2⟩

/-- **`grow`.** -/
theorem grow_related (hnext : u.HasNext l) : Related (fun t l' => (place E u keccak root).Moves s.bytes t.bytes l')
    (grow keccak root s E) (append l E.initial) := by
  by_cases hroom : l.length + 1 < 2 ^ 64
  · by_cases hlim : l.length < limit E.shape
    · have hsize : l.length < size E u := Nat.lt_min.mpr ⟨hnext hlim, hlim⟩
      have hcode : grow keccak root s E = .ok (writeLenU64 s root (l.length + 1)) := by
        simp only [grow, len_eq h, bind, Except.bind, pure, Except.pure, hroom, if_true, elementSlot_eq hlim]
      have hself : (partsPlace E u keccak root).Holds s.bytes
          (l.length, Function.update (elems E u l) ⟨l.length, hsize⟩ E.initial) := by
        rw [← elems_append hsize, elems_append_initial hsize]
        exact h.2
      rw [append_eq hroom hlim, hcode]
      exact .ok (append_of_parts hsep hroom (.refl hself))
    · have hcode : grow keccak root s E = .error .overflow := by
        simp only [grow, len_eq h, bind, Except.bind, hroom, if_true, elementSlot_overflow h.1.1 hlim]
      rw [append_overflow hroom hlim, hcode]
      exact .error _
  · have hcode : grow keccak root s E = .error .oom := by
      simp only [grow, len_eq h, bind, Except.bind, hroom, if_false]
    rw [append_oom hroom, hcode]
    exact .error _

/-- **`erase_last`.** -/
theorem eraseLast_related {v : E.Val} (hv : l.getLast? = some v) :
    Related (fun a _ => (place E u keccak root).Moves s.bytes a.1.bytes l.dropLast ∧ a.2 = true)
      (eraseLast keccak root s E) (E.clearSpec v) := by
  have hne : l ≠ [] := ne_nil_of_getLast? hv
  have hpos := List.length_pos_iff.mpr hne
  have hlim : l.length - 1 < size E u := lt_size h (by omega)
  have hfv : elems E u l ⟨l.length - 1, hlim⟩ = v := by
    rw [List.getLast?_eq_getElem?] at hv
    exact elems_of_getElem? hlim hv
  have hclear := elemClear_related hsep h.2 (i := ⟨l.length - 1, hlim⟩) fun _ j hj =>
    elems_of_le (by dsimp only at hj; omega)
  have hcode : eraseLast keccak root s E =
      (elemClear keccak root s E (l.length - 1) >>= fun t => .ok (writeLenU64 t root (l.length - 1), true)) := by
    simp only [eraseLast, len_eq h, bind, Except.bind, pure, Except.pure, (Nat.pos_iff_ne_zero.mp hpos), if_false]
  rw [hfv] at hclear
  rw [hcode]
  exact hclear.bind_left fun t _ ht => ⟨dropLast_of_parts hsep h.1 hne ht, rfl⟩

/-- Whichever way the elements are cleared, they are initial. -/
theorem clearElems_related :
    Related (fun t _ => (partsPlace E u keccak root).Moves s.bytes t.bytes (l.length, fun _ => E.initial))
      (clearElems keccak root s E l.length) (clearSpec l) := by
  rw [clearElems]
  by_cases hpos : l.length > 0
  · rw [if_pos hpos]
    cases hrec : E.needsRecursiveClear with
    | true =>
      have helems : ∀ i v, l[i]? = some v → ∃ hi : 0 + i < size E u, elems E u l ⟨0 + i, hi⟩ = v := by
        intro i v hv
        have hi := (List.getElem?_eq_some_iff.mp hv).1
        have hlim : 0 + i < size E u := by
          rw [Nat.zero_add]
          exact lt_size h hi
        refine ⟨hlim, ?_⟩
        simp only [Nat.zero_add]
        exact elems_of_getElem? _ hv
      have hclears := elemClears_related hsep (E.recursive_full hrec) l h.2 helems
      rw [if_pos rfl, clearSpec, hrec, if_pos rfl, List.range_eq_range']
      refine hclears.mono fun t _ ht => ?_
      have hvalue : (fun j : Fin (size E u) => if 0 ≤ j.1 ∧ j.1 < 0 + l.length then E.initial else elems E u l j) =
          fun _ => E.initial := by
        funext j
        by_cases hj : j.1 < l.length
        · rw [if_pos (by omega)]
        · rw [if_neg (by omega), elems_of_le (Nat.le_of_not_lt hj)]
      rw [hvalue] at ht
      exact ht
    | false =>
      have hspan : span = 2 ^ 64 + 2 ^ 64 := by decide
      have hlen := h.1.1
      rw [if_neg Bool.false_ne_true, clearSpec, hrec, if_neg Bool.false_ne_true]
      by_cases hnarrow : E.shape.packedBytes < 32
      · have hle := divCeil_le (l := l) hpos
        rw [if_pos hnarrow, E.shape.slots_eq_one hnarrow, Nat.mul_one, if_neg (by omega)]
        exact .ok (clearSlots_elems hsep hrec h.2 (by omega) fun i hi => slot_lt_divCeil hnarrow hi)
      · rw [if_neg hnarrow]
        by_cases hroom : l.length * E.shape.slots < 2 ^ 64
        · rw [if_pos hroom, if_neg (by omega)]
          refine .ok (clearSlots_elems hsep hrec h.2 (by omega) fun i hi => ?_)
          rw [slotNum, if_neg hnarrow, ← Nat.succ_mul]
          exact Nat.mul_le_mul_right _ hi
        · rw [if_neg hroom, if_pos (by omega)]
          exact .error _
  · -- Nothing is cleared, and nothing has to be.
    have hnil : l = [] := List.eq_nil_of_length_eq_zero (by omega)
    subst hnil
    have hspec : clearSpec (E := E) [] = .ok () := by
      rw [clearSpec]
      cases E.needsRecursiveClear with
      | true => rfl
      | false => rw [if_neg Bool.false_ne_true, List.length_nil, Nat.zero_mul, if_neg (by decide)]
    rw [if_neg hpos, hspec]
    exact .ok (.refl h.2)

/-- **`clear`.** -/
theorem clear_related : Related (fun t _ => (place E u keccak root).Moves s.bytes t.bytes []) (clear keccak root s E)
    (clearSpec l) := by
  have hcode : clear keccak root s E =
      (clearElems keccak root s E l.length >>= fun t => .ok (t.setStorageOrClear root Word.zero)) := by
    simp only [clear, len_eq h, bind, Except.bind, pure, Except.pure]
  rw [hcode]
  exact (clearElems_related h hsep).bind_left fun t _ ht => nil_of_parts hsep ht

end

/-! ### Questions -/

section

variable {l : List E.Val} (h : (place E u keccak root).Holds s.bytes l)

include h

theorem askElem_eq {i : ℕ} {v : E.Val} (hv : l[i]? = some v) (q : E.Query) :
    askElem keccak root s i q = E.answer v q := by
  have hlim := lt_size h (List.getElem?_eq_some_iff.mp hv).1
  have hholds := h.2.2.1 ⟨i, hlim⟩
  have hask := E.ask_eq (h := elemAt (elemKey E.shape keccak root i) i false) hholds q
  rw [askElem, elementSlot_eq (lt_limit_of_lt_size hlim), ← elems_of_getElem? hlim hv]
  exact hask

theorem get_eq (i : ℕ) (q : E.Query) : get keccak root s i q =
    match l[i]? with
    | none => .error .outOfBoundsAccess
    | some v => E.answer v q := by
  simp only [get, len_eq h, bind, Except.bind]
  cases hv : l[i]? with
  | none => rw [if_pos (List.getElem?_eq_none_iff.mp hv)]
  | some v =>
    rw [if_neg (Nat.not_le.mpr (List.getElem?_eq_some_iff.mp hv).1)]
    exact askElem_eq h hv q

theorem tryGet_eq (i : ℕ) (q : E.Query) : tryGet keccak root s i q =
    match l[i]? with
    | none => .ok none
    | some v => some <$> E.answer v q := by
  simp only [tryGet, checkedLen_eq h]
  cases hv : l[i]? with
  | none => rw [if_pos (List.getElem?_eq_none_iff.mp hv)]
  | some v => rw [if_neg (Nat.not_le.mpr (List.getElem?_eq_some_iff.mp hv).1), askElem_eq h hv]

theorem last_eq (q : E.Query) : last keccak root s q =
    match l.getLast? with
    | none => .ok none
    | some v => some <$> E.answer v q := by
  simp only [last, checkedLen_eq h]
  cases hv : l.getLast? with
  | none => rw [if_pos (by rw [List.getLast?_eq_none_iff.mp hv, List.length_nil])]
  | some v =>
    have hpos := List.length_pos_iff.mpr (ne_nil_of_getLast? hv)
    rw [List.getLast?_eq_getElem?] at hv
    rw [if_neg (Nat.pos_iff_ne_zero.mp hpos), askElem_eq h hv]

theorem isEmpty_eq : isEmpty root s = l.isEmpty := by
  rw [isEmpty, checkedLen_eq h]
  cases l with
  | nil => rfl
  | cons v l => rfl

/-- **Iterating.** What is left of the list is what is between the two positions. -/
theorem items_eq {n : ℕ} (hn : n ≤ l.length) (pos : ℕ) (steps : List (IterStep E.Query)) :
    (⟨pos, n⟩ : Iter).items keccak root s steps = items ((l.take n).drop pos) steps := by
  induction steps generalizing pos n with
  | nil => rfl
  | cons step steps ih =>
    by_cases hpos : pos ≥ n
    · -- Nothing is left, whichever end is asked for.
      have hnil : (l.take n).drop pos = [] := by
        rw [List.drop_eq_nil_iff, List.length_take]
        omega
      have hrest := ih hn pos
      rw [hnil] at hrest ⊢
      cases step with
      | next q =>
        simp only [Iter.items, Iter.advance, hpos, if_true, items, bind, Except.bind, pure, Except.pure, hrest]
        rfl
      | nextBack q =>
        simp only [Iter.items, Iter.advance, hpos, if_true, items, bind, Except.bind, pure, Except.pure, hrest,
          List.getLast?_nil]
        rfl
    · have hlt : pos < n := Nat.lt_of_not_le hpos
      cases step with
      | next q =>
        have hget : l[pos]? = some (l.get ⟨pos, by omega⟩) := List.getElem?_eq_getElem _
        have hcons : (l.take n).drop pos = l.get ⟨pos, by omega⟩ :: (l.take n).drop (pos + 1) := by
          rw [List.drop_eq_getElem_cons (by rw [List.length_take]; omega), List.getElem_take]
          rfl
        rw [hcons]
        simp only [Iter.items, Iter.advance, hpos, if_false, items, askElem_eq h hget, ih hn, bind, Except.bind, pure,
          Except.pure]
        cases E.answer (l.get ⟨pos, by omega⟩) q with
        | error e => rfl
        | ok a => rfl
      | nextBack q =>
        have hget : l[n - 1]? = some (l.get ⟨n - 1, by omega⟩) := List.getElem?_eq_getElem _
        have hlast : ((l.take n).drop pos).getLast? = some (l.get ⟨n - 1, by omega⟩) := by
          rw [List.getLast?_drop, if_neg (by rw [List.length_take]; omega), List.getLast?_eq_getElem?, List.length_take,
            Nat.min_eq_left hn, List.getElem?_take_of_lt (by omega), hget]
        have hdrop : ((l.take n).drop pos).dropLast = (l.take (n - 1)).drop pos := by
          rw [List.dropLast_eq_take, List.length_drop, List.length_take, Nat.min_eq_left hn, List.take_drop,
            List.take_take]
          congr 2
          omega
        simp only [Iter.items, Iter.advance, hpos, if_false, items, hlast, hdrop, askElem_eq h hget,
          ih (Nat.le_trans (Nat.sub_le n 1) hn), bind, Except.bind, pure, Except.pure]
        cases E.answer (l.get ⟨n - 1, by omega⟩) q with
        | error e => rfl
        | ok a => rfl

/-- **A question to a vector is one to the list.** -/
theorem ask_eq (q : Ask E.Query) : ask keccak root s q = answer l q := by
  cases q with
  | len =>
    rw [ask, len_eq h]
    rfl
  | isEmpty => rw [ask, isEmpty_eq h, answer]
  | get index q =>
    rw [ask, get_eq h, answer]
    cases l[index.1]? with
    | none => rfl
    | some v => rfl
  | tryGet index q =>
    rw [ask, tryGet_eq h, answer]
    cases l[index.1]? with
    | none => rfl
    | some v =>
      dsimp only
      cases E.answer v q with
      | error e => rfl
      | ok a => rfl
  | first q =>
    rw [ask, first, tryGet_eq h, answer, List.head?_eq_getElem?]
    cases l[0]? with
    | none => rfl
    | some v =>
      dsimp only
      cases E.answer v q with
      | error e => rfl
      | ok a => rfl
  | last q =>
    rw [ask, last_eq h, answer]
    cases l.getLast? with
    | none => rfl
    | some v =>
      dsimp only
      cases E.answer v q with
      | error e => rfl
      | ok a => rfl
  | iter steps =>
    have hiter : iter root s = ⟨0, l.length⟩ := by
      rw [iter, checkedLen_eq h]
      rfl
    rw [ask, hiter, items_eq h (le_refl _), List.take_length, List.drop_zero, answer]

end

/-! ### Vectors of values -/

section

variable {T : LeafType} {u : Usage (.leaf T)} (hsep : Separate keccak (points (.leaf T) u keccak root) (root.range 1))

include hsep

/-- A value is written at an element. -/
theorem writeValueAt_moves {n : ℕ} {f : Fin (size (.leaf T) u) → (Component.leaf T).Val}
    (h : (partsPlace (.leaf T) u keccak root).Holds s.bytes (n, f)) (i : Fin (size (.leaf T) u)) (value : T.Value) :
    ∃ t, writeValueAt keccak root s i value.1 = .ok t ∧
      (partsPlace (.leaf T) u keccak root).Moves s.bytes t.bytes (n, Function.update f i (LeafType.held value.1)) := by
  have hset := LeafType.writeValue_moves (h := elemAt (E := .leaf T) (elemKey (Component.leaf T).shape keccak root i) i
    (perSlot (Component.leaf T).shape == 1)) (elem_separate hsep i) (h.2.1 i) (undisturbed_cursor h.2 i) value
  refine ⟨_, ?_, elem_moves hsep h hset⟩
  rw [writeValueAt, elementSlot_eq (lt_limit_of_lt_size i.2)]
  rfl

variable {l : List (Component.leaf T).Val} (h : (place (.leaf T) u keccak root).Holds s.bytes l)

include h

/-- **`push`.** -/
theorem push_related (hnext : u.HasNext l) (value : T.Value) :
    Related (fun t l' => (place (.leaf T) u keccak root).Moves s.bytes t.bytes l') (push keccak root s value.1)
      (append l (LeafType.held value.1)) := by
  by_cases hroom : l.length + 1 < 2 ^ 64
  · by_cases hlim : l.length < limit (Component.leaf T).shape
    · have hsize : l.length < size (.leaf T) u := Nat.lt_min.mpr ⟨hnext hlim, hlim⟩
      obtain ⟨t, ht, hmoves⟩ := writeValueAt_moves hsep h.2 ⟨l.length, hsize⟩ value
      have hcode : push keccak root s value.1 = .ok (writeLenU64 t root (l.length + 1)) := by
        simp only [push, len_eq h, bind, Except.bind, pure, Except.pure, hroom, if_true, ht]
      rw [append_eq hroom hlim, hcode]
      exact .ok (append_of_parts hsep hroom hmoves)
    · have hcode : push keccak root s value.1 = .error .overflow := by
        simp only [push, writeValueAt, len_eq h, bind, Except.bind, hroom, if_true, elementSlot_overflow h.1.1 hlim]
      rw [append_overflow hroom hlim, hcode]
      exact .error _
  · have hcode : push keccak root s value.1 = .error .oom := by
      simp only [push, len_eq h, bind, Except.bind, hroom, if_false]
    rw [append_oom hroom, hcode]
    exact .error _

/-- **`set`.** -/
theorem set_moves {i : ℕ} (hi : i < l.length) (value : T.Value) : ∃ t, set keccak root s i value.1 = .ok t ∧
    (place (.leaf T) u keccak root).Moves s.bytes t.bytes (l.set i (LeafType.held value.1)) := by
  obtain ⟨t, ht, hmoves⟩ := writeValueAt_moves hsep h.2 ⟨i, lt_size h hi⟩ value
  refine ⟨t, ?_, set_of_parts h.1 hi hmoves⟩
  simp only [set, len_eq h, bind, Except.bind, ge_iff_le, Nat.not_le.mpr hi, if_false, ht]

/-- **`pop`.** -/
theorem pop_moves {v : (Component.leaf T).Val} (hv : l.getLast? = some v) :
    ∃ t, pop keccak root s T = .ok (t, some (Option.getD v T.zero)) ∧
      (place (.leaf T) u keccak root).Moves s.bytes t.bytes l.dropLast := by
  have hne : l ≠ [] := ne_nil_of_getLast? hv
  have hpos := List.length_pos_iff.mpr hne
  have hlim : l.length - 1 < size (.leaf T) u := lt_size h (by omega)
  have hfv : elems (.leaf T) u l ⟨l.length - 1, hlim⟩ = v := by
    rw [List.getLast?_eq_getElem?] at hv
    exact elems_of_getElem? hlim hv
  have hu := undisturbed_of_behind h.2.2 (i := ⟨l.length - 1, hlim⟩) fun _ j hj =>
    elems_of_le (by dsimp only at hj; omega)
  obtain ⟨hclear, hvalue⟩ := LeafType.take_moves
    (h := elemAt (E := .leaf T) (elemKey (Component.leaf T).shape keccak root (l.length - 1))
    (l.length - 1) (elemAlone (Component.leaf T).shape (l.length - 1))) (elem_separate hsep ⟨l.length - 1, hlim⟩)
    (h.2.2.1 ⟨l.length - 1, hlim⟩) hu
  refine ⟨_, ?_, dropLast_of_parts hsep h.1 hne (elem_moves hsep h.2 (i := ⟨l.length - 1, hlim⟩) hclear)⟩
  rw [← hfv]
  simp only [pop, len_eq h, bind, Except.bind, pure, Except.pure, Nat.pos_iff_ne_zero.mp hpos, if_false,
    elementSlot_eq (lt_limit_of_lt_size hlim)]
  exact congrArg (fun v => Except.ok (_, some v)) hvalue

end

end PvmContract.Storage.StorageVec
