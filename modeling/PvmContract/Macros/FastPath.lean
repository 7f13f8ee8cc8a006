import Mathlib.Data.Bool.Count
import PvmContract.Macros.StaticDecode

/-!
# The fast path and its sizes

`StaticDecode` promises that `ENCODED_SIZE` bytes are all that `decode_unchecked`
looks at. The unit type breaks the promise: its `ENCODED_SIZE` is 0, while its
`HEAD_SIZE`, by which the next position is computed, is left at 32. In a tuple or
an array the sizes then differ. In a derived struct they do not, since all of them
are folded from syntax, where a unit counts nothing; but the positions of its
fields are computed by `HEAD_SIZE`, and a value behind a unit is read further on
than the struct's slot reaches. Whether this leaves the bytes of the whole type
depends on what follows the struct in it.
-/

namespace PvmContract.Macros

open Data Run PvmContract.Types

namespace Ty

/-! ### Units -/

mutual

/-- The words that the decoders of a type pass over: true for one that holds a value, false for
that of a unit. -/
def marks : Ty → List Bool
  | unit => [false]
  | array elem n => (List.replicate n (marks elem)).flatten
  | tuple elems => marksAll elems
  | struct _ fields => marksAll fields
  | _ => [true]

/-- The words of a sequence. -/
def marksAll : List Ty → List Bool
  | [] => []
  | t :: ts => marks t ++ marksAll ts

end

/-- The units that have a value behind them. -/
def unitsBefore : List Bool → ℕ
  | [] => 0
  | m :: ms => if ms.contains true then (if m then 0 else 1) + unitsBefore ms else 0

mutual

/-- No unit in the type, except in a derived struct or in an empty array. -/
def unitFree : Ty → Bool
  | unit => false
  | array elem n => n == 0 || unitFree elem
  | tuple elems => unitsFree elems
  | _ => true

/-- `unitFree` of each type of a list. -/
def unitsFree : List Ty → Bool
  | [] => true
  | t :: ts => unitFree t && unitsFree ts

end

mutual

/-- By how many bytes the units in derived structs push values out of the slot of a type. -/
def overrun : Ty → ℕ
  | array elem n => if n = 0 then 0 else overrun elem
  | tuple elems => overruns elems
  | struct _ fields => 32 * unitsBefore (marksAll fields)
  | _ => 0

/-- The overrun of a sequence: the slots behind a type make up for its own. -/
def overruns : List Ty → ℕ
  | [] => 0
  | t :: ts => max (overrun t - tupleHeadSize (impls ts)) (overruns ts)

end

theorem unitsBefore_le (ms : List Bool) : unitsBefore ms ≤ ms.count false := by
  induction ms with
  | nil => exact le_refl _
  | cons m ms ih =>
    rw [unitsBefore, List.count_cons]
    cases m <;> split_ifs <;> simp_all
    omega

theorem unitsBefore_of_units {ms : List Bool} (h : ms.contains true = false) : unitsBefore ms = 0 := by
  cases ms with
  | nil => rfl
  | cons m ms =>
    have hms := (Bool.or_eq_false_iff.mp (List.contains_cons.symm.trans h)).2
    rw [unitsBefore, hms, if_neg Bool.false_ne_true]

theorem unitsBefore_append (ms ms' : List Bool) :
    unitsBefore (ms ++ ms') = if ms'.contains true then ms.count false + unitsBefore ms' else unitsBefore ms := by
  induction ms with
  | nil =>
    cases h : ms'.contains true with
    | true => simp
    | false => rw [List.nil_append, unitsBefore_of_units h]; rfl
  | cons m ms ih =>
    rw [List.cons_append, unitsBefore, ih, unitsBefore, List.count_cons, List.contains_append]
    cases h : ms'.contains true <;> cases h' : ms.contains true <;> cases m <;> simp <;> omega

/-- The values of a sequence of words reach this far. -/
def wordsReach (ms : List Bool) : ℕ := if ms.contains true then ms.count true + unitsBefore ms else 0

theorem count_true_pos {ms : List Bool} (h : ms.contains true = true) : 0 < ms.count true :=
  List.count_pos_iff.mpr (List.contains_iff_mem.mp h)

theorem wordsReach_append (ms ms' : List Bool) :
    wordsReach (ms ++ ms') =
      max (wordsReach ms) (if wordsReach ms' = 0 then 0 else ms.length + wordsReach ms') := by
  have hlen : ms.length = ms.count true + ms.count false := (List.count_true_add_count_false ms).symm
  have hle := unitsBefore_le ms
  rw [wordsReach, wordsReach, wordsReach, List.contains_append, List.count_append, unitsBefore_append]
  cases h' : ms'.contains true with
  | true =>
    have hpos := count_true_pos h'
    have h0 : ms'.count true + unitsBefore ms' ≠ 0 := by omega
    rw [Bool.or_true, if_pos rfl, if_pos rfl, if_pos rfl, if_neg h0, hlen]
    split_ifs <;> omega
  | false =>
    have h0 : ms'.count true = 0 := List.count_eq_zero.mpr fun hmem => by simp_all
    cases h : ms.contains true <;> simp [h0]

/-- A repeated sequence of words reaches as far as its last copy. -/
theorem wordsReach_replicate (ms : List Bool) (n : ℕ) :
    wordsReach (List.replicate n ms).flatten =
      if n = 0 ∨ wordsReach ms = 0 then 0 else (n - 1) * ms.length + wordsReach ms := by
  induction n with
  | zero => rfl
  | succ n ih =>
    rw [List.replicate_succ, List.flatten_cons, wordsReach_append, ih, Nat.add_sub_cancel]
    by_cases h0 : wordsReach ms = 0
    · simp [h0]
    · rcases Nat.eq_zero_or_pos n with rfl | hn
      · simp [h0]
      · obtain ⟨k, rfl⟩ : ∃ k, n = k + 1 := ⟨n - 1, by omega⟩
        have hrest : (if k + 1 = 0 ∨ wordsReach ms = 0 then 0 else (k + 1 - 1) * ms.length + wordsReach ms) =
            k * ms.length + wordsReach ms := by rw [if_neg (by omega), Nat.add_sub_cancel]
        rw [hrest, if_neg (by omega), if_neg (by omega), Nat.succ_mul]
        omega

/-- The words of the last value are inside the words passed over. -/
theorem wordsReach_le (ms : List Bool) : wordsReach ms ≤ ms.length := by
  have hle := unitsBefore_le ms
  have hlen := List.count_true_add_count_false ms
  rw [wordsReach]
  split_ifs <;> omega

/-! ### Sizes -/

/-- A type without custom types: what the decoders pass over and read, what syntax counts. -/
structure Plain (t : Ty) : Prop where
  static : t.impl.isDynamic = false
  isDynamic : t.rust.sol.isDynamic = some false
  headSize : t.rust.sol.headSize = some (32 * (marks t).count true)
  slotSize : t.impl.slotSize = 32 * (marks t).length
  reach : reach t = 32 * wordsReach (marks t)

theorem plain_list {ts : List Ty} (h : ∀ t ∈ ts, Plain t) :
    (impls ts).any SolCodec.isDynamic = false ∧ SolType.anyDynamic ((rusts ts).map Field.sol) = some false ∧
      SolType.headSizes ((rusts ts).map Field.sol) = some (32 * (marksAll ts).count true) ∧
      buildTotalSize (rusts ts) = 32 * (marksAll ts).count true ∧
      tupleHeadSize (impls ts) = 32 * (marksAll ts).length ∧ reachs ts = 32 * wordsReach (marksAll ts) := by
  induction ts with
  | nil => exact ⟨rfl, rfl, rfl, rfl, rfl, rfl⟩
  | cons t ts ih =>
    have ht := h t List.mem_cons_self
    obtain ⟨hstatic, hdyn, hsizes, htotal, hhead, hreach⟩ := ih fun t' ht' => h t' (List.mem_cons_of_mem _ ht')
    refine ⟨?_, ?_, ?_, ?_, ?_, ?_⟩
    · change (t.impl.isDynamic || (impls ts).any SolCodec.isDynamic) = false
      rw [ht.static, hstatic]
      rfl
    · change SolType.anyDynamic (t.rust.sol :: _) = _
      rw [SolType.anyDynamic, ht.isDynamic, hdyn]
      rfl
    · change SolType.headSizes (t.rust.sol :: _) = _
      rw [SolType.headSizes, ht.headSize, hsizes, marksAll, List.count_append, Nat.mul_add]
      rfl
    · change (t.rust.sol.headSize.getD 0) + buildTotalSize (rusts ts) = _
      rw [ht.headSize, htotal, marksAll, List.count_append, Nat.mul_add]
      rfl
    · rw [show tupleHeadSize (impls (t :: ts)) = t.impl.slotSize + tupleHeadSize (impls ts) from
        tupleHeadSize_cons _ _, ht.slotSize, hhead, marksAll, List.length_append, Nat.mul_add]
    · rw [reachs, marksAll, wordsReach_append, ht.reach, hreach, ht.slotSize]
      split_ifs <;> omega

theorem plain {t : Ty} (h : t.Compiles = true) (hplain : t.rust.sol.hasCustomTypes = false)
    (hsome : t.impl.decodeUnchecked.isSome = true) : Plain t := by
  refine induction_of_all (motive := fun t => t.rust.sol.hasCustomTypes = false →
      t.impl.decodeUnchecked.isSome = true → Plain t) (fun k _ _ => ?_) (fun _ _ _ => ⟨rfl, rfl, rfl, rfl, rfl⟩)
    (fun n _ _ _ => ⟨rfl, rfl, rfl, rfl, rfl⟩) (fun _ hs => Bool.noConfusion (show false = true from hs))
    (fun _ hs => Bool.noConfusion (show false = true from hs))
    (fun _ _ _ hs => Bool.noConfusion (show false = true from hs)) (fun elem n _ ih hp hs => ?_)
    (fun elems _ ih hp hs => ?_)
    (fun idents fields _ _ hp _ => Bool.noConfusion (show true = false from hp))
    (fun _ _ hp _ => Bool.noConfusion (show true = false from hp)) t h hplain hsome
  · cases k <;> exact ⟨rfl, rfl, rfl, rfl, rfl⟩
  · have helem := ih hp ((Option.isSome_map ..).symm.trans hs)
    have hlen : (marks (array elem n)).length = n * (marks elem).length := by
      rw [marks, List.length_flatten, List.map_replicate, List.sum_replicate_nat]
    have hcount : (marks (array elem n)).count true = n * (marks elem).count true := by
      rw [marks, List.count_flatten, List.map_replicate, List.sum_replicate_nat]
    refine ⟨helem.static, helem.isDynamic, ?_, ?_, ?_⟩
    · change SolType.headSize (.fixedArray elem.rust.sol n) = _
      rw [SolType.headSize, helem.isDynamic, helem.headSize, hcount, Nat.mul_left_comm, Nat.mul_comm n]
      rfl
    · rw [SolCodec.slotSize_static (show (array elem n).impl.isDynamic = false from helem.static)]
      change elem.impl.slotSize * n = _
      rw [helem.slotSize, hlen, Nat.mul_comm n, Nat.mul_assoc]
    · rw [reach, arrayReach, helem.reach, helem.slotSize, marks, wordsReach_replicate]
      split_ifs <;> first
        | omega
        | rw [Nat.mul_add, Nat.zero_add, Nat.mul_left_comm]
  · have hall := isSome_of_tupleUnchecked hs
    obtain ⟨hstatic, hdyn, hsizes, htotal, hhead, hreach⟩ := plain_list fun t ht =>
      ih t ht (plain_of_mem hp ht) (hall t.impl (mem_impls_of_mem ht))
    refine ⟨hstatic, hdyn, ?_, ?_, ?_⟩
    · change SolType.headSize (.tuple ((rusts elems).map Field.sol)) = _
      rw [SolType.headSize, SolType.isDynamic, hdyn, marks]
      exact hsizes
    · rw [SolCodec.slotSize_static (show (tuple elems).impl.isDynamic = false from hstatic), marks]
      exact hhead
    · rw [reach, marks, hreach]

/-- How far a type reads, by its slot and its overrun. -/
structure Overrun (slot overrun reach : ℕ) : Prop where
  slot_dvd : 32 ∣ slot
  overrun_dvd : 32 ∣ overrun
  reach : (overrun = 0 ∧ reach ≤ slot) ∨ (0 < overrun ∧ reach = slot + overrun)

theorem Overrun.cons {slot ov r slots ovs rs : ℕ} (h : Overrun slot ov r) (h' : Overrun slots ovs rs) :
    Overrun (slot + slots) (max (ov - slots) ovs) (max r (if rs = 0 then 0 else slot + rs)) where
  slot_dvd := Nat.dvd_add h.slot_dvd h'.slot_dvd
  overrun_dvd := by
    rcases Nat.le_total (ov - slots) ovs with hle | hle
    · rw [Nat.max_eq_right hle]
      exact h'.overrun_dvd
    · rw [Nat.max_eq_left hle]
      exact Nat.dvd_sub h.overrun_dvd h'.slot_dvd
  reach := by
    have h1 := h.reach
    have h2 := h'.reach
    split_ifs <;> omega

theorem Overrun.replicate {slot ov r : ℕ} (h : Overrun slot ov r) {n : ℕ} (hn : 0 < n) :
    Overrun (slot * n) ov (arrayReach slot r 0 n) where
  slot_dvd := Dvd.dvd.mul_right h.slot_dvd n
  overrun_dvd := h.overrun_dvd
  reach := by
    obtain ⟨k, rfl⟩ : ∃ k, n = k + 1 := ⟨n - 1, by omega⟩
    have h1 := h.reach
    rw [arrayReach, Nat.zero_add, Nat.add_sub_cancel, Nat.mul_comm slot, Nat.succ_mul]
    by_cases h0 : r = 0
    · rw [if_pos (.inr h0)]
      omega
    · rw [if_neg (by omega)]
      omega

theorem overrun_struct (ms : List Bool) :
    Overrun (32 * ms.count true) (32 * unitsBefore ms) (32 * wordsReach ms) where
  slot_dvd := Nat.dvd_mul_right 32 _
  overrun_dvd := Nat.dvd_mul_right 32 _
  reach := by
    rw [wordsReach]
    cases h : ms.contains true with
    | true =>
      rw [if_pos rfl]
      omega
    | false =>
      rw [unitsBefore_of_units h, if_neg Bool.false_ne_true]
      omega

theorem overruns_list {ts : List Ty} (h : ∀ t ∈ ts, unitFree t = true →
      Overrun t.impl.slotSize (overrun t) (reach t)) (hfree : unitsFree ts = true) :
    Overrun (tupleHeadSize (impls ts)) (overruns ts) (reachs ts) := by
  induction ts with
  | nil => exact ⟨⟨0, rfl⟩, ⟨0, rfl⟩, .inl ⟨rfl, le_refl _⟩⟩
  | cons t ts ih =>
    obtain ⟨ht, hts⟩ := (Bool.and_eq_true _ _).mp hfree
    have htail := ih (fun t' ht' => h t' (List.mem_cons_of_mem _ ht')) hts
    rw [show tupleHeadSize (impls (t :: ts)) = t.impl.slotSize + tupleHeadSize (impls ts) from
      tupleHeadSize_cons _ _]
    exact (h t List.mem_cons_self ht).cons htail

/-- The static expansion is the one that has an unchecked decoder. -/
theorem impl_of_isSome {idents : List (Option String)} {fields : List Ty}
    (h : (struct idents fields).impl.decodeUnchecked.isSome = true) :
    needsDynamic (rusts fields) = false ∧ (struct idents fields).impl = expandStatic idents (rusts fields) := by
  cases hn : needsDynamic (rusts fields) with
  | true =>
    have himpl : (struct idents fields).impl = expandDynamic idents (rusts fields) := if_pos hn
    rw [himpl] at h
    exact Bool.noConfusion (show false = true from h)
  | false => exact ⟨rfl, if_neg (by simp [hn])⟩

theorem plain_fields {idents : List (Option String)} {fields : List Ty}
    (hc : ∀ t ∈ fields, t.Compiles = true) (h : (struct idents fields).impl.decodeUnchecked.isSome = true) :
    ∀ t ∈ fields, Plain t := by
  obtain ⟨hn, himpl⟩ := impl_of_isSome h
  rw [himpl] at h
  have hall := isSome_of_staticUnchecked ((Option.isSome_map ..).symm.trans h)
  intro t ht
  exact plain (hc t ht) (plain_of_mem (plain_of_needsDynamic hn) ht) (hall t.impl (mem_impls_of_mem ht))

/-- **The reach of a type** is its slot and its overrun. -/
theorem overrun_reach {t : Ty} (h : t.Compiles = true) (hsome : t.impl.decodeUnchecked.isSome = true)
    (hfree : unitFree t = true) : Overrun t.impl.slotSize (overrun t) (reach t) := by
  have hword : Overrun 32 0 32 := ⟨⟨1, rfl⟩, ⟨0, rfl⟩, .inl ⟨rfl, le_refl _⟩⟩
  refine induction_of_all (motive := fun t => t.Compiles = true → t.impl.decodeUnchecked.isSome = true →
      unitFree t = true → Overrun t.impl.slotSize (overrun t) (reach t))
    (fun k _ _ _ => by cases k <;> exact hword) (fun _ _ _ hf => Bool.noConfusion (show false = true from hf))
    (fun n _ _ _ _ => hword) (fun _ hs => Bool.noConfusion (show false = true from hs))
    (fun _ hs => Bool.noConfusion (show false = true from hs))
    (fun _ _ _ hs => Bool.noConfusion (show false = true from hs)) (fun elem n _ ih h hs hf => ?_)
    (fun elems _ ih h hs hf => ?_) (fun idents fields _ _ h hs _ => ?_)
    (fun _ _ _ hs => Bool.noConfusion (show false = true from hs)) t h h hsome hfree
  · have hselem : elem.impl.decodeUnchecked.isSome = true := (Option.isSome_map ..).symm.trans hs
    obtain ⟨f, hdec⟩ := Option.isSome_iff_exists.mp hselem
    have hd := (unchecked (all_array h) f hdec).1
    rw [SolCodec.slotSize_static (show (array elem n).impl.isDynamic = false from hd), overrun, reach]
    change Overrun (elem.impl.slotSize * n) _ _
    rcases Nat.eq_zero_or_pos n with rfl | hn
    · exact ⟨⟨0, Nat.mul_zero _⟩, ⟨0, rfl⟩, .inl ⟨rfl, Nat.zero_le _⟩⟩
    · have hfelem : unitFree elem = true := by
        rcases (Bool.or_eq_true _ _).mp hf with h0 | helem
        · exact absurd (beq_iff_eq.mp h0) (by omega)
        · exact helem
      rw [if_neg (by omega)]
      exact (ih (all_array h) hselem hfelem).replicate hn
  · obtain ⟨g, hg⟩ := Option.isSome_iff_exists.mp hs
    have hd := (unchecked h g hg).1
    have hall := isSome_of_tupleUnchecked hs
    rw [SolCodec.slotSize_static hd, overrun, reach]
    exact overruns_list (fun t ht => ih t ht (all_tuple h t ht) (hall t.impl (mem_impls_of_mem ht))) hf
  · obtain ⟨-, -, -, htotal, -, hreach⟩ := plain_list (plain_fields (all_struct h) hs)
    obtain ⟨-, himpl⟩ := impl_of_isSome hs
    rw [himpl, SolCodec.slotSize_static rfl, overrun, reach, hreach]
    change Overrun (buildTotalSize (rusts fields)) _ _
    rw [htotal]
    exact overrun_struct _

/-- How the sizes of a type compare. -/
structure Sizes (T : SolCodec) (free : Bool) (size : ℕ) : Prop where
  encodedSize : T.encodedSize = some size
  le : size ≤ T.slotSize
  eq_iff : size = T.slotSize ↔ free = true
  encodeBodyLen : free = true → ∀ v, T.encodeBodyLen v = T.slotSize

theorem sizes_list {ts : List Ty} (h : ∀ t ∈ ts, ∃ size, Sizes t.impl (unitFree t) size) :
    ∃ size, tupleEncodedSize (impls ts) = some size ∧ size ≤ tupleHeadSize (impls ts) ∧
      (size = tupleHeadSize (impls ts) ↔ unitsFree ts = true) := by
  induction ts with
  | nil => exact ⟨0, rfl, le_refl _, by simp [unitsFree, tupleHeadSize, rusts]⟩
  | cons t ts ih =>
    obtain ⟨size, hsize⟩ := h t List.mem_cons_self
    obtain ⟨sizes, hsizes, hle, hiff⟩ := ih fun t' ht' => h t' (List.mem_cons_of_mem _ ht')
    have hle' := hsize.le
    rw [show tupleHeadSize (impls (t :: ts)) = t.impl.slotSize + tupleHeadSize (impls ts) from
      tupleHeadSize_cons _ _, unitsFree, Bool.and_eq_true, ← hiff, ← hsize.eq_iff]
    refine ⟨size + sizes, ?_, by omega, by omega⟩
    change t.impl.encodedSize.bind (fun n => (tupleEncodedSize (impls ts)).bind fun m => some (n + m)) = _
    rw [hsize.encodedSize, hsizes]
    rfl

theorem sizes {t : Ty} (h : t.Compiles = true) (hsome : t.impl.decodeUnchecked.isSome = true) :
    ∃ size, Sizes t.impl (unitFree t) size := by
  refine induction_of_all (motive := fun t => t.Compiles = true → t.impl.decodeUnchecked.isSome = true →
      ∃ size, Sizes t.impl (unitFree t) size)
    (fun k _ _ => ⟨32, ?_⟩) (fun _ _ _ => ⟨0, rfl, Nat.zero_le _, ⟨fun h0 => absurd (show 0 = 32 from h0) (by omega),
      fun hf => Bool.noConfusion (show false = true from hf)⟩, fun hf => Bool.noConfusion (show false = true from hf)⟩)
    (fun n _ _ _ => ⟨32, rfl, le_refl _, ⟨fun _ => rfl, fun _ => rfl⟩, fun _ _ => rfl⟩)
    (fun _ hs => Bool.noConfusion (show false = true from hs))
    (fun _ hs => Bool.noConfusion (show false = true from hs))
    (fun _ _ _ hs => Bool.noConfusion (show false = true from hs)) (fun elem n _ ih h hs => ?_)
    (fun elems _ ih h hs => ?_) (fun idents fields _ _ h hs => ?_)
    (fun _ _ _ hs => Bool.noConfusion (show false = true from hs)) t h h hsome
  · cases k <;> exact ⟨rfl, le_refl _, ⟨fun _ => rfl, fun _ => rfl⟩, fun _ _ => rfl⟩
  · have hselem : elem.impl.decodeUnchecked.isSome = true := (Option.isSome_map ..).symm.trans hs
    obtain ⟨f, hdec⟩ := Option.isSome_iff_exists.mp hselem
    have hd := (unchecked (all_array h) f hdec).1
    have hd' : (array elem n).impl.isDynamic = false := hd
    obtain ⟨size, hsize⟩ := ih (all_array h) hselem
    have hslot : (array elem n).impl.slotSize = elem.impl.slotSize * n := SolCodec.slotSize_static hd'
    refine ⟨size * n, ?_, ?_, ?_, fun _ (vs : {vs : List elem.impl.Carrier // vs.length = n}) => ?_⟩
    · change elem.impl.encodedSize.map (· * n) = _
      rw [hsize.encodedSize, Option.map_some]
    · rw [hslot]
      exact Nat.mul_le_mul_right n hsize.le
    · rw [hslot, unitFree, Bool.or_eq_true, beq_iff_eq, ← hsize.eq_iff]
      rcases Nat.eq_zero_or_pos n with rfl | hn
      · simp
      · rw [Nat.mul_left_inj (by omega)]
        omega
    · change (if elem.impl.isDynamic then n * 32 + (vs.1.map elem.impl.encodeBodyLen).sum
        else elem.impl.headSize * n) = _
      rw [hd, if_neg Bool.false_ne_true, hslot, SolCodec.slotSize_static hd]
  · obtain ⟨g, hg⟩ := Option.isSome_iff_exists.mp hs
    have hd := (unchecked h g hg).1
    have hall := isSome_of_tupleUnchecked hs
    obtain ⟨size, hsize, hle, hiff⟩ := sizes_list fun t ht =>
      ih t ht (all_tuple h t ht) (hall t.impl (mem_impls_of_mem ht))
    have hslot : (tuple elems).impl.slotSize = tupleHeadSize (impls elems) := SolCodec.slotSize_static hd
    refine ⟨size, hsize, by rw [hslot]; exact hle, by rw [hslot]; exact hiff,
      fun _ (vals : Types.Fields (impls elems)) => ?_⟩
    change tupleHeadSize (impls elems) + tupleTailLen (impls elems) vals = _
    rw [tupleTailLen_static hd, hslot, Nat.add_zero]
  · obtain ⟨-, himpl⟩ := impl_of_isSome hs
    rw [himpl]
    exact ⟨_, rfl, le_refl _, ⟨fun _ => rfl, fun _ => rfl⟩, fun _ _ => rfl⟩

/-! ### The promise -/

/-- **The promise of `StaticDecode`**: the three sizes are one, `decode_unchecked` reads this many bytes
and no others, and it returns what `decode_at` returns. -/
structure FastPath (T : SolCodec) (f : List UInt8 → ℕ → Option T.Carrier) (size : ℕ) : Prop where
  encodedSize : T.encodedSize = some size
  slotSize : T.slotSize = size
  encodeBodyLen : ∀ v, T.encodeBodyLen v = size
  /-- No access is out of bounds. -/
  inBounds : ∀ input off, off + size ≤ input.length → ∃ v, f input off = some v
  /-- The other bytes do not matter. -/
  readsOnly : ∀ input input' off off', off + size ≤ input.length → off' + size ≤ input'.length →
    (input.drop off).take size = (input'.drop off').take size → f input off = f input' off'
  confirms : ∀ p input off v, IsSlice input → off + size ≤ input.length →
    Returns (T.decodeAt p input off) v → f input off = some v

/-- A reader that reads at most `size` bytes keeps the promise. -/
theorem fastPath_of_reach {T : SolCodec} {f : List UInt8 → ℕ → Option T.Carrier} {r size : ℕ}
    (hu : Unchecked T f r) (hle : r ≤ size) (hencoded : T.encodedSize = some size) (hslot : T.slotSize = size)
    (hbody : ∀ v, T.encodeBodyLen v = size) : FastPath T f size := by
  have hin : ∀ {input : List UInt8} {off : ℕ}, off + size ≤ input.length → Inside input off r :=
    fun h => .inr (by omega)
  refine ⟨hencoded, hslot, hbody, fun input off h => hu.extent.inside input off (hin h),
    fun input input' off off' h h' hbytes => ?_, fun p input off v hs h => hu.confirms p input off v hs (hin h)⟩
  exact hu.extent.congr input input' off off' (hin h) (hin h') (take_drop_congr (k := 0) (by omega) hbytes)

/-- The promise is kept by exactly the types in which no unit stands outside derived structs, and
no derived struct has more units before its last value than there are words behind the struct. -/
theorem promise_iff {t : Ty} (h : t.Compiles = true) (hsome : t.impl.decodeUnchecked.isSome = true) :
    (∃ f size, t.impl.decodeUnchecked = some f ∧ FastPath t.impl f size) ↔
      unitFree t = true ∧ overrun t = 0 := by
  obtain ⟨size, hsize⟩ := sizes h hsome
  constructor
  · rintro ⟨f, size', hf, hp⟩
    have hu := (unchecked h f hf).2
    obtain rfl : size' = size := Option.some.inj (hp.encodedSize.symm.trans hsize.encodedSize)
    have hfree := hsize.eq_iff.mp hp.slotSize.symm
    refine ⟨hfree, ?_⟩
    obtain ⟨-, ⟨k, hk⟩, hreach⟩ := overrun_reach h hsome hfree
    by_contra hne
    -- A buffer of exactly the promised size: the last value is behind its end.
    have hlen : (List.replicate t.impl.slotSize (0 : UInt8)).length = t.impl.slotSize := List.length_replicate
    have hslot := hp.slotSize
    obtain ⟨v, hv⟩ := hp.inBounds (List.replicate t.impl.slotSize 0) 0 (by rw [hlen]; omega)
    have hnone := hu.extent.outside (List.replicate t.impl.slotSize 0) 0 (by omega) (by rw [hlen]; omega)
    exact Option.some_ne_none v (hv.symm.trans hnone)
  · rintro ⟨hfree, hover⟩
    obtain ⟨f, hf⟩ := Option.isSome_iff_exists.mp hsome
    have hslot := hsize.eq_iff.mpr hfree
    have hreach := (overrun_reach h hsome hfree).reach
    exact ⟨f, size, hf, fastPath_of_reach (unchecked h f hf).2 (by omega) hsize.encodedSize hslot.symm
      fun v => (hsize.encodeBodyLen hfree v).trans hslot.symm⟩

end Ty

end PvmContract.Macros
