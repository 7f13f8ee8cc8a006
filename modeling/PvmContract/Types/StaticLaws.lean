import PvmContract.Types.PrimitiveLaws
import PvmContract.Types.SequenceLaws

/-!
# Decoders of static types near the end of the input

A checked decoder of a static type adds at most 32 to a position before it looks
whether the input reaches that far. So it cannot overflow at an offset below
`2 ^ 64 - 32`, and when it returns a value its slot ends in the input, or less
than a word behind it (`bytesN` looks at its `N` bytes only). From the second
fact the first one follows for the next position of a sequence.
-/

namespace PvmContract.Types

open Data Run

/-- What a checked decoder of a static type does. -/
structure StaysInside (T : SolCodec) : Prop where
  /-- No overflow, unless the offset is at the very end of the address space. -/
  safe : T.isDynamic = false → ∀ lim input off, IsSlice input → off + 32 < 2 ^ 64 →
    Safe lim (T.decodeAt .checked input off)
  /-- A value is returned only if its slot is in the input, up to the last word's padding. -/
  extent : T.isDynamic = false → ∀ input off v, IsSlice input → off < 2 ^ 64 →
    Returns (T.decodeAt .checked input off) v → T.headSize = 0 ∨ off + T.headSize ≤ input.length + 31

/-- A dynamic type is not concerned. -/
theorem staysInside_of_dynamic {T : SolCodec} (h : T.isDynamic = true) : StaysInside T :=
  ⟨fun hd => by simp [h] at hd, fun hd => by simp [h] at hd⟩

theorem staysInside_staticType {C : Type} {name : String} {encodeFn : C → List UInt8 → Option (List UInt8)}
    {get : Profile → List UInt8 → ℕ → Run (List UInt8)}
    {getUnchecked : List UInt8 → ℕ → Option (List UInt8)} {convert : List UInt8 → C} {skip k top : ℕ}
    (hget : Reads get getUnchecked skip k top) (hk : 0 < skip + k) :
    StaysInside (staticType C name encodeFn get getUnchecked convert) where
  safe _ lim input off _ hoff := by
    have htop := hget.top_le
    exact Safe.bind ((hget.safe lim input off).mpr (by omega)) fun _ _ => safe_pure _
  extent _ input off v _ _ hret := by
    obtain ⟨bs, hbs, -⟩ := returns_bind.mp hret
    have hrange := ((hget.returns input off bs).mp hbs).2
    have hin := (getRange_eq_some_iff.mp hrange).2.1
    refine .inr ?_
    change off + 32 ≤ _
    omega

theorem staysInside_bytesN {n : ℕ} (hn : 0 < n) (hn32 : n ≤ 32) : StaysInside (bytesN n) :=
  have h : StaysInside (staticType (ByteArr n) "" (fun val => padRight val.1) (getRangeAt n)
      (uncheckedRange 0 n) (toByteArr n)) :=
    staysInside_staticType (reads_getRangeAt hn32) (by omega)
  ⟨h.safe, h.extent⟩

/-! ### `[T; N]` -/

section Arrays

variable {T : SolCodec} (h : StaysInside T) (hd : T.isDynamic = false) {input : List UInt8}
  (hs : IsSlice input)

include h hd hs

/-- The slot of an element that is returned is in the input, or empty. -/
theorem arrayReadElem_extent {off i : ℕ} {v : T.Carrier}
    (hret : Returns (arrayReadElem T .checked input off i) v) :
    T.headSize = 0 ∨ off + (i + 1) * T.headSize ≤ input.length + 31 := by
  obtain ⟨k, hk, hret⟩ := returns_bind.mp hret
  obtain ⟨ho, hho, hret⟩ := returns_bind.mp hret
  obtain ⟨-, rfl⟩ := returns_usize_checked.mp hk
  rw [checkedSum_pair] at hho
  obtain ⟨hlt, rfl⟩ := returns_checkedAdd.mp hho
  rw [SolCodec.slotSize_static hd] at hlt
  rw [SolCodec.slotSize_static hd, if_neg (by simp [hd])] at hret
  rcases h.extent hd input _ v hs hlt hret with h0 | hle
  · exact .inl h0
  · exact .inr (by rw [Nat.succ_mul]; omega)

theorem arrayRead_extent {off i n : ℕ} {vs : {vs : List T.Carrier // vs.length = n}}
    (hret : Returns (arrayRead T .checked input off i n) vs) :
    n = 0 ∨ T.headSize = 0 ∨ off + (i + n) * T.headSize ≤ input.length + 31 := by
  induction n generalizing i with
  | zero => exact .inl rfl
  | succ n ih =>
    obtain ⟨v, hv, hret⟩ := returns_bind.mp hret
    obtain ⟨rest, hrest, -⟩ := returns_bind.mp hret
    have hlast := arrayReadElem_extent h hd hs hv
    rcases ih hrest with rfl | h0 | hle
    · exact .inr hlast
    · exact .inr (.inl h0)
    · exact .inr (.inr (by rwa [Nat.add_right_comm i 1 n, Nat.add_assoc] at hle))

theorem arrayRead_safe {lim off i : ℕ} (n : ℕ) (hoff : off + i * T.headSize + 32 < 2 ^ 64) :
    Safe lim (arrayRead T .checked input off i n) := by
  induction n generalizing i with
  | zero => exact safe_pure _
  | succ n ih =>
    have helem : Safe lim (arrayReadElem T .checked input off i) := by
      rw [arrayReadElem, SolCodec.slotSize_static hd, umul_of_lt (by omega), pure_andThen, checkedSum_pair,
        checkedAdd_of_lt (by omega), pure_andThen, if_neg (by simp [hd])]
      exact h.safe hd lim input _ hs (by omega)
    refine helem.bind fun v hv => Safe.bind (ih ?_) fun _ _ => safe_pure _
    -- the element that was read keeps the next position below the end of the input
    unfold IsSlice at hs
    rcases arrayReadElem_extent h hd hs hv with h0 | hle
    · rw [h0] at hoff ⊢; omega
    · omega

end Arrays

theorem staysInside_array {T : SolCodec} (h : StaysInside T) (n : ℕ) : StaysInside (array T n) where
  safe hd lim input off hs hoff := arrayRead_safe h hd hs n (by omega)
  extent hd input off vs hs _ hret := by
    have hhead : (array T n).headSize = n * T.headSize := by
      change T.slotSize * n = _
      rw [show T.slotSize = T.headSize from SolCodec.slotSize_static hd, Nat.mul_comm]
    rw [hhead]
    rcases arrayRead_extent h hd hs hret with rfl | h0 | hle
    · exact .inl (Nat.zero_mul _)
    · exact .inl (by rw [h0, Nat.mul_zero])
    · exact .inr (by rwa [Nat.zero_add] at hle)

/-! ### Tuples -/

section Tuples

variable {Ts : List SolCodec} {input : List UInt8} (hs : IsSlice input)

include hs

theorem tupleRead_extent (h : ∀ T ∈ Ts, StaysInside T) (hd : Ts.any SolCodec.isDynamic = false)
    {off ho : ℕ} {vals : Fields Ts} (hho : ho < 2 ^ 64)
    (hret : Returns (tupleRead .checked input off Ts ho) vals) :
    tupleHeadSize Ts = 0 ∨ ho + tupleHeadSize Ts ≤ input.length + 31 := by
  induction Ts generalizing ho with
  | nil => exact .inl rfl
  | cons T Ts ih =>
    rw [List.any_cons, Bool.or_eq_false_iff] at hd
    rw [tupleHeadSize_cons, SolCodec.slotSize_static hd.1]
    obtain ⟨val, hval, hret⟩ := returns_bind.mp hret
    obtain ⟨ho', hho', hret⟩ := returns_bind.mp hret
    obtain ⟨vals, hvals, -⟩ := returns_bind.mp hret
    rw [checkedSum_pair] at hho'
    obtain ⟨hnext, rfl⟩ := returns_checkedAdd.mp hho'
    rw [tupleReadField, if_neg (by simp [hd.1])] at hval
    rw [SolCodec.slotSize_static hd.1] at hvals
    have hhead := (h T (by simp)).extent hd.1 input ho val hs hho hval
    rw [SolCodec.slotSize_static hd.1] at hnext
    rcases ih (fun T' hT' => h T' (by simp [hT'])) hd.2 hnext hvals with h0 | hle
    · rw [h0, Nat.add_zero]
      exact hhead
    · exact .inr (by omega)

theorem tupleRead_safe (h : ∀ T ∈ Ts, StaysInside T) (hd : Ts.any SolCodec.isDynamic = false)
    {lim off ho : ℕ} (hoff : ho + 32 < 2 ^ 64) : Safe lim (tupleRead .checked input off Ts ho) := by
  induction Ts generalizing ho with
  | nil => exact safe_pure _
  | cons T Ts ih =>
    rw [List.any_cons, Bool.or_eq_false_iff] at hd
    have hT := h T (by simp)
    have hfield : tupleReadField T .checked input off ho = T.decodeAt .checked input ho := by
      rw [tupleReadField, if_neg (by simp [hd.1])]
    rw [tupleRead, hfield, SolCodec.slotSize_static hd.1, checkedSum_pair]
    refine (hT.safe hd.1 lim input ho hs hoff).bind fun val hval => safe_checkedAdd.bind fun ho' hho' => ?_
    obtain ⟨-, rfl⟩ := returns_checkedAdd.mp hho'
    refine Safe.bind (ih (fun T' hT' => h T' (by simp [hT'])) hd.2 ?_) fun _ _ => safe_pure _
    have hs' := hs
    unfold IsSlice at hs'
    rcases hT.extent hd.1 input ho val hs (by omega) hval with h0 | hle <;> omega

end Tuples

theorem staysInside_tuple {Ts : List SolCodec} (h : ∀ T ∈ Ts, StaysInside T) : StaysInside (tuple Ts) where
  safe hd _ _ _ hs hoff := tupleRead_safe hs h hd hoff
  extent hd _ _ _ hs hoff hret := tupleRead_extent hs h hd hoff hret

end PvmContract.Types
