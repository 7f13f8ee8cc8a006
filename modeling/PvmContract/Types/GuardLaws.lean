import PvmContract.Types.StaticLaws

/-!
# Decoders on hostile input

Where a decoder starts is hostile input as soon as an offset word led there. The
crate adds offsets with `checked_sum`, but the decoders of the words add up to 32
to a position with a plain `+`. So a decoder is safe everywhere if it begins with
an offset word, and it is not at the end of the address space if it begins with a
word that holds a value. `Guarded T far` says that this, when `far` is set, is
the only exception.
-/

namespace PvmContract.Types

open Data Run

/-- **A guarded decoder** neither panics nor reserves too much, except that, when `far` is set, it
may overflow where it starts less than a word before the end of the address space. -/
structure Guarded (T : SolCodec) (far : Bool) : Prop where
  decodeAt : ∀ input off, IsSlice input → off < 2 ^ 64 → (far = true → off + 32 < 2 ^ 64) →
    Safe (input.length / 32) (T.decodeAt .checked input off)
  decodeTail : ∀ input off, IsSlice input → off < 2 ^ 64 → (far = true → off + 32 < 2 ^ 64) →
    Safe (input.length / 32) (T.decodeTail .checked input off)

/-- A static type without bytes: nothing is read, and there is only one value. -/
def ReadsNothing (T : SolCodec) : Prop :=
  ∃ v, ∀ input off, IsSlice input → off < 2 ^ 64 → T.decodeAt .checked input off = pure v

/-- Whether a sequence of fields begins with bytes of a static field. -/
def farFields : List SolCodec → Bool
  | [] => false
  | T :: Ts => !T.isDynamic && (T.headSize != 0 || farFields Ts)

/-! ### Static types and byte strings -/

theorem guarded_static {T : SolCodec} (hin : StaysInside T) (hd : T.isDynamic = false)
    (hat : T.decodeTail = T.decodeAt) (hempty : T.headSize = 0 → ReadsNothing T) :
    Guarded T (T.headSize != 0) := by
  have h : ∀ input off, IsSlice input → off < 2 ^ 64 → ((T.headSize != 0) = true → off + 32 < 2 ^ 64) →
      Safe (input.length / 32) (T.decodeAt .checked input off) := by
    intro input off hs hoff hfar
    by_cases h0 : T.headSize = 0
    · obtain ⟨v, hv⟩ := hempty h0
      rw [hv input off hs hoff]
      exact safe_pure v
    · exact hin.safe hd _ input off hs (hfar (by simpa using h0))
  exact ⟨h, by rw [hat]; exact h⟩

theorem bytesTail_safe {lim : ℕ} (input : List UInt8) (off : ℕ) : Safe lim (bytesTail input off) := by
  rw [bytesTail]
  refine (safe_readWordOffset input off).bind fun len _ => ?_
  rw [checkedSum_pair]
  refine safe_checkedAdd.bind fun start _ => ?_
  rw [checkedSum_pair]
  exact safe_checkedAdd.bind fun stop _ => safe_ofOption _

theorem guarded_Bytes : Guarded Bytes false where
  decodeAt input off _ _ _ := (safe_readWordOffset input off).bind fun _ _ => bytesTail_safe input _
  decodeTail input off _ _ _ := bytesTail_safe input off

theorem guarded_string : Guarded string false := by
  have h : ∀ (input : List UInt8) (off : ℕ), Safe (input.length / 32) (stringTail input off) := fun input off =>
    (bytesTail_safe input off).bind fun _ _ => safe_ofOption _
  exact ⟨fun input off _ _ _ => (safe_readWordOffset input off).bind fun _ _ => h input _,
    fun input off _ _ _ => h input off⟩

/-! ### `Vec<T>` -/

section Vectors

variable {T : SolCodec} {input : List UInt8} (hs : IsSlice input)

include hs

/-- The heads of the elements are read in order, so each is in the input before the next is computed. -/
theorem vecReadDynamic_safe (h : Guarded T false) {start i : ℕ} (n : ℕ) (hi : i * 32 < 2 ^ 64) :
    Safe (input.length / 32) (vecReadDynamic T .checked input start i n) := by
  induction n generalizing i with
  | zero => exact safe_pure _
  | succ n ih =>
    rw [vecReadDynamic, umul_of_lt hi, pure_andThen, checkedSum_pair]
    refine safe_checkedAdd.bind fun pos hpos => (safe_readWordOffset input pos).bind fun fo hfo => ?_
    obtain ⟨-, rfl⟩ := returns_checkedAdd.mp hpos
    have hle := le_of_readWordOffset hfo
    unfold IsSlice at hs
    rw [checkedSum_pair]
    refine safe_checkedAdd.bind fun elemStart hstart => ?_
    obtain ⟨hlt, rfl⟩ := returns_checkedAdd.mp hstart
    refine (h.decodeTail input _ hs hlt fun hf => Bool.noConfusion hf).bind fun elem _ => ?_
    exact (ih (by omega)).bind fun _ _ => safe_pure _

theorem vecReadStatic_safe (h : StaysInside T) (hd : T.isDynamic = false) {lim pos : ℕ} (n : ℕ)
    (hpos : pos + 32 < 2 ^ 64) : Safe lim (vecReadStatic T .checked input pos n) := by
  induction n generalizing pos with
  | zero => exact safe_pure _
  | succ n ih =>
    rw [vecReadStatic, checkedSum_pair]
    refine (h.safe hd lim input pos hs hpos).bind fun elem helem => safe_checkedAdd.bind fun pos' hpos' => ?_
    obtain ⟨-, rfl⟩ := returns_checkedAdd.mp hpos'
    refine Safe.bind (ih ?_) fun _ _ => safe_pure _
    have hs' := hs
    unfold IsSlice at hs'
    rcases h.extent hd input pos elem hs (by omega) helem with h0 | hle <;> omega

/-- The length is checked before anything is reserved. -/
theorem vecTail_safe {off : ℕ} (hstatic : T.isDynamic = false → StaysInside T)
    (hdyn : T.isDynamic = true → Guarded T false) :
    Safe (input.length / 32) (vecTail T .checked input off) := by
  rw [vecTail]
  refine (safe_readWordOffset input off).bind fun len hlen => ?_
  have hle := le_of_readWordOffset hlen
  have hs' := hs
  unfold IsSlice at hs'
  by_cases hmany : len > input.length / 32
  · rw [if_pos hmany]
    exact safe_fail
  · rw [if_neg hmany]
    refine (safe_alloc.mpr (by omega)).bind fun _ _ => ?_
    rw [checkedSum_pair]
    refine safe_checkedAdd.bind fun start hstart => ?_
    obtain ⟨-, rfl⟩ := returns_checkedAdd.mp hstart
    split_ifs with hd
    · exact vecReadDynamic_safe hs (hdyn hd) len (by omega)
    · exact vecReadStatic_safe hs (hstatic (by simpa using hd)) (by simpa using hd) len (by omega)

end Vectors

theorem guarded_Vec {T : SolCodec} (hstatic : T.isDynamic = false → StaysInside T)
    (hdyn : T.isDynamic = true → Guarded T false) : Guarded (Vec T) false where
  decodeAt input off hs _ _ := (safe_readWordOffset input off).bind fun _ _ => vecTail_safe hs hstatic hdyn
  decodeTail _ _ hs _ _ := vecTail_safe hs hstatic hdyn

/-! ### `[T; N]` -/

theorem arrayReadDynamic_safe {T : SolCodec} (h : Guarded T false) (hd : T.isDynamic = true)
    {input : List UInt8} (hs : IsSlice input) {off i : ℕ} (n : ℕ) (hi : i * 32 < 2 ^ 64) :
    Safe (input.length / 32) (arrayRead T .checked input off i n) := by
  induction n generalizing i with
  | zero => exact safe_pure _
  | succ n ih =>
    have helem : Safe (input.length / 32) (arrayReadElem T .checked input off i) ∧
        ∀ v, Returns (arrayReadElem T .checked input off i) v → off + i * 32 + 32 ≤ input.length := by
      rw [arrayReadElem, SolCodec.slotSize_dynamic hd, umul_of_lt hi, pure_andThen, checkedSum_pair, hd]
      simp only [if_true]
      constructor
      · refine safe_checkedAdd.bind fun pos _ => (safe_readWordOffset input pos).bind fun fo _ => ?_
        rw [checkedSum_pair]
        refine safe_checkedAdd.bind fun start hstart => ?_
        obtain ⟨hlt, rfl⟩ := returns_checkedAdd.mp hstart
        exact h.decodeTail input _ hs hlt fun hf => Bool.noConfusion hf
      · intro v hv
        obtain ⟨pos, hpos, hv⟩ := returns_bind.mp hv
        obtain ⟨-, rfl⟩ := returns_checkedAdd.mp hpos
        obtain ⟨fo, hfo, -⟩ := returns_bind.mp hv
        exact le_of_readWordOffset hfo
    refine helem.1.bind fun v hv => Safe.bind (ih ?_) fun _ _ => safe_pure _
    have hle := helem.2 v hv
    unfold IsSlice at hs
    omega

theorem guarded_array {T : SolCodec} (h : Guarded T false) (hd : T.isDynamic = true) (n : ℕ) :
    Guarded (array T n) false where
  decodeAt _ _ hs _ _ := arrayReadDynamic_safe h hd hs n (by omega)
  decodeTail _ _ hs _ _ := arrayReadDynamic_safe h hd hs n (by omega)

/-! ### Tuples -/

/-- A sequence of fields, from a position where its first bytes can be read. -/
theorem tupleRead_guarded {Ts : List SolCodec} (hin : ∀ T ∈ Ts, StaysInside T)
    (hempty : ∀ T ∈ Ts, T.isDynamic = false → T.headSize = 0 → ReadsNothing T)
    (hdyn : ∀ T ∈ Ts, T.isDynamic = true → Guarded T false) {input : List UInt8} (hs : IsSlice input)
    {off ho : ℕ} (hho : ho < 2 ^ 64) (hfar : farFields Ts = true → ho + 32 < 2 ^ 64) :
    Safe (input.length / 32) (tupleRead .checked input off Ts ho) := by
  induction Ts generalizing ho with
  | nil => exact safe_pure _
  | cons T Ts ih =>
    have ih' : ∀ {ho : ℕ}, ho < 2 ^ 64 → (farFields Ts = true → ho + 32 < 2 ^ 64) →
        Safe (input.length / 32) (tupleRead .checked input off Ts ho) := ih (fun T' hT' => hin T' (List.mem_cons_of_mem _ hT'))
      (fun T' hT' => hempty T' (List.mem_cons_of_mem _ hT')) (fun T' hT' => hdyn T' (List.mem_cons_of_mem _ hT'))
    have hs' := hs
    unfold IsSlice at hs'
    rw [tupleRead, tupleReadField, checkedSum_pair]
    cases hd : T.isDynamic with
    | true =>
      rw [if_pos rfl, SolCodec.slotSize_dynamic hd]
      refine Safe.bind ((safe_readWordOffset input ho).bind fun fo _ => ?_) fun val hval => ?_
      · rw [checkedSum_pair]
        refine safe_checkedAdd.bind fun pos hpos => ?_
        obtain ⟨hlt, rfl⟩ := returns_checkedAdd.mp hpos
        exact (hdyn T List.mem_cons_self hd).decodeTail input _ hs hlt fun hf => Bool.noConfusion hf
      · obtain ⟨fo, hfo, -⟩ := returns_bind.mp hval
        have hle := le_of_readWordOffset hfo
        refine safe_checkedAdd.bind fun ho' hho' => ?_
        obtain ⟨-, rfl⟩ := returns_checkedAdd.mp hho'
        exact (ih' (by omega) fun _ => by omega).bind fun _ _ => safe_pure _
    | false =>
      rw [if_neg Bool.false_ne_true, SolCodec.slotSize_static hd]
      rw [farFields, hd, Bool.not_false, Bool.true_and] at hfar
      by_cases h0 : T.headSize = 0
      · obtain ⟨v, hv⟩ := hempty T List.mem_cons_self hd h0
        rw [hv input ho hs hho, pure_andThen, h0, checkedAdd_zero hho, pure_andThen]
        rw [h0, bne_self_eq_false, Bool.false_or] at hfar
        exact (ih' hho hfar).bind fun _ _ => safe_pure _
      · have hroom := hfar (by simp [h0])
        refine ((hin T List.mem_cons_self).safe hd _ input ho hs hroom).bind fun val hval => ?_
        have hle := (hin T List.mem_cons_self).extent hd input ho val hs hho hval
        refine safe_checkedAdd.bind fun ho' hho' => ?_
        obtain ⟨-, rfl⟩ := returns_checkedAdd.mp hho'
        exact (ih' (by omega) fun _ => by omega).bind fun _ _ => safe_pure _

theorem guarded_tuple {Ts : List SolCodec} (hin : ∀ T ∈ Ts, StaysInside T)
    (hempty : ∀ T ∈ Ts, T.isDynamic = false → T.headSize = 0 → ReadsNothing T)
    (hdyn : ∀ T ∈ Ts, T.isDynamic = true → Guarded T false) : Guarded (tuple Ts) (farFields Ts) where
  decodeAt _ _ hs hoff hfar := tupleRead_guarded hin hempty hdyn hs hoff hfar
  decodeTail _ _ hs hoff hfar := tupleRead_guarded hin hempty hdyn hs hoff hfar

/-! ### Types without bytes -/

theorem readsNothing_array {T : SolCodec} (hd : T.isDynamic = false) (h0 : T.headSize = 0) (h : ReadsNothing T)
    (n : ℕ) : ReadsNothing (array T n) := by
  obtain ⟨v, hv⟩ := h
  have hloop : ∀ n, ∃ vs, ∀ input off i, IsSlice input → off < 2 ^ 64 →
      arrayRead T .checked input off i n = pure vs := by
    intro n
    induction n with
    | zero => exact ⟨_, fun _ _ _ _ _ => rfl⟩
    | succ n ih =>
      obtain ⟨vs, hvs⟩ := ih
      refine ⟨⟨v :: vs.1, by rw [List.length_cons, vs.2]⟩, fun input off i hs hoff => ?_⟩
      rw [arrayRead, arrayReadElem, SolCodec.slotSize_static hd, h0, umul_zero, pure_andThen, checkedSum_pair,
        checkedAdd_zero hoff, pure_andThen, hd, if_neg Bool.false_ne_true, hv input off hs hoff, pure_andThen,
        hvs input off (i + 1) hs hoff, pure_andThen]
  obtain ⟨vs, hvs⟩ := hloop n
  exact ⟨vs, fun input off hs hoff => hvs input off 0 hs hoff⟩

theorem readsNothing_tuple {Ts : List SolCodec} (h : ∀ T ∈ Ts, T.isDynamic = false ∧ T.headSize = 0 ∧ ReadsNothing T) :
    ReadsNothing (tuple Ts) := by
  have hloop : ∃ vals, ∀ input off ho, IsSlice input → ho < 2 ^ 64 →
      tupleRead .checked input off Ts ho = pure vals := by
    induction Ts with
    | nil => exact ⟨(), fun _ _ _ _ _ => rfl⟩
    | cons T Ts ih =>
      obtain ⟨vals, hvals⟩ := ih fun T' hT' => h T' (List.mem_cons_of_mem _ hT')
      obtain ⟨hd, h0, v, hv⟩ := h T List.mem_cons_self
      refine ⟨(v, vals), fun input off ho hs hho => ?_⟩
      rw [tupleRead, tupleReadField, hd, if_neg Bool.false_ne_true, hv input ho hs hho, pure_andThen,
        SolCodec.slotSize_static hd, h0, checkedSum_pair, checkedAdd_zero hho, pure_andThen,
        hvals input off ho hs hho]
      rfl
  obtain ⟨vals, hvals⟩ := hloop
  exact ⟨vals, fun input off hs hoff => hvals input off off hs hoff⟩

/-! ### Sizes of static fields -/

theorem slotSize_le_head {Ts : List SolCodec} {T : SolCodec} (h : T ∈ Ts) : T.slotSize ≤ tupleHeadSize Ts := by
  induction Ts with
  | nil => simp at h
  | cons T' Ts ih =>
    rw [tupleHeadSize_cons]
    rcases List.mem_cons.mp h with rfl | h
    · exact Nat.le_add_right _ _
    · exact le_trans (ih h) (Nat.le_add_left _ _)

/-- Static fields with any bytes begin with bytes. -/
theorem farFields_of_static {Ts : List SolCodec} (hd : Ts.any SolCodec.isDynamic = false)
    (h : tupleHeadSize Ts ≠ 0) : farFields Ts = true := by
  induction Ts with
  | nil => exact absurd rfl h
  | cons T Ts ih =>
    rw [List.any_cons, Bool.or_eq_false_iff] at hd
    rw [tupleHeadSize_cons, SolCodec.slotSize_static hd.1] at h
    rw [farFields, hd.1, Bool.not_false, Bool.true_and, Bool.or_eq_true, bne_iff_ne]
    by_cases h0 : T.headSize = 0
    · exact .inr (ih hd.2 (by omega))
    · exact .inl h0

end PvmContract.Types
