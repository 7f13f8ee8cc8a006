import PvmContract.Macros.UniverseLaws

/-!
# Buffers that are too small

`Bounded`: a writer that does not panic has had room for the whole body, and keeps
the length of its buffer. It holds of every type, by induction: in a sequence the
last tail ends where the body ends, and without tails the last component that does
not fit is handed a slice that is too short for it. For a static type the body is
the head, which is `NeedsRoom`.
-/

namespace PvmContract.Macros

open Data Run PvmContract.Types Abi AbiType

/-- The writer of a static type needs room for the whole head. -/
structure NeedsRoom (c : SolCodec) : Prop where
  keeps : ∀ v buf out, c.encodeBodyTo v buf = some out → out.length = buf.length
  short : ∀ v buf, buf.length < c.headSize → c.encodeBodyTo v buf = none

/-- The writer needs room for the whole body, and keeps the length of its buffer. -/
def Bounded (c : SolCodec) : Prop :=
  ∀ v buf out, c.encodeBodyTo v buf = some out → c.encodeBodyLen v ≤ buf.length ∧ out.length = buf.length

/-- For a static type the body is the head. -/
theorem needsRoom_of_bounded {c : SolCodec} {τ : AbiType} {toAbi : c.Carrier → τ.Val} (hc : Represents c τ toAbi)
    (hd : c.isDynamic = false) (h : Bounded c) : NeedsRoom c where
  keeps v buf out hout := (h v buf out hout).2
  short v buf hlt := by
    cases hout : c.encodeBodyTo v buf with
    | none => rfl
    | some out =>
      have hroom := (h v buf out hout).1
      rw [hc.len, ← hc.slot v hd] at hroom
      exact absurd hroom (Nat.not_le_of_lt hlt)

/-! ### Slices -/

theorem onSlice_eq_some {buf out : List UInt8} {a b : ℕ} {f : List UInt8 → Option (List UInt8)}
    (h : onSlice buf a b f = some out) :
    (a ≤ b ∧ b ≤ buf.length) ∧ ∃ mid, f ((buf.drop a).take (b - a)) = some mid ∧ out = buf.take a ++ mid ++ buf.drop b := by
  unfold onSlice at h
  split_ifs at h with hrange
  obtain ⟨mid, hmid, hout⟩ := Option.map_eq_some_iff.mp h
  exact ⟨hrange, mid, hmid, hout.symm⟩

theorem length_onSlice {buf out : List UInt8} {a b : ℕ} {f : List UInt8 → Option (List UInt8)}
    (hf : ∀ s mid, f s = some mid → mid.length = s.length) (h : onSlice buf a b f = some out) :
    out.length = buf.length := by
  obtain ⟨⟨hab, hb⟩, mid, hmid, rfl⟩ := onSlice_eq_some h
  have hlen := hf _ _ hmid
  simp only [List.length_append, List.length_take, List.length_drop] at hlen ⊢
  omega

theorem length_fill {buf out : List UInt8} {a b : ℕ} {x : UInt8} (h : fill buf a b x = some out) :
    out.length = buf.length :=
  length_onSlice (fun s mid hmid => by rw [← Option.some.inj hmid, List.length_replicate]) h

theorem length_copy {src s mid : List UInt8} (h : copyFromSlice src s = some mid) : mid.length = s.length := by
  unfold copyFromSlice at h
  split_ifs at h with hlen
  rw [← Option.some.inj h, hlen]

/-! ### Words -/

/-- The last byte of the word is written too. -/
theorem bounded_staticType {C : Type} {name : String} {encodeFn : C → List UInt8 → Option (List UInt8)}
    {get : Profile → List UInt8 → ℕ → Run (List UInt8)} {getUnchecked : List UInt8 → ℕ → Option (List UInt8)}
    {convert : List UInt8 → C}
    (h : ∀ v buf out, encodeFn v buf = some out → 32 ≤ buf.length ∧ out.length = buf.length) :
    Bounded (staticType C name encodeFn get getUnchecked convert) := h

theorem padLeft_room {x : UInt8} {bs buf out : List UInt8} (h : padLeft x bs buf = some out) :
    32 ≤ buf.length ∧ out.length = buf.length := by
  obtain ⟨mid, hmid, hout⟩ := Option.bind_eq_some_iff.mp h
  have hlen := length_fill hmid
  rw [← hlen]
  exact ⟨(onSlice_eq_some hout).1.2, length_onSlice (fun _ _ => length_copy) hout⟩

theorem copyWord_room {bs buf out : List UInt8} (h : copyWord bs buf = some out) :
    32 ≤ buf.length ∧ out.length = buf.length :=
  ⟨(onSlice_eq_some h).1.2, length_onSlice (fun _ _ => length_copy) h⟩

theorem padRight_room {bs buf out : List UInt8} (h : padRight bs buf = some out) :
    32 ≤ buf.length ∧ out.length = buf.length := by
  obtain ⟨mid, hmid, hout⟩ := Option.bind_eq_some_iff.mp h
  have hlen := length_onSlice (fun _ _ => length_copy) hmid
  rw [← hlen]
  exact ⟨(onSlice_eq_some hout).1.2, length_fill hout⟩

theorem writeWord_room {buf out : List UInt8} {ho n : ℕ} (h : writeWord buf ho n = some out) :
    ho + 32 ≤ buf.length ∧ out.length = buf.length := by
  obtain ⟨mid, hmid, hout⟩ := Option.bind_eq_some_iff.mp h
  have hlen := length_fill hmid
  rw [← hlen]
  exact ⟨(onSlice_eq_some hout).1.2, length_onSlice (fun _ _ => length_copy) hout⟩

theorem writePointer_room {buf out : List UInt8} {ho n : ℕ} (h : writePointer buf ho n = some out) :
    ho + 32 ≤ buf.length ∧ out.length = buf.length := by
  obtain ⟨mid, hmid, hout⟩ := Option.bind_eq_some_iff.mp h
  have hlen := length_fill hmid
  rw [← hlen]
  exact ⟨(onSlice_eq_some hout).1.2, length_onSlice (fun _ _ => length_copy) hout⟩

theorem bounded_prim (k : Prim) : Bounded k.impl := by
  cases k with
  | U256 | I256 => exact bounded_staticType fun _ _ _ h => copyWord_room h
  | _ => exact bounded_staticType fun _ _ _ h => padLeft_room h

theorem bounded_bytesN (n : ℕ) : Bounded (Types.bytesN n) := fun _ _ _ h => padRight_room h

theorem bounded_expandEnum (n : ℕ) : Bounded (expandEnum n) := fun _ _ _ h => padLeft_room h

/-! ### Byte strings -/

theorem bytesBodyTo_room {bs buf out : List UInt8} (h : bytesBodyTo bs buf = some out) :
    bytesBodyLen bs.length ≤ buf.length ∧ out.length = buf.length := by
  obtain ⟨mid, hmid, h⟩ := Option.bind_eq_some_iff.mp h
  obtain ⟨mid', hmid', hout⟩ := Option.bind_eq_some_iff.mp h
  have hlen := (writeWord_room hmid).2
  have hlen' := length_onSlice (fun _ _ => length_copy) hmid'
  rw [← hlen, ← hlen']
  exact ⟨(onSlice_eq_some hout).1.2, length_fill hout⟩

/-! ### Sequences -/

section

variable {T : SolCodec} (h : NeedsRoom T)

include h

/-- A static component is written to what is left of the buffer, or does not fit. -/
theorem NeedsRoom.onSlice_rest {v : T.Carrier} {buf out : List UInt8} {ho : ℕ}
    (hout : onSlice buf ho buf.length (T.encodeBodyTo v) = some out) :
    ho + T.headSize ≤ buf.length ∧ out.length = buf.length := by
  refine ⟨?_, length_onSlice (h.keeps v) hout⟩
  obtain ⟨⟨hle, -⟩, mid, hmid, -⟩ := onSlice_eq_some hout
  by_contra hlt
  rw [h.short v _ (by rw [List.length_take, List.length_drop]; omega)] at hmid
  exact absurd hmid (by simp)

theorem arrayWriteStatic_room {vs : List T.Carrier} {ho : ℕ} {buf out : List UInt8} (hd : T.isDynamic = false)
    (hho : ho ≤ buf.length) (hout : arrayWriteStatic T vs ho buf = some out) :
    ho + T.headSize * vs.length ≤ buf.length ∧ out.length = buf.length := by
  induction vs generalizing ho buf with
  | nil =>
    rw [← Option.some.inj hout]
    exact ⟨hho, rfl⟩
  | cons v vs ih =>
    obtain ⟨mid, hmid, hout⟩ := Option.bind_eq_some_iff.mp hout
    obtain ⟨hfit, hlen⟩ := h.onSlice_rest hmid
    rw [SolCodec.slotSize_static hd] at hout
    obtain ⟨hrest, hout'⟩ := ih (by rw [hlen]; exact hfit) hout
    rw [hlen] at hrest hout'
    refine ⟨?_, hout'⟩
    rw [List.length_cons, Nat.mul_succ, Nat.add_comm (T.headSize * _), ← Nat.add_assoc]
    exact hrest

end

section

variable {T : SolCodec} (h : Bounded T)

include h

/-- The tails of a sequence end in the buffer, if they start there. -/
theorem vecWriteDynamic_room {vs : List T.Carrier} {ho tp : ℕ} {buf out : List UInt8}
    (htp : vs = [] → tp ≤ buf.length) (hout : vecWriteDynamic T vs ho tp buf = some out) :
    tp + (vs.map T.encodeBodyLen).sum ≤ buf.length ∧ out.length = buf.length := by
  induction vs generalizing ho tp buf with
  | nil =>
    rw [← Option.some.inj hout]
    exact ⟨htp rfl, rfl⟩
  | cons v vs ih =>
    obtain ⟨mid, hmid, hout⟩ := Option.bind_eq_some_iff.mp hout
    obtain ⟨mid', hmid', hout⟩ := Option.bind_eq_some_iff.mp hout
    have hlen := (writeWord_room hmid).2
    have hlen' := length_onSlice (fun s mid hs => (h v s mid hs).2) hmid'
    have hfit := (onSlice_eq_some hmid').1.2
    obtain ⟨hrest, hout'⟩ := ih (fun _ => by rw [hlen']; exact hfit) hout
    rw [hlen', hlen] at hrest hout'
    rw [List.map_cons, List.sum_cons, ← Nat.add_assoc]
    exact ⟨hrest, hout'⟩

theorem vecWriteStatic_room {vs : List T.Carrier} {pos : ℕ} {buf out : List UInt8} (hpos : pos ≤ buf.length)
    (hout : vecWriteStatic T vs pos buf = some out) :
    pos + (vs.map T.encodeBodyLen).sum ≤ buf.length ∧ out.length = buf.length := by
  induction vs generalizing pos buf with
  | nil =>
    rw [← Option.some.inj hout]
    exact ⟨hpos, rfl⟩
  | cons v vs ih =>
    obtain ⟨mid, hmid, hout⟩ := Option.bind_eq_some_iff.mp hout
    have hlen := length_onSlice (fun s mid hs => (h v s mid hs).2) hmid
    obtain ⟨hrest, hout'⟩ := ih (by rw [hlen]; exact (onSlice_eq_some hmid).1.2) hout
    rw [hlen] at hrest hout'
    rw [List.map_cons, List.sum_cons, ← Nat.add_assoc]
    exact ⟨hrest, hout'⟩

theorem arrayWriteDynamic_room {vs : List T.Carrier} {i tp : ℕ} {buf out : List UInt8}
    (htp : vs = [] → tp ≤ buf.length) (hout : arrayWriteDynamic T vs i tp buf = some out) :
    tp + (vs.map T.encodeBodyLen).sum ≤ buf.length ∧ out.length = buf.length := by
  induction vs generalizing i tp buf with
  | nil =>
    rw [← Option.some.inj hout]
    exact ⟨htp rfl, rfl⟩
  | cons v vs ih =>
    obtain ⟨mid, hmid, hout⟩ := Option.bind_eq_some_iff.mp hout
    obtain ⟨mid', hmid', hout⟩ := Option.bind_eq_some_iff.mp hout
    have hlen := (writePointer_room hmid).2
    have hlen' := length_onSlice (fun s mid hs => (h v s mid hs).2) hmid'
    have hfit := (onSlice_eq_some hmid').1.2
    obtain ⟨hrest, hout'⟩ := ih (fun _ => by rw [hlen']; exact hfit) hout
    rw [hlen', hlen] at hrest hout'
    rw [List.map_cons, List.sum_cons, ← Nat.add_assoc]
    exact ⟨hrest, hout'⟩

theorem bounded_Vec : Bounded (Types.Vec T) := by
  intro (vs : List T.Carrier) buf out hout
  obtain ⟨mid, hmid, hout⟩ := Option.bind_eq_some_iff.mp hout
  obtain ⟨hroom, hlen⟩ := writeWord_room hmid
  rw [Nat.zero_add] at hroom
  simp only [Types.Vec]
  split_ifs at hout ⊢ with hd
  · have hsize := vecWriteDynamic_room h (fun hnil => by rw [hnil, hlen]; exact hroom) hout
    rw [hlen] at hsize
    exact hsize
  · have hsize := vecWriteStatic_room h (by rw [hlen]; exact hroom) hout
    rw [hlen] at hsize
    exact hsize

theorem bounded_array (hroom : T.isDynamic = false → NeedsRoom T) (n : ℕ) : Bounded (Types.array T n) := by
  intro (vs : {vs : List T.Carrier // vs.length = n}) buf out hout
  simp only [Types.array] at hout ⊢
  split_ifs at hout ⊢ with hd
  · have hsize := arrayWriteDynamic_room h (fun hnil => by rw [← vs.2, hnil, List.length_nil]; omega) hout
    rw [SolCodec.slotSize_dynamic hd] at hsize
    exact hsize
  · have hd' : T.isDynamic = false := by simpa using hd
    have hsize := arrayWriteStatic_room (hroom hd') hd' (Nat.zero_le _) hout
    rw [vs.2, Nat.zero_add] at hsize
    exact hsize

end

section

variable {Ts : List SolCodec} (h : ∀ T ∈ Ts, Bounded T ∧ (T.isDynamic = false → NeedsRoom T))

include h

/-- The last tail of a tuple, or without tails its head, ends in the buffer. -/
theorem tupleWrite_room {vals : Types.Fields Ts} {ho tp : ℕ} {buf out : List UInt8} (hho : ho ≤ buf.length)
    (hout : tupleWrite Ts vals ho tp buf = some out) :
    (if Ts.any SolCodec.isDynamic then tp + tupleTailLen Ts vals else ho + tupleHeadSize Ts) ≤ buf.length ∧
      out.length = buf.length := by
  induction Ts generalizing ho tp buf with
  | nil =>
    rw [← Option.some.inj hout]
    exact ⟨hho, rfl⟩
  | cons T Ts ih =>
    obtain ⟨val, vals⟩ := vals
    obtain ⟨hbounded, hroom⟩ := h T List.mem_cons_self
    have ih := fun {ho tp buf} => @ih (fun U hU => h U (List.mem_cons_of_mem _ hU)) vals ho tp buf
    rw [tupleWrite] at hout
    rw [List.any_cons, tupleTailLen, tupleHeadSize_cons]
    split_ifs at hout with hd
    · obtain ⟨mid, hmid, hout⟩ := Option.bind_eq_some_iff.mp hout
      obtain ⟨mid', hmid', hout⟩ := Option.bind_eq_some_iff.mp hout
      obtain ⟨hhead, hlen⟩ := writePointer_room hmid
      have hlen' := length_onSlice (fun s mid hs => (hbounded val s mid hs).2) hmid'
      have htail := (onSlice_eq_some hmid').1.2
      rw [SolCodec.slotSize_dynamic hd] at hout
      obtain ⟨hrest, hout'⟩ := ih (by rw [hlen', hlen]; exact hhead) hout
      rw [hlen] at htail
      rw [hlen', hlen] at hrest hout'
      refine ⟨?_, hout'⟩
      simp only [hd, Bool.true_or, if_true]
      split_ifs at hrest with hany
      · omega
      · rw [tupleTailLen_static (by simpa using hany)]
        exact htail
    · have hd' : T.isDynamic = false := by simpa using hd
      obtain ⟨mid, hmid, hout⟩ := Option.bind_eq_some_iff.mp hout
      obtain ⟨hfit, hlen⟩ := (hroom hd').onSlice_rest hmid
      rw [SolCodec.slotSize_static hd'] at hout ⊢
      obtain ⟨hrest, hout'⟩ := ih (by rw [hlen]; exact hfit) hout
      rw [hlen] at hrest hout'
      refine ⟨?_, hout'⟩
      simp only [hd', Bool.false_or, Bool.false_eq_true, if_false, Nat.zero_add, ← Nat.add_assoc]
      exact hrest

/-- The body of a tuple ends in the buffer. -/
theorem tupleWrite_fits {vals : Types.Fields Ts} {buf out : List UInt8}
    (hout : tupleWrite Ts vals 0 (tupleHeadSize Ts) buf = some out) :
    tupleHeadSize Ts + tupleTailLen Ts vals ≤ buf.length ∧ out.length = buf.length := by
  obtain ⟨hfit, hlen⟩ := tupleWrite_room h (Nat.zero_le _) hout
  refine ⟨?_, hlen⟩
  split_ifs at hfit with hany
  · exact hfit
  · rw [tupleTailLen_static (by simpa using hany)]
    omega

end

theorem staticWrite_room {Ts : List SolCodec} (h : ∀ T ∈ Ts, NeedsRoom T ∧ T.isDynamic = false)
    {vals : Types.Fields Ts} {ho : ℕ} {buf out : List UInt8} (hho : ho ≤ buf.length)
    (hout : staticWrite Ts vals ho buf = some out) :
    ho + tupleHeadSize Ts ≤ buf.length ∧ out.length = buf.length := by
  induction Ts generalizing ho buf with
  | nil =>
    rw [← Option.some.inj hout]
    exact ⟨hho, rfl⟩
  | cons T Ts ih =>
    obtain ⟨val, vals⟩ := vals
    obtain ⟨hroom, hd⟩ := h T List.mem_cons_self
    obtain ⟨mid, hmid, hout⟩ := Option.bind_eq_some_iff.mp hout
    have hlen := length_onSlice (hroom.keeps val) hmid
    have hfit := (onSlice_eq_some hmid).1.2
    obtain ⟨hrest, hout'⟩ := ih (fun U hU => h U (List.mem_cons_of_mem _ hU)) (by rw [hlen]; exact hfit) hout
    rw [hlen] at hrest hout'
    rw [tupleHeadSize_cons, SolCodec.slotSize_static hd, ← Nat.add_assoc]
    exact ⟨hrest, hout'⟩

/-- The body of a derived struct ends in the buffer. -/
theorem dynamicWrite_fits {fields : List Field} (hc : ∀ f ∈ fields, f.Consistent)
    (h : ∀ T ∈ implOf fields, Bounded T ∧ (T.isDynamic = false → NeedsRoom T))
    {vals : Types.Fields (implOf fields)} {buf out : List UInt8}
    (hout : dynamicWrite fields vals 0 (buildDynamicHeadSum fields) buf = some out) :
    buildDynamicHeadSum fields + dynamicTailLen fields vals ≤ buf.length ∧ out.length = buf.length := by
  rw [dynamicWrite_eq (folds hc), buildDynamicHeadSum_eq (folds hc)] at hout
  rw [buildDynamicHeadSum_eq (folds hc), dynamicTailLen_eq (folds hc)]
  exact tupleWrite_fits h hout

theorem bounded_expandSolType (idents : List (Option String)) {fields : List Field} (hc : ∀ f ∈ fields, f.Consistent)
    (h : ∀ T ∈ implOf fields, Bounded T ∧ (T.isDynamic = false → NeedsRoom T)) :
    Bounded (expandSolType idents fields) := by
  by_cases hn : needsDynamic fields = true
  · have heq : expandSolType idents fields = expandDynamic idents fields := if_pos hn
    rw [heq]
    exact fun v buf out hout => dynamicWrite_fits hc h hout
  · have hn' : needsDynamic fields = false := by simpa using hn
    have heq : expandSolType idents fields = expandStatic idents fields := if_neg hn
    rw [heq]
    intro v buf out hout
    have hstatic : ∀ T ∈ implOf fields, NeedsRoom T ∧ T.isDynamic = false := fun T hT =>
      have hd : T.isDynamic = false := by
        simpa using List.any_eq_false.mp (impl_static_of_needsDynamic (folds hc) hn') T hT
      ⟨(h T hT).2 hd, hd⟩
    have hsize := staticWrite_room hstatic (Nat.zero_le _)
      (show staticWrite (implOf fields) v 0 buf = some out from hout)
    rw [Nat.zero_add, ← buildTotalSize_eq (folds hc) hn'] at hsize
    exact hsize

/-! ### All types -/

namespace Ty

/-- **The writer of a type needs room for the whole body.** -/
theorem bounded {t : Ty} (h : t.Codable = true) : Bounded t.impl := by
  have hboth : ∀ t : Ty, t.Codable = true → Bounded t.impl →
      Bounded t.impl ∧ (t.impl.isDynamic = false → NeedsRoom t.impl) :=
    fun t ht hb => ⟨hb, fun hd => needsRoom_of_bounded (represents ht) hd hb⟩
  have hlist : ∀ ts : List Ty, (∀ t ∈ ts, t.Codable = true) → (∀ t ∈ ts, Bounded t.impl) →
      ∀ T ∈ impls ts, Bounded T ∧ (T.isDynamic = false → NeedsRoom T) := by
    intro ts hc hts T hT
    obtain ⟨t, ht, rfl⟩ := mem_impls hT
    exact hboth t (hc t ht) (hts t ht)
  refine induction_of_all (motive := fun t => t.Codable = true → Bounded t.impl)
    (fun k _ => bounded_prim k) (fun hu => by simp [notUnit] at hu) (fun n _ _ => bounded_bytesN n)
    (fun _ _ _ _ hout => bytesBodyTo_room hout) (fun _ _ _ _ hout => bytesBodyTo_room hout)
    (fun _ ih h => bounded_Vec (ih (all_vec h)))
    (fun elem n _ ih h => ?_) (fun elems _ ih h => ?_)
    (fun idents fields _ ih h => ?_) (fun n _ _ => bounded_expandEnum n) t h h
  · have hb := hboth elem (all_array h) (ih (all_array h))
    exact bounded_array hb.1 hb.2 n
  · intro v buf out hout
    exact tupleWrite_fits (hlist elems (all_tuple h) fun t ht => ih t ht (all_tuple h t ht)) hout
  · have hc := consistent_rusts fun t ht => proper_of_codable (all_struct h t ht)
    exact bounded_expandSolType idents hc
      (hlist fields (all_struct h) fun t ht => ih t ht (all_struct h t ht))

theorem bounded_impls {ts : List Ty} (h : ∀ t ∈ ts, t.Codable = true) :
    ∀ T ∈ impls ts, Bounded T ∧ (T.isDynamic = false → NeedsRoom T) := by
  intro T hT
  obtain ⟨t, ht, rfl⟩ := mem_impls hT
  exact ⟨bounded (h t ht), fun hd => needsRoom_of_bounded (represents (h t ht)) hd (bounded (h t ht))⟩

end Ty

end PvmContract.Macros
