import PvmContract.Contract.ErrorLaws
import PvmContract.Contract.Output
import PvmContract.Macros.RoomLaws

/-!
# The bytes that are handed over

Every buffer that the generated code reserves is as long as the encoding that it is
for, or longer by what the view leaves out, but for one: without an allocator an
error is encoded into 256 bytes. A type with static fields only may need more, which
its documentation calls always safe. `handed_exact_iff` says that this is the only
way for the host to be handed anything but the encoding.

The encoders are exact on any buffer with room (`Represents.encodeTo_writes`,
`WritesSized`); that they need the room (`RoomLaws`) is what makes the condition
exact.
-/

namespace PvmContract.Contract.Output

open PvmContract.Data PvmContract.Types PvmContract.Macros PvmContract.Abi AbiType Run

/-! ### Sizes of static types -/

/-- The sizes of a sequence are the sums of the sizes of its types. -/
theorem tupleEncodedSize_eq {Ts : List SolCodec}
    (h : ∀ T ∈ Ts, ∀ n, T.encodedSize = some n → T.isDynamic = false ∧ T.headSize = n) {n : ℕ}
    (hn : tupleEncodedSize Ts = some n) : Ts.any SolCodec.isDynamic = false ∧ tupleHeadSize Ts = n := by
  induction Ts generalizing n with
  | nil => exact ⟨rfl, Option.some.inj hn⟩
  | cons T Ts ih =>
    obtain ⟨a, ha, hn⟩ := Option.bind_eq_some_iff.mp hn
    obtain ⟨b, hb, hn⟩ := Option.bind_eq_some_iff.mp hn
    obtain ⟨hd, hsize⟩ := h T List.mem_cons_self a ha
    obtain ⟨hany, hrest⟩ := ih (fun U hU => h U (List.mem_cons_of_mem _ hU)) hb
    refine ⟨by rw [List.any_cons, hd, hany]; rfl, ?_⟩
    rw [tupleHeadSize_cons, SolCodec.slotSize_static hd, hsize, hrest]
    exact Option.some.inj hn

/-- `ENCODED_SIZE` is `HEAD_SIZE`, where it is implemented. -/
theorem encodedSize_eq {t : Ty} (h : t.Codable = true) {n : ℕ} (hn : t.impl.encodedSize = some n) :
    t.impl.isDynamic = false ∧ t.impl.headSize = n := by
  have hlist : ∀ ts : List Ty,
      (∀ t ∈ ts, ∀ n, t.impl.encodedSize = some n → t.impl.isDynamic = false ∧ t.impl.headSize = n) →
      ∀ T ∈ Ty.impls ts, ∀ n, T.encodedSize = some n → T.isDynamic = false ∧ T.headSize = n := by
    intro ts hts T hT
    obtain ⟨t, ht, rfl⟩ := Ty.mem_impls hT
    exact hts t ht
  have hnone : ∀ {P : Prop} n, (none : Option ℕ) = some n → P := fun n hn => absurd hn (by simp)
  refine Ty.induction_of_all
    (motive := fun t => ∀ n, t.impl.encodedSize = some n → t.impl.isDynamic = false ∧ t.impl.headSize = n)
    (fun k n hn => ?_) (fun hu => by simp [Ty.notUnit] at hu) (fun _ _ n hn => ⟨rfl, Option.some.inj hn⟩)
    (fun n hn => hnone n hn) (fun n hn => hnone n hn) (fun _ _ n hn => hnone n hn)
    (fun elem k _ ih n hn => ?_) (fun elems _ ih n hn => ?_) (fun idents fields _ ih n hn => ?_)
    (fun _ _ n hn => ⟨rfl, Option.some.inj hn⟩) t h n hn
  · cases k <;> exact ⟨rfl, Option.some.inj hn⟩
  · obtain ⟨m, hm, rfl⟩ := Option.map_eq_some_iff.mp hn
    obtain ⟨hd, hsize⟩ := ih m hm
    refine ⟨hd, ?_⟩
    change elem.impl.slotSize * k = m * k
    rw [SolCodec.slotSize_static hd, hsize]
  · exact tupleEncodedSize_eq (hlist elems ih) hn
  · have hn' : (expandSolType idents (Ty.rusts fields)).encodedSize = some n := hn
    rw [expandSolType] at hn'
    split at hn'
    · exact absurd hn' (by simp [expandDynamic])
    · rename_i hneeds
      have heq : (Ty.struct idents fields).impl = expandStatic idents (Ty.rusts fields) := if_neg hneeds
      rw [heq]
      exact ⟨rfl, Option.some.inj hn'⟩

/-! ### The one `MAX_RETURN_LEN` -/

theorem le_foldl_max (sizes : List ℕ) (m : ℕ) :
    m ≤ sizes.foldl (fun m s => if s > m then s else m) m ∧
      ∀ s ∈ sizes, s ≤ sizes.foldl (fun m s => if s > m then s else m) m := by
  induction sizes generalizing m with
  | nil => exact ⟨le_rfl, fun s hs => absurd hs List.not_mem_nil⟩
  | cons s sizes ih =>
    obtain ⟨hstart, hall⟩ := ih (if s > m then s else m)
    have hs : s ≤ if s > m then s else m := by split <;> omega
    have hm : m ≤ if s > m then s else m := by split <;> omega
    refine ⟨hm.trans hstart, fun s' hs' => ?_⟩
    rcases List.mem_cons.mp hs' with rfl | hs'
    · exact hs.trans hstart
    · exact hall s' hs'

theorem mem_of_mapM {α β : Type} {f : α → Option β} {as : List α} {bs : List β} (h : as.mapM f = some bs) {a : α}
    (ha : a ∈ as) : ∃ b ∈ bs, f a = some b := by
  induction as generalizing bs with
  | nil => exact absurd ha List.not_mem_nil
  | cons a' as ih =>
    rw [List.mapM_cons] at h
    obtain ⟨b, hb, h⟩ := Option.bind_eq_some_iff.mp h
    obtain ⟨bs', hbs', h⟩ := Option.bind_eq_some_iff.mp h
    obtain rfl := Option.some.inj h
    rcases List.mem_cons.mp ha with rfl | ha
    · exact ⟨b, List.mem_cons_self, hb⟩
    · obtain ⟨b', hb', hf⟩ := ih hbs' ha
      exact ⟨b', List.mem_cons_of_mem _ hb', hf⟩

variable {c : ContractOutput} {len : ℕ}

/-- The buffer has room for the return value of every method. -/
theorem returnSize_le (hlen : maxReturnLen c = some len) {m : MethodOutput} (hm : m ∈ c.methods)
    (hne : m.returnTypes ≠ []) : ∃ size, returnSize c.useAlloc m = some size ∧ size ≤ len := by
  obtain ⟨sizes, hsizes, hfold⟩ := Option.bind_eq_some_iff.mp hlen
  have hmem : m ∈ c.methods.filter fun m => !m.returnTypes.isEmpty := by
    rw [List.mem_filter]
    exact ⟨hm, by simpa using hne⟩
  obtain ⟨size, hsize, hret⟩ := mem_of_mapM hsizes hmem
  rw [← Option.some.inj hfold]
  exact ⟨size, hret, (le_foldl_max sizes _).2 size hsize⟩

/-- Without an allocator it also has room for the fixed error path. -/
theorem floor_le (hlen : maxReturnLen c = some len) (halloc : c.useAlloc = false) : 256 ≤ len := by
  obtain ⟨sizes, -, hfold⟩ := Option.bind_eq_some_iff.mp hlen
  rw [← Option.some.inj hfold]
  have hfloor := (le_foldl_max sizes (if c.useAlloc then 0 else 256)).1
  rw [halloc, if_neg Bool.false_ne_true] at hfloor
  rw [halloc, if_neg Bool.false_ne_true]
  exact hfloor

/-! ### Buffers -/

theorem onFront_eq {α : Type} {buf mid : List UInt8} {len : ℕ} {f : List UInt8 → Option (List UInt8 × α)} {a : α}
    (hlen : len ≤ buf.length) (hf : f (buf.take len) = some (mid, a)) :
    onFront buf len f = some (mid ++ buf.drop len, a) := by
  rw [onFront, if_pos hlen, hf]
  rfl

/-- What is written to the front is what is seen there. -/
theorem getRange_front {mid rest : List UInt8} {n : ℕ} (hn : n ≤ mid.length) :
    getRange (mid ++ rest) 0 n = some (mid.take n) := by
  refine getRange_eq_some_iff.mpr ⟨Nat.zero_le n, ?_, ?_⟩
  · rw [List.length_append]
    omega
  · rw [List.drop_zero, Nat.sub_zero, List.take_append_of_le_length hn]

theorem length_resize {v w : List UInt8} {len : ℕ} (h : resize v len = some w) :
    len < capacityLimit ∧ w.length = len := by
  rw [resize] at h
  split at h
  · rename_i hlt
    rw [← Option.some.inj h, List.length_append, List.length_take, List.length_replicate]
    exact ⟨hlt, by omega⟩
  · exact absurd h (by simp)

theorem exists_resize (v : List UInt8) {len : ℕ} (h : len < capacityLimit) :
    ∃ w, resize v len = some w ∧ w.length = len := by
  have hw : resize v len = some (v.take len ++ List.replicate (len - v.length) 0) := if_pos h
  exact ⟨_, hw, (length_resize hw).2⟩

/-- A writer of `bs` on a slice of that length. -/
def WritesAll {α : Type} (f : List UInt8 → Option (List UInt8 × α)) (bs : List UInt8) (a : α) : Prop :=
  ∀ buf, buf.length = bs.length → f buf = some (bs, a)

/-- The slice shows what was written, as far as it is asked for. -/
theorem slice_view {α : Type} {buf mid : List UInt8} {len : ℕ} {f : List UInt8 → Option (List UInt8 × α)} {a : α}
    (hlen : len ≤ buf.length) (hf : f (buf.take len) = some (mid, a)) :
    ∃ out, slice.reserve buf len f = some (out, a) ∧ ∀ n ≤ mid.length, slice.view out n = some (mid.take n) :=
  ⟨_, onFront_eq hlen hf, fun _ hn => getRange_front hn⟩

/-- The two buffers of a build with an allocator show what was written, wherever that was. -/
theorem outBuf_view {α : Type} {f : List UInt8 → Option (List UInt8 × α)} {bs : List UInt8} {a : α}
    (hf : WritesAll f bs a) (out : OutBuf) (hlen : bs.length < capacityLimit) :
    ∃ out', outBuf.reserve out bs.length f = some (out', a) ∧ outBuf.view out' bs.length = some bs := by
  have hview : ∀ rest, getRange (bs ++ rest) 0 bs.length = some bs := fun rest => by
    rw [getRange_front le_rfl, List.take_length]
  by_cases hfit : bs.length ≤ out.stack.length
  · have hfront := onFront_eq hfit (hf (out.stack.take bs.length) (by rw [List.length_take]; omega))
    refine ⟨{ out with stack := bs ++ out.stack.drop bs.length }, ?_, ?_⟩
    · simp only [outBuf, if_pos hfit, hfront, Option.map_some]
    · have hfit' : bs.length ≤ (bs ++ out.stack.drop bs.length).length := by rw [List.length_append]; omega
      simp only [outBuf, if_pos hfit', hview]
  · obtain ⟨spill, hspill, hsize⟩ := exists_resize out.spill hlen
    have hfront := onFront_eq hsize.ge (hf (spill.take bs.length) (by rw [List.length_take]; omega))
    refine ⟨{ out with spill := bs ++ spill.drop bs.length }, ?_, ?_⟩
    · simp only [outBuf, if_neg hfit, hspill, Option.bind_eq_bind, Option.bind_some, hfront, Option.map_some]
    · simp only [outBuf, if_neg hfit, hview]

/-- What was reserved was not too long for a vector. -/
theorem outBuf_limit {α : Type} {f : List UInt8 → Option (List UInt8 × α)} {out : OutBuf} {len : ℕ} {r : OutBuf × α}
    (hstack : out.stack.length < capacityLimit) (h : outBuf.reserve out len f = some r) : len < capacityLimit := by
  by_cases hfit : len ≤ out.stack.length
  · exact Nat.lt_of_le_of_lt hfit hstack
  · simp only [outBuf, if_neg hfit] at h
    obtain ⟨spill, hspill, -⟩ := Option.bind_eq_some_iff.mp h
    exact (length_resize hspill).1

/-! ### Error values -/

/-- A writer that gives back no more than it was handed. -/
def KeepsSize (body : List UInt8 → Option (List UInt8 × ℕ)) : Prop :=
  ∀ buf out n, body buf = some (out, n) → n ≤ buf.length ∧ out.length = buf.length

theorem keepsSize_withSelector {selector : Selector} {body : List UInt8 → Option (List UInt8 × ℕ)}
    (h : KeepsSize body) : KeepsSize (withSelector selector body) := by
  intro buf out n hout
  obtain ⟨mid, hmid, hout⟩ := Option.bind_eq_some_iff.mp hout
  obtain ⟨rest, hrest, hout⟩ := Option.bind_eq_some_iff.mp hout
  have h4 := (onSlice_eq_some hmid).1.2
  have hlen := length_onSlice (fun _ _ => length_copy) hmid
  obtain ⟨hsize, hrestlen⟩ := h _ _ _ hrest
  rw [List.length_drop, hlen] at hsize hrestlen
  obtain ⟨rfl, rfl⟩ := Prod.mk.inj (Option.some.inj hout)
  rw [List.length_append, List.length_take, hlen, hrestlen]
  omega

theorem keepsSize_errorEncode {fields : List Ty} (h : ∀ t ∈ fields, t.Codable = true)
    (vals : Types.Fields (Ty.impls fields)) : KeepsSize (errorEncode (Ty.rusts fields) vals) := by
  intro buf out n hout
  rw [errorEncode] at hout
  split at hout
  · obtain ⟨rfl, rfl⟩ := Prod.mk.inj (Option.some.inj hout)
    exact ⟨Nat.zero_le _, rfl⟩
  · obtain ⟨out', hwrite, heq⟩ := Option.map_eq_some_iff.mp hout
    obtain ⟨rfl, rfl⟩ := Prod.mk.inj heq
    rw [Contract.dynamicTailOffset_eq]
    exact dynamicWrite_fits (Ty.consistent_rusts fun t ht => Ty.proper_of_codable (h t ht)) (Ty.bounded_impls h) hwrite

/-- A derived error says how long it is, if it does not panic. -/
theorem errorEncode_size {fields : List Field} {vals : Types.Fields (implOf fields)} {buf out : List UInt8} {n : ℕ}
    (hout : errorEncode fields vals buf = some (out, n)) : 4 + n = errorSize fields vals := by
  rw [errorEncode] at hout
  rw [errorSize]
  split_ifs at hout ⊢ with hempty
  · obtain ⟨-, rfl⟩ := Prod.mk.inj (Option.some.inj hout)
    rfl
  · obtain ⟨out', -, heq⟩ := Option.map_eq_some_iff.mp hout
    obtain ⟨-, rfl⟩ := Prod.mk.inj heq
    rw [Contract.dynamicTailOffset_eq]

/-- So it panics in a buffer that is too short. -/
theorem derived_short {fields : List Ty} (h : ∀ t ∈ fields, t.Codable = true) (selector : Selector)
    (vals : Types.Fields (Ty.impls fields)) {buf : List UInt8} (hlt : buf.length < errorSize (Ty.rusts fields) vals) :
    (expandSolError selector (Ty.rusts fields)).encodeTo vals buf = none := by
  cases hout : (expandSolError selector (Ty.rusts fields)).encodeTo vals buf with
  | none => rfl
  | some r =>
    obtain ⟨out, n⟩ := r
    have hkeeps := (keepsSize_withSelector (keepsSize_errorEncode h vals) buf out n hout).1
    obtain ⟨mid, hmid, hout⟩ := Option.bind_eq_some_iff.mp hout
    obtain ⟨rest, hrest, hout⟩ := Option.bind_eq_some_iff.mp hout
    obtain ⟨-, rfl⟩ := Prod.mk.inj (Option.some.inj hout)
    rw [← errorEncode_size hrest] at hlt
    exact absurd hkeeps (Nat.not_le_of_lt hlt)

theorem keepsSize_revertBody (message : String) : KeepsSize (revertBody message) := by
  intro buf out n hout
  rw [revertBody] at hout
  dsimp only at hout
  split at hout
  · obtain ⟨mid, hmid, hout⟩ := Option.bind_eq_some_iff.mp hout
    obtain ⟨rfl, rfl⟩ := Prod.mk.inj (Option.some.inj hout)
    exact ⟨Nat.min_le_left _ _, length_fill hmid⟩
  · obtain ⟨b₁, h₁, hout⟩ := Option.bind_eq_some_iff.mp hout
    obtain ⟨b₂, h₂, hout⟩ := Option.bind_eq_some_iff.mp hout
    obtain ⟨b₃, h₃, hout⟩ := Option.bind_eq_some_iff.mp hout
    obtain ⟨b₄, h₄, hout⟩ := Option.bind_eq_some_iff.mp hout
    obtain ⟨rfl, rfl⟩ := Prod.mk.inj (Option.some.inj hout)
    refine ⟨(onSlice_eq_some h₁).1.2, ?_⟩
    rw [length_onSlice (fun _ _ => length_copy) h₄, length_onSlice (fun _ _ => length_copy) h₃,
      length_onSlice (fun _ _ => length_copy) h₂, length_fill h₁]

theorem keepsSize_codeBody (code : UInt8) : KeepsSize (Panic.codeBody code) := by
  intro buf out n hout
  obtain ⟨b₁, h₁, hout⟩ := Option.bind_eq_some_iff.mp hout
  obtain ⟨b₂, h₂, hout⟩ := Option.bind_eq_some_iff.mp hout
  obtain ⟨rfl, rfl⟩ := Prod.mk.inj (Option.some.inj hout)
  exact ⟨(onSlice_eq_some h₁).1.2, by rw [length_onSlice (fun _ _ => length_copy) h₂, length_fill h₁]⟩

/-- What the output path needs of the implementation of an error type. -/
structure EncodesError (E : SolError) (data : E.Carrier → List UInt8) : Prop where
  /-- `encoded_size` is the number of bytes. -/
  size : ∀ e, E.encodedSize e = (data e).length
  /-- `encode_to` writes them and returns their number. -/
  writes : ∀ e, WritesSized (E.encodeTo e) (data e)
  /-- It never claims to have written more than the buffer holds. -/
  keeps : ∀ e, KeepsSize (E.encodeTo e)

section

variable (alloc : Bool)

mutual

/-- Every error type encodes. -/
theorem encodesError : (t : ErrTy) → Encodable t → EncodesError (t.impl alloc) (t.data alloc)
  | .struct selector fields, h => by
    rw [Encodable] at h
    exact ⟨(classifies_struct selector h).size, fun vals => withSelector_writes (errorEncode_writes h vals),
      fun vals => keepsSize_withSelector (keepsSize_errorEncode h vals)⟩
  | .enum variants, h => by
    rw [Encodable] at h
    exact encodesErrorList variants h
  | .revertString, _ => by
    exact ⟨(classifies_revertString alloc).size, fun message => withSelector_writes (revertBody_writes message),
      fun message => keepsSize_withSelector (keepsSize_revertBody message)⟩
  | .panic, _ => by
    exact ⟨Panic.classifies.size, fun e => withSelector_writes (Panic.codeBody_writes (Panic.code e)),
      fun e => keepsSize_withSelector (keepsSize_codeBody (Panic.code e))⟩

/-- So does every list of variants. -/
theorem encodesErrorList : (ts : List ErrTy) → EncodableList ts →
    EncodesError (expandSolErrorEnum (ErrTy.impls alloc ts)) (ErrTy.dataList alloc ts)
  | [], _ => ⟨fun e => (nomatch (e : Empty)), fun e => (nomatch (e : Empty)), fun e => (nomatch (e : Empty))⟩
  | t :: ts, h => by
    rw [EncodableList] at h
    have hhead := encodesError t h.1
    have htail := encodesErrorList ts h.2
    constructor
    · rintro (e | e)
      · exact hhead.size e
      · exact htail.size e
    · rintro (e | e)
      · exact hhead.writes e
      · exact htail.writes e
    · rintro (e | e)
      · exact hhead.keeps e
      · exact htail.keeps e

end

end

theorem writesAll_of_sized {body : List UInt8 → Option (List UInt8 × ℕ)} {bs : List UInt8} (h : WritesSized body bs)
    (hlt : bs.length < capacityLimit) : WritesAll body bs bs.length := by
  intro buf hbuf
  have hout := h buf (by rw [IsSlice, hbuf]; exact hlt) hbuf.ge
  rw [List.drop_of_length_le hbuf.le, List.append_nil] at hout
  exact hout

theorem writesAll_of_writes {f : List UInt8 → Option (List UInt8)} {bs : List UInt8} (h : Writes f bs)
    (hlt : bs.length < capacityLimit) : WritesAll (fun buf => (f buf).map (·, ())) bs () := by
  intro buf hbuf
  have hfit : buf.length < 2 ^ 64 := by
    rw [hbuf]
    exact Nat.lt_trans hlt (by decide)
  have hout := h buf hbuf.ge hfit
  rw [List.drop_of_length_le hbuf.le, List.append_nil] at hout
  exact congrArg (Option.map (·, ())) hout

/-! ### Return values on a buffer -/

section

variable {outputs : List Ty} {result : (successTy outputs).impl.Carrier}

/-- The encoding of a return value. -/
def returned (outputs : List Ty) (result : (successTy outputs).impl.Carrier) : List UInt8 :=
  Represents.topLevel (successTy outputs).impl (successTy outputs).abi (successTy outputs).toAbi result

theorem returned_nil (result : (successTy []).impl.Carrier) : returned [] result = [] := rfl

theorem length_returned (hc : (successTy outputs).Codable = true) (result : (successTy outputs).impl.Carrier) :
    (successTy outputs).impl.encodeLen result = (returned outputs result).length :=
  (Ty.represents hc).encodeLen_eq result

/-- A static return value takes its head. -/
theorem length_returned_static (hc : (successTy outputs).Codable = true)
    (hd : (successTy outputs).impl.isDynamic = false) (result : (successTy outputs).impl.Carrier) :
    (successTy outputs).impl.headSize = (returned outputs result).length := by
  rw [returned, (Ty.represents hc).topLevel_eq, hd, Bool.not_false, Bool.or_true, if_pos rfl]
  exact (Ty.represents hc).slot result hd

theorem returnData_nil {S : Type} (sink : OutSink S) (useAlloc : Bool) (result : (successTy []).impl.Carrier) (out : S) :
    returnData sink useAlloc [] result out = sink.view out 0 := rfl

theorem returnData_alloc (hc : outputs ≠ [] → (successTy outputs).Codable = true) {out : OutBuf}
    (hstack : out.stack.length < capacityLimit) :
    returnData outBuf true outputs result out = some (returned outputs result) ↔
      (returned outputs result).length < capacityLimit := by
  by_cases hne : outputs = []
  · subst hne
    rw [returnData_nil, returned_nil]
    have hview : outBuf.view out 0 = some [] := by
      simp only [outBuf, if_pos (Nat.zero_le _)]
      exact getRange_eq_some_iff.mpr ⟨le_rfl, Nat.zero_le _, rfl⟩
    exact iff_of_true hview (by decide)
  · have hcod := hc hne
    have hlen := length_returned hcod result
    have hempty : outputs.isEmpty = false := by simpa using hne
    rw [returnData, encodeAndReturn, hempty, if_neg Bool.false_ne_true, returnLen, if_pos rfl, hlen]
    simp only [Option.bind_eq_bind, Option.bind_some]
    constructor
    · intro h
      obtain ⟨r, hr, -⟩ := Option.bind_eq_some_iff.mp h
      obtain ⟨r', hr', -⟩ := Option.bind_eq_some_iff.mp hr
      exact outBuf_limit hstack hr'
    · intro hlt
      obtain ⟨out', hout', hview⟩ := outBuf_view
        (writesAll_of_writes ((Ty.represents hcod).encodeTo_writes result) hlt) out hlt
      rw [← returned] at hout' hview
      rw [hout', Option.bind_some]
      exact hview

theorem returnData_slice (hc : outputs ≠ [] → (successTy outputs).Codable = true) {out : List UInt8}
    (hsize : outputs ≠ [] → ∃ size, (successTy outputs).impl.encodedSize = some size ∧ size ≤ out.length)
    (hlimit : out.length < capacityLimit) :
    returnData slice false outputs result out = some (returned outputs result) := by
  by_cases hne : outputs = []
  · subst hne
    rw [returnData_nil, returned_nil]
    exact getRange_eq_some_iff.mpr ⟨le_rfl, Nat.zero_le _, rfl⟩
  · have hcod := hc hne
    obtain ⟨size, henc, hle⟩ := hsize hne
    obtain ⟨hd, hhead⟩ := encodedSize_eq hcod henc
    have hlen := length_returned_static hcod hd result
    rw [hhead] at hlen
    have hempty : outputs.isEmpty = false := by simpa using hne
    have hlt : (returned outputs result).length < capacityLimit := by
      rw [← hlen]
      exact Nat.lt_of_le_of_lt hle hlimit
    have hwrite := writesAll_of_writes ((Ty.represents hcod).encodeTo_writes result) hlt (out.take size)
      (by rw [List.length_take, Nat.min_eq_left hle]; exact hlen)
    obtain ⟨out', hout', hview⟩ := slice_view
      (f := fun buf => ((successTy outputs).impl.encodeTo result buf).map (·, ())) hle hwrite
    have hall := hview size hlen.le
    rw [← returned, List.take_of_length_le hlen.ge] at hall
    rw [returnData, encodeAndReturn, hempty, if_neg Bool.false_ne_true, returnLen, if_neg Bool.false_ne_true, henc]
    simp only [Option.bind_eq_bind, Option.bind_some]
    rw [hout', Option.bind_some]
    exact hall

end

/-! ### Error values on a buffer -/

section

variable {E : SolError} {data : E.Carrier → List UInt8} (h : EncodesError E data) (p : Profile) (e : E.Carrier)

include h

theorem assertLen_passes (useAlloc : Bool) : assertLen useAlloc p (data e).length (E.encodedSize e) = some () := by
  rw [assertLen, h.size e, bne_self_eq_false, Bool.and_false, if_neg Bool.false_ne_true]

theorem revertOut_alloc {out : OutBuf} (hstack : out.stack.length < capacityLimit) :
    revertOut outBuf true p E e out = some (data e) ↔ (data e).length < capacityLimit := by
  rw [revertOut, revertCap, if_pos rfl, h.size e]
  constructor
  · intro hout
    obtain ⟨r, hr, -⟩ := Option.bind_eq_some_iff.mp hout
    exact outBuf_limit hstack hr
  · intro hlt
    obtain ⟨out', hout', hview⟩ := outBuf_view (writesAll_of_sized (h.writes e) hlt) out hlt
    have hassert := assertLen_passes h p e true
    rw [h.size e] at hassert
    rw [hout', Option.bind_eq_bind, Option.bind_some]
    dsimp only
    rw [hassert, Option.bind_eq_bind, Option.bind_some]
    exact hview

/-- Without an allocator the error gets 256 bytes of a buffer. -/
theorem onFront_fixed {out : List UInt8} (hroom : 256 ≤ out.length) :
    (do
      let (out, len) ← onFront out 256 (E.encodeTo e)
      assertLen false p len (E.encodedSize e)
      getRange out 0 len) = some (data e) ↔ (data e).length ≤ 256 := by
  have hwindow : (out.take 256).length = 256 := by rw [List.length_take, Nat.min_eq_left hroom]
  constructor
  · intro hout
    obtain ⟨⟨out', n⟩, hfront, hout⟩ := Option.bind_eq_some_iff.mp hout
    obtain ⟨_, -, hget⟩ := Option.bind_eq_some_iff.mp hout
    rw [onFront, if_pos hroom] at hfront
    obtain ⟨⟨mid, n'⟩, hmid, heq⟩ := Option.map_eq_some_iff.mp hfront
    obtain ⟨-, rfl⟩ := Prod.mk.inj heq
    -- what is seen is as long as the encoder says, which is no longer than its slice
    have hlen := length_of_getRange hget
    have hkeeps := (h.keeps e _ _ _ hmid).1
    rw [hwindow] at hkeeps
    rw [hlen]
    exact hkeeps
  · intro hle
    have hwrite := h.writes e (out.take 256) (by rw [IsSlice, hwindow]; decide) (by rw [hwindow]; exact hle)
    rw [onFront_eq hroom hwrite, Option.bind_eq_bind, Option.bind_some]
    dsimp only
    rw [assertLen_passes h, Option.bind_eq_bind, Option.bind_some, List.append_assoc, getRange_front le_rfl,
      List.take_length]

theorem revertOut_slice {out : List UInt8} (hroom : 256 ≤ out.length) :
    revertOut slice false p E e out = some (data e) ↔ (data e).length ≤ 256 :=
  onFront_fixed h p e hroom

omit h in
theorem revertOut_panic {out : List UInt8} (hroom : 256 ≤ out.length) (hnone : E.encodeTo e (out.take 256) = none) :
    revertOut slice false p E e out = none := by
  have hfront : onFront out 256 (E.encodeTo e) = none := by
    rw [onFront, if_pos hroom, hnone]
    rfl
  exact congrArg (Option.bind · _) hfront

theorem revertLocal_alloc : revertLocal true p E e = some (data e) ↔ (data e).length < capacityLimit := by
  rw [revertLocal, localBuf, if_pos rfl, revertCap, if_pos rfl, h.size e]
  constructor
  · intro hout
    obtain ⟨buf, hbuf, -⟩ := Option.bind_eq_some_iff.mp hout
    exact (length_resize hbuf).1
  · intro hlt
    obtain ⟨buf, hbuf, hlen⟩ := exists_resize [] hlt
    have hassert := assertLen_passes h p e true
    rw [h.size e] at hassert
    rw [hbuf, Option.bind_eq_bind, Option.bind_some, writesAll_of_sized (h.writes e) hlt buf hlen, Option.bind_eq_bind,
      Option.bind_some]
    dsimp only
    rw [hassert, Option.bind_eq_bind, Option.bind_some]
    exact getRange_eq_some_iff.mpr ⟨Nat.zero_le _, le_rfl, by rw [List.drop_zero, Nat.sub_zero, List.take_length]⟩

theorem revertLocal_slice : revertLocal false p E e = some (data e) ↔ (data e).length ≤ 256 := by
  have hbuf : (List.replicate 256 (0 : UInt8)).length = 256 := List.length_replicate
  have hfront : onFront (List.replicate 256 0) 256 (E.encodeTo e) = E.encodeTo e (List.replicate 256 0) := by
    rw [onFront, if_pos hbuf.ge, List.take_of_length_le hbuf.le, List.drop_of_length_le hbuf.le]
    cases E.encodeTo e (List.replicate 256 0) with
    | none => rfl
    | some out => exact congrArg (fun buf => some (buf, out.2)) (List.append_nil out.1)
  have hfixed := onFront_fixed h p e hbuf.ge
  rw [hfront] at hfixed
  exact hfixed

end

/-! ### The host -/

theorem withOut_alloc {α : Type} (halloc : c.useAlloc = true) (hlen : maxReturnLen c = some len)
    (k : {S : Type} → OutSink S → S → Option α) : withOut c k = k outBuf ⟨List.replicate len 0, []⟩ := by
  rw [withOut, hlen, halloc]
  rfl

theorem withOut_slice {α : Type} (halloc : c.useAlloc = false) (hlen : maxReturnLen c = some len)
    (k : {S : Type} → OutSink S → S → Option α) : withOut c k = k slice (List.replicate len 0) := by
  rw [withOut, hlen, halloc]
  rfl

theorem map_returned_iff {o : Option (List UInt8)} {bs : List UInt8} :
    o.map Answer.returned = some (.returned bs) ↔ o = some bs := by simp

theorem map_reverted_iff {o : Option (List UInt8)} {bs : List UInt8} :
    o.map Answer.reverted = some (.reverted bs) ↔ o = some bs := by simp

theorem handed_iff_of_alloc (hc : Accepted c) (halloc : c.useAlloc = true) (p : Profile) (g : Given c) :
    handed p c g = some (encoding c g) ↔ (encoding c g).data.length < capacityLimit := by
  obtain ⟨len, hlen, hlimit⟩ := hc.stack
  have hstack : (List.replicate len (0 : UInt8)).length < capacityLimit := by rwa [List.length_replicate]
  obtain ⟨useAlloc, methods, handlers⟩ := c
  obtain rfl : useAlloc = true := halloc
  cases g with
  | value m hm result =>
    rw [handed, encoding, map_returned_iff, withOut_alloc rfl hlen]
    exact returnData_alloc (hc.returns m hm) hstack
  | error m hm e =>
    rw [handed, encoding, map_reverted_iff, withOut_alloc rfl hlen]
    exact revertOut_alloc (encodesError true m.errorType (hc.errors m hm)) p e hstack
  | handlerError t ht e =>
    rw [handed, encoding, map_reverted_iff]
    exact revertLocal_alloc (encodesError true t (hc.handlerErrors t ht)) p e

/-- Without an allocator a value always fits, and an error if 256 bytes are enough. -/
theorem handed_iff_of_slice (hc : Accepted c) (hslice : c.useAlloc = false) (p : Profile) (g : Given c) :
    handed p c g = some (encoding c g) ↔ Fits c g := by
  obtain ⟨len, hlen, hlimit⟩ := hc.stack
  have hstack : (List.replicate len (0 : UInt8)).length < capacityLimit := by rwa [List.length_replicate]
  obtain ⟨useAlloc, methods, handlers⟩ := c
  obtain rfl : useAlloc = false := hslice
  have hfloor := floor_le hlen rfl
  cases g with
  | value m hm result =>
    rw [handed, encoding, map_returned_iff, withOut_slice rfl hlen]
    refine iff_of_true ?_ trivial
    refine returnData_slice (hc.returns m hm) (fun hne => ?_) hstack
    obtain ⟨size, hsize, hle⟩ := returnSize_le hlen hm hne
    exact ⟨size, hsize, by rwa [List.length_replicate]⟩
  | error m hm e =>
    rw [handed, encoding, map_reverted_iff, withOut_slice rfl hlen]
    exact revertOut_slice (encodesError false m.errorType (hc.errors m hm)) p e (by rwa [List.length_replicate])
  | handlerError t ht e =>
    rw [handed, encoding, map_reverted_iff]
    exact revertLocal_slice (encodesError false t (hc.handlerErrors t ht)) p e

/-- **Outputs.** In a contract that compiles, the host is handed exactly the encoding of what user
code gives back, unless that is an error of more than 256 bytes in a build without an allocator (or
the encoding is too long for a vector). -/
theorem handed_exact_iff (hc : Accepted c) (p : Profile) (g : Given c) :
    handed p c g = some (encoding c g) ↔ Fits c g := by
  by_cases halloc : c.useAlloc = true
  · rw [Fits.eq_def, if_pos halloc]
    exact handed_iff_of_alloc hc halloc p g
  · exact handed_iff_of_slice hc (Bool.eq_false_iff.mpr halloc) p g

/-- An error of fields of one word each. -/
def wordsError (n : ℕ) : ErrTy := .struct ⟨[1, 2, 3, 4], length_sampleSelector⟩ (List.replicate n (.prim .U256))

theorem encodable_wordsError (n : ℕ) : Encodable (wordsError n) := by
  rw [wordsError, Encodable]
  intro t ht
  rw [List.eq_of_mem_replicate ht]
  rfl

/-- A method with a truth value and such an error, in a build without an allocator. -/
def vault (n : ℕ) : ContractOutput := ⟨false, [⟨[.prim .bool], wordsError n⟩], []⟩

theorem accepted_vault (n : ℕ) : Accepted (vault n) where
  returns m hm _ := by
    rw [List.mem_singleton.mp hm]
    rfl
  errors m hm := by
    rw [List.mem_singleton.mp hm]
    exact encodable_wordsError n
  handlerErrors _ ht := absurd ht List.not_mem_nil
  static _ m hm := by
    rw [List.mem_singleton.mp hm]
    rfl
  stack := ⟨256, rfl, by decide⟩

/-- An error of one word is handed over. -/
theorem vault_handed :
    let e : Given (vault 1) := .error _ (List.mem_singleton_self _) ((7 : BitVec 256), ());
    handed .wrapping (vault 1) e = some (encoding (vault 1) e) := by
  intro e
  refine (handed_exact_iff (accepted_vault 1) _ _).mpr ?_
  have hsize := (encodesError false (wordsError 1) (encodable_wordsError 1)).size ((7 : BitVec 256), ())
  have hle : (36 : ℕ) ≤ 256 := by decide
  exact hsize.ge.trans hle

/-- Eight words. -/
def eightWords : (n : ℕ) → Types.Fields (Ty.impls (List.replicate n (.prim .U256)))
  | 0 => ()
  | n + 1 => ((0 : BitVec 256), eightWords n)

/-- One of eight words panics, though all its fields are static. -/
theorem wide_error_lost :
    let e : Given (vault 8) := .error _ (List.mem_singleton_self _) (eightWords 8);
    (∀ t ∈ List.replicate 8 (Ty.prim .U256), t.impl.isDynamic = false) ∧ (encoding (vault 8) e).data.length = 260 ∧
      handed .wrapping (vault 8) e = none := by
  intro e
  have hsize := (encodesError false (wordsError 8) (encodable_wordsError 8)).size (eightWords 8)
  refine ⟨fun t ht => ?_, hsize.symm, ?_⟩
  · rw [List.eq_of_mem_replicate ht]
    rfl
  · have hcod : ∀ t ∈ List.replicate 8 (Ty.prim .U256), t.Codable = true := fun t ht => by
      rw [List.eq_of_mem_replicate ht]
      rfl
    have hbuf : ((List.replicate 256 (0 : UInt8)).take 256).length < 260 := by
      rw [List.length_take, List.length_replicate]
      decide
    have hshort := derived_short hcod ⟨[1, 2, 3, 4], rfl⟩ (eightWords 8) hbuf
    have hout := revertOut_panic .wrapping (E := (wordsError 8).impl false) (eightWords 8)
      (by rw [List.length_replicate]) hshort
    have hhanded : handed .wrapping (vault 8) e =
        (withOut (vault 8) fun sink out =>
          revertOut sink false .wrapping ((wordsError 8).impl false) (eightWords 8) out).map .reverted := rfl
    rw [hhanded, withOut_slice rfl rfl]
    exact congrArg (Option.map Answer.reverted) hout

end PvmContract.Contract.Output
