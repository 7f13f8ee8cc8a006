import PvmContract.Macros.UniverseLaws

/-!
# A derived struct is the tuple of its fields

`TupleCodec` says that an implementation is the tuple's, operation by operation.
Both expansions of the derive satisfy it. The derive implements
`StaticEncodedLen` and `StaticDecode` only in the static expansion, which it
picks when no field is of a custom type; there they agree with the tuple's as
well. A static struct with a field of a custom type has neither.
-/

namespace PvmContract.Macros

open Data Run PvmContract.Types Abi AbiType

/-- No position that a struct or a tuple computes leaves the 64 bits unnoticed: the build checks,
or the head does not reach the end of the address space. -/
def HeadFits (p : Profile) (Ts : List SolCodec) (off : ℕ) : Prop :=
  (p = .checked ∧ off < 2 ^ 64) ∨ off + tupleHeadSize Ts < 2 ^ 64

/-- **The codec of a tuple**: `c` does what the tuple of `Ts` does; `split` takes a value apart
into the fields. -/
structure TupleCodec (c : SolCodec) (Ts : List SolCodec) (split : c.Carrier → Types.Fields Ts) : Prop where
  isDynamic : c.isDynamic = (tuple Ts).isDynamic
  /-- The tuple's name is limited to 256 bytes; where it exists, it is the name of `c`. -/
  solName : ∀ s, (tuple Ts).solName = some s → c.solName = some s
  slotSize : c.slotSize = (tuple Ts).slotSize
  encodeBodyLen : ∀ v, c.encodeBodyLen v = (tuple Ts).encodeBodyLen (split v)
  /-- The same bytes, in any buffer that is long enough. -/
  encodeBodyTo : ∀ v buf, IsSlice buf → c.encodeBodyLen v ≤ buf.length →
    c.encodeBodyTo v buf = (tuple Ts).encodeBodyTo (split v) buf
  decodeAt : ∀ p input off, IsSlice input → HeadFits p Ts off →
    split <$> c.decodeAt p input off = (tuple Ts).decodeAt p input off
  decodeTail : ∀ p input off, IsSlice input → HeadFits p Ts off →
    split <$> c.decodeTail p input off = (tuple Ts).decodeTail p input off

/-- The unchecked decoder of a tuple: `c` has its `ENCODED_SIZE`, and reads the same fields. -/
structure TupleUnchecked (c : SolCodec) (Ts : List SolCodec) (split : c.Carrier → Types.Fields Ts) : Prop where
  encodedSize : c.encodedSize = (tuple Ts).encodedSize
  decodeUnchecked : ∃ f g, c.decodeUnchecked = some f ∧ (tuple Ts).decodeUnchecked = some g ∧
    ∀ input off, (f input off).map split = g input off

theorem HeadFits.lt {p : Profile} {Ts : List SolCodec} {off : ℕ} (h : HeadFits p Ts off) : off < 2 ^ 64 := by
  rcases h with ⟨-, h⟩ | h <;> omega

theorem HeadFits.noWrap {p : Profile} {Ts : List SolCodec} {off : ℕ} (h : HeadFits p Ts off)
    (hin : ∀ T ∈ Ts, StaysInside T) : NoWrap p Ts off := by
  rcases h with ⟨hp, -⟩ | h
  · exact .inl ⟨hp, hin⟩
  · exact .inr h

/-! ### The two expansions -/

section

variable {fields : List Field} (idents : List (Option String)) (h : ∀ f ∈ fields, f.Consistent)
  (hin : ∀ T ∈ implOf fields, StaysInside T)

include h hin

theorem tupleCodec_expandDynamic :
    TupleCodec (expandDynamic idents fields) (implOf fields) fun vals => vals := by
  have hread : ∀ p input off, IsSlice input → HeadFits p (implOf fields) off →
      dynamicRead p input off fields 0 = tupleRead p input off (implOf fields) off :=
    fun p input off hs hfit => dynamicRead_eq (folds h) hs hfit.lt (hfit.noWrap hin)
  refine ⟨any_isDynamic_eq (folds h), fun s hs => buildSolName_of_tupleName h hs, ?_,
    fun (vals : Types.Fields (implOf fields)) => ?_, fun (vals : Types.Fields (implOf fields)) buf _ _ => ?_,
    fun p input off hs hfit => ?_, fun p input off hs hfit => ?_⟩
  · rw [SolCodec.slotSize, SolCodec.slotSize, show (expandDynamic idents fields).isDynamic =
      (tuple (implOf fields)).isDynamic from any_isDynamic_eq (folds h),
      show (expandDynamic idents fields).headSize = (tuple (implOf fields)).headSize from
        buildDynamicHeadSum_eq (folds h)]
  · exact congrArg₂ (· + ·) (buildDynamicHeadSum_eq (folds h)) (dynamicTailLen_eq (folds h) vals)
  · change dynamicWrite fields vals 0 (buildDynamicHeadSum fields) buf = _
    rw [dynamicWrite_eq (folds h), buildDynamicHeadSum_eq (folds h)]
    rfl
  · exact (id_map _).trans (hread p input off hs hfit)
  · exact (id_map _).trans (hread p input off hs hfit)

variable {τs : List AbiType} {fs : Types.Fields (implOf fields) → Vals τs}
  (hrep : RepresentsAll (implOf fields) τs fs) (hn : needsDynamic fields = false)

include hrep hn

theorem tupleCodec_expandStatic :
    TupleCodec (expandStatic idents fields) (implOf fields) fun vals => vals := by
  have hd := impl_static_of_needsDynamic (folds h) hn
  have hread : ∀ p input off, IsSlice input → HeadFits p (implOf fields) off →
      staticRead p input off (implOf fields) 0 = tupleRead p input off (implOf fields) off :=
    fun p input off hs hfit => staticRead_eq hd hs hfit.lt (hfit.noWrap hin)
  have hstatic := represents_expandStatic idents h hrep hn
  have htuple := represents_tuple hrep
  refine ⟨hd.symm, fun s hs => buildSolName_of_tupleName h hs, ?_,
    fun (vals : Types.Fields (implOf fields)) => (hstatic.len vals).trans (htuple.len vals).symm,
    fun (vals : Types.Fields (implOf fields)) buf hs hlen => ?_,
    fun p input off hs hfit => ?_, fun p input off hs hfit => ?_⟩
  · rw [SolCodec.slotSize_static rfl, SolCodec.slotSize_static hd]
    exact buildTotalSize_eq (folds h) hn
  · unfold IsSlice at hs
    rw [hstatic.len vals] at hlen
    rw [hstatic.writes vals buf hlen (by omega)]
    exact (htuple.writes vals buf hlen (by omega)).symm
  · exact (id_map _).trans (hread p input off hs hfit)
  · exact (id_map _).trans (hread p input off hs hfit)

end

/-- The static expansion has the tuple's unchecked decoder, if the fields have theirs. -/
theorem tupleUnchecked_expandStatic {fields : List Field} (idents : List (Option String))
    (h : ∀ f ∈ fields, f.Consistent) (hn : needsDynamic fields = false)
    (hsize : tupleEncodedSize (implOf fields) = some (tupleHeadSize (implOf fields)))
    {g : List UInt8 → ℕ → Option (Types.Fields (implOf fields))} (hg : tupleUnchecked (implOf fields) = some g) :
    TupleUnchecked (expandStatic idents fields) (implOf fields) fun vals => vals := by
  refine ⟨?_, fun input off => g input (off + 0), g, ?_, hg, fun input off => ?_⟩
  · rw [show (tuple (implOf fields)).encodedSize = some (tupleHeadSize (implOf fields)) from hsize,
      ← buildTotalSize_eq (folds h) hn]
    rfl
  · change (staticUnchecked (implOf fields)).map _ = _
    rw [staticUnchecked_eq (impl_static_of_needsDynamic (folds h) hn), hg]
    rfl
  · change (g input (off + 0)).map id = g input off
    rw [Option.map_id, id, Nat.add_zero]

/-! ### Types without custom types -/

namespace Ty

/-- A static type is roomy: there is no vector in it. -/
theorem roomy_of_static {t : Ty} (h : t.Proper = true) (hd : t.impl.isDynamic = false) : t.Roomy = true := by
  have hself : ∀ {t : Ty}, notCrowded t = true → t.Proper = true →
      (compilesHere t && notUnit t && notCrowded t) = true := by
    intro t hcrowd ht
    rw [all_self ht, hcrowd]
    rfl
  refine induction_of_all (motive := fun t => t.Proper = true → t.impl.isDynamic = false → t.Roomy = true)
    (fun k h _ => hself rfl h) (fun hu => by simp [notUnit] at hu) (fun n _ h _ => hself rfl h)
    (fun h _ => hself rfl h) (fun h _ => hself rfl h) (fun elem _ _ hd => Bool.noConfusion (show true = false from hd))
    (fun elem n _ ih h hd => (Bool.and_eq_true _ _).mpr ⟨hself rfl h, ih (all_array h) hd⟩)
    (fun elems _ ih h hd => (Bool.and_eq_true _ _).mpr
      ⟨hself rfl h, allList_iff.mpr fun t ht => ih t ht (all_tuple h t ht) (static_of_any hd ht)⟩)
    (fun idents fields _ ih h hd => (Bool.and_eq_true _ _).mpr ⟨hself rfl h, allList_iff.mpr fun t ht => ?_⟩)
    (fun n _ h _ => hself rfl h) t h h hd
  have hd' := (isDynamic_expandSolType idents (folds (consistent_rusts (all_struct h)))).symm.trans hd
  exact ih t ht (all_struct h t ht) (static_of_any hd' ht)

theorem unchecked_tuple {ts : List Ty} (h : ∀ t ∈ ts, t.rust.sol.hasCustomTypes = false →
      t.impl.isDynamic = false → t.impl.encodedSize = some t.impl.headSize ∧ t.impl.decodeUnchecked.isSome = true)
    (hplain : SolType.anyCustom ((rusts ts).map Field.sol) = false)
    (hd : (impls ts).any SolCodec.isDynamic = false) :
    tupleEncodedSize (impls ts) = some (tupleHeadSize (impls ts)) ∧ (tupleUnchecked (impls ts)).isSome = true := by
  induction ts with
  | nil => exact ⟨rfl, rfl⟩
  | cons t ts ih =>
    obtain ⟨hp, hps⟩ := Bool.or_eq_false_iff.mp hplain
    obtain ⟨hd, hds⟩ := Bool.or_eq_false_iff.mp hd
    obtain ⟨hsize, hf⟩ := h t (by simp) hp hd
    obtain ⟨hsizes, hg⟩ := ih (fun t' ht' => h t' (by simp [ht'])) hps hds
    obtain ⟨f, hf⟩ := Option.isSome_iff_exists.mp hf
    obtain ⟨g, hg⟩ := Option.isSome_iff_exists.mp hg
    constructor
    · rw [show tupleHeadSize (impls (t :: ts)) = t.impl.slotSize + tupleHeadSize (impls ts) from
        tupleHeadSize_cons _ _, SolCodec.slotSize_static hd]
      change t.impl.encodedSize.bind (fun n => (tupleEncodedSize (impls ts)).bind fun m => some (n + m)) = _
      rw [hsize, hsizes]
      rfl
    · change (tupleUnchecked (t.impl :: impls ts)).isSome = true
      rw [tupleUnchecked, hf, hg]
      rfl

/-- A static type without custom types has an unchecked decoder, and the size of its head. -/
theorem unchecked_of_plain {t : Ty} (h : t.Proper = true) (hplain : t.rust.sol.hasCustomTypes = false)
    (hd : t.impl.isDynamic = false) :
    t.impl.encodedSize = some t.impl.headSize ∧ t.impl.decodeUnchecked.isSome = true := by
  refine induction_of_all (motive := fun t => t.rust.sol.hasCustomTypes = false → t.impl.isDynamic = false →
      t.impl.encodedSize = some t.impl.headSize ∧ t.impl.decodeUnchecked.isSome = true)
    (fun k _ _ => by cases k <;> exact ⟨rfl, rfl⟩) (fun hu => by simp [notUnit] at hu)
    (fun n _ _ _ => ⟨rfl, rfl⟩) (fun _ hd => Bool.noConfusion (show true = false from hd))
    (fun _ hd => Bool.noConfusion (show true = false from hd))
    (fun elem _ _ hd => Bool.noConfusion (show true = false from hd))
    (fun elem n _ ih hplain hd => ?_) (fun elems _ ih hplain hd => unchecked_tuple ih hplain hd)
    (fun idents fields _ _ hplain => Bool.noConfusion (show true = false from hplain))
    (fun n _ hplain => Bool.noConfusion (show true = false from hplain)) t h hplain hd
  obtain ⟨hsize, hf⟩ := ih hplain hd
  have hslot : elem.impl.slotSize = elem.impl.headSize := SolCodec.slotSize_static hd
  refine ⟨?_, (Option.isSome_map ..).trans hf⟩
  change elem.impl.encodedSize.map (· * n) = some (elem.impl.slotSize * n)
  rw [hsize, Option.map_some, hslot]

/-! ### Structs -/

theorem struct_carrier (idents : List (Option String)) (fields : List Ty) :
    (struct idents fields).impl.Carrier = Types.Fields (impls fields) :=
  expandSolType_carrier idents (rusts fields)

/-- The value of a struct as the values of its fields. -/
def split (idents : List (Option String)) (fields : List Ty) (v : (struct idents fields).impl.Carrier) :
    Types.Fields (impls fields) :=
  cast (struct_carrier idents fields) v

/-- A codec and an equal one have the same values. -/
theorem of_codec_eq {c d : SolCodec} {Ts : List SolCodec}
    (P : (c : SolCodec) → (c.Carrier → Types.Fields Ts) → Prop) (hcd : c = d) (hc : c.Carrier = Types.Fields Ts)
    (hd : d.Carrier = Types.Fields Ts) (h : P d (cast hd)) : P c (cast hc) := by
  subst hcd
  exact h

section

variable {idents : List (Option String)} {fields : List Ty} (h : (struct idents fields).Proper = true)

include h

theorem staysInside_fields : ∀ T ∈ impls fields, StaysInside T := by
  intro T hT
  obtain ⟨t, ht, rfl⟩ := mem_impls hT
  exact staysInside (all_struct h t ht)

theorem struct_codec : TupleCodec (struct idents fields).impl (impls fields) (split idents fields) := by
  have hproper := all_struct h
  have hc := consistent_rusts hproper
  have hin := staysInside_fields h
  cases hn : needsDynamic (rusts fields) with
  | true =>
    exact of_codec_eq (fun c split => TupleCodec c (impls fields) split) (if_pos hn) _ rfl
      (tupleCodec_expandDynamic idents hc hin)
  | false =>
    have himpl : (struct idents fields).impl = expandStatic idents (rusts fields) := if_neg (by simp [hn])
    have hd := impl_static_of_needsDynamic (folds hc) hn
    have hstatic : ∀ t ∈ fields, t.impl.isDynamic = false := fun t ht => static_of_any hd ht
    have hrep := representsAll fun t ht => represents_of_roomy (roomy_of_static (hproper t ht) (hstatic t ht))
    exact of_codec_eq (fun c split => TupleCodec c (impls fields) split) himpl _ rfl
      (tupleCodec_expandStatic idents hc hin hrep hn)

theorem struct_unchecked (hn : needsDynamic (rusts fields) = false) :
    TupleUnchecked (struct idents fields).impl (impls fields) (split idents fields) := by
  have hproper := all_struct h
  have hc := consistent_rusts hproper
  have himpl : (struct idents fields).impl = expandStatic idents (rusts fields) := if_neg (by simp [hn])
  have hd := impl_static_of_needsDynamic (folds hc) hn
  obtain ⟨hsize, hg⟩ := unchecked_tuple (fun t ht => unchecked_of_plain (hproper t ht))
    (plain_of_needsDynamic hn) hd
  obtain ⟨g, hg⟩ := Option.isSome_iff_exists.mp hg
  exact of_codec_eq (fun c split => TupleUnchecked c (impls fields) split) himpl _ rfl
    (tupleUnchecked_expandStatic idents hc hn hsize hg)

end

theorem struct_unsized {idents : List (Option String)} {fields : List Ty} (hn : needsDynamic (rusts fields) = true) :
    (struct idents fields).impl.encodedSize = none ∧ (struct idents fields).impl.decodeUnchecked.isNone = true := by
  have himpl : (struct idents fields).impl = expandDynamic idents (rusts fields) := if_pos hn
  rw [himpl]
  exact ⟨rfl, rfl⟩

/-- **The derived codec is the tuple codec**, for a struct with any fields. When no field needs
the dynamic expansion, the unchecked decoder is the tuple's too; otherwise there is none. -/
theorem struct_tupleCodec {idents : List (Option String)} {fields : List Ty}
    (h : (struct idents fields).Proper = true) :
    TupleCodec (struct idents fields).impl (impls fields) (split idents fields) ∧
      (needsDynamic (rusts fields) = false →
        TupleUnchecked (struct idents fields).impl (impls fields) (split idents fields)) ∧
      (needsDynamic (rusts fields) = true → (struct idents fields).impl.encodedSize = none ∧
        (struct idents fields).impl.decodeUnchecked.isNone = true) :=
  ⟨struct_codec h, struct_unchecked h, struct_unsized⟩

theorem struct_tupleCodec_mixed :
    let fields := [prim .u8, string, struct [some "x"] [prim .U256]]
    TupleCodec (struct [some "a", some "b", some "c"] fields).impl (impls fields)
      (split [some "a", some "b", some "c"] fields) :=
  (struct_tupleCodec (by decide)).1

/-- A static struct of static structs has no `ENCODED_SIZE`, while the tuple of its fields has one; and
at the end of the address space, without overflow checks, a struct reads what the tuple refuses. -/
theorem struct_ne_tuple :
    (let point := struct [some "x", some "y"] [prim .U256, prim .U256]
     let line := struct [some "a", some "b"] [point, point]
     line.Proper = true ∧ line.impl.isDynamic = false ∧ line.impl.encodedSize = none ∧
       (tuple [point, point]).impl.encodedSize = some 128) ∧
    (∃ v, Returns ((struct [some "x"] [prim .u8]).impl.decodeAt .wrapping [7] (2 ^ 64 - 31)) v) ∧
      ¬∃ v, Returns ((tuple [prim .u8]).impl.decodeAt .wrapping [7] (2 ^ 64 - 31)) v := by
  refine ⟨⟨by decide, by decide, by decide, by decide⟩, ⟨((7#8, ()) : BitVec 8 × Unit), rfl⟩, ?_⟩
  rintro ⟨v, hv⟩
  have herr : ((tuple [prim .u8]).impl.decodeAt .wrapping [7] (2 ^ 64 - 31)).exit = .err := rfl
  exact absurd (herr.symm.trans hv) (by simp)

end Ty

end PvmContract.Macros
