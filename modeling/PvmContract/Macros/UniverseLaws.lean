import PvmContract.Macros.Universe

/-!
# The laws of every type of the codec

The laws of the single implementations, put together by induction over the
types: what the macros fold from syntax is what the traits say, every codable
type implements its ABI type, the build profile does not matter where nothing
panics, and decoders of static types stay inside the input.
-/

namespace PvmContract.Macros

open Data Run PvmContract.Types Abi AbiType

/-! ### Syntax and traits -/

theorem consistent_prim (k : Prim) : (Ty.prim k).rust.Consistent := by
  cases k <;> exact ⟨fun b hb => Option.some.inj hb, fun _ => rfl, fun s hs => hs⟩

theorem consistent_custom (c : SolCodec) : Field.Consistent ⟨.custom c, c⟩ :=
  ⟨fun b hb => by simp [SolType.isDynamic] at hb, fun hb => by simp [SolType.isDynamic] at hb,
    fun _ hs => hs⟩

/-- A type that syntax knows to be dynamic. -/
theorem consistent_dynamic {f : Field} (hsol : f.sol.isDynamic = some true) (himpl : f.impl.isDynamic = true)
    (hname : solTypeName f.sol = f.impl.solName) : f.Consistent := by
  refine ⟨fun b hb => ?_, fun hb => ?_, fun s hs => by rw [hname, hs]⟩
  · rw [himpl]
    exact Option.some.inj (hsol.symm.trans hb)
  · rw [hsol] at hb
    exact Bool.noConfusion (Option.some.inj hb)

theorem consistent_bytesN (n : ℕ) : Field.Consistent ⟨.bytes n, Types.bytesN n⟩ := by
  refine ⟨fun b hb => Option.some.inj hb, fun _ => rfl, fun s hs => ?_⟩
  have hs' : ConstStr.append (ConstStr.new "bytes" "") (toString n) = some s := hs
  obtain ⟨a, ha, rfl⟩ := constStr_append_eq_some hs'
  rw [constStr_new_eq_some ha]
  rfl

theorem consistent_vec {f : Field} (h : f.Consistent) : Field.Consistent ⟨.array f.sol, Types.Vec f.impl⟩ := by
  refine ⟨fun b hb => Option.some.inj hb, fun hb => by simp [SolType.isDynamic] at hb, fun s hs => ?_⟩
  obtain ⟨a, ha, hnew⟩ := Option.bind_eq_some_iff.mp hs
  rw [constStr_new_eq_some hnew, solTypeName_array, h.name a ha, Option.map_some]

theorem consistent_array {f : Field} (h : f.Consistent) (n : ℕ) :
    Field.Consistent ⟨.fixedArray f.sol n, Types.array f.impl n⟩ := by
  refine ⟨fun b hb => h.dynamic b hb, fun hb => ?_, fun s hs => ?_⟩
  · have hb' : f.sol.isDynamic = some false := hb
    have hslot : f.impl.slotSize = f.impl.headSize := SolCodec.slotSize_static (h.dynamic _ hb')
    rw [SolType.headSize, hb', h.head hb']
    change some (f.impl.headSize * n) = some (f.impl.slotSize * n)
    rw [hslot]
  · obtain ⟨a, ha, rfl⟩ := constStr_append_eq_some (show ConstStr.append _ "]" = some s from hs)
    obtain ⟨b, hb, rfl⟩ := constStr_append_eq_some (show ConstStr.append _ (toString n) = some a from ha)
    obtain ⟨c, hc, hnew⟩ := Option.bind_eq_some_iff.mp hb
    rw [constStr_new_eq_some hnew, solTypeName_fixedArray, h.name c hc, Option.map_some]
    simp only [String.append_assoc]

section

variable {fields : List Field} (h : ∀ f ∈ fields, f.Consistent)

include h

theorem anyDynamic_consistent {b : Bool} (hb : SolType.anyDynamic (fields.map Field.sol) = some b) :
    (implOf fields).any SolCodec.isDynamic = b := by
  induction fields generalizing b with
  | nil => exact Option.some.inj hb
  | cons f fields ih =>
    rw [List.map_cons, SolType.anyDynamic] at hb
    obtain ⟨c, hc, hb⟩ := Option.bind_eq_some_iff.mp hb
    obtain ⟨d, hd, hb⟩ := Option.bind_eq_some_iff.mp hb
    rw [← Option.some.inj hb, ← (h f (by simp)).dynamic c hc, ← ih (fun f' hf' => h f' (by simp [hf'])) hd]
    rfl

theorem headSizes_consistent (hb : SolType.anyDynamic (fields.map Field.sol) = some false) :
    SolType.headSizes (fields.map Field.sol) = some (tupleHeadSize (implOf fields)) := by
  induction fields with
  | nil => rfl
  | cons f fields ih =>
    have hf := h f (by simp)
    rw [List.map_cons, SolType.anyDynamic] at hb
    obtain ⟨c, hc, hb⟩ := Option.bind_eq_some_iff.mp hb
    obtain ⟨d, hd, hb⟩ := Option.bind_eq_some_iff.mp hb
    obtain ⟨rfl, rfl⟩ := Bool.or_eq_false_iff.mp (Option.some.inj hb)
    have hslot : f.impl.slotSize = f.impl.headSize := SolCodec.slotSize_static (hf.dynamic _ hc)
    rw [List.map_cons, SolType.headSizes, hf.head hc, ih (fun f' hf' => h f' (by simp [hf'])) hd,
      show tupleHeadSize (implOf (f :: fields)) = f.impl.slotSize + tupleHeadSize (implOf fields) from
        tupleHeadSize_cons _ _, hslot]
    rfl

theorem consistent_tuple : Field.Consistent ⟨.tuple (fields.map Field.sol), Types.tuple (implOf fields)⟩ := by
  refine ⟨fun b hb => anyDynamic_consistent h hb, fun hb => ?_, fun s hs => ?_⟩
  · have hb' : SolType.anyDynamic (fields.map Field.sol) = some false := hb
    change SolType.headSize (.tuple (fields.map Field.sol)) = some (tupleHeadSize (implOf fields))
    rw [SolType.headSize, SolType.isDynamic, hb', ← headSizes_consistent h hb']
    rfl
  · obtain ⟨ns, hns, rfl⟩ := tupleName_eq_some hs
    rw [solTypeName_tuple, solTypeNames_eq h hns, Option.map_some]

end

namespace Ty

theorem rusts_eq (ts : List Ty) : rusts ts = ts.map rust := by
  induction ts with
  | nil => rfl
  | cons t ts ih => rw [rusts, ih, List.map_cons]

theorem mem_rusts {ts : List Ty} {f : Field} (h : f ∈ rusts ts) : ∃ t ∈ ts, t.rust = f := by
  rw [rusts_eq] at h
  exact List.mem_map.mp h

theorem mem_impls {ts : List Ty} {T : SolCodec} (h : T ∈ impls ts) : ∃ t ∈ ts, t.impl = T := by
  obtain ⟨f, hf, rfl⟩ := List.mem_map.mp h
  obtain ⟨t, ht, rfl⟩ := mem_rusts hf
  exact ⟨t, ht, rfl⟩

theorem mem_impls_of_mem {ts : List Ty} {t : Ty} (h : t ∈ ts) : t.impl ∈ impls ts := by
  rw [impls, implOf, rusts_eq]
  exact List.mem_map_of_mem (List.mem_map_of_mem h)

theorem static_of_any {ts : List Ty} (h : (impls ts).any SolCodec.isDynamic = false) {t : Ty} (ht : t ∈ ts) :
    t.impl.isDynamic = false := by
  simpa using List.any_eq_false.mp h t.impl (mem_impls_of_mem ht)

/-- The static expansion is picked for fields without custom types. -/
theorem plain_of_needsDynamic {ts : List Ty} (hn : needsDynamic (rusts ts) = false) :
    SolType.anyCustom ((rusts ts).map Field.sol) = false := by
  induction ts with
  | nil => rfl
  | cons t ts ih =>
    obtain ⟨hhead, htail⟩ := Bool.or_eq_false_iff.mp hn
    exact Bool.or_eq_false_iff.mpr ⟨(Bool.or_eq_false_iff.mp hhead).1, ih htail⟩

theorem plain_of_mem {ts : List Ty} (h : SolType.anyCustom ((rusts ts).map Field.sol) = false) {t : Ty}
    (ht : t ∈ ts) : t.rust.sol.hasCustomTypes = false := by
  induction ts with
  | nil => simp at ht
  | cons t' ts ih =>
    obtain ⟨hhead, htail⟩ := Bool.or_eq_false_iff.mp h
    rcases List.mem_cons.mp ht with rfl | ht
    · exact hhead
    · exact ih htail ht

/-- The macros and the traits agree on every proper type. -/
theorem consistent {t : Ty} (h : t.Proper = true) : t.rust.Consistent := by
  refine induction_of_all (motive := fun t => t.rust.Consistent) consistent_prim
    (fun hu => by simp [notUnit] at hu) (fun n _ => consistent_bytesN n)
    (consistent_dynamic rfl rfl rfl) (consistent_dynamic rfl rfl rfl) (fun _ ih => consistent_vec ih) (fun _ n _ ih => consistent_array ih n) (fun elems _ ih => ?_)
    (fun _ _ _ _ => consistent_custom _) (fun _ _ => consistent_custom _) t h
  refine consistent_tuple fun f hf => ?_
  obtain ⟨t, ht, rfl⟩ := mem_rusts hf
  exact ih t ht

/-- The build profile matters for no type that compiles, where nothing panics. -/
theorem profileFree {t : Ty} (h : t.Compiles = true) : ProfileFree t.impl := by
  have hlist : ∀ ts : List Ty, (∀ t ∈ ts, ProfileFree t.impl) → ∀ T ∈ impls ts, ProfileFree T := by
    intro ts hts T hT
    obtain ⟨t, ht, rfl⟩ := mem_impls hT
    exact hts t ht
  refine induction_of_all (motive := fun t => ProfileFree t.impl) (fun k => ?_) (fun _ => profileFree_unit) (fun n hn => ?_) profileFree_Bytes
    profileFree_string (fun _ ih => profileFree_Vec ih) (fun _ n _ ih => profileFree_array ih n)
    (fun elems _ ih => profileFree_tuple (hlist elems ih))
    (fun idents fields _ ih => profileFree_expandSolType idents (hlist fields ih))
    (fun _ _ => profileFree_expandEnum) t h
  · cases k <;> first
      | exact profileFree_staticType _ reads_getByte
      | exact profileFree_staticType _ reads_getPair
      | exact profileFree_staticType _ (reads_getLow (by omega))
      | exact profileFree_staticType _ (reads_getRangeAt (by omega))
  · exact profileFree_bytesN (by simp [compilesHere] at hn; omega)

/-- Every proper type satisfies `Compiles`. -/
theorem compiles_of_proper {t : Ty} (h : t.Proper = true) : t.Compiles = true :=
  all_mono (fun _ ht => ((Bool.and_eq_true _ _).mp ht).1) h

theorem proper_of_codable {t : Ty} (h : t.Codable = true) : t.Proper = true :=
  all_mono (fun _ ht => ((Bool.and_eq_true _ _).mp ht).1) h

/-- The decoders of static types stay inside the input. -/
theorem staysInside {t : Ty} (h : t.Proper = true) : StaysInside t.impl := by
  refine induction_of_all (motive := fun t => t.Proper = true → StaysInside t.impl) (fun k _ => ?_)
    (fun hu => by simp [notUnit] at hu) (fun n hn _ => ?_) (fun _ => staysInside_of_dynamic rfl)
    (fun _ => staysInside_of_dynamic rfl) (fun _ _ _ => staysInside_of_dynamic rfl)
    (fun _ n _ ih h => staysInside_array (ih (all_array h)) n) (fun elems _ ih h => staysInside_tuple ?_)
    (fun idents fields _ ih h => staysInside_expandSolType idents ?_ ?_) (fun _ _ _ => staysInside_expandEnum) t h h
  · cases k <;> first
      | exact staysInside_staticType reads_getByte (by omega)
      | exact staysInside_staticType reads_getPair (by omega)
      | exact staysInside_staticType (reads_getLow (by omega)) (by omega)
      | exact staysInside_staticType (reads_getRangeAt (by omega)) (by omega)
  · simp [compilesHere] at hn
    exact staysInside_bytesN (by omega) (by omega)
  · intro T hT
    obtain ⟨t, ht, rfl⟩ := mem_impls hT
    exact ih t ht (all_tuple h t ht)
  · intro f hf
    obtain ⟨t, ht, rfl⟩ := mem_rusts hf
    exact consistent (all_struct h t ht)
  · intro T hT
    obtain ⟨t, ht, rfl⟩ := mem_impls hT
    exact ih t ht (all_struct h t ht)

/-! ### The ABI type of a type -/

/-- Implementations of a list of types, from those of its types. -/
theorem representsAll {ts : List Ty} (h : ∀ t ∈ ts, Represents t.impl t.abi t.toAbi) :
    RepresentsAll (impls ts) (abis ts) (toAbis ts) := by
  induction ts with
  | nil => exact .nil
  | cons t ts ih =>
    exact .cons (h t (by simp)) (ih fun t' ht' => h t' (by simp [ht']))

/-- An implementation that is equal to one of an ABI type. -/
theorem represents_cast {c d : SolCodec} {τ : AbiType} {f : d.Carrier → τ.Val} (hcd : c = d)
    (h : Represents d τ f) (hC : c.Carrier = d.Carrier) : Represents c τ fun v => f (cast hC v) := by
  subst hcd
  exact h

theorem represents_prim (k : Prim) : Represents k.impl k.abi k.toAbi := by
  cases k with
  | u8 => exact represents_uint (by omega) reads_getByte
  | u16 => exact represents_uint (by omega) reads_getPair
  | u32 | u64 | u128 => exact represents_uint (by omega) (reads_getLow (by omega))
  | U256 => exact represents_U256
  | i8 => exact represents_int (by omega) reads_getByte
  | i16 => exact represents_int (by omega) reads_getPair
  | i32 | i64 | i128 => exact represents_int (by omega) (reads_getLow (by omega))
  | I256 => exact represents_I256
  | bool => exact represents_bool
  | address => exact represents_Address

/-- The macros and the traits agree on the fields of a struct of proper types. -/
theorem consistent_rusts {ts : List Ty} (h : ∀ t ∈ ts, t.Proper = true) : ∀ f ∈ rusts ts, f.Consistent := by
  intro f hf
  obtain ⟨t, ht, rfl⟩ := mem_rusts hf
  exact consistent (h t ht)

theorem represents_struct (idents : List (Option String)) {ts : List Ty} (hc : ∀ t ∈ ts, t.Proper = true)
    (h : ∀ t ∈ ts, Represents t.impl t.abi t.toAbi) :
    Represents (struct idents ts).impl (struct idents ts).abi (struct idents ts).toAbi := by
  have hall := representsAll h
  have hc' := consistent_rusts hc
  by_cases hn : needsDynamic (rusts ts) = true
  · exact represents_cast (if_pos hn) (represents_expandDynamic idents hc' hall) _
  · exact represents_cast (if_neg hn) (represents_expandStatic idents hc' hall (by simpa using hn)) _

/-- **Every roomy type implements its ABI type.** -/
theorem represents_of_roomy {t : Ty} (h : t.Roomy = true) : Represents t.impl t.abi t.toAbi := by
  have hproper : ∀ {t : Ty}, t.Roomy = true → t.Proper = true :=
    fun ht => all_mono (fun _ ht => ((Bool.and_eq_true _ _).mp ht).1) ht
  refine induction_of_all (motive := fun t => t.Roomy = true → Represents t.impl t.abi t.toAbi)
    (fun k _ => represents_prim k) (fun hu => by simp [notUnit] at hu) (fun n hn _ => ?_)
    (fun _ => represents_Bytes) (fun _ => represents_string) (fun elem ih h => ?_)
    (fun elem n _ ih h => represents_array (ih (all_array h)) n)
    (fun elems _ ih h => represents_tuple (representsAll fun t ht => ih t ht (all_tuple h t ht)))
    (fun idents fields _ ih h => represents_struct idents (fun t ht => hproper (all_struct h t ht))
      fun t ht => ih t ht (all_struct h t ht)) (fun n hn _ => ?_) t h h
  · simp [compilesHere, notUnit, notCrowded] at hn
    exact represents_bytesN (by omega)
  · have hcrowd := all_self h
    simp only [notCrowded, Bool.and_eq_true, decide_eq_true_eq] at hcrowd
    exact represents_Vec (ih (all_vec h)) hcrowd.2
  · simp [compilesHere, notUnit, notCrowded] at hn
    exact represents_expandEnum (by omega)

/-- The slot of a codable type is at least a word. -/
theorem slotSize_pos {t : Ty} (h : t.Codable = true) : 32 ≤ t.impl.slotSize := by
  have hsum : ∀ ts : List Ty, 1 ≤ ts.length → (∀ t ∈ ts, 32 ≤ t.impl.slotSize) →
      32 ≤ (Types.tuple (impls ts)).slotSize := by
    intro ts hlen hts
    rw [SolCodec.slotSize]
    split_ifs
    · exact le_refl _
    · cases ts with
      | nil => simp at hlen
      | cons t ts =>
        have ht := hts t (by simp)
        rw [show (Types.tuple (impls (t :: ts))).headSize = t.impl.slotSize + tupleHeadSize (impls ts) from
          tupleHeadSize_cons _ _]
        omega
  refine induction_of_all (motive := fun t => t.Codable = true → 32 ≤ t.impl.slotSize)
    (fun k _ => by cases k <;> exact le_refl _) (fun hu => by simp [notUnit] at hu)
    (fun n _ _ => le_refl _) (fun _ => le_refl _) (fun _ => le_refl _) (fun _ _ _ => le_refl _)
    (fun elem n hn ih h => ?_) (fun elems he ih h => ?_) (fun idents fields hf ih h => ?_)
    (fun _ _ _ => le_refl _) t h h
  · simp [compilesHere, notUnit, notEmpty] at hn
    have hle := ih (all_array h)
    rw [SolCodec.slotSize]
    split_ifs
    · exact le_refl _
    · exact le_trans hle (Nat.le_mul_of_pos_right _ hn.2)
  · simp [compilesHere, notUnit, notEmpty] at he
    exact hsum elems he.1 fun t ht => ih t ht (all_tuple h t ht)
  · simp [compilesHere, notUnit, notEmpty] at hf
    have hc : ∀ t ∈ fields, t.Proper = true := fun t ht => proper_of_codable (all_struct h t ht)
    exact (hsum fields hf fun t ht => ih t ht (all_struct h t ht)).trans_eq
      (slotSize_expandSolType idents (folds (consistent_rusts hc))).symm

theorem roomy_of_codable {t : Ty} (h : t.Codable = true) : t.Roomy = true := by
  have hself : ∀ {t : Ty}, notCrowded t = true → t.Codable = true →
      (compilesHere t && notUnit t && notCrowded t) = true := by
    intro t hcrowd ht
    have hp := (Bool.and_eq_true _ _).mp (all_self ht)
    rw [hp.1, hcrowd]
    rfl
  refine induction_of_all (motive := fun t => t.Codable = true → t.Roomy = true)
    (fun k h => hself rfl h) (fun hu => by simp [notUnit] at hu) (fun n _ h => hself rfl h)
    (fun h => hself rfl h) (fun h => hself rfl h) (fun elem ih h => ?_)
    (fun elem n _ ih h => (Bool.and_eq_true _ _).mpr ⟨hself rfl h, ih (all_array h)⟩)
    (fun elems _ ih h => (Bool.and_eq_true _ _).mpr
      ⟨hself rfl h, allList_iff.mpr fun t ht => ih t ht (all_tuple h t ht)⟩)
    (fun idents fields _ ih h => (Bool.and_eq_true _ _).mpr
      ⟨hself rfl h, allList_iff.mpr fun t ht => ih t ht (all_struct h t ht)⟩)
    (fun n _ h => hself rfl h) t h h
  exact (Bool.and_eq_true _ _).mpr
    ⟨hself (decide_eq_true (slotSize_pos (all_vec h))) h, ih (all_vec h)⟩

/-- **Every codable type implements its ABI type.** -/
theorem represents {t : Ty} (h : t.Codable = true) : Represents t.impl t.abi t.toAbi :=
  represents_of_roomy (roomy_of_codable h)

end Ty

end PvmContract.Macros
