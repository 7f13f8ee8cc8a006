import PvmContract.Macros.Derive
import PvmContract.Types.StaticLaws
import PvmContract.Types.ProfileLaws

/-!
# The derive writes the codec of a tuple

Both expansions of a struct are compared with the tuple of the struct's fields,
function by function. What the derive folds from syntax has to be what the
traits say (`Field.Consistent`); then the dynamic expansion writes as the tuple
does, literally, and the static one on every buffer that is long enough. The
decoders take different steps to the same positions: a struct adds a field's
head position to its start, a tuple moves along, and adds once more after its
last field. So they differ where a position leaves the 64 bits, and nowhere else.
-/

namespace PvmContract.Macros

open Data Run PvmContract.Types Abi AbiType

/-! ### Names -/

theorem constStr_new_eq_some {a b s : String} (h : ConstStr.new a b = some s) : s = a ++ b := by
  unfold ConstStr.new at h
  split_ifs at h
  exact (Option.some.inj h).symm

theorem constStr_append_eq_some {front : Option String} {b s : String}
    (h : ConstStr.append front b = some s) : ∃ a, front = some a ∧ s = a ++ b := by
  obtain ⟨a, rfl, hnew⟩ := Option.bind_eq_some_iff.mp h
  exact ⟨a, rfl, constStr_new_eq_some hnew⟩

theorem tupleNameRest_eq_some {front : Option String} {Ts : List SolCodec} {s : String}
    (h : tupleNameRest front Ts = some s) :
    ∃ a ns, front = some a ∧ Ts.map SolCodec.solName = ns.map some ∧
      s = ",".intercalate (a :: ns) ++ ")" := by
  induction Ts generalizing front with
  | nil =>
    obtain ⟨a, ha, rfl⟩ := constStr_append_eq_some h
    exact ⟨a, [], ha, rfl, by rw [String.intercalate_singleton]⟩
  | cons T Ts ih =>
    obtain ⟨a', ns, ha', hns, rfl⟩ := ih h
    obtain ⟨n, hn, happ⟩ := Option.bind_eq_some_iff.mp ha'
    obtain ⟨b, hb, rfl⟩ := constStr_append_eq_some happ
    obtain ⟨a, ha, rfl⟩ := constStr_append_eq_some hb
    refine ⟨a, n :: ns, ha, by rw [List.map_cons, List.map_cons, hn, hns], ?_⟩
    rw [String.intercalate_cons_append, String.intercalate_cons_cons]

/-- The `SOL_NAME` of a tuple is made of the names of its fields. -/
theorem tupleName_eq_some {Ts : List SolCodec} {s : String} (h : tupleName Ts = some s) :
    ∃ ns, Ts.map SolCodec.solName = ns.map some ∧ s = "(" ++ ",".intercalate ns ++ ")" := by
  cases Ts with
  | nil => simp [tupleName] at h
  | cons T Ts =>
    obtain ⟨a, ns, ha, hns, rfl⟩ := tupleNameRest_eq_some h
    obtain ⟨n, hn, hnew⟩ := Option.bind_eq_some_iff.mp ha
    rw [constStr_new_eq_some hnew]
    exact ⟨n :: ns, by rw [List.map_cons, List.map_cons, hn, hns], by rw [String.intercalate_cons_append]⟩

/-- A name without custom types is the literal that the macro folds. -/
theorem solTypeName_plain {ty : SolType SolCodec} (h : ty.hasCustomTypes = false) :
    solTypeName ty = some (ty.canonicalName fun _ => "") := by
  cases ty <;> simp_all [solTypeName, SolType.hasCustomTypes]

theorem solTypeNames_plain {types : List (SolType SolCodec)} (h : SolType.anyCustom types = false) :
    solTypeNames types = some (SolType.canonicalNames (fun _ => "") types) := by
  induction types with
  | nil => rfl
  | cons ty types ih =>
    rw [SolType.anyCustom, Bool.or_eq_false_iff] at h
    rw [solTypeNames, solTypeName_plain h.1, ih h.2]
    rfl

/-- Folded or concatenated, the name of a struct is made of the names of its fields. -/
theorem buildSolName_eq (fields : List Field) :
    buildSolName fields = (solTypeNames (fields.map Field.sol)).map fun names =>
      "(" ++ ",".intercalate names ++ ")" := by
  rw [buildSolName]
  split_ifs with h
  · rfl
  · rw [solTypeNames_plain (by simpa using h), Option.map_some]

theorem solTypeName_tuple (types : List (SolType SolCodec)) :
    solTypeName (.tuple types) = (solTypeNames types).map fun names =>
      "(" ++ ",".intercalate names ++ ")" := by
  rw [solTypeName]
  split_ifs with h
  · rfl
  · rw [solTypeNames_plain (by simpa using h), Option.map_some, SolType.canonicalName]

theorem solTypeName_array (inner : SolType SolCodec) :
    solTypeName (.array inner) = (solTypeName inner).map (· ++ "[]") := by
  rw [solTypeName]
  split_ifs with h
  · rfl
  · rw [solTypeName_plain (by simpa using h), Option.map_some, SolType.canonicalName]

theorem solTypeName_fixedArray (inner : SolType SolCodec) (size : ℕ) :
    solTypeName (.fixedArray inner size) =
      (solTypeName inner).map (· ++ ("[" ++ toString size ++ "]")) := by
  rw [solTypeName]
  split_ifs with h
  · rfl
  · rw [solTypeName_plain (by simpa using h), Option.map_some, SolType.canonicalName]
    simp only [String.append_assoc]

/-! ### Syntax and traits -/

/-- What the macros fold from the syntax of a type is what its implementation says. -/
structure Field.Consistent (f : Field) : Prop where
  dynamic : ∀ b, f.sol.isDynamic = some b → f.impl.isDynamic = b
  head : f.sol.isDynamic = some false → f.sol.headSize = some f.impl.headSize
  name : ∀ s, f.impl.solName = some s → solTypeName f.sol = some s

/-- The part of `Consistent` that the sizes of a struct depend on. -/
structure Field.Folds (f : Field) : Prop where
  dynamic : ∀ b, f.sol.isDynamic = some b → f.impl.isDynamic = b
  head : f.sol.isDynamic = some false → f.sol.headSize = some f.impl.headSize

theorem Field.Folds.isDynamic_eq {f : Field} (h : f.Folds) : f.isDynamic = f.impl.isDynamic := by
  rw [Field.isDynamic]
  split
  · exact (h.dynamic _ ‹_›).symm
  · rfl

theorem Field.Folds.slotSize_eq {f : Field} (h : f.Folds) : f.slotSize = f.impl.slotSize := by
  rw [Field.slotSize]
  split
  · exact (SolCodec.slotSize_dynamic (h.dynamic _ ‹_›)).symm
  · rw [h.head ‹_›, Option.getD_some, SolCodec.slotSize_static (h.dynamic _ ‹_›)]
  · rfl

section

variable {fields : List Field}

theorem folds (h : ∀ f ∈ fields, f.Consistent) : ∀ f ∈ fields, f.Folds :=
  fun f hf => ⟨(h f hf).dynamic, (h f hf).head⟩

/-- The names of the fields, read off syntax, are those of their implementations. -/
theorem solTypeNames_eq (h : ∀ f ∈ fields, f.Consistent) {ns : List String}
    (hns : (implOf fields).map SolCodec.solName = ns.map some) :
    solTypeNames (fields.map Field.sol) = some ns := by
  induction fields generalizing ns with
  | nil =>
    obtain rfl : ns = [] := by cases ns <;> simp_all
    rfl
  | cons f fields ih =>
    cases ns with
    | nil => simp at hns
    | cons n ns =>
      simp only [implOf, List.map_cons, List.cons.injEq] at hns
      rw [List.map_cons, solTypeNames, (h f (by simp)).name n hns.1,
        ih (fun f' hf' => h f' (by simp [hf'])) hns.2]
      rfl

theorem buildSolName_of_tupleName (h : ∀ f ∈ fields, f.Consistent) {s : String}
    (hs : tupleName (implOf fields) = some s) : buildSolName fields = some s := by
  obtain ⟨ns, hns, rfl⟩ := tupleName_eq_some hs
  rw [buildSolName_eq, solTypeNames_eq h hns, Option.map_some]

theorem any_isDynamic_eq (h : ∀ f ∈ fields, f.Folds) :
    fields.any Field.isDynamic = (implOf fields).any SolCodec.isDynamic := by
  induction fields with
  | nil => rfl
  | cons f fields ih =>
    rw [List.any_cons, (h f (by simp)).isDynamic_eq, ih fun f' hf' => h f' (by simp [hf'])]
    rfl

theorem buildDynamicHeadSum_eq (h : ∀ f ∈ fields, f.Folds) :
    buildDynamicHeadSum fields = tupleHeadSize (implOf fields) := by
  rw [buildDynamicHeadSum, tupleHeadSize, implOf, List.map_map]
  congr 1
  exact List.map_congr_left fun f hf => (h f hf).slotSize_eq

/-! ### The dynamic expansion -/

theorem dynamicTailLen_eq (h : ∀ f ∈ fields, f.Folds) (vals : Types.Fields (implOf fields)) :
    dynamicTailLen fields vals = tupleTailLen (implOf fields) vals := by
  induction fields with
  | nil => rfl
  | cons f fields ih =>
    obtain ⟨val, vals⟩ := vals
    rw [dynamicTailLen, (h f (by simp)).isDynamic_eq, ih fun f' hf' => h f' (by simp [hf'])]
    rfl

/-- The dynamic expansion writes what the tuple writes, on any buffer. -/
theorem dynamicWrite_eq (h : ∀ f ∈ fields, f.Folds) (vals : Types.Fields (implOf fields))
    (ho tp : ℕ) (buf : List UInt8) :
    dynamicWrite fields vals ho tp buf = tupleWrite (implOf fields) vals ho tp buf := by
  induction fields generalizing ho tp buf with
  | nil => rfl
  | cons f fields ih =>
    obtain ⟨val, vals⟩ := vals
    have hf := h f (by simp)
    have ih' := ih fun f' hf' => h f' (by simp [hf'])
    rw [dynamicWrite, hf.isDynamic_eq, hf.slotSize_eq]
    simp only [ih']
    rfl

/-! ### Positions -/

/-- No position of the fields leaves the 64 bits: their whole head fits, or the build checks
and every decoder has looked at the input before the position gets that far. -/
def NoWrap (p : Profile) (Ts : List SolCodec) (pos : ℕ) : Prop :=
  (p = .checked ∧ ∀ T ∈ Ts, StaysInside T) ∨ pos + tupleHeadSize Ts < 2 ^ 64

/-- Behind a field that was read the next position fits. -/
theorem NoWrap.next {p : Profile} {T : SolCodec} {Ts : List SolCodec} {input : List UInt8} {off ho : ℕ}
    {val : T.Carrier} (h : NoWrap p (T :: Ts) ho) (hs : IsSlice input) (hlt : ho < 2 ^ 64)
    (hval : Returns (tupleReadField T p input off ho) val) :
    ho + T.slotSize < 2 ^ 64 ∧ NoWrap p Ts (ho + T.slotSize) := by
  rcases h with ⟨rfl, hall⟩ | hfit
  · refine ⟨?_, .inl ⟨rfl, fun T' hT' => hall T' (by simp [hT'])⟩⟩
    unfold IsSlice at hs
    unfold tupleReadField at hval
    split_ifs at hval with hd
    · obtain ⟨fo, hfo, -⟩ := returns_bind.mp hval
      have hle := le_of_readWordOffset hfo
      rw [SolCodec.slotSize_dynamic hd]
      omega
    · have hd' : T.isDynamic = false := by simpa using hd
      rw [SolCodec.slotSize_static hd']
      rcases (hall T (by simp)).extent hd' input ho val hs hlt hval with h0 | hle <;> omega
  · rw [tupleHeadSize_cons] at hfit
    exact ⟨by omega, .inr (by omega)⟩

/-- The dynamic expansion reads what the tuple reads. -/
theorem dynamicRead_eq (h : ∀ f ∈ fields, f.Folds) {p : Profile} {input : List UInt8} {off ho : ℕ}
    (hs : IsSlice input) (hlt : off + ho < 2 ^ 64) (hwrap : NoWrap p (implOf fields) (off + ho)) :
    dynamicRead p input off fields ho = tupleRead p input off (implOf fields) (off + ho) := by
  induction fields generalizing ho with
  | nil => rfl
  | cons f fields ih =>
    have hf := h f (by simp)
    have hfield : dynamicReadField f p input off ho = tupleReadField f.impl p input off (off + ho) := by
      rw [dynamicReadField, checkedSum_pair, checkedAdd_of_lt hlt, pure_andThen, hf.isDynamic_eq]
      rfl
    rw [dynamicRead, hfield, hf.slotSize_eq]
    refine bind_congr_of_returns fun val hval => ?_
    obtain ⟨hnext, hwrap'⟩ := hwrap.next hs hlt hval
    rw [checkedSum_pair, checkedAdd_of_lt hnext, pure_andThen]
    rw [Nat.add_assoc] at hnext hwrap' ⊢
    rw [ih (fun f' hf' => h f' (by simp [hf'])) hnext hwrap']

/-! ### The static expansion -/

/-- The static expansion reads what the tuple reads. -/
theorem staticRead_eq {Ts : List SolCodec} (hd : Ts.any SolCodec.isDynamic = false) {p : Profile}
    {input : List UInt8} {off ho : ℕ} (hs : IsSlice input) (hlt : off + ho < 2 ^ 64)
    (hwrap : NoWrap p Ts (off + ho)) :
    staticRead p input off Ts ho = tupleRead p input off Ts (off + ho) := by
  induction Ts generalizing ho with
  | nil => rfl
  | cons T Ts ih =>
    rw [List.any_cons, Bool.or_eq_false_iff] at hd
    have hfield : T.decodeAt p input (off + ho) = tupleReadField T p input off (off + ho) := by
      rw [tupleReadField, if_neg (by simp [hd.1])]
    rw [staticRead, uadd_of_lt hlt, pure_andThen, hfield, ← SolCodec.slotSize_static hd.1]
    refine bind_congr_of_returns fun val hval => ?_
    obtain ⟨hnext, hwrap'⟩ := hwrap.next hs hlt hval
    rw [checkedSum_pair, checkedAdd_of_lt hnext, pure_andThen]
    rw [Nat.add_assoc] at hnext hwrap' ⊢
    rw [ih hd.2 hnext hwrap']

/-- The unchecked decoders are the same at any position. -/
theorem staticUnchecked_eq {Ts : List SolCodec} (hd : Ts.any SolCodec.isDynamic = false) :
    staticUnchecked Ts = (tupleUnchecked Ts).map fun f input start offset => f input (start + offset) := by
  induction Ts with
  | nil => rfl
  | cons T Ts ih =>
    rw [List.any_cons, Bool.or_eq_false_iff] at hd
    rw [staticUnchecked, tupleUnchecked, ih hd.2, SolCodec.slotSize_static hd.1]
    cases T.decodeUnchecked with
    | none => rfl
    | some f =>
      cases tupleUnchecked Ts with
      | none => rfl
      | some g => simp [Nat.add_assoc]

/-- The static expansion is picked for fields that syntax knows to be static. -/
theorem sol_static_of_needsDynamic (h : needsDynamic fields = false) :
    ∀ f ∈ fields, f.sol.isDynamic = some false := by
  intro f hf
  rw [needsDynamic, List.any_eq_false] at h
  have hf' := h f hf
  rw [Bool.or_eq_true, not_or, Bool.not_eq_true] at hf'
  obtain ⟨b, hb⟩ := SolType.isDynamic_of_plain f.sol hf'.1
  rw [hb] at hf' ⊢
  cases b <;> simp_all

theorem impl_static_of_needsDynamic (h : ∀ f ∈ fields, f.Folds) (hn : needsDynamic fields = false) :
    (implOf fields).any SolCodec.isDynamic = false := by
  rw [List.any_eq_false]
  intro T hT
  obtain ⟨f, hf, rfl⟩ := List.mem_map.mp hT
  rw [(h f hf).dynamic false (sol_static_of_needsDynamic hn f hf)]
  simp

theorem buildTotalSize_eq (h : ∀ f ∈ fields, f.Folds) (hn : needsDynamic fields = false) :
    buildTotalSize fields = tupleHeadSize (implOf fields) := by
  rw [buildTotalSize, tupleHeadSize, implOf, List.map_map]
  congr 1
  refine List.map_congr_left fun f hf => ?_
  have hstatic := sol_static_of_needsDynamic hn f hf
  rw [(h f hf).head hstatic, Option.getD_some, Function.comp_apply,
    SolCodec.slotSize_static ((h f hf).dynamic false hstatic)]

/-! ### The constants of either expansion -/

theorem isDynamic_expandSolType (idents : List (Option String)) (h : ∀ f ∈ fields, f.Folds) :
    (expandSolType idents fields).isDynamic = (implOf fields).any SolCodec.isDynamic := by
  rw [expandSolType]
  split_ifs with hn
  · exact any_isDynamic_eq h
  · exact (impl_static_of_needsDynamic h (by simpa using hn)).symm

theorem headSize_expandSolType (idents : List (Option String)) (h : ∀ f ∈ fields, f.Folds) :
    (expandSolType idents fields).headSize = tupleHeadSize (implOf fields) := by
  rw [expandSolType]
  split_ifs with hn
  · exact buildDynamicHeadSum_eq h
  · exact buildTotalSize_eq h (by simpa using hn)

theorem slotSize_expandSolType (idents : List (Option String)) (h : ∀ f ∈ fields, f.Folds) :
    (expandSolType idents fields).slotSize = (tuple (implOf fields)).slotSize := by
  rw [SolCodec.slotSize, SolCodec.slotSize, isDynamic_expandSolType idents h, headSize_expandSolType idents h]
  rfl

/-! ### A struct implements the ABI's tuple type -/

section

variable {τs : List AbiType} {fs : Types.Fields (implOf fields) → Vals τs}

theorem staticWrite_eq {Ts : List SolCodec} {fs : Types.Fields Ts → Vals τs} (h : RepresentsAll Ts τs fs)
    (hd : Ts.any SolCodec.isDynamic = false) {vals : Types.Fields Ts} {pos : ℕ} {buf : List UInt8}
    (hpos : pos + (layout (encParts τs (fs vals))).length ≤ buf.length) (hfit : buf.length < 2 ^ 64) :
    staticWrite Ts vals pos buf = some (overwrite buf pos (layout (encParts τs (fs vals)))) := by
  induction h generalizing pos buf with
  | nil => exact (congrArg some (overwrite_nil buf pos)).symm
  | @cons T Ts τ τs f fs head tail ih =>
    obtain ⟨val, vals⟩ := vals
    have hlayout : layout (encParts (τ :: τs) (f val, fs vals)) =
        enc τ (f val) ++ layout (encParts τs (fs vals)) := by
      rw [layout_of_static ((RepresentsAll.cons head tail).parts_static hd (val, vals)),
        layout_of_static (tail.parts_static (by simp_all) vals)]
      rfl
    rw [List.any_cons, Bool.or_eq_false_iff] at hd
    rw [hlayout] at hpos ⊢
    rw [List.length_append] at hpos
    have h1 : (overwrite buf pos (enc τ (f val))).length = buf.length := length_overwrite (by omega)
    rw [staticWrite, head.slot val hd.1, onSlice_writes (head.writes val) (le_refl _) (by omega) hfit,
      Option.bind_eq_bind, Option.bind_some, ih hd.2 (by omega) (by omega),
      overwrite_append (by rw [List.length_append]; omega)]

theorem represents_expandDynamic (idents : List (Option String)) (h : ∀ f ∈ fields, f.Consistent)
    (hrep : RepresentsAll (implOf fields) τs fs) :
    Represents (expandDynamic idents fields) (.tuple τs) fs := by
  have htuple := represents_tuple hrep
  have hhead := buildDynamicHeadSum_eq (folds h)
  have hdyn := any_isDynamic_eq (folds h)
  refine ⟨hdyn.trans htuple.dynamic, fun (vals : Types.Fields (implOf fields)) => ?_,
    fun (vals : Types.Fields (implOf fields)) hd => ?_,
    fun (vals : Types.Fields (implOf fields)) buf => ?_,
    fun (vals : Types.Fields (implOf fields)) input off hs hat => ?_, fun _ => rfl⟩
  · rw [← htuple.len vals]
    exact congrArg₂ (· + ·) hhead (dynamicTailLen_eq (folds h) vals)
  · rw [← htuple.slot vals (hdyn.symm.trans hd)]
    exact hhead
  · have hw := htuple.writes vals buf
    rw [show (expandDynamic idents fields).encodeBodyTo vals buf =
      dynamicWrite fields vals 0 (buildDynamicHeadSum fields) buf from rfl, dynamicWrite_eq (folds h), hhead]
    exact hw
  · have hbound := hat.bound
    have hlen := htuple.len vals
    rw [← hlen] at hbound
    change off + (tupleHeadSize (implOf fields) + _) ≤ _ at hbound
    have hs' := hs
    unfold IsSlice at hs'
    have hread := htuple.reads vals input off hs hat
    rw [show (expandDynamic idents fields).decodeTail .checked input off =
      dynamicRead .checked input off fields 0 from rfl,
      dynamicRead_eq (folds h) hs (by omega) (.inr (by omega))]
    exact hread

theorem represents_expandStatic (idents : List (Option String)) (h : ∀ f ∈ fields, f.Consistent)
    (hrep : RepresentsAll (implOf fields) τs fs) (hn : needsDynamic fields = false) :
    Represents (expandStatic idents fields) (.tuple τs) fs := by
  have htuple := represents_tuple hrep
  have hhead := buildTotalSize_eq (folds h) hn
  have hd := impl_static_of_needsDynamic (folds h) hn
  refine ⟨hd.symm.trans htuple.dynamic, fun (vals : Types.Fields (implOf fields)) => ?_,
    fun (vals : Types.Fields (implOf fields)) _ => ?_,
    fun (vals : Types.Fields (implOf fields)) buf hlen hfit => ?_,
    fun (vals : Types.Fields (implOf fields)) input off hs hat => ?_, fun _ => rfl⟩
  · rw [← htuple.len vals]
    change buildTotalSize fields = tupleHeadSize _ + tupleTailLen _ vals
    rw [tupleTailLen_static hd, hhead, Nat.add_zero]
  · rw [← htuple.slot vals hd]
    exact hhead
  · rw [enc_tuple] at hlen ⊢
    rw [← overwrite_zero]
    exact staticWrite_eq hrep hd (by omega) hfit
  · have hbound := hat.bound
    rw [← htuple.len vals] at hbound
    change off + (tupleHeadSize (implOf fields) + _) ≤ _ at hbound
    have hs' := hs
    unfold IsSlice at hs'
    have hread := htuple.reads vals input off hs hat
    rw [show (expandStatic idents fields).decodeTail .checked input off =
      staticRead .checked input off (implOf fields) 0 from rfl,
      staticRead_eq hd hs (by omega) (.inr (by omega))]
    exact hread

end

/-! ### The other laws of a struct -/

theorem profileFree_expandDynamic (idents : List (Option String)) (h : ∀ T ∈ implOf fields, ProfileFree T) :
    ProfileFree (expandDynamic idents fields) := by
  have hread : ∀ input off ho, Agrees (dynamicRead .checked input off fields ho)
      (dynamicRead .wrapping input off fields ho) := by
    intro input off ho
    induction fields generalizing ho with
    | nil => exact .refl _
    | cons f fields ih =>
      have hf : ProfileFree f.impl := h f.impl (by simp)
      refine .bind (.bind (.refl _) fun pos _ => ?_) fun _ _ =>
        .bind (ih (fun T hT => h T (by simp_all)) _) fun _ _ => .refl _
      split
      · exact .bind (.refl _) fun _ _ => .bind (.refl _) fun _ _ => hf.decodeTail input _
      · exact hf.decodeAt input pos
  exact ⟨fun input off => hread input off 0, fun input off => hread input off 0⟩

theorem profileFree_expandStatic (idents : List (Option String)) (h : ∀ T ∈ implOf fields, ProfileFree T) :
    ProfileFree (expandStatic idents fields) := by
  have hread : ∀ (Ts : List SolCodec), (∀ T ∈ Ts, ProfileFree T) → ∀ input off ho,
      Agrees (staticRead .checked input off Ts ho) (staticRead .wrapping input off Ts ho) := by
    intro Ts hTs input off ho
    induction Ts generalizing ho with
    | nil => exact .refl _
    | cons T Ts ih =>
      exact .bind (.uadd _ _) fun pos _ => .bind ((hTs T (by simp)).decodeAt input pos) fun _ _ =>
        .bind (ih (fun T' hT' => hTs T' (by simp [hT'])) _) fun _ _ => .refl _
  exact ⟨fun input off => hread _ h input off 0, fun input off => hread _ h input off 0⟩

theorem profileFree_expandSolType (idents : List (Option String)) (h : ∀ T ∈ implOf fields, ProfileFree T) :
    ProfileFree (expandSolType idents fields) := by
  rw [expandSolType]
  split
  · exact profileFree_expandDynamic idents h
  · exact profileFree_expandStatic idents h

theorem staysInside_expandSolType (idents : List (Option String)) (h : ∀ f ∈ fields, f.Consistent)
    (hin : ∀ T ∈ implOf fields, StaysInside T) : StaysInside (expandSolType idents fields) := by
  rw [expandSolType]
  split_ifs with hn
  · have hdyn := any_isDynamic_eq (folds h)
    have hread : ∀ input off, IsSlice input → off < 2 ^ 64 →
        (expandDynamic idents fields).decodeAt .checked input off =
          tupleRead .checked input off (implOf fields) off := fun input off hs hoff =>
      dynamicRead_eq (folds h) hs hoff (.inl ⟨rfl, hin⟩)
    refine ⟨fun hd lim input off hs hoff => ?_, fun hd input off vals hs hoff hret => ?_⟩
    · rw [hread input off hs (by omega)]
      exact tupleRead_safe hs hin (hdyn.symm.trans hd) hoff
    · rw [hread input off hs hoff] at hret
      rw [show (expandDynamic idents fields).headSize = tupleHeadSize (implOf fields) from
        buildDynamicHeadSum_eq (folds h)]
      exact tupleRead_extent hs hin (hdyn.symm.trans hd) hoff hret
  · have hn' : needsDynamic fields = false := by simpa using hn
    have hd := impl_static_of_needsDynamic (folds h) hn'
    have hread : ∀ input off, IsSlice input → off < 2 ^ 64 →
        (expandStatic idents fields).decodeAt .checked input off =
          tupleRead .checked input off (implOf fields) off := fun input off hs hoff =>
      staticRead_eq hd hs hoff (.inl ⟨rfl, hin⟩)
    refine ⟨fun _ lim input off hs hoff => ?_, fun _ input off vals hs hoff hret => ?_⟩
    · rw [hread input off hs (by omega)]
      exact tupleRead_safe hs hin hd hoff
    · rw [hread input off hs hoff] at hret
      rw [show (expandStatic idents fields).headSize = tupleHeadSize (implOf fields) from
        buildTotalSize_eq (folds h) hn']
      exact tupleRead_extent hs hin hd hoff hret

end

/-! ### Enums -/

section

variable {n : ℕ}

theorem enumTryFrom_val (m : Fin n) : enumTryFrom n m = some m := by
  rw [enumTryFrom, dif_pos m.isLt]

/-- The word of a variant is read back as the variant. -/
theorem enumRead_returns {input : List UInt8} {off : ℕ} {m : Fin n} (hn : n ≤ 256) (hs : IsSlice input)
    (hat : At input off (enc (.uint (8 * 1)) (BitVec.ofNat 8 m))) :
    Returns (expandEnum.read n .checked input off) m := by
  have hm := m.isLt
  have hbyte : beBytes 1 (BitVec.ofNat 8 m.val).toNat = [UInt8.ofNat m.val] := by
    rw [BitVec.toNat_ofNat, Nat.mod_eq_of_lt (by omega)]
    rfl
  rw [enc_uint (by omega), hbyte] at hat
  have hget := hat.getRange
  have hbound := hat.bound
  have hs' := hs
  unfold IsSlice at hs'
  simp only [List.length_append, List.length_replicate, List.length_singleton] at hget hbound
  rw [expandEnum.read]
  refine Returns.bind (((reads_getRangeAt (le_refl 32)).returns input off _).mpr ⟨by omega, hget⟩) ?_
  have hzeros : (List.replicate (32 - 1) (0 : UInt8) ++ [UInt8.ofNat m.val]).take 31 =
      List.replicate 31 0 := rfl
  rw [if_neg (not_not.mpr hzeros)]
  refine Returns.bind (returns_ofOption.mpr rfl) ?_
  rw [UInt8.toNat_ofNat_of_lt' (show m.val < 256 by omega)]
  exact returns_ofOption.mpr (enumTryFrom_val m)

theorem represents_expandEnum (hn : n ≤ 256) :
    Represents (expandEnum n) (.uint (8 * 1)) (fun m : Fin n => BitVec.ofNat 8 m) := by
  have h8 : Represents u8 (.uint (8 * 1)) (fun v => v) := represents_uint (by omega) reads_getByte
  exact ⟨h8.dynamic, fun m => h8.len _, fun m => h8.slot _, fun m => h8.writes _,
    fun m input off hs hat => enumRead_returns hn hs hat, fun _ => rfl⟩

theorem profileFree_expandEnum : ProfileFree (expandEnum n) := by
  have hread : ∀ input off, Agrees (expandEnum.read n .checked input off)
      (expandEnum.read n .wrapping input off) := fun input off =>
    .bind ((reads_getRangeAt (le_refl 32)).agrees input off) fun _ _ => .refl _
  exact ⟨hread, hread⟩

theorem enumRead_safe {lim off : ℕ} (input : List UInt8) (hoff : off + 32 < 2 ^ 64) :
    Safe lim (expandEnum.read n .checked input off) := by
  refine Safe.bind (((reads_getRangeAt (le_refl 32)).safe lim input off).mpr hoff) fun word _ => ?_
  split
  · exact safe_fail
  · exact Safe.bind (safe_ofOption _) fun _ _ => safe_ofOption _

theorem staysInside_expandEnum : StaysInside (expandEnum n) where
  safe _ _ input _ _ hoff := enumRead_safe input hoff
  extent _ input off m _ _ hret := by
    obtain ⟨word, hword, -⟩ := returns_bind.mp hret
    have hrange := (((reads_getRangeAt (le_refl 32)).returns input off word).mp hword).2
    have hin := (getRange_eq_some_iff.mp hrange).2.1
    refine .inr ?_
    change off + 32 ≤ _
    omega

end

end PvmContract.Macros
