import PvmContract.Macros.DispatchLaws

/-!
# The dispatcher's fast path

The size check in front of the parameters is the only one that `decode_unchecked`
gets. `checkedCall` is the dispatcher with a `decode_at` for every parameter;
`DispatchAgrees` says that the generated one is as good: no unchecked read is out
of bounds, and arguments that the checked decoders return are the ones that the
method gets. `fastPath_iff` puts this beside the promise of `StaticDecode`, from
which it follows parameter by parameter.
-/

namespace PvmContract.Macros

open Data Run
open PvmContract.Types

/-! ### The checked path -/

/-- `decodeParams` with the checked read for every parameter. -/
def checkedParams : (params : List Field) → Profile → List UInt8 → ℕ → Run (Types.Fields (implOf params))
  | [], _, _, _ => pure ()
  | f :: params, p, input, offset => do
    let value ← f.impl.decodeAt p input offset
    let offset ← uadd p offset f.impl.slotSize
    let values ← checkedParams params p input offset
    pure (value, values)

/-- `decodeCall` with the checked read for every parameter. -/
def checkedCall (params : List Field) (p : Profile) (input : List UInt8) : Run (Types.Fields (implOf params)) := do
  let size ← minInputSize p params
  if input.length < size then fail else checkedParams params p input 0

namespace Ty

/-- **The dispatcher's reads agree with the checked ones**, on every input and under either profile. -/
structure DispatchAgrees (ts : List Ty) (run : Profile → List UInt8 → Run (Types.Fields (impls ts))) : Prop where
  /-- No unchecked read is out of bounds: only the `decode_at` of a custom type can abort. -/
  inBounds : ∀ p input, IsSlice input → Aborts (run p input) →
    ∃ t ∈ ts, t.rust.sol.hasCustomTypes = true ∧ ∃ off ≤ input.length, Aborts (t.impl.decodeAt p input off)
  /-- What the checked decoders return is what is passed on. -/
  confirms : ∀ p input vals, IsSlice input → Returns (checkedCall (rusts ts) p input) vals → Returns (run p input) vals

/-! ### One parameter -/

/-- A read inside the input is the checked one, or one that cannot fail and returns its value. -/
structure ParamAgrees (t : Ty) (decode : Profile → List UInt8 → ℕ → Run t.impl.Carrier) : Prop where
  inBounds : ∀ p input off, off + t.impl.slotSize ≤ input.length → Aborts (decode p input off) →
    t.rust.sol.hasCustomTypes = true ∧ Aborts (t.impl.decodeAt p input off)
  confirms : ∀ p input off v, IsSlice input → off + t.impl.slotSize ≤ input.length →
    Returns (t.impl.decodeAt p input off) v → Returns (decode p input off) v

theorem paramAgrees {t : Ty} (h : t.Compiles = true) {f : List UInt8 → ℕ → Option t.impl.Carrier} {size : ℕ}
    (hdec : t.impl.decodeUnchecked = some f) (hfast : FastPath t.impl f size) :
    ∃ decode, decodeParam t.rust = some decode ∧ ParamAgrees t decode := by
  have hslot := hfast.slotSize
  cases hcustom : t.rust.sol.hasCustomTypes with
  | true =>
    refine ⟨t.impl.decodeAt, if_pos (by rw [hcustom]; rfl), fun p input off _ ha => ⟨hcustom, ha⟩, ?_⟩
    exact fun p input off v _ _ hret => hret
  | false =>
    have hstatic := (plain h hcustom (Option.isSome_of_eq_some hdec)).isDynamic
    refine ⟨fun _ input off => ofAccess (f input off), ?_, fun p input off hle ha => ?_,
      fun p input off v hs hle hret => ?_⟩
    · rw [decodeParam, if_neg (by rw [hcustom, hstatic]; decide), show t.rust.impl.decodeUnchecked = some f from hdec]
      rfl
    · obtain ⟨v, hv⟩ := hfast.inBounds input off (by omega)
      have hpure : Aborts (pure v : Run t.impl.Carrier) := by
        have hread : ofAccess (f input off) = (pure v : Run t.impl.Carrier) := by rw [hv]; rfl
        exact hread ▸ ha
      exact absurd hpure not_aborts_pure
    · change Returns (ofAccess (f input off)) v
      rw [hfast.confirms p input off v hs (by omega) hret]
      exact returns_pure.mpr rfl

/-! ### All parameters -/

/-- The sequence of reads keeps what each of them keeps. -/
theorem paramsAgree {ts : List Ty} (h : ∀ t ∈ ts, ∃ decode, decodeParam t.rust = some decode ∧ ParamAgrees t decode) :
    ∃ decode, decodeParams (rusts ts) = some decode ∧ ∀ p input off, IsSlice input →
      off + tupleHeadSize (impls ts) ≤ input.length →
      (Aborts (decode p input off) → ∃ t ∈ ts, t.rust.sol.hasCustomTypes = true ∧
        ∃ off ≤ input.length, Aborts (t.impl.decodeAt p input off)) ∧
      ∀ vals, Returns (checkedParams (rusts ts) p input off) vals → Returns (decode p input off) vals := by
  induction ts with
  | nil => exact ⟨_, rfl, fun p input off _ _ => ⟨fun ha => absurd ha not_aborts_pure, fun vals hret => hret⟩⟩
  | cons t ts ih =>
    obtain ⟨decode, hdec, hparam⟩ := h t List.mem_cons_self
    obtain ⟨rest, hrest, hparams⟩ := ih fun t' ht' => h t' (List.mem_cons_of_mem _ ht')
    refine ⟨_, decodeParams_cons hdec hrest, fun p input off hs hle => ?_⟩
    rw [show tupleHeadSize (impls (t :: ts)) = t.impl.slotSize + tupleHeadSize (impls ts) from
      tupleHeadSize_cons _ _] at hle
    have hs' := hs
    unfold IsSlice at hs'
    have hnext : uadd p off t.rust.impl.slotSize = pure (off + t.impl.slotSize) :=
      uadd_of_lt (show off + t.impl.slotSize < 2 ^ 64 by omega)
    obtain ⟨hbounds, hconfirms⟩ := hparams p input (off + t.impl.slotSize) hs (by omega)
    constructor
    · intro ha
      rcases aborts_bind.mp ha with ha | ⟨value, -, ha⟩
      · obtain ⟨hcustom, ha⟩ := hparam.inBounds p input off (by omega) ha
        exact ⟨t, List.mem_cons_self, hcustom, off, by omega, ha⟩
      · rw [hnext, pure_andThen] at ha
        rcases aborts_bind.mp ha with ha | ⟨values, -, ha⟩
        · obtain ⟨t', ht', hcustom⟩ := hbounds ha
          exact ⟨t', List.mem_cons_of_mem _ ht', hcustom⟩
        · exact absurd ha not_aborts_pure
    · rintro vals hret
      obtain ⟨value, hvalue, hret⟩ := returns_bind.mp hret
      rw [hnext, pure_andThen] at hret
      obtain ⟨values, hvalues, hret⟩ := returns_bind.mp hret
      refine (hparam.confirms p input off value hs (by omega) hvalue).bind ?_
      rw [hnext, pure_andThen]
      exact (hconfirms values hvalues).bind hret

/-- Behind the size check, the generated reads are as good as the checked ones. -/
theorem dispatchAgrees {ts : List Ty} (h : ∀ t ∈ ts, ∃ decode, decodeParam t.rust = some decode ∧ ParamAgrees t decode)
    (hsize : tupleHeadSize (impls ts) < 2 ^ 64) :
    ∃ run, decodeCall (rusts ts) = some run ∧ DispatchAgrees ts run := by
  obtain ⟨decode, hdec, hreads⟩ := paramsAgree h
  refine ⟨_, by rw [decodeCall, hdec]; rfl, fun p input hs ha => ?_, fun p input vals hs hret => ?_⟩
  · rw [minInputSize_eq hsize, pure_andThen] at ha
    split_ifs at ha with hlt
    · exact absurd ha not_aborts_fail
    · exact (hreads p input 0 hs (by omega)).1 ha
  · rw [checkedCall, minInputSize_eq hsize, pure_andThen] at hret
    rw [minInputSize_eq hsize, pure_andThen]
    split_ifs at hret ⊢ with hlt
    · exact hret
    · exact (hreads p input 0 hs (by omega)).2 vals hret

/-- **The fast path is right** for exactly the parameter lists in whose types no unit stands outside
derived structs, and no derived struct has more units before its last value than there are words
behind it. The slots of the list are counted in a `usize`. -/
theorem fastPath_iff {ts : List Ty} (h : ∀ t ∈ ts, t.Compiles = true)
    (hsome : ∀ t ∈ ts, t.impl.decodeUnchecked.isSome = true) :
    ((∀ t ∈ ts, ∃ f size, t.impl.decodeUnchecked = some f ∧ FastPath t.impl f size) ∧
        (tupleHeadSize (impls ts) < 2 ^ 64 → ∃ run, decodeCall (rusts ts) = some run ∧ DispatchAgrees ts run)) ↔
      ∀ t ∈ ts, unitFree t = true ∧ overrun t = 0 := by
  constructor
  · rintro ⟨hfast, -⟩ t ht
    exact (promise_iff (h t ht) (hsome t ht)).mp (hfast t ht)
  · intro hfree
    have hfast : ∀ t ∈ ts, ∃ f size, t.impl.decodeUnchecked = some f ∧ FastPath t.impl f size := fun t ht =>
      (promise_iff (h t ht) (hsome t ht)).mpr (hfree t ht)
    refine ⟨hfast, dispatchAgrees fun t ht => ?_⟩
    obtain ⟨f, size, hdec, hf⟩ := hfast t ht
    exact paramAgrees (h t ht) hdec hf

/-- Parameters read by either way: two unchecked ones, and a derived struct that ends in a unit. -/
theorem fastPath_iff_mixed :
    let ts := [tuple [bytesN 4, array (prim .u64) 3], prim .bool, struct [some "a", some "b"] [prim .bool, unit]]
    ∃ run, decodeCall (rusts ts) = some run ∧ DispatchAgrees ts run := by
  intro ts
  have hcompiles : ∀ t ∈ ts, t.Compiles = true := by decide
  have hsome : ∀ t ∈ ts, t.impl.decodeUnchecked.isSome = true := by simp [ts]; decide
  have hfree : ∀ t ∈ ts, unitFree t = true ∧ overrun t = 0 := by decide
  exact ((fastPath_iff hcompiles hsome).mpr hfree).2 (by decide)

/-- A unit makes the sizes of a tuple differ, and a struct read behind its slot. So does a field of a user
type `Address` of two words, which is read as the built-in one. -/
theorem unit_breaks_promise :
    (let t := tuple [unit, prim .U256]
     t.Compiles = true ∧ t.impl.encodedSize = some 32 ∧ t.impl.slotSize = 64 ∧
       ∃ f, t.impl.decodeUnchecked = some f ∧ f (List.replicate 32 0) 0 = none) ∧
    (let t := struct [some "a", some "b"] [unit, prim .U256]
     t.Compiles = true ∧ t.impl.encodedSize = some 32 ∧ t.impl.slotSize = 32 ∧
       ∃ f, t.impl.decodeUnchecked = some f ∧ f (List.replicate 32 0) 0 = none) ∧
    (let address := struct [some "a", some "b"] [prim .U256, prim .U256]
     let c := expandSolType [some "x", some "y"] [⟨(prim .address).rust.sol, address.impl⟩, (prim .U256).rust]
     c.encodedSize = some 64 ∧ ∃ f, c.decodeUnchecked = some f ∧ f (List.replicate 64 0) 0 = none) :=
  ⟨⟨by decide, by decide, by decide, _, rfl, rfl⟩, ⟨by decide, by decide, by decide, _, rfl, rfl⟩, ⟨rfl, _, rfl, rfl⟩⟩

end Ty

end PvmContract.Macros
