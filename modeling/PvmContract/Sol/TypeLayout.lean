import PvmContract.Abi.HeadLayout
import PvmContract.Sol.Expansion

/-!
# The place of a Solidity type in a head

What a type takes in the head of a tuple, from its declarations, as the SDK lays it out:
an array of `uint8` of a fixed length is one word, as `bytesN` is. A tuple of one
component is the component.

`Legal` are the tables that Solidity accepts, as far as their types go: no declaration
comes back to itself, a struct has a field, and a value type is an elementary value type.
Every legal type has a place (`exists_layout`), and the place says whether
`is_abi_dynamic` holds (`isDynamic_of_layout`).
-/

namespace PvmContract.Sol

open Data Abi

/-- `uint8`, also as the only component of a tuple. -/
def isByte : SolidityType → Bool
  | .uint size => size == some 8
  | .tuple [ty] => isByte ty
  | _ => false

/-- An elementary value type. -/
def isValueType : SolidityType → Bool
  | .address | .bool | .fixedBytes _ | .int _ | .uint _ => true
  | _ => false

namespace CustomTypes

mutual

/-- A type of the ABI over declared types: its names are declared, its arrays have a length of at least one
that a `usize` holds, its tuples have a component. -/
def legal (T : CustomTypes) : SolidityType → Bool
  | .array ty none => T.legal ty
  | .array ty (some n) => 0 < n && n < 2 ^ 64 && T.legal ty
  | .tuple types => types ≠ [] && T.legals types
  | .custom path => (T.get path.last).isSome
  | .function _ | .mapping _ => false
  | _ => true

/-- Each type of a list is one. -/
def legals (T : CustomTypes) : List SolidityType → Bool
  | [] => true
  | ty :: types => T.legal ty && T.legals types

end

theorem legals_iff {T : CustomTypes} {types : List SolidityType} :
    T.legals types = true ↔ ∀ ty ∈ types, T.legal ty = true := by
  induction types with
  | nil => simp [legals]
  | cons ty types ih => simp [legals, ih]

/-- The tables that Solidity accepts. -/
structure Legal (T : CustomTypes) : Prop where
  acyclic : T.Acyclic
  struct : ∀ name fields, T.get name = some (.struct fields) →
    fields ≠ [] ∧ ∀ ty ∈ fieldTypes fields, T.legal ty = true
  udt : ∀ name underlying, T.get name = some (.udt underlying) → isValueType underlying = true

/-- The body of `layout`. -/
def layoutStep (T : CustomTypes) (layout : SolidityType → Option HeadLayout) :
    SolidityType → Option HeadLayout
  | .string | .bytes | .array _ none => some .offset
  | .array ty (some n) => do
    let l ← layout ty
    pure (if isByte ty then .word else l.repeated n)
  | .tuple types => do
    let ls ← types.mapM layout
    pure (.joined ls)
  | .custom path =>
    match T.get path.last with
    | some .enum => some .word
    | some (.udt underlying) => layout underlying
    | some (.struct fields) => do
      let ls ← (fieldTypes fields).mapM layout
      pure (.joined ls)
    | none => none
  | .function _ | .mapping _ => none
  | _ => some .word

/-- The place of a type in a head, with the declarations followed to a depth. -/
def layout (T : CustomTypes) (depth : ℕ) (ty : SolidityType) : Option HeadLayout :=
  unroll T.layoutStep depth ty

variable {T : CustomTypes}

theorem legal_of_valueType {ty : SolidityType} (hty : isValueType ty = true) : T.legal ty = true := by
  cases ty <;> first
    | rfl
    | cases hty

theorem layout_valueType {depth : ℕ} {ty : SolidityType} (hty : isValueType ty = true) {l : HeadLayout}
    (h : T.layout depth ty = some l) : l = .word := by
  cases depth with
  | zero => cases h
  | succ depth =>
    cases ty with
    | address | bool | fixedBytes size | int size | uint size => exact (Option.some.inj h).symm
    | _ => cases hty

/-- A byte is one word. -/
theorem layout_byte {ty : SolidityType} (hty : isByte ty = true) {depth : ℕ} {l : HeadLayout}
    (h : T.layout depth ty = some l) : l = .word := by
  induction ty using SolidityType.induction_on generalizing depth l with
  | uint size => exact layout_valueType rfl h
  | tuple types ih =>
    match types, hty with
    | [ty], hty =>
      cases depth with
      | zero => cases h
      | succ depth =>
        obtain ⟨ls, hls, h⟩ := Option.bind_eq_some_iff.mp h
        obtain rfl := Option.some.inj h
        cases mapM_eq_some_iff.mp hls with
        | cons hl hnil =>
          cases hnil
          rw [ih ty (by simp) hty hl, HeadLayout.joined_singleton]
  | _ => cases hty

/-! ### Every legal type has a place -/

theorem isSome_layout (hT : T.Legal) {depth : ℕ} {ty : SolidityType} (hty : T.legal ty = true)
    (h : (T.expand depth ty).isSome = true) : (T.layout depth ty).isSome = true := by
  induction depth generalizing ty with
  | zero => cases h
  | succ depth ih =>
    -- A list of types, as the components of a tuple or the fields of a struct.
    have hlist : ∀ types : List SolidityType, (∀ ty ∈ types, T.legal ty = true) →
        (types.mapM (unroll T.expandStep depth)).isSome = true →
        ((types.mapM (unroll T.layoutStep depth)).bind fun ls => some (HeadLayout.joined ls)).isSome = true := by
      intro types htypes hsome
      have hall : (types.mapM (unroll T.layoutStep depth)).isSome = true :=
        isSome_mapM_iff.mpr fun ty hmem => ih (htypes ty hmem) (isSome_mapM_iff.mp hsome ty hmem)
      obtain ⟨ls, hls⟩ := Option.isSome_iff_exists.mp hall
      rw [hls]
      rfl
    rw [expand, unroll] at h
    rw [layout, unroll]
    cases ty with
    | array ty size =>
      cases size with
      | none => rfl
      | some n =>
        rw [legal, Bool.and_eq_true] at hty
        rw [expandStep, Option.bind_eq_bind, Option.isSome_bind] at h
        obtain ⟨e, he, -⟩ := (Option.any_eq_true _ _).mp h
        obtain ⟨l, hl⟩ := Option.isSome_iff_exists.mp (ih hty.2 (Option.isSome_of_eq_some he))
        rw [layout] at hl
        rw [layoutStep, hl]
        rfl
    | tuple types =>
      rw [legal, Bool.and_eq_true, legals_iff] at hty
      refine hlist types hty.2 ?_
      rw [expandStep] at h
      cases hes : types.mapM (unroll T.expandStep depth) with
      | none =>
        rw [hes] at h
        cases h
      | some es => rfl
    | custom path =>
      rw [legal] at hty
      obtain ⟨d, hd⟩ := Option.isSome_iff_exists.mp hty
      rw [expandStep, hd] at h
      rw [layoutStep, hd]
      cases d with
      | enum => rfl
      | udt underlying =>
        exact ih (legal_of_valueType (hT.udt _ _ hd)) h
      | struct fields =>
        refine hlist (fieldTypes fields) (hT.struct _ _ hd).2 ?_
        dsimp only at h
        cases hes : (fieldTypes fields).mapM (unroll T.expandStep depth) with
        | none =>
          rw [hes] at h
          cases h
        | some es => rfl
    | function text | mapping text => cases hty
    | _ => rfl

/-- A legal type has a place, found at every depth from some depth on. -/
theorem exists_layout (hT : T.Legal) {ty : SolidityType} (hty : T.legal ty = true) :
    ∃ n, ∀ depth ≥ n, ∃ l, T.layout depth ty = some l := by
  have hacc := (acc_calls_iff ty).mpr (noAliasCycle_of_acyclic hT.acyclic ty)
  obtain ⟨n, hn⟩ := exists_forall_of_acc (fun rec c => (isSome_resolve_iff rec c).mpr) hacc
  refine ⟨n, fun depth hdepth => Option.isSome_iff_exists.mp (isSome_layout hT hty ?_)⟩
  have hsome := hn depth hdepth
  rw [resolve_eq_expand hT.acyclic depth (by simp [Ancestors]), Option.isSome_map] at hsome
  exact hsome

/-! ### The place and the check of the table -/

/-- The structs above a component or an element. -/
theorem Ancestors.component {active : List SolIdent} {types : List SolidityType} {ty : SolidityType}
    (h : T.Ancestors active (.tuple types)) (hty : ty ∈ types) : T.Ancestors active ty :=
  fun s hs path hp => h s hs path (SolidityType.mem_customsOf.mpr ⟨ty, hty, hp⟩)

theorem Ancestors.not_mem (hT : T.Acyclic) {active : List SolIdent} {path : SolPath}
    (h : T.Ancestors active (.custom path)) : path.last ∉ active :=
  fun hs => hT _ (h _ hs path (by simp [SolidityType.customs]))

/-- The fields of a struct that is not being expanded. -/
theorem Ancestors.field {active : List SolIdent} {path : SolPath} {fields : List VariableDeclaration}
    (h : T.Ancestors active (.custom path)) (hd : T.get path.last = some (.struct fields)) :
    ∀ ty ∈ fieldTypes fields, T.Ancestors (path.last :: active) ty := by
  intro ty hty
  refine h.typesOf ?_
  rw [CustomTypes.typesOf, hd]
  exact hty

/-- What a value type wraps. -/
theorem Ancestors.underlying {active : List SolIdent} {path : SolPath} {ty : SolidityType}
    (h : T.Ancestors active (.custom path)) (hd : T.get path.last = some (.udt ty)) : T.Ancestors active ty := by
  have hty : ty ∈ T.typesOf path.last := by simp [CustomTypes.typesOf, hd]
  exact (h.typesOf hty).mono fun s hs => List.mem_cons_of_mem _ hs

/-- The dynamicity of an array of a fixed length is that of its elements. -/
theorem sized_dynamic {depth n : ℕ} {ty : SolidityType} {l : HeadLayout} (h : T.layout depth ty = some l) :
    (if isByte ty then HeadLayout.word else l.repeated n).dynamic = l.dynamic := by
  split
  case isTrue hbyte => rw [layout_byte hbyte h]
  case isFalse => exact HeadLayout.repeated_dynamic l n

/-- **`is_abi_dynamic` is the place's.** -/
theorem isDynamic_of_layout (hT : T.Acyclic) {depth : ℕ} {ty : SolidityType} {active : List SolIdent}
    {l : HeadLayout} (h : T.Ancestors active ty) (hl : T.layout depth ty = some l) :
    unroll T.isDynamic depth ⟨ty, active⟩ = some l.dynamic := by
  induction depth generalizing ty active l with
  | zero => cases hl
  | succ depth ih =>
    have hlist : ∀ (types : List SolidityType) (active : List SolIdent) (ls : List HeadLayout),
        (∀ ty ∈ types, T.Ancestors active ty) → types.mapM (unroll T.layoutStep depth) = some ls →
        (types.anyM fun ty => unroll T.isDynamic depth ⟨ty, active⟩) = some (HeadLayout.joined ls).dynamic := by
      intro types active ls htypes hls
      rw [HeadLayout.joined_dynamic]
      exact anyM_eq_some (forall₂_of_mem (mapM_eq_some_iff.mp hls) fun ty hty l hl => ih (htypes ty hty) hl)
    rw [layout, unroll] at hl
    rw [unroll]
    cases ty with
    | array ty size =>
      cases size with
      | none =>
        obtain rfl := Option.some.inj hl
        rfl
      | some n =>
        obtain ⟨l', hl', hl⟩ := Option.bind_eq_some_iff.mp hl
        obtain rfl := Option.some.inj hl
        rw [sized_dynamic hl']
        exact @ih ty active l' h hl'
    | tuple types =>
      obtain ⟨ls, hls, hl⟩ := Option.bind_eq_some_iff.mp hl
      obtain rfl := Option.some.inj hl
      exact hlist types active ls (fun ty hty => h.component hty) hls
    | custom path =>
      rw [isDynamic, if_neg (h.not_mem hT)]
      rw [layoutStep] at hl
      cases hd : T.get path.last with
      | none =>
        rw [hd] at hl
        cases hl
      | some d =>
        rw [hd] at hl
        cases d with
        | enum =>
          obtain rfl := Option.some.inj hl
          rfl
        | udt underlying => exact ih (h.underlying hd) hl
        | struct fields =>
          obtain ⟨ls, hls, hl⟩ := Option.bind_eq_some_iff.mp hl
          obtain rfl := Option.some.inj hl
          exact hlist (fieldTypes fields) _ ls (h.field hd) hls
    | function text | mapping text => cases hl
    | _ =>
      obtain rfl := Option.some.inj hl
      rfl

end CustomTypes

end PvmContract.Sol
