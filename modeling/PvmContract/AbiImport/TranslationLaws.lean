import PvmContract.AbiImport.Translation

/-!
# What is written for a type

`Written` relates a Solidity type to the Rust type that is written for it in a scope.
With `alloc` it is `to_rust_type` (`toRustType_alloc_iff`), and without `alloc` the only
types that are written are related in the same way (`written_of_toRustType`).

The name of an item has no colon and does not begin with a small letter, so it is no
name of a primitive type of Rust.
-/

namespace PvmContract.AbiImport

open Data Sol Macros Scaffold

theorem ok_of_bind {α β : Type} {x : Except String α} {f : α → Except String β} {b : β}
    (h : x >>= f = .ok b) : ∃ a, x = .ok a ∧ f a = .ok b := by
  cases x with
  | error e => cases h
  | ok a => exact ⟨a, rfl, h⟩

namespace AbiFile

variable {F : AbiFile} {scope : Option SolIdent}

/-- The path that is written for a declared type. -/
def Names (F : AbiFile) (scope : Option SolIdent) (path : SolPath) (p : RustPath) : Prop :=
  ∃ resolution name, F.resolve scope path = .ok resolution ∧ F.itemName path.last = .ok name ∧
    F.pathOf name resolution = .ok p

/-- The Rust type that is written for a type. -/
inductive Written (F : AbiFile) (scope : Option SolIdent) : SolidityType → RustType → Prop where
  | address : Written F scope .address (.path (.bare "Address"))
  | bool : Written F scope .bool (.path (.bare "bool"))
  | string : Written F scope .string (.path .string)
  | bytes : Written F scope .bytes (.path .bytes)
  | fixedBytes (size : ℕ) : Written F scope (.fixedBytes size) (.array (.path (.bare "u8")) size)
  | int (size : Option ℕ) : Written F scope (.int size) (.path (.bare (intIdent "i" size)))
  | uint (size : Option ℕ) : Written F scope (.uint size) (.path (.bare (intIdent "u" size)))
  | unsized {ty : SolidityType} {elem : RustType} :
    Written F scope ty elem → Written F scope (.array ty none) (.vec elem)
  | sized {ty : SolidityType} {elem : RustType} (n : ℕ) :
    Written F scope ty elem → Written F scope (.array ty (some n)) (.array elem n)
  | tuple {types : List SolidityType} {args : List RustType} :
    List.Forall₂ (Written F scope) types args → Written F scope (.tuple types) (.ofArgs args)
  | custom {path : SolPath} {p : RustPath} : F.Names scope path p → Written F scope (.custom path) (.path p)

theorem toRustTypes_eq_ok_iff {alloc : Bool} {depth : ℕ} {types : List SolidityType} {args : List RustType} :
    F.toRustTypes alloc depth scope types = .ok args ↔
      List.Forall₂ (fun ty arg => F.toRustType alloc depth scope ty = .ok arg) types args := by
  induction types generalizing args with
  | nil =>
    rw [toRustTypes, List.forall₂_nil_left_iff]
    exact ⟨fun h => (Except.ok.inj h).symm, fun h => by rw [h]⟩
  | cons ty types ih =>
    rw [toRustTypes]
    constructor
    · intro h
      obtain ⟨arg, harg, h⟩ := ok_of_bind h
      obtain ⟨args', hargs, h⟩ := ok_of_bind h
      obtain rfl := Except.ok.inj h
      exact .cons harg (ih.mp hargs)
    · rintro (_ | ⟨harg, hargs⟩)
      rw [harg, ih.mpr hargs]
      rfl

/-- Whatever is written passes the check. -/
theorem gate_of_toRustType {alloc : Bool} {depth : ℕ} {ty : SolidityType} {r : RustType}
    (h : F.toRustType alloc depth scope ty = .ok r) : F.gate alloc depth ty = .ok () := by
  cases ty <;> rw [toRustType] at h
  case custom path =>
    obtain ⟨_, _, h⟩ := ok_of_bind h
    exact (ok_of_bind h).choose_spec.1
  all_goals exact (ok_of_bind h).choose_spec.1

theorem written_of_toRustType {alloc : Bool} {depth : ℕ} {ty : SolidityType} {r : RustType}
    (h : F.toRustType alloc depth scope ty = .ok r) : F.Written scope ty r := by
  induction ty using SolidityType.induction_on generalizing r with
  | array ty size ih =>
    rw [toRustType] at h
    obtain ⟨_, -, h⟩ := ok_of_bind h
    obtain ⟨elem, helem, h⟩ := ok_of_bind h
    cases size with
    | none =>
      obtain rfl := Except.ok.inj h
      exact .unsized (ih helem)
    | some n =>
      obtain rfl := Except.ok.inj h
      exact .sized n (ih helem)
  | tuple types ih =>
    rw [toRustType] at h
    obtain ⟨_, -, h⟩ := ok_of_bind h
    obtain ⟨args, hargs, h⟩ := ok_of_bind h
    obtain rfl := Except.ok.inj h
    exact .tuple (forall₂_of_mem (toRustTypes_eq_ok_iff.mp hargs) fun ty hty arg harg => ih ty hty harg)
  | custom path =>
    rw [toRustType] at h
    obtain ⟨resolution, hres, h⟩ := ok_of_bind h
    obtain ⟨_, -, h⟩ := ok_of_bind h
    obtain ⟨name, hname, h⟩ := ok_of_bind h
    obtain ⟨p, hp, h⟩ := ok_of_bind h
    obtain rfl := Except.ok.inj h
    exact .custom ⟨resolution, name, hres, hname, hp⟩
  | function text | mapping text =>
    rw [toRustType] at h
    obtain ⟨_, -, h⟩ := ok_of_bind h
    cases h
  | _ =>
    rw [toRustType] at h
    obtain ⟨_, -, h⟩ := ok_of_bind h
    obtain rfl := Except.ok.inj h
    constructor

/-- A type is written where the check passes for it and for every type in it. -/
theorem toRustType_of_written {alloc : Bool} {depth : ℕ} {P : SolidityType → Prop}
    (hgate : ∀ ty, P ty → F.gate alloc depth ty = .ok ())
    (harray : ∀ ty size, P (.array ty size) → P ty) (htuple : ∀ types, P (.tuple types) → ∀ ty ∈ types, P ty)
    {ty : SolidityType} {r : RustType} (hP : P ty) (h : F.Written scope ty r) :
    F.toRustType alloc depth scope ty = .ok r := by
  induction ty using SolidityType.induction_on generalizing r with
  | array ty size ih =>
    rw [toRustType, hgate _ hP]
    cases h with
    | unsized helem =>
      rw [ih (harray ty none hP) helem]
      rfl
    | sized n helem =>
      rw [ih (harray ty (some n) hP) helem]
      rfl
  | tuple types ih =>
    rw [toRustType, hgate _ hP]
    cases h with
    | tuple hargs =>
      rw [toRustTypes_eq_ok_iff.mpr (forall₂_of_mem hargs fun ty hty arg harg =>
        ih ty hty (htuple types hP ty hty) harg)]
      rfl
  | custom path =>
    cases h with
    | custom hp =>
      obtain ⟨resolution, name, hres, hname, hp⟩ := hp
      rw [toRustType, hres, hgate _ hP, hname]
      simp only [bind, Except.bind, hp]
  | _ =>
    cases h
    all_goals
      rw [toRustType, hgate _ hP]
      rfl

/-- With `alloc` every type is written that can be. -/
theorem toRustType_alloc_iff {depth : ℕ} {ty : SolidityType} {r : RustType} :
    F.toRustType true depth scope ty = .ok r ↔ F.Written scope ty r :=
  ⟨written_of_toRustType, toRustType_of_written (P := fun _ => True) (fun _ _ => rfl) (fun _ _ _ => trivial)
    (fun _ _ _ _ => trivial) trivial⟩

/-! ### The check without `alloc` -/

theorem gate_noAlloc_iff {depth : ℕ} {ty : SolidityType} :
    F.gate false depth ty = .ok () ↔ F.customTypes.isAbiDynamic depth ty = some false := by
  rw [gate, if_neg Bool.false_ne_true]
  split <;> simp_all

/-- What `is_abi_dynamic` answers it answers at every greater depth. -/
theorem isDynamic_mono (T : CustomTypes) (rec rec' : Call → Option Bool)
    (hrec : ∀ c b, rec c = some b → rec' c = some b) (c : Call) (b : Bool) (h : T.isDynamic rec c = some b) :
    T.isDynamic rec' c = some b := by
  obtain ⟨ty, active⟩ := c
  cases ty with
  | array ty size =>
    cases size with
    | none => exact h
    | some n => exact hrec _ _ h
  | tuple types => exact anyM_mono (fun ty b => hrec ⟨ty, active⟩ b) h
  | custom path =>
    rw [CustomTypes.isDynamic] at h ⊢
    by_cases hmem : path.last ∈ active
    · rw [if_pos hmem] at h ⊢
      exact h
    · rw [if_neg hmem] at h ⊢
      cases hd : T.get path.last with
      | none =>
        rw [hd] at h
        exact h
      | some d =>
        rw [hd] at h
        cases d with
        | enum => exact h
        | udt underlying => exact hrec _ _ h
        | struct fields => exact anyM_mono (fun ty b => hrec ⟨ty, path.last :: active⟩ b) h
  | _ => exact h

/-- A static array has static elements. -/
theorem static_elem {T : CustomTypes} {depth : ℕ} {ty : SolidityType} {size : Option ℕ}
    (h : T.isAbiDynamic depth (.array ty size) = some false) : T.isAbiDynamic depth ty = some false := by
  cases depth with
  | zero => cases h
  | succ depth =>
    cases size with
    | none => cases h
    | some n => exact unroll_succ (isDynamic_mono T) h

/-- A static tuple has static components. -/
theorem static_component {T : CustomTypes} {depth : ℕ} {types : List SolidityType}
    (h : T.isAbiDynamic depth (.tuple types) = some false) :
    ∀ ty ∈ types, T.isAbiDynamic depth ty = some false := by
  cases depth with
  | zero => cases h
  | succ depth => exact fun ty hty => unroll_succ (isDynamic_mono T) (eq_of_anyM_eq_false h ty hty)

/-- Without `alloc` the types are written that the table says are static. -/
theorem toRustType_noAlloc_iff {depth : ℕ} {ty : SolidityType} {r : RustType} :
    F.toRustType false depth scope ty = .ok r ↔
      F.Written scope ty r ∧ F.customTypes.isAbiDynamic depth ty = some false := by
  constructor
  · intro h
    exact ⟨written_of_toRustType h, gate_noAlloc_iff.mp (gate_of_toRustType h)⟩
  · rintro ⟨hwritten, hstatic⟩
    exact toRustType_of_written (P := fun ty => F.customTypes.isAbiDynamic depth ty = some false)
      (fun _ => gate_noAlloc_iff.mpr) (fun _ _ => static_elem) (fun _ => static_component) hstatic hwritten

end AbiFile

end PvmContract.AbiImport
