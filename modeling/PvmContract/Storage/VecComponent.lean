import PvmContract.Storage.VecLaws

/-!
# Vectors as components

A vector is a component, so vectors can be elements of vectors. A vector of values has
the by-value operations besides those of a vector of components; `VecKind` says which
of the two a vector is.
-/

namespace PvmContract.Storage

open PvmContract.Data PvmContract.Contract

/-- The elements of a vector: values, or components that are reached through guards. -/
inductive VecKind where
  | simple (T : LeafType)
  | container (E : Component)

namespace VecKind

/-- The elements as components. -/
def elem : VecKind → Component
  | simple T => .leaf T
  | container E => E

/-- The by-value operations. -/
def ByValue : VecKind → Type
  | simple T => StorageVec.SimpleOp T
  | container _ => Empty

/-- What they return. -/
def Popped : VecKind → Type
  | simple T => T.Carrier
  | container _ => Empty

end VecKind

namespace StorageVec

section

variable (K : VecKind)

/-- The operations of a vector. -/
abbrev Op : Type := VecOp K.elem ⊕ K.ByValue

/-- What they return. -/
abbrev Out : Type := Result K.elem.Answer K.elem.Out K.Popped

end

variable {K : VecKind}

/-- A by-value operation. -/
def execByValue (keccak : Hash) (root : Key) (s : Store) (op : K.ByValue) : Except Panic (Store × Out K) :=
  match K, op with
  | .simple _, op => execSimple keccak root s op

/-- An operation on a vector. -/
def execOp (keccak : Hash) (root : Key) (s : Store) : Op K → Except Panic (Store × Out K)
  | .inl op => exec keccak root s op
  | .inr op => execByValue keccak root s op

/-- The reference of a by-value operation. -/
def specByValue (l : List K.elem.Val) (op : K.ByValue) : Except Panic (List K.elem.Val × Out K) :=
  match K, l, op with
  | .simple _, l, op => specSimple l op

/-- The reference of an operation. -/
def specOp (l : List K.elem.Val) : Op K → Except Panic (List K.elem.Val × Out K)
  | .inl op => spec l op
  | .inr op => specByValue l op

/-- What the operation is about is still there. -/
def liveOp (l : List K.elem.Val) : Op K → Prop
  | .inl op => live l op
  | .inr _ => True

/-- A by-value operation needs no element that is not in use. -/
def withinByValue (u : Usage K.elem) (l : List K.elem.Val) (op : K.ByValue) : Prop :=
  match K, u, l, op with
  | .simple _, u, l, op => withinSimple u l op

/-- The operation needs no element that is not in use. -/
def withinOp (u : Usage K.elem) (l : List K.elem.Val) : Op K → Prop
  | .inl op => within u l op
  | .inr op => withinByValue u l op

theorem withinOp_all (l : List K.elem.Val) (op : Op K) : withinOp (Usage.all K.elem) l op := by
  cases op with
  | inl op => exact within_all l op
  | inr op =>
    cases K with
    | simple T =>
      cases op with
      | push value => exact id
      | pop => trivial
      | set index value => trivial
    | container E => exact nomatch op

/-! ### Operations do what the reference says -/

section

variable {E : Component} {u : Usage E} {keccak : Hash} {root : Key} {s : Store} {l : List E.Val}
  (hsep : Separate keccak (points E u keccak root) (root.range 1)) (h : (place E u keccak root).Holds s.bytes l)

include hsep h

theorem exec_related {V : Type} (op : VecOp E) (hlive : live l op) (hwithin : within u l op) :
    Related (fun a b => (place E u keccak root).Moves s.bytes a.1.bytes b.1 ∧ a.2 = b.2)
      (exec (V := V) keccak root s op) (spec l op) := by
  cases op with
  | ask q =>
    rw [exec, spec, ask_eq h]
    cases answer l q with
    | error e => exact .error e
    | ok a => exact .ok ⟨.refl h, rfl⟩
  | entry index =>
    rw [exec, spec, entry_eq h]
    by_cases hi : index.1 < l.length
    · rw [if_pos hi, if_pos hi]
      exact .ok ⟨.refl h, rfl⟩
    · rw [if_neg hi, if_neg hi]
      exact .error _
  | grow => exact (grow_related h hsep hwithin).map fun t l' ht => ⟨ht, rfl⟩
  | cursor index op =>
    obtain ⟨v, hv, hop⟩ := hlive
    simp only [exec, spec, hv]
    exact (cursor_related h hsep hv hop (hwithin v hv)).map fun a b hab => ⟨hab.1, congrArg Result.out hab.2⟩
  | eraseLast =>
    rw [exec, spec]
    cases hv : l.getLast? with
    | none =>
      have hnil := List.getLast?_eq_none_iff.mp hv
      have hcode : eraseLast keccak root s E = .ok (s, false) := by
        simp only [eraseLast, len_eq h, bind, Except.bind, pure, Except.pure, hnil, List.length_nil, if_true]
      rw [hcode]
      exact .ok ⟨.refl h, rfl⟩
    | some v => exact (eraseLast_related h hsep hv).map fun a _ ha => ⟨ha.1, congrArg Result.bool ha.2⟩
  | clear => exact (clear_related h hsep).map fun t _ ht => ⟨ht, rfl⟩

end

section

variable {T : LeafType} {u : Usage (.leaf T)} {keccak : Hash} {root : Key} {s : Store} {l : List (Component.leaf T).Val}
  (hsep : Separate keccak (points (.leaf T) u keccak root) (root.range 1))
  (h : (place (.leaf T) u keccak root).Holds s.bytes l)

include hsep h

theorem execSimple_related {A O : Type} (op : SimpleOp T) (hwithin : withinSimple u l op) :
    Related (fun a b => (place (.leaf T) u keccak root).Moves s.bytes a.1.bytes b.1 ∧ a.2 = b.2)
      (execSimple (A := A) (O := O) keccak root s op) (specSimple l op) := by
  cases op with
  | push value => exact (push_related hsep h hwithin value).map fun t l' ht => ⟨ht, rfl⟩
  | pop =>
    rw [execSimple, specSimple]
    cases hv : l.getLast? with
    | none =>
      have hnil := List.getLast?_eq_none_iff.mp hv
      have hcode : pop keccak root s T = .ok (s, none) := by
        simp only [pop, len_eq h, bind, Except.bind, pure, Except.pure, hnil, List.length_nil, if_true]
      rw [hcode]
      exact .ok ⟨.refl h, rfl⟩
    | some v =>
      obtain ⟨t, ht, hmoves⟩ := pop_moves hsep h hv
      rw [ht]
      exact .ok ⟨hmoves, rfl⟩
  | set index value =>
    rw [execSimple, specSimple]
    by_cases hi : index.1 < l.length
    · obtain ⟨t, ht, hmoves⟩ := set_moves hsep h hi value
      rw [if_pos hi, ht]
      exact .ok ⟨hmoves, rfl⟩
    · have hcode : set keccak root s index.1 value.1 = .error .outOfBoundsAccess := by
        simp only [set, len_eq h, bind, Except.bind, ge_iff_le, Nat.le_of_not_lt hi, if_true]
      rw [if_neg hi, hcode]
      exact .error _

end

/-- **Operations on a vector are operations on the list.** -/
theorem execOp_related {u : Usage K.elem} {keccak : Hash} {root : Key} {s : Store} {l : List K.elem.Val}
    (hsep : Separate keccak (points K.elem u keccak root) (root.range 1))
    (h : (place K.elem u keccak root).Holds s.bytes l)
    (op : Op K) (hlive : liveOp l op) (hwithin : withinOp u l op) :
    Related (fun a b => (place K.elem u keccak root).Moves s.bytes a.1.bytes b.1 ∧ a.2 = b.2)
      (execOp keccak root s op) (specOp l op) := by
  cases op with
  | inl op => exact exec_related hsep h op hlive hwithin
  | inr op =>
    cases K with
    | simple T => exact execSimple_related hsep h op hwithin
    | container E => exact nomatch op

end StorageVec

/-- `StorageVec` as a component. -/
def Component.vec (K : VecKind) : Component where
  shape := ⟨32, 1, word_pos, word_le, Nat.one_pos, one_slot⟩
  needsRecursiveClear := true
  Val := List K.elem.Val
  initial := []
  Query := StorageVec.Ask K.elem.Query
  Answer := StorageVec.Answer K.elem.Answer
  Op := StorageVec.Op K
  Out := StorageVec.Out K
  ask keccak s h q := StorageVec.ask keccak h.key s q
  exec keccak s h op := StorageVec.execOp keccak h.key s op
  clearAt keccak s h := StorageVec.clear keccak h.key s K.elem
  answer := StorageVec.answer
  spec := StorageVec.specOp
  clearSpec := StorageVec.clearSpec
  live := StorageVec.liveOp
  Usage := StorageVec.Usage K.elem
  all := .all K.elem
  within := StorageVec.withinOp
  points keccak u := StorageVec.points K.elem u keccak
  place keccak u key _ := StorageVec.place K.elem u keccak key
  slots_lt := by decide
  within_all := StorageVec.withinOp_all
  occupies _ _ _ offset := StorageVec.place_occupies offset
  initial_iff := StorageVec.initial_iff
  flat h := absurd h (by decide)
  recursive_full _ := rfl
  ask_eq h q := StorageVec.ask_eq h q
  exec_related hsep h _ op hlive hwithin := StorageVec.execOp_related hsep h op hlive hwithin
  clear_related hsep h _ := StorageVec.clear_related h hsep

end PvmContract.Storage
