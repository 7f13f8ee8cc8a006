import PvmContract.Storage.ContractStorage

/-!
# Cells of a contract

A `Cell` is a single value in the storage of a contract: a field, or the entry of a
mapping. Code that works on cells is a program of storage commands, as it stands in a
method's body: `peek` is `get` of a mapping, `get` makes a handle and reads through it,
and `set` writes through the handle made before. Each of the three has one rule, which
says how the rest of the code goes on in the reference.
-/

namespace PvmContract.Storage

open PvmContract.Data PvmContract.Contract

/-! ### Leaves -/

/-- A leaf of a component, behind fields of structs. -/
inductive LeafOf (T : LeafType) : Component → Type 1 where
  | self : LeafOf T (.leaf T)
  | field {S : StructDef} (i : S.Index) (rest : LeafOf T (S.fields.get i)) : LeafOf T (.struct S)

namespace StructDef

variable {S : StructDef} {i : S.Index} {v : S.Val}

theorem answer_mk {q : (S.fields.get i).Query} {a : (S.fields.get i).Answer}
    (h : (S.fields.get i).answer (v i) q = .ok a) : S.answer v ⟨i, q⟩ = .ok ⟨i, a⟩ := by
  rw [answer, h]
  rfl

theorem spec_mk {o : (S.fields.get i).Op} {w : (S.fields.get i).Val} {out : (S.fields.get i).Out}
    (h : (S.fields.get i).spec (v i) o = .ok (w, out)) : S.spec v ⟨i, o⟩ = .ok (Function.update v i w, ⟨i, out⟩) := by
  rw [spec, h]
  rfl

end StructDef

namespace LeafOf

variable {T : LeafType} {c : Component}

/-- A question to the leaf. -/
def query (q : LeafQuery T) : {c : Component} → LeafOf T c → c.Query
  | _, self => q
  | _, field i rest => ⟨i, rest.query q⟩

/-- An operation on it. -/
def op (o : LazyOp T) : {c : Component} → LeafOf T c → c.Op
  | _, self => o
  | _, field i rest => ⟨i, rest.op o⟩

/-- The leaf's part of an answer. -/
def reply : {c : Component} → LeafOf T c → c.Answer → Option (LazyResult T)
  | _, self, r => some r
  | _, field i rest, r => if h : r.1 = i then rest.reply (h ▸ r.2) else none

/-- The leaf's part of what an operation returns. -/
def result : {c : Component} → LeafOf T c → c.Out → Option (LazyResult T)
  | _, self, r => some r
  | _, field i rest, r => if h : r.1 = i then rest.result (h ▸ r.2) else none

/-- The value of the leaf. -/
def value : {c : Component} → LeafOf T c → c.Val → Option T.Carrier
  | _, self, o => o
  | _, field i rest, v => rest.value (v i)

/-- The component with another value in the leaf. -/
def put (o : Option T.Carrier) : {c : Component} → LeafOf T c → c.Val → c.Val
  | _, self, _ => o
  | _, field i rest, v => Function.update v i (rest.put o (v i))

theorem value_put (l : LeafOf T c) (o : Option T.Carrier) (v : c.Val) : l.value (l.put o v) = o := by
  induction l with
  | self => rfl
  | @field S i rest ih =>
    have hself : (put o (field i rest) v : S.Val) i = rest.put o (v i) := Function.update_self i _ (v : S.Val)
    exact (congrArg rest.value hself).trans (ih _)

theorem put_value (l : LeafOf T c) (v : c.Val) : l.put (l.value v) v = v := by
  induction l with
  | self => rfl
  | @field S i rest ih =>
    have hrest : rest.put (rest.value (v i)) (v i) = v i := ih (v i)
    exact (congrArg (Function.update (v : S.Val) i) hrest).trans (Function.update_eq_self i (v : S.Val))

theorem value_initial (l : LeafOf T c) : l.value c.initial = none := by
  induction l with
  | self => rfl
  | field i rest ih => exact ih

theorem live_op (l : LeafOf T c) (o : LazyOp T) (v : c.Val) : c.live v (l.op o) := by
  induction l with
  | self => trivial
  | field i rest ih => exact ih (v i)

theorem within_op (l : LeafOf T c) (o : LazyOp T) (u : c.Usage) (v : c.Val) : c.within u v (l.op o) := by
  induction l with
  | self => trivial
  | field i rest ih => exact ih (u i) (v i)

theorem answer_query (l : LeafOf T c) (q : LeafQuery T) (v : c.Val) :
    ∃ a, c.answer v (l.query q) = .ok a ∧ l.reply a = some (LeafType.answer (l.value v) q) := by
  induction l with
  | self => exact ⟨_, rfl, rfl⟩
  | @field S i rest ih =>
    obtain ⟨a, hanswer, hreply⟩ := ih (v i)
    refine ⟨⟨i, a⟩, StructDef.answer_mk hanswer, ?_⟩
    have hpart : (field i rest).reply (Sigma.mk i a : S.Answer) = rest.reply a := dif_pos rfl
    exact hpart.trans hreply

theorem spec_op (l : LeafOf T c) (o : LazyOp T) (v : c.Val) :
    ∃ out, c.spec v (l.op o) = .ok (l.put (o.spec (l.value v)).1 v, out) ∧
      l.result out = some (o.spec (l.value v)).2 := by
  induction l with
  | self => exact ⟨_, rfl, rfl⟩
  | @field S i rest ih =>
    obtain ⟨out, hspec, hresult⟩ := ih (v i)
    refine ⟨⟨i, out⟩, StructDef.spec_mk hspec, ?_⟩
    have hpart : (field i rest).result (Sigma.mk i out : S.Out) = rest.result out := dif_pos rfl
    exact hpart.trans hresult

end LeafOf

/-! ### Cells -/

section

variable {S : Schema} {h : S.Fits} {T : LeafType} {α : Type}

variable (S h T) in
/-- A single value in storage. -/
structure Cell where
  site : Site S
  leaf : LeafOf T (site.component h)

variable (S h α) in
/-- Code that uses the storage, and may panic. -/
abbrev Code : Type 1 := Prog (StorageCommand S h) StorageCommand.Answer (Except Panic α)

/-- The value that an operation returns. -/
def LazyResult.carried : LazyResult T → Option T.Carrier
  | value v => some v
  | unit | option _ => none

/-- The code goes on with what came back, if it is of the right kind, and a panic ends it. -/
def proceed {X R : Type} (view : X → Option R) (k : R → Code S h α) : Except Panic X → Code S h α
  | .ok x => (view x).elim (.done (.error .generic)) k
  | .error p => .done (.error p)

namespace Cell

variable (c : Cell S h T)

/-- The value of a cell. -/
def value (v : StorageState S h) : T.Carrier := (c.leaf.value (v c.site)).getD T.zero

/-- The state with another value in a cell. -/
noncomputable def put (x : T.Carrier) (v : StorageState S h) : StorageState S h :=
  v.set c.site (c.leaf.put (some x) (v c.site))

/-- `get` of a mapping. -/
def peek (k : T.Carrier → Code S h α) : Code S h α :=
  .ask (.ask c.site (c.leaf.query .get)) (proceed (fun r => (c.leaf.reply r).bind LazyResult.carried) k)

/-- A handle is made, and its `get`. -/
def get (k : T.Carrier → Code S h α) : Code S h α :=
  .ask (.exec c.site (c.leaf.op .get)) (proceed (fun r => (c.leaf.result r).bind LazyResult.carried) k)

/-- `set`, by a handle that was made. -/
def set (x : T.Value) (k : Code S h α) : Code S h α :=
  .ask (.held c.site (c.leaf.op (.set x))) (proceed c.leaf.result fun _ => k)

/-! ### The rules -/

variable {c} {used : StorageUsage S h} {v w : StorageState S h} {r : Except Panic α}

theorem value_put (x : T.Carrier) (v : StorageState S h) : c.value (c.put x v) = x := by
  rw [value, put, StorageState.set_self, LeafOf.value_put]
  rfl

theorem value_put_of_ne {T' : LeafType} {c' : Cell S h T'} (hne : c'.site ≠ c.site) (x : T.Carrier)
    (v : StorageState S h) : c'.value (c.put x v) = c'.value v := by
  rw [value, put, StorageState.set_of_ne v hne]
  rfl

theorem value_initial : c.value (.initial S h) = T.zero := by
  have hnone : c.leaf.value (StorageState.initial S h c.site) = none := c.leaf.value_initial
  rw [value, hnone]
  rfl

/-- The code runs in the reference, within the sites in use, and this is how it ends. -/
abbrev Runs (used : StorageUsage S h) (p : Code S h α) (v : StorageState S h) (r : Except Panic α)
    (w : StorageState S h) : Prop :=
  p.Ends respond (fun v c => c.Allowed used v) v r w

section

variable (hx : c.site ∈ used.sites) (hreach : v.reach c.site = .ok ())

include hx hreach

theorem runs_peek {k : T.Carrier → Code S h α} (hk : Runs used (k (c.value v)) v r w) : Runs used (c.peek k) v r w := by
  obtain ⟨a, hanswer, hreply⟩ := c.leaf.answer_query .get (v c.site)
  refine .ask ⟨hx, trivial⟩ (b := .ok a) (t := v) ?_ ?_
  · rw [respond, hreach]
    exact congrArg (fun m => some (m, v)) hanswer
  · rw [proceed, hreply]
    exact hk

theorem runs_get {k : T.Carrier → Code S h α} (hk : Runs used (k (c.value v)) v r w) : Runs used (c.get k) v r w := by
  obtain ⟨out, hspec, hresult⟩ := c.leaf.spec_op .get (v c.site)
  have hsame : c.leaf.put (LazyOp.spec (c.leaf.value (v c.site)) .get).1 (v c.site) = v c.site :=
    c.leaf.put_value (v c.site)
  rw [hsame] at hspec
  refine .ask ⟨hx, c.leaf.live_op .get _, c.leaf.within_op .get _ _⟩ (b := .ok out) (t := v) ?_ ?_
  · have hsettled : v.settled c.site (.ok (v c.site, out)) = (.ok out, v) :=
      congrArg (Prod.mk (Except.ok out)) (v.set_same c.site)
    rw [respond, hreach]
    exact congrArg some ((congrArg (v.settled c.site) hspec).trans hsettled)
  · rw [proceed, hresult]
    exact hk

end

theorem runs_set (hx : c.site ∈ used.sites) {x : T.Value} {k : Code S h α} (hk : Runs used k (c.put x.1 v) r w) :
    Runs used (c.set x k) v r w := by
  obtain ⟨out, hspec, hresult⟩ := c.leaf.spec_op (.set x) (v c.site)
  refine .ask ⟨hx, c.leaf.live_op (.set x) _, c.leaf.within_op (.set x) _ _⟩ (b := .ok out) (t := c.put x.1 v) ?_ ?_
  · rw [respond, hspec]
    rfl
  · rw [proceed, hresult]
    exact hk

end Cell

end

end PvmContract.Storage
