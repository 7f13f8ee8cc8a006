import PvmContract.Storage.Lazy
import PvmContract.Contract.Errors
import PvmContract.Data.Trace

/-!
# Components

`Component` is one implementation of `StorageType`: what can be a field of a
`#[storage]` struct, or an element of a vector. A component is reached through a
handle, either shared, to ask it something, or exclusive, to operate on it; both may
panic. The record says what a component does by a reference on plain values, and
that the code agrees with it: it panics alike, and otherwise moves the place of the
component to the new value and returns the same.

A leaf hands out `Lazy` handles that borrow nothing, so an operation on a component
may come from a handle that was taken earlier, inside of it. `live` says that the
part of the value that such a handle is about is still there.

A component can have more parts than the hash has room for, such as the elements of
vectors in vectors. `Usage` says which of them are in use: the place of a component is
about these only, and so is what is asked of the hash. `within` says that an operation
keeps to them.

Leaves are the first members. Vectors and structs, with components of their own,
are defined over them.
-/

namespace PvmContract.Storage

open PvmContract.Data PvmContract.Contract

/-- The arguments of `new_at`: where a component begins, and whether nothing else is in its slot. -/
structure Handle (shape : Shape) where
  key : Key
  offset : ℕ
  alone : Bool
  within : offset + shape.packedBytes ≤ 32

/-- Nothing else is in the slot of a narrow component that is alone. -/
def Handle.Undisturbed {shape : Shape} (h : Handle shape) (x : Cell → UInt8) : Prop :=
  shape.packedBytes < 32 → h.alone = true → ∀ p, ¬ (h.offset ≤ p ∧ p < h.offset + shape.packedBytes) → x (h.key, p) = 0

/-- One implementation of `StorageType`. -/
structure Component where
  /-- `PACKED_BYTES` and `SLOTS`. -/
  shape : Shape
  /-- `NEEDS_RECURSIVE_CLEAR`. -/
  needsRecursiveClear : Bool
  Val : Type
  /-- The value of storage that was never written. -/
  initial : Val
  /-- What can be asked through `Get`. -/
  Query : Type
  Answer : Type
  /-- What can be done through `GetMut`. -/
  Op : Type
  Out : Type
  /-- A question to what `get_at` returns. -/
  ask : Hash → Store → Handle shape → Query → Except Panic Answer
  /-- An operation on what `get_mut_at` returns. -/
  exec : Hash → Store → Handle shape → Op → Except Panic (Store × Out)
  /-- `clear_at`. -/
  clearAt : Hash → Store → Handle shape → Except Panic Store
  /-- The reference of `ask`. -/
  answer : Val → Query → Except Panic Answer
  /-- The reference of `exec`. -/
  spec : Val → Op → Except Panic (Val × Out)
  /-- The reference of `clear_at`, which may panic but else leaves the initial value. -/
  clearSpec : Val → Except Panic Unit
  /-- What the operation is about is still there. -/
  live : Val → Op → Prop
  /-- Which parts are in use. -/
  Usage : Type
  /-- All of them. -/
  all : Usage
  /-- The operation needs no other part. -/
  within : Usage → Val → Op → Prop
  /-- The keys that are hashed. -/
  points : Hash → Usage → Key → Set Key
  place : Hash → Usage → Key → ℕ → Place Cell UInt8 Val
  /-- `SLOTS` is a constant of type `u64`. -/
  slots_lt : shape.slots < 2 ^ 64
  within_all : ∀ v op, within all v op
  occupies : ∀ keccak u key offset,
    Occupies keccak shape key offset (points keccak u key) (place keccak u key offset).cells
  initial_iff : ∀ {keccak u key offset x},
    (place keccak u key offset).Holds x initial ↔ ∀ c ∈ (place keccak u key offset).cells, x c = 0
  /-- A component that can be cleared slot by slot hashes nothing. -/
  flat : needsRecursiveClear = false → ∀ keccak u key, points keccak u key = ∅
  recursive_full : needsRecursiveClear = true → shape.packedBytes = 32
  ask_eq : ∀ {keccak u s} {h : Handle shape} {v}, (place keccak u h.key h.offset).Holds (Store.bytes s) v → ∀ q,
    ask keccak s h q = answer v q
  exec_related : ∀ {keccak u s} {h : Handle shape} {v},
    Separate keccak (points keccak u h.key) (h.key.range shape.slots) →
    (place keccak u h.key h.offset).Holds (Store.bytes s) v → h.Undisturbed s.bytes →
      ∀ op, live v op → within u v op →
        Related (fun a b => (place keccak u h.key h.offset).Moves s.bytes a.1.bytes b.1 ∧ a.2 = b.2)
          (exec keccak s h op) (spec v op)
  clear_related : ∀ {keccak u s} {h : Handle shape} {v},
    Separate keccak (points keccak u h.key) (h.key.range shape.slots) →
    (place keccak u h.key h.offset).Holds (Store.bytes s) v → h.Undisturbed s.bytes →
      Related (fun t _ => (place keccak u h.key h.offset).Moves s.bytes t.bytes initial)
        (clearAt keccak s h) (clearSpec v)

/-! ### Leaves -/

namespace LeafType

/-- The handle that `Lazy::new_at` makes. -/
def lazy (T : LeafType) (h : Handle T.shape) : Lazy T := ⟨h.key, h.offset, h.alone, h.within⟩

variable {T : LeafType}

/-- `get_at` of a leaf: a type of 32 bytes is read straight through its codec. -/
def getAt (T : LeafType) (keccak : Hash) (s : Store) (h : Handle T.shape) : T.Carrier :=
  match T with
  | full c => c.readFromStorage keccak s h.key
  | packed p narrow => (lazy (packed p narrow) h).get keccak s

/-- `clear_at` of a leaf. -/
def clearAt (T : LeafType) (keccak : Hash) (s : Store) (h : Handle T.shape) : Store :=
  match T with
  | full c => c.clearStorage keccak s h.key
  | packed p narrow => (lazy (packed p narrow) h).clear keccak s

/-- `write_value` of a leaf. -/
def writeValue (T : LeafType) (keccak : Hash) (s : Store) (h : Handle T.shape) (value : T.Carrier) : Store :=
  match T with
  | full c => c.writeToStorage keccak s h.key value
  | packed p narrow => (lazy (packed p narrow) h).set keccak s value

theorem getAt_eq (keccak : Hash) (s : Store) (h : Handle T.shape) : T.getAt keccak s h = (T.lazy h).get keccak s := by
  cases T with
  | packed p narrow => rfl
  | full c => rfl

theorem clearAt_eq (keccak : Hash) (s : Store) (h : Handle T.shape) :
    T.clearAt keccak s h = (T.lazy h).clear keccak s := by
  cases T with
  | packed p narrow => rfl
  | full c => rfl

theorem writeValue_eq (keccak : Hash) (s : Store) (h : Handle T.shape) (value : T.Carrier) :
    T.writeValue keccak s h value = (T.lazy h).set keccak s value := by
  cases T with
  | packed p narrow => rfl
  | full c => rfl

theorem slots_lt (T : LeafType) : T.shape.slots < 2 ^ 64 := by
  cases T with
  | packed p narrow => exact Nat.one_lt_two_pow (by decide)
  | full c => exact lt_of_le_of_lt c.storageSlots_le (by decide)

theorem points_of_static (h : T.hasDynamicBody = false) (key : Key) : T.points key = ∅ := by
  cases T with
  | packed p narrow => rfl
  | full c =>
    ext j
    constructor
    · rintro ⟨t, ht, -⟩
      rw [c.headers_of_static h] at ht
      exact ht
    · exact fun hj => absurd hj (Set.notMem_empty _)

theorem packedBytes_of_dynamic (h : T.hasDynamicBody = true) : T.shape.packedBytes = 32 := by
  cases T with
  | packed p narrow => exact absurd h Bool.false_ne_true
  | full c => rfl

end LeafType

/-- What a leaf can be asked: an element by its value, and a handle by its methods. -/
inductive LeafQuery (T : LeafType) where
  | get
  | tryGet (full : T.shape.packedBytes = 32)

namespace LeafType

variable {T : LeafType}

def ask (T : LeafType) (keccak : Hash) (s : Store) (h : Handle T.shape) : LeafQuery T → LazyResult T
  | .get => .value (T.getAt keccak s h)
  | .tryGet hfull => .option ((T.lazy h).tryGet keccak s hfull)

def answer (o : Option T.Carrier) : LeafQuery T → LazyResult T
  | .get => .value (o.getD T.zero)
  | .tryGet _ => .option (T.presence o)

theorem ask_eq {keccak : Hash} {s : Store} {h : Handle T.shape} {o : Option T.Carrier}
    (ho : (T.place keccak h.key h.offset).Holds s.bytes o) (q : LeafQuery T) : T.ask keccak s h q = answer o q := by
  cases q with
  | get =>
    rw [ask, answer, getAt_eq]
    exact congrArg LazyResult.value (Lazy.get_eq ho)
  | tryGet hfull =>
    have ho' : ((T.lazy h).place keccak).Holds s.bytes o := ho
    exact congrArg LazyResult.option (Lazy.tryGet_eq ho' hfull)

section

variable {keccak : Hash} {s : Store} {h : Handle T.shape} {o : Option T.Carrier}
  (hsep : Separate keccak (T.points h.key) (h.key.range T.shape.slots))
  (ho : (T.place keccak h.key h.offset).Holds s.bytes o) (hu : h.Undisturbed s.bytes)

include hsep ho hu

theorem exec_moves (op : LazyOp T) :
    (T.place keccak h.key h.offset).Moves s.bytes ((T.lazy h).exec keccak s op).1.bytes (op.spec o).1 ∧
      ((T.lazy h).exec keccak s op).2 = (op.spec o).2 := by
  have hapart : (T.lazy h).Apart keccak := hsep
  have ho' : ((T.lazy h).place keccak).Holds s.bytes o := ho
  exact Lazy.exec_moves hapart ho' hu op

theorem clearAt_moves : (T.place keccak h.key h.offset).Moves s.bytes (T.clearAt keccak s h).bytes none := by
  rw [clearAt_eq]
  exact (exec_moves hsep ho hu .clear).1

theorem writeValue_moves (value : T.Value) :
    (T.place keccak h.key h.offset).Moves s.bytes (T.writeValue keccak s h value.1).bytes (some value.1) := by
  rw [writeValue_eq]
  exact (exec_moves hsep ho hu (.set value)).1

theorem take_moves : (T.place keccak h.key h.offset).Moves s.bytes ((T.lazy h).take keccak s).1.bytes none ∧
    ((T.lazy h).take keccak s).2 = o.getD T.zero := by
  obtain ⟨hmoves, hresult⟩ := exec_moves hsep ho hu .take
  exact ⟨hmoves, LazyResult.value.inj hresult⟩

end

end LeafType

/-- A leaf type as an element, or `Lazy` of it as an element or a field. -/
def Component.leaf (T : LeafType) : Component where
  shape := T.shape
  needsRecursiveClear := T.hasDynamicBody
  Val := Option T.Carrier
  initial := none
  Query := LeafQuery T
  Answer := LazyResult T
  Op := LazyOp T
  Out := LazyResult T
  ask keccak s h q := .ok (T.ask keccak s h q)
  exec keccak s h op := .ok ((T.lazy h).exec keccak s op)
  clearAt keccak s h := .ok (T.clearAt keccak s h)
  answer o q := .ok (LeafType.answer o q)
  spec o op := .ok (op.spec o)
  clearSpec _ := .ok ()
  live _ _ := True
  Usage := Unit
  all := ()
  within _ _ _ := True
  points _ _ key := T.points key
  place keccak _ := T.place keccak
  slots_lt := T.slots_lt
  within_all _ _ := trivial
  occupies keccak _ key offset := (T.fills keccak key offset).occupies
  initial_iff := T.none_iff
  flat h _ _ key := LeafType.points_of_static h key
  recursive_full := LeafType.packedBytes_of_dynamic
  ask_eq ho q := congrArg Except.ok (LeafType.ask_eq ho q)
  exec_related hsep ho hu op _ _ := .ok (LeafType.exec_moves hsep ho hu op)
  clear_related hsep ho hu := .ok (LeafType.clearAt_moves hsep ho hu)

/-- What a leaf holds after a value is written. -/
def LeafType.held {T : LeafType} (v : T.Carrier) : (Component.leaf T).Val := some v

end PvmContract.Storage
