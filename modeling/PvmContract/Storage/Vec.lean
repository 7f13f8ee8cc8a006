import PvmContract.Storage.Component
import PvmContract.Storage.Elements

/-!
# Vectors

`StorageVec<S>` keeps its length at the root and its elements in the region of the
root: packed, several to a slot, if they are narrower than one, and else one after the
other, each in its own slots. The root of the region, `body_base`, is derived as it is
for a dynamic value, and the loops that delete slot by slot are the same. The functions
here are those of the source, over any component; an index of 64 bits is a natural number
below `2 ^ 64`.

The last section is the reference: what the same questions and operations do to a
list. It panics for the same reasons, an index past the end or a length that the
element slots leave no room for, and knows nothing of slots but how many an element
takes.
-/

namespace PvmContract.Storage

open PvmContract.Data PvmContract.Contract

/-- `u64`. -/
abbrev U64 : Type := Fin (2 ^ 64)

/-! ### The length -/

/-- `read_len`. -/
def readLen (s : Store) (slotKey : Key) : Except Panic ℕ :=
  let buf := s.getStorageOrZero slotKey
  if !(buf.1.take 24).all (· == 0) then .error .storageByteArrayEncoding else .ok (ofBe (buf.1.drop 24))

/-- `try_read_len`. -/
def tryReadLen (s : Store) (slotKey : Key) : Option ℕ :=
  let buf := s.getStorageOrZero slotKey
  if !(buf.1.take 24).all (· == 0) then none else some (ofBe (buf.1.drop 24))

/-- The word of a length. -/
def lenWord (n : ℕ) : Word := Word.zero.copyAt 24 (beBytes 8 n)

/-- `write_len_u64`. -/
def writeLenU64 (s : Store) (slotKey : Key) (n : ℕ) : Store := s.setStorageOrClear slotKey (lenWord n)

/-! ### The elements -/

namespace StorageVec

variable {E : Component}

/-- Element `i` at the key of its slot. -/
def elemAt (key : Key) (i : ℕ) (alone : Bool) : Handle E.shape :=
  ⟨key, elementOffset E.shape i, alone, elementOffset_within i⟩

/-! ### Questions -/

/-- A step of an iterator, with what is asked of the element that it yields. -/
inductive IterStep (Q : Type) where
  | next (q : Q)
  | nextBack (q : Q)

/-- What a vector can be asked; an element that is found is asked in turn. -/
inductive Ask (Q : Type) where
  | len
  | isEmpty
  | get (index : U64) (q : Q)
  | tryGet (index : U64) (q : Q)
  | first (q : Q)
  | last (q : Q)
  | iter (steps : List (IterStep Q))

/-- The answers. -/
inductive Answer (A : Type) where
  | len (n : ℕ)
  | isEmpty (b : Bool)
  | get (a : A)
  | tryGet (a : Option A)
  | items (items : List (Option A))

section

variable {E : Component} (keccak : Hash) (root : Key) (s : Store)

/-- `len`. -/
def len : Except Panic ℕ := readLen s root

/-- `checked_len`. -/
def checkedLen : Option ℕ := tryReadLen s root

/-- `is_empty`. -/
def isEmpty : Bool := (checkedLen root s).all (· == 0)

/-- What `get_at` returns for element `i` is asked a question. -/
def askElem (i : ℕ) (q : E.Query) : Except Panic E.Answer := do
  let key ← elementSlot E.shape keccak root i
  E.ask keccak s (elemAt key i false) q

/-- `get`. -/
def get (index : ℕ) (q : E.Query) : Except Panic E.Answer := do
  let len ← len root s
  if index ≥ len then .error .outOfBoundsAccess
  else askElem keccak root s index q

/-- `try_get`. -/
def tryGet (index : ℕ) (q : E.Query) : Except Panic (Option E.Answer) :=
  match checkedLen root s with
  | none => .ok none
  | some len => if index ≥ len then .ok none else some <$> askElem keccak root s index q

/-- `first`. -/
def first (q : E.Query) : Except Panic (Option E.Answer) := tryGet keccak root s 0 q

/-- `last`. -/
def last (q : E.Query) : Except Panic (Option E.Answer) :=
  match checkedLen root s with
  | none => .ok none
  | some len => if len = 0 then .ok none else some <$> askElem keccak root s (len - 1) q

/-- `StorageVecIter`. -/
structure Iter where
  pos : ℕ
  len : ℕ

/-- `iter`. -/
def iter : Iter := ⟨0, (checkedLen root s).getD 0⟩

/-- `next` and `next_back`: the index of the element that is yielded, and what is asked of it. -/
def Iter.advance {Q : Type} (self : Iter) : IterStep Q → Option (ℕ × Q) × Iter
  | .next q => if self.pos ≥ self.len then (none, self) else (some (self.pos, q), { self with pos := self.pos + 1 })
  | .nextBack q =>
    if self.pos ≥ self.len then (none, self) else (some (self.len - 1, q), { self with len := self.len - 1 })

/-- An iterator takes steps. -/
def Iter.items (self : Iter) : List (IterStep E.Query) → Except Panic (List (Option E.Answer))
  | [] => .ok []
  | step :: steps => do
    let item ← match (self.advance step).1 with
      | none => .ok none
      | some (i, q) => some <$> askElem keccak root s i q
    let items ← Iter.items (self.advance step).2 steps
    return item :: items

/-- A question to a vector. -/
def ask : Ask E.Query → Except Panic (Answer E.Answer)
  | .len => .len <$> len root s
  | .isEmpty => .ok (.isEmpty (isEmpty root s))
  | .get index q => .get <$> get keccak root s index q
  | .tryGet index q => .tryGet <$> tryGet keccak root s index q
  | .first q => .tryGet <$> first keccak root s q
  | .last q => .tryGet <$> last keccak root s q
  | .iter steps => .items <$> (iter root s).items keccak root s steps

end

/-! ### Operations -/

/-- What can be done to a vector of any elements. `entry` and `grow` return a cursor, and `cursor` is the
use of one that was returned for this index. -/
inductive VecOp (E : Component) where
  | ask (q : Ask E.Query)
  | entry (index : U64)
  | grow
  | cursor (index : U64) (op : E.Op)
  | eraseLast
  | clear

/-- What can be done to a vector of values besides. -/
inductive SimpleOp (T : LeafType) where
  | push (value : T.Value)
  | pop
  | set (index : U64) (value : T.Value)

/-- What an operation returns. -/
inductive Result (A O V : Type) where
  | unit
  | answer (a : Answer A)
  | out (o : O)
  | bool (b : Bool)
  | option (v : Option V)

section

variable {E : Component} (keccak : Hash) (root : Key) (s : Store)

/-- `entry`, but for the cursor. -/
def entry (E : Component) (index : ℕ) : Except Panic Unit := do
  let len ← len root s
  if index ≥ len then .error .outOfBoundsAccess
  else
    let _ ← elementSlot E.shape keccak root index

/-- `elem_mut`, and an operation on the cursor. -/
def elemMut (i : ℕ) (op : E.Op) : Except Panic (Store × E.Out) := do
  let alone := perSlot E.shape == 1
  let key ← elementSlot E.shape keccak root i
  E.exec keccak s (elemAt key i alone) op

/-- `grow`, but for the cursor. -/
def grow (E : Component) : Except Panic Store := do
  let len ← len root s
  if len + 1 < 2 ^ 64 then
    let newLen := len + 1
    let s := writeLenU64 s root newLen
    let _ ← elementSlot E.shape keccak root len
    return s
  else .error .oom

/-- `elem_clear`. -/
def elemClear (E : Component) (i : ℕ) : Except Panic Store := do
  let alone := elemAlone E.shape i
  let key ← elementSlot E.shape keccak root i
  E.clearAt keccak s (elemAt key i alone)

/-- `erase_last`. -/
def eraseLast (E : Component) : Except Panic (Store × Bool) := do
  let len ← len root s
  if len = 0 then return (s, false)
  else
    let newLen := len - 1
    let s ← elemClear keccak root s E newLen
    return (writeLenU64 s root newLen, true)

/-- `clear` up to the length: all elements one by one, or the slots that they touch. -/
def clearElems (E : Component) (len : ℕ) : Except Panic Store :=
  if len > 0 then
    if E.needsRecursiveClear then (List.range len).foldlM (fun s i => elemClear keccak root s E i) s
    else if E.shape.packedBytes < 32 then
      let totalSlots := (len + perSlot E.shape - 1) / perSlot E.shape
      .ok (clearSlots s (dynBodyRoot keccak root) totalSlots)
    else if len * E.shape.slots < 2 ^ 64 then
      let totalSlots := len * E.shape.slots
      .ok (clearSlots s (dynBodyRoot keccak root) totalSlots)
    else .error .overflow
  else .ok s

/-- `clear`. -/
def clear (E : Component) : Except Panic Store := do
  let len ← len root s
  let s ← clearElems keccak root s E len
  return s.setStorageOrClear root Word.zero

/-- An operation on a vector of any elements. -/
def exec {V : Type} : VecOp E → Except Panic (Store × Result E.Answer E.Out V)
  | .ask q => (fun a => (s, .answer a)) <$> ask keccak root s q
  | .entry index => (fun _ => (s, .unit)) <$> entry keccak root s E index
  | .grow => (fun t => (t, .unit)) <$> grow keccak root s E
  | .cursor index op => (fun r => (r.1, .out r.2)) <$> elemMut keccak root s index op
  | .eraseLast => (fun r => (r.1, .bool r.2)) <$> eraseLast keccak root s E
  | .clear => (fun t => (t, .unit)) <$> clear keccak root s E

end

section

variable {T : LeafType} (keccak : Hash) (root : Key) (s : Store)

/-- `write_value_at`. -/
def writeValueAt (i : ℕ) (value : T.Carrier) : Except Panic Store := do
  let alone := perSlot (Component.leaf T).shape == 1
  let key ← elementSlot (Component.leaf T).shape keccak root i
  return T.writeValue keccak s (elemAt (E := .leaf T) key i alone) value

/-- `set`. -/
def set (index : ℕ) (value : T.Carrier) : Except Panic Store := do
  let len ← len root s
  if index ≥ len then .error .outOfBoundsAccess
  else writeValueAt keccak root s index value

/-- `push`. -/
def push (value : T.Carrier) : Except Panic Store := do
  let len ← len root s
  if len + 1 < 2 ^ 64 then
    let newLen := len + 1
    let s ← writeValueAt keccak root s len value
    return writeLenU64 s root newLen
  else .error .oom

/-- `pop`. -/
def pop (T : LeafType) : Except Panic (Store × Option T.Carrier) := do
  let len ← len root s
  if len = 0 then return (s, none)
  else
    let newLen := len - 1
    let key ← elementSlot (Component.leaf T).shape keccak root newLen
    let cell := T.lazy (elemAt (E := .leaf T) key newLen (elemAlone (Component.leaf T).shape newLen))
    let (s, value) := cell.take keccak s
    return (writeLenU64 s root newLen, some value)

/-- An operation on a vector of values. -/
def execSimple {A O : Type} : SimpleOp T → Except Panic (Store × Result A O T.Carrier)
  | .push value => (fun t => (t, .unit)) <$> push keccak root s value.1
  | .pop => (fun r => (r.1, .option r.2)) <$> pop keccak root s T
  | .set index value => (fun t => (t, .unit)) <$> set keccak root s index value.1

end

/-! ### The reference -/

section

variable {E : Component}

/-- An iterator takes steps along a list: from the front or from the back of what is left. -/
def items (l : List E.Val) : List (IterStep E.Query) → Except Panic (List (Option E.Answer))
  | [] => .ok []
  | .next q :: steps =>
    match l with
    | [] => (none :: ·) <$> items [] steps
    | v :: l => do
      let a ← E.answer v q
      (some a :: ·) <$> items l steps
  | .nextBack q :: steps =>
    match l.getLast? with
    | none => (none :: ·) <$> items l steps
    | some v => do
      let a ← E.answer v q
      (some a :: ·) <$> items l.dropLast steps

/-- A question to a list. -/
def answer (l : List E.Val) : Ask E.Query → Except Panic (Answer E.Answer)
  | .len => .ok (.len l.length)
  | .isEmpty => .ok (.isEmpty l.isEmpty)
  | .get index q =>
    match l[index.1]? with
    | none => .error .outOfBoundsAccess
    | some v => .get <$> E.answer v q
  | .tryGet index q =>
    match l[index.1]? with
    | none => .ok (.tryGet none)
    | some v => (fun a => .tryGet (some a)) <$> E.answer v q
  | .first q =>
    match l.head? with
    | none => .ok (.tryGet none)
    | some v => (fun a => .tryGet (some a)) <$> E.answer v q
  | .last q =>
    match l.getLast? with
    | none => .ok (.tryGet none)
    | some v => (fun a => .tryGet (some a)) <$> E.answer v q
  | .iter steps => .items <$> items l steps

/-- An element is appended, unless the index or the slots run out. -/
def append (l : List E.Val) (v : E.Val) : Except Panic (List E.Val) :=
  if 2 ^ 64 ≤ l.length + 1 then .error .oom
  else if 2 ^ 64 ≤ l.length * E.shape.slots then .error .overflow
  else .ok (l ++ [v])

/-- Whether the elements can be cleared. -/
def clearSpec (l : List E.Val) : Except Panic Unit :=
  if E.needsRecursiveClear then l.forM E.clearSpec
  else if 2 ^ 64 ≤ l.length * E.shape.slots then .error .overflow
  else .ok ()

/-- An operation on a list. The cursor of an element that was removed is about nothing. -/
def spec {V : Type} (l : List E.Val) : VecOp E → Except Panic (List E.Val × Result E.Answer E.Out V)
  | .ask q => (fun a => (l, .answer a)) <$> answer l q
  | .entry index => if index.1 < l.length then .ok (l, .unit) else .error .outOfBoundsAccess
  | .grow => (fun l => (l, .unit)) <$> append l E.initial
  | .cursor index op =>
    match l[index.1]? with
    | none => (fun r => (l, .out r.2)) <$> E.spec E.initial op
    | some v => (fun r => (l.set index.1 r.1, .out r.2)) <$> E.spec v op
  | .eraseLast =>
    match l.getLast? with
    | none => .ok (l, .bool false)
    | some v => (fun _ => (l.dropLast, .bool true)) <$> E.clearSpec v
  | .clear => (fun _ => ([], .unit)) <$> clearSpec l

/-- The cursor of an element is used while there is an element at its index. -/
def live (l : List E.Val) : VecOp E → Prop
  | .cursor index op => ∃ v, l[index.1]? = some v ∧ E.live v op
  | _ => True

/-- The elements of a vector that are in use: how many, and what is in use of each. -/
structure Usage (E : Component) where
  count : ℕ
  elem : ℕ → E.Usage

/-- All elements. -/
def Usage.all (E : Component) : Usage E := ⟨limit E.shape, fun _ => E.all⟩

/-- There is a further element in use, unless there is no room for it at all. -/
def Usage.HasNext (u : Usage E) (l : List E.Val) : Prop := l.length < limit E.shape → l.length < u.count

/-- The operation needs no element that is not in use. -/
def within (u : Usage E) (l : List E.Val) : VecOp E → Prop
  | .grow => u.HasNext l
  | .cursor index op => ∀ v, l[index.1]? = some v → E.within (u.elem index.1) v op
  | _ => True

theorem within_all (l : List E.Val) (op : VecOp E) : within (Usage.all E) l op := by
  cases op with
  | grow => exact id
  | cursor index op => exact fun v _ => E.within_all v op
  | ask _ | entry _ | eraseLast | clear => trivial

/-- An operation on a list of values. -/
def specSimple {T : LeafType} {A O : Type} (l : List (Component.leaf T).Val) :
    SimpleOp T → Except Panic (List (Component.leaf T).Val × Result A O T.Carrier)
  | .push value => (fun l => (l, .unit)) <$> append l (LeafType.held value.1)
  | .pop =>
    match l.getLast? with
    | none => .ok (l, .option none)
    | some v => .ok (l.dropLast, .option (some (Option.getD v T.zero)))
  | .set index value =>
    if index.1 < l.length then .ok (l.set index.1 (LeafType.held value.1), .unit) else .error .outOfBoundsAccess

/-- The operation needs no element that is not in use. -/
def withinSimple {T : LeafType} (u : Usage (.leaf T)) (l : List (Component.leaf T).Val) : SimpleOp T → Prop
  | .push _ => u.HasNext l
  | .pop | .set _ _ => True

end

end StorageVec

end PvmContract.Storage
