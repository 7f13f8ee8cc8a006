import PvmContract.Storage.Struct
import PvmContract.Storage.PathLaws

/-!
# Schemas as components

A schema without its mappings is a component: `Schema.shell` puts it together from
leaves, vectors and structs, with nothing where a mapping is (`Component.mapping`). What
is behind the mappings is at their entries. `Entry` goes down a schema to an entry of a
mapping, by way of fields, elements and other entries, and a `Site` is an entry, or the
whole schema. The shells of all sites together are all that a schema keeps.

`Entry.walk` is the way of the code to an entry. It looks at the lengths of the vectors
on the way, and nothing else. `Entry.locate` is the key that it comes to, and
`Entry.derive` is how that key is derived.
-/

namespace PvmContract.Storage

open PvmContract.Data PvmContract.Contract

/-! ### Mappings -/

/-- A `Mapping` as a component: nothing is stored at its root, and `clear` and `clear_at` are no-ops. -/
def Component.mapping : Component where
  shape := .handle
  needsRecursiveClear := true
  Val := Unit
  initial := ()
  Query := Empty
  Answer := Empty
  Op := Empty
  Out := Empty
  ask _ _ _ q := q.elim
  exec _ _ _ op := op.elim
  clearAt _ s _ := .ok s
  answer _ q := q.elim
  spec _ op := op.elim
  clearSpec _ := .ok ()
  live _ op := op.elim
  Usage := Unit
  all := ()
  within _ _ op := op.elim
  points _ _ _ := ∅
  place _ _ _ _ := .nothing
  slots_lt := Nat.one_lt_two_pow (by decide)
  within_all _ op := op.elim
  occupies _ _ _ _ := ⟨fun _ hp => absurd hp (Set.notMem_empty _), fun _ hc => absurd hc (Set.notMem_empty _), fun _ =>
    Set.empty_subset _⟩
  initial_iff := ⟨fun _ _ hc => absurd hc (Set.notMem_empty _), fun _ => trivial⟩
  flat h := absurd h (by decide)
  recursive_full _ := rfl
  ask_eq _ q := q.elim
  exec_related _ _ _ op := op.elim
  clear_related _ h _ := .ok (.refl h)

/-! ### Shells -/

theorem Shape.eq_of {s t : Shape} (hbytes : s.packedBytes = t.packedBytes) (hslots : s.slots = t.slots) : s = t := by
  obtain ⟨bytes, slots, _, _, _, _⟩ := s
  obtain ⟨bytes', slots', _, _, _, _⟩ := t
  obtain rfl : bytes = bytes' := hbytes
  obtain rfl : slots = slots' := hslots
  rfl

section

variable {n : ℕ} {f : Fin (n + 1) → Component} {shapes : Fin (n + 1) → Shape}

theorem map_shape_ofFn (h : ∀ i, (f i).shape = shapes i) : (List.ofFn f).map Component.shape = List.ofFn shapes := by
  rw [List.map_ofFn]
  exact congrArg List.ofFn (funext h)

theorem ofFn_ne_nil (f : Fin (n + 1) → Component) : List.ofFn f ≠ [] := by
  rw [List.ofFn_succ]
  exact List.cons_ne_nil _ _

theorem rowSlots_ofFn (h : ∀ i, (f i).shape = shapes i) :
    rowSlots Component.shape (List.ofFn f) = totalSlots (List.ofFn shapes) := by
  rw [rowSlots, map_shape_ofFn h]

theorem rowSlots_fit (h : ∀ i, (f i).shape = shapes i) (hfits : totalSlots (List.ofFn shapes) < 2 ^ 64) :
    rowSlots Component.shape (List.ofFn f) < 2 ^ 64 :=
  lt_of_eq_of_lt (rowSlots_ofFn h) hfits

/-- A struct of components, by field numbers. -/
def StructDef.ofFn (f : Fin (n + 1) → Component) (fits : rowSlots Component.shape (List.ofFn f) < 2 ^ 64) : StructDef :=
  ⟨List.ofFn f, ofFn_ne_nil f, fits⟩

theorem StructDef.shape_ofFn (h : ∀ i, (f i).shape = shapes i)
    (fits : rowSlots Component.shape (List.ofFn f) < 2 ^ 64) : (StructDef.ofFn f fits).shape = .row shapes :=
  Shape.eq_of rfl (rowSlots_ofFn h)

end

namespace Schema

theorem Fits.field {n : ℕ} {fields : Fin (n + 1) → Schema} (h : (struct n fields).Fits) (i : Fin (n + 1)) :
    (fields i).Fits :=
  h.2 i

/-- The elements of a vector: leaves are values, all others are reached through guards. -/
def elemKind : Schema → Component → VecKind
  | leaf T, _ => .simple T
  | vec _, E | struct _ _, E | mapping _ _, E => .container E

/-- The component of a schema, without what is behind its mappings. -/
def shell : (S : Schema) → S.Fits → {c : Component // c.shape = S.shape}
  | leaf T, _ => ⟨.leaf T, rfl⟩
  | vec elem, h => ⟨.vec (elem.elemKind (elem.shell h).1), rfl⟩
  | struct _ fields, h =>
    ⟨.struct (.ofFn (fun i => ((fields i).shell (h.2 i)).1) (rowSlots_fit (fun i => ((fields i).shell (h.2 i)).2) h.1)),
      StructDef.shape_ofFn (fun i => ((fields i).shell (h.2 i)).2) _⟩
  | mapping _ _, _ => ⟨.mapping, rfl⟩

theorem elem_elemKind (elem : Schema) (h : elem.Fits) : (elem.elemKind (elem.shell h).1).elem = (elem.shell h).1 := by
  cases elem with
  | leaf T => rfl
  | vec elem => rfl
  | struct n fields => rfl
  | mapping K V => rfl

end Schema

/-! ### Entries -/

/-- An entry of a mapping in a schema. An index past `limit` is past the end of every vector. -/
inductive Entry : Schema → Type 1 where
  | here {K : KeyType} {V : Schema} (k : K.Val) : Entry (.mapping K V)
  | under {K : KeyType} {V : Schema} (k : K.Val) (rest : Entry V) : Entry (.mapping K V)
  | field {n : ℕ} {fields : Fin (n + 1) → Schema} (i : Fin (n + 1)) (rest : Entry (fields i)) : Entry (.struct n fields)
  | elem {elem : Schema} (i : Fin (StorageVec.limit elem.shape)) (rest : Entry elem) : Entry (.vec elem)

namespace Entry

variable {S : Schema}

/-- The schema of the value. -/
def schema : {S : Schema} → Entry S → Schema
  | _, @here _ V _ => V
  | _, under _ rest => rest.schema
  | _, field _ rest => rest.schema
  | _, elem _ rest => rest.schema

theorem fits (e : Entry S) (h : S.Fits) : e.schema.Fits := by
  induction e with
  | here k => exact h
  | under k rest ih => exact ih h
  | field i rest ih => exact ih (h.2 i)
  | elem i rest ih => exact ih h

/-- The component of the value. -/
abbrev component (e : Entry S) (h : S.Fits) : Component := (e.schema.shell (e.fits h)).1

/-- The entries that it is behind. -/
def prefixes : {S : Schema} → Entry S → List (Entry S)
  | _, here _ => []
  | _, @under _ V k rest => here (V := V) k :: rest.prefixes.map fun e => under k e
  | _, field i rest => rest.prefixes.map fun e => field i e
  | _, elem i rest => rest.prefixes.map fun e => elem i e

/-- How the key of the value is derived. -/
def derive : {S : Schema} → Entry S → Address → Address
  | _, @here K _ k, a => a.chain (K.images k)
  | _, @under K _ k rest, a => rest.derive (a.chain (K.images k))
  | _, @field _ fields i rest, a => rest.derive (a.add (fieldAt (fun i => (fields i).shape) i).slot)
  | _, @elem V i rest, a => rest.derive (.hashed [] a (StorageVec.slotNum V.shape i))

/-- The key of the value: `slot_of`, for all mappings on the way. -/
def locate (keccak : Hash) : {S : Schema} → Entry S → Key → Option Key
  | _, @here K _ k, key => K.deriveSlot keccak k key
  | _, @under K _ k rest, key => do
    let slot ← K.deriveSlot keccak k key
    rest.locate keccak slot
  | _, @field _ fields i rest, key => rest.locate keccak (key.add (fieldAt (fun i => (fields i).shape) i).slot)
  | _, @elem V i rest, key => do
    let slot ← (StorageVec.elementSlot V.shape keccak key i).toOption
    rest.locate keccak slot

/-- A step into a mapping. The padding of a key never fails. -/
def keySlot (keccak : Hash) (K : KeyType) (k : K.Val) (key : Key) : Except Panic Key :=
  match K.deriveSlot keccak k key with
  | some slot => .ok slot
  | none => .error .generic

/-- The way to the value: `get` and `entry` of the mappings and vectors, and the fields of structs. -/
def walk (keccak : Hash) (s : Store) : {S : Schema} → Entry S → S.Fits → Key → Except Panic Key
  | _, @here K _ k, _, key => keySlot keccak K k key
  | _, @under K _ k rest, h, key => do
    let slot ← keySlot keccak K k key
    rest.walk keccak s h slot
  | _, @field _ fields i rest, h, key =>
    rest.walk keccak s (h.field i) (key.add (fieldAt (fun i => (fields i).shape) i).slot)
  | _, @elem V i rest, h, key => do
    StorageVec.entry keccak key s (V.shell h).1 i
    let slot ← StorageVec.elementSlot V.shape keccak key i
    rest.walk keccak s h slot

theorem keySlot_eq (keccak : Hash) (K : KeyType) (k : K.Val) (a : Address) :
    keySlot keccak K k (a.key keccak) = .ok ((a.chain (K.images k)).key keccak) := by
  rw [keySlot, K.deriveSlot_eq, KeyType.key_chain]

theorem elementSlot_eq_key {shape : Shape} {i : ℕ} (hi : i < StorageVec.limit shape) (keccak : Hash) (a : Address) :
    StorageVec.elementSlot shape keccak (a.key keccak) i =
      .ok ((Address.hashed [] a (StorageVec.slotNum shape i)).key keccak) :=
  StorageVec.elementSlot_eq hi

theorem locate_eq (e : Entry S) (keccak : Hash) (a : Address) :
    e.locate keccak (a.key keccak) = some ((e.derive a).key keccak) := by
  induction e generalizing a with
  | @here K V k => rw [locate, K.deriveSlot_eq, derive, KeyType.key_chain]
  | @under K V k rest ih =>
    rw [locate, K.deriveSlot_eq, ← KeyType.key_chain]
    exact ih _
  | field i rest ih =>
    rw [locate, ← a.key_add]
    exact ih _
  | elem i rest ih =>
    rw [locate, elementSlot_eq_key i.2]
    exact ih _

end Entry

/-! ### Sites -/

/-- The whole schema, or an entry. -/
inductive Site (S : Schema) : Type 1 where
  | whole
  | entry (e : Entry S)

namespace Site

variable {S : Schema}

def schema : Site S → Schema
  | whole => S
  | entry e => e.schema

theorem fits (x : Site S) (h : S.Fits) : x.schema.Fits := by
  cases x with
  | whole => exact h
  | entry e => exact e.fits h

abbrev component (x : Site S) (h : S.Fits) : Component := (x.schema.shell (x.fits h)).1

def derive : Site S → Address → Address
  | whole, a => a
  | entry e, a => e.derive a

def locate (keccak : Hash) : Site S → Key → Option Key
  | whole, key => some key
  | entry e, key => e.locate keccak key

def walk (keccak : Hash) (s : Store) (h : S.Fits) : Site S → Key → Except Panic Key
  | whole, key => .ok key
  | entry e, key => e.walk keccak s h key

end Site

theorem entryOffset_within (shape : Shape) : entryOffset shape + shape.packedBytes ≤ 32 := by
  have hle := shape.packedBytes_le
  rw [entryOffset]
  omega

/-- The arguments with which `Mapping::entry` makes a handle, and the contract that of a field at a slot
of its own. -/
def Component.handleAt (c : Component) (key : Key) : Handle c.shape :=
  ⟨key, entryOffset c.shape, true, entryOffset_within c.shape⟩

end PvmContract.Storage
