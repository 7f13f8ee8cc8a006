import PvmContract.Storage.Lazy
import PvmContract.Storage.Elements
import PvmContract.Storage.Keys

/-!
# Access paths

A schema is a storage type: a leaf, a vector, a `#[storage]` struct or a mapping, to
any depth. An access path goes down a schema to something that is kept in storage: a
packed value, a slot of a value of several slots, a chunk of a dynamic body, or the
length of a vector, by way of fields, elements and entries. `Path.locate` is where
the code finds it, at the key and the offset that the functions of mappings, vectors
and structs compute, and `Path.derive` is the same with keys that remember how they
were derived (`Address`).

Paths of one schema lead to places that do not meet (`derive_apart`). That is a
statement about addresses: an induction on the paths, which are the same up to a point
and then part, into two stretches of slots that have nothing in common, or into two
windows of one slot.

A mapping with a tuple for its key is one with the keys of the tuple, nested.
`Schema.nested` takes all tuples apart, and `Path.steps` is a path with nothing of
the schema left in it, in which a tuple is its single keys.
-/

namespace PvmContract.Storage

open PvmContract.Data

/-! ### Schemas -/

/-- The shape of a handle with one slot. -/
def Shape.handle : Shape := ⟨32, 1, word_pos, word_le, Nat.one_pos, one_slot⟩

theorem totalSlots_pos {shapes : List Shape} (h : shapes ≠ []) : 0 < totalSlots shapes := by
  cases shapes with
  | nil => exact absurd rfl h
  | cons s rest => exact Nat.succ_pos _

/-- The shape of a struct. -/
def Shape.row {n : ℕ} (shapes : Fin (n + 1) → Shape) : Shape where
  packedBytes := 32
  slots := totalSlots (List.ofFn shapes)
  packedBytes_pos := word_pos
  packedBytes_le := word_le
  slots_pos := totalSlots_pos fun h => Nat.succ_ne_zero n (List.length_ofFn.symm.trans (congrArg List.length h))
  slots_eq_one h := absurd h (lt_irrefl 32)

/-- Where the walker places field `i`. -/
def fieldAt {n : ℕ} (shapes : Fin (n + 1) → Shape) (i : Fin (n + 1)) : Placement :=
  placed id (List.ofFn shapes) (i.cast List.length_ofFn.symm)

/-- A storage type. -/
inductive Schema where
  | leaf (T : LeafType)
  | vec (elem : Schema)
  | struct (n : ℕ) (fields : Fin (n + 1) → Schema)
  | mapping (key : KeyType) (value : Schema)

namespace Schema

/-- `PACKED_BYTES` and `SLOTS`. -/
def shape : Schema → Shape
  | leaf T => T.shape
  | vec _ => .handle
  | struct _ fields => .row fun i => (fields i).shape
  | mapping _ _ => .handle

/-- The slot numbers of all structs are constants of type `u64`. -/
def Fits : Schema → Prop
  | leaf _ => True
  | vec elem => elem.Fits
  | struct n fields => (struct n fields).shape.slots < 2 ^ 64 ∧ ∀ i, (fields i).Fits
  | mapping _ value => value.Fits

end Schema

/-! ### Paths -/

/-- A part of storage: `len` bytes of a slot. -/
structure Location (K : Type) where
  key : K
  offset : ℕ
  len : ℕ

/-- The bytes of a part of storage. -/
def Location.cells (r : Location Key) : Set Cell := Store.windowCells r.key r.offset r.len

/-- What is kept in storage under a schema. -/
inductive Path : Schema → Type 1 where
  /-- A packed value. -/
  | window {p : Packable} {narrow : p.packedBytes < 32} : Path (.leaf (.packed p narrow))
  /-- A slot of a value. -/
  | word {c : StorageCodec} (j : Fin c.storageSlots) : Path (.leaf (.full c))
  /-- A chunk of the body of a dynamic header. -/
  | chunk {c : StorageCodec} (header : ℕ) (mem : header ∈ c.headers) (j : Fin (2 ^ 64)) : Path (.leaf (.full c))
  /-- The length of a vector. -/
  | length {elem : Schema} : Path (.vec elem)
  | elem {elem : Schema} (i : Fin (2 ^ 64)) (rest : Path elem) : Path (.vec elem)
  | field {n : ℕ} {fields : Fin (n + 1) → Schema} (i : Fin (n + 1)) (rest : Path (fields i)) : Path (.struct n fields)
  | entry {key : KeyType} {value : Schema} (k : key.Val) (rest : Path value) : Path (.mapping key value)

/-- `Mapping::entry_offset`. -/
def entryOffset (shape : Shape) : ℕ := 32 - shape.packedBytes

namespace Path

/-- Where the code finds it, if it does not panic: the arguments of `get_at` and `new_at`, from the key and
the offset of the whole. -/
def locate (keccak : Hash) : {S : Schema} → Path S → Key → ℕ → Option (Location Key)
  | _, @window p _, key, offset => some ⟨key, offset, p.packedBytes⟩
  | _, word j, key, _ => some ⟨key.add j, 0, 32⟩
  | _, chunk header _ j, key, _ => some ⟨(dynBodyRoot keccak (key.add header)).add j, 0, 32⟩
  | _, length, key, _ => some ⟨key, 0, 32⟩
  | _, @elem S i rest, key, _ => do
    let slot ← (StorageVec.elementSlot S.shape keccak key i).toOption
    rest.locate keccak slot (StorageVec.elementOffset S.shape i)
  | _, @field _ fields i rest, key, _ =>
    let step := fieldAt (fun i => (fields i).shape) i
    rest.locate keccak (key.add step.slot) step.offset
  | _, @entry K V k rest, key, _ => do
    let slot ← K.deriveSlot keccak k key
    rest.locate keccak slot (entryOffset V.shape)

/-- How its key is derived. -/
def derive : {S : Schema} → Path S → Address → ℕ → Option (Location Address)
  | _, @window p _, a, offset => some ⟨a, offset, p.packedBytes⟩
  | _, word j, a, _ => some ⟨a.add j, 0, 32⟩
  | _, chunk header _ j, a, _ => some ⟨.hashed [] (a.add header) j, 0, 32⟩
  | _, length, a, _ => some ⟨a, 0, 32⟩
  | _, @elem S i rest, a, _ => do
    let index ← (StorageVec.slotIndexFor S.shape i).toOption
    rest.derive (.hashed [] a index) (StorageVec.elementOffset S.shape i)
  | _, @field _ fields i rest, a, _ =>
    let step := fieldAt (fun i => (fields i).shape) i
    rest.derive (a.add step.slot) step.offset
  | _, @entry K V k rest, a, _ => rest.derive (a.chain (K.images k)) (entryOffset V.shape)

variable {S : Schema} {keccak : Hash}

/-- The slots of elements, by address. -/
theorem elementSlot_toOption (shape : Shape) (a : Address) (i : ℕ) :
    (StorageVec.elementSlot shape keccak (a.key keccak) i).toOption =
      (StorageVec.slotIndexFor shape i).toOption.map fun index => (Address.hashed [] a index).key keccak := by
  rw [StorageVec.elementSlot]
  cases StorageVec.slotIndexFor shape i with
  | error e => rfl
  | ok index => rfl

/-- **The code computes the keys of the addresses.** -/
theorem locate_eq (p : Path S) (a : Address) (offset : ℕ) :
    p.locate keccak (a.key keccak) offset =
      (p.derive a offset).map fun r => ⟨r.key.key keccak, r.offset, r.len⟩ := by
  induction p generalizing a offset with
  | window => rfl
  | word j => exact congrArg (fun k => some (Location.mk k 0 32)) (a.key_add j).symm
  | @chunk c header mem j =>
    have hkey : (Address.hashed [] (a.add header) j).key keccak = (dynBodyRoot keccak ((a.key keccak).add header)).add j := by
      rw [← a.key_add]
      rfl
    exact congrArg (fun k => some (Location.mk k 0 32)) hkey.symm
  | length => rfl
  | @elem S i rest ih =>
    rw [locate, derive, elementSlot_toOption]
    cases (StorageVec.slotIndexFor S.shape i).toOption with
    | none => rfl
    | some index => exact ih _ _
  | @field n fields i rest ih =>
    rw [locate, derive, ← a.key_add]
    exact ih _ _
  | @entry K V k rest ih =>
    rw [locate, derive, K.deriveSlot_eq, ← KeyType.key_chain]
    exact ih _ _

end Path

/-! ### Tuples taken apart -/

/-- Mappings with the single keys of a key type, one in the other. -/
def KeyType.nest : KeyType → Schema → Schema
  | single K, V => .mapping (.single K) V
  | tuple n _ _ keys, V => (List.finRange n).foldr (fun i V => (keys i).nest V) V

/-- A schema with all tuples taken apart. -/
def Schema.nested : Schema → Schema
  | leaf T => .leaf T
  | vec elem => .vec elem.nested
  | struct n fields => .struct n fun i => (fields i).nested
  | mapping K V => K.nest V.nested

/-- A step of a path. -/
inductive Step where
  | window
  | word (j : ℕ)
  | chunk (header j : ℕ)
  | length
  | elem (i : ℕ)
  | field (i : ℕ)
  | key (K : SingleKey) (k : K.Val)

/-- The single keys of a key. -/
def KeyType.steps : (K : KeyType) → K.Val → List Step
  | single K, k => [.key K k]
  | tuple n _ _ keys, k => (List.finRange n).flatMap fun i => (keys i).steps (k i)

/-- The steps of a path. -/
def Path.steps : {S : Schema} → Path S → List Step
  | _, window => [.window]
  | _, word j => [.word j]
  | _, chunk header _ j => [.chunk header j]
  | _, length => [.length]
  | _, elem i rest => .elem i :: rest.steps
  | _, field i rest => .field i :: rest.steps
  | _, @entry K _ k rest => K.steps k ++ rest.steps

end PvmContract.Storage
