import PvmContract.Storage.Row
import PvmContract.Storage.Codec

/-!
# Derived storage structs

`#[derive(SolStorage)]` for a struct with dynamic fields. Packable fields are
packed into the struct's slots, and a field of type `String` or `Bytes` has a slot
for its header. `dynamic_mask` has a bit for each of those slots: the shared
helpers write, clear and load the other slots, and the dynamic fields are written,
cleared and read through their own implementations.

The place of a struct is the family of the places of its fields, and the rest of
its slots is blank. Writing and clearing are one sweep over the slots and then one
move for each dynamic field (`sweep_moves`, `dynamicFields_moves`).
-/

namespace PvmContract.Storage

open PvmContract.Data PvmContract.Types

/-! ### Fields -/

/-- `StorageFieldKind`, with the implementation of the field's type. -/
inductive StructField where
  | packable (p : Packable)
  | dynamic (d : DynType)

namespace StructField

def Carrier : StructField → Type
  | packable p => p.Carrier
  | dynamic d => d.Carrier

def Fits : (f : StructField) → f.Carrier → Prop
  | packable _, _ => True
  | dynamic d, v => IsSlice (d.toBytes v)

def isDynamic : StructField → Bool
  | packable _ => false
  | dynamic _ => true

/-- The value of storage that was never written. -/
def zero : (f : StructField) → f.Carrier
  | packable p => p.zero
  | dynamic d => d.zero

/-- What the layout walker reads of a field: a dynamic one claims a slot for its header. -/
def shape : StructField → Shape
  | packable p => p.shape
  | dynamic _ => ⟨32, 1, word_pos, word_le, Nat.one_pos, one_slot⟩

/-- The bytes that `encode_arms` packs. -/
def packedBytes : (f : StructField) → f.Carrier → Option (List UInt8)
  | packable p, v => some (p.toBytes v).1
  | dynamic _, _ => none

/-- `write_calls`. -/
def write : (f : StructField) → Hash → Store → Key → f.Carrier → Store
  | packable _, _, s, _, _ => s
  | dynamic d, keccak, s, subKey, v => d.codec.writeToStorage keccak s subKey v

/-- `clear_calls`. -/
def clear : StructField → Hash → Store → Key → Store
  | packable _, _, s, _ => s
  | dynamic d, keccak, s, subKey => d.codec.clearStorage keccak s subKey

/-- `read_expr`. -/
def read : (f : StructField) → Hash → Store → Key → Word → ℕ → f.Carrier
  | packable p, _, _, _, slot, offset => p.unpackFrom slot offset
  | dynamic d, keccak, s, subKey, _, _ => d.codec.readFromStorage keccak s subKey

end StructField

/-! ### The shared helpers -/

/-- `dynamic_mask & (1u64 << i) == 0`. -/
def isStaticSlot (dynamicMask i : ℕ) : Bool := dynamicMask &&& (1 <<< i) == 0

/-- `write_static_slots`, from slot `i` on. -/
def writeStaticSlots (s : Store) (k : Key) (dynamicMask : ℕ) (i : ℕ) : List Word → Store
  | [] => s
  | slot :: slots =>
    let s := if isStaticSlot dynamicMask i then s.setStorageOrClear k slot else s
    writeStaticSlots s k.inc dynamicMask (i + 1) slots

/-- `clear_static_slots`. -/
def clearStaticSlots (s : Store) (k : Key) (dynamicMask n : ℕ) : Store :=
  writeStaticSlots s k dynamicMask 0 (List.replicate n Word.zero)

/-- `load_static_slots`, from slot `i` on, into zeroed slots. -/
def loadStaticSlots (s : Store) (k : Key) (dynamicMask : ℕ) (i : ℕ) : ℕ → List Word
  | 0 => []
  | n + 1 =>
    (if isStaticSlot dynamicMask i then s.getStorageOrZero k else Word.zero) ::
      loadStaticSlots s k.inc dynamicMask (i + 1) n

/-- `try_load_static_slots`, from slot `i` on: whether a slot is not zero, and the slots. -/
def tryLoadStaticSlots (s : Store) (k : Key) (dynamicMask : ℕ) (i : ℕ) : ℕ → Bool × List Word
  | 0 => (false, [])
  | n + 1 =>
    let buf := s.getStorageOrZero k
    let rest := tryLoadStaticSlots s k.inc dynamicMask (i + 1) n
    (buf != Word.zero || rest.1, (if isStaticSlot dynamicMask i then buf else Word.zero) :: rest.2)

/-! ### The expansion -/

namespace DynStruct

variable (fields : List StructField)

/-- The values of the fields. -/
abbrev Value : Type := (i : Fin fields.length) → (fields.get i).Carrier

/-- `STORAGE_SLOTS`. -/
def storageSlots : ℕ := rowSlots StructField.shape fields

/-- `dynamic_mask`. -/
def dynamicMask : ℕ :=
  (List.finRange fields.length).foldl (fun mask i =>
    if (fields.get i).isDynamic then mask ||| (1 <<< (placed StructField.shape fields i).slot) else mask) 0

/-- `__encode_static_slot`. -/
def encodeStaticSlot (v : Value fields) (slotIdx : ℕ) : Word :=
  packRow StructField.shape fields (fun i => (fields.get i).packedBytes (v i)) slotIdx

/-- The key of a field's slot: the base key moved forward one by one. -/
def subKey (baseKey : Key) (i : Fin fields.length) : Key := incTimes baseKey (placed StructField.shape fields i).slot

/-- `write_to_storage`. -/
def writeToStorage (keccak : Hash) (s : Store) (baseKey : Key) (v : Value fields) : Store :=
  let mask := dynamicMask fields
  let slots := (List.range (storageSlots fields)).map fun i =>
    if isStaticSlot mask i then encodeStaticSlot fields v i else Word.zero
  let s := writeStaticSlots s baseKey mask 0 slots
  (List.finRange fields.length).foldl (fun s i => (fields.get i).write keccak s (subKey fields baseKey i) (v i)) s

/-- `clear_storage`. -/
def clearStorage (keccak : Hash) (s : Store) (baseKey : Key) : Store :=
  let s := clearStaticSlots s baseKey (dynamicMask fields) (storageSlots fields)
  (List.finRange fields.length).foldl (fun s i => (fields.get i).clear keccak s (subKey fields baseKey i)) s

/-- The fields, from the slots that were loaded. -/
def readFields (keccak : Hash) (s : Store) (baseKey : Key) (slots : List Word) (i : Fin fields.length) :
    (fields.get i).Carrier :=
  let p := placed StructField.shape fields i
  (fields.get i).read keccak s (subKey fields baseKey i) (StaticCodec.slotsOf slots p.slot) p.offset

/-- `read_from_storage`. -/
def readFromStorage (keccak : Hash) (s : Store) (baseKey : Key) : Value fields :=
  readFields fields keccak s baseKey (loadStaticSlots s baseKey (dynamicMask fields) 0 (storageSlots fields))

/-- `try_read_from_storage`. -/
def tryReadFromStorage (keccak : Hash) (s : Store) (baseKey : Key) : Option (Value fields) :=
  let loaded := tryLoadStaticSlots s baseKey (dynamicMask fields) 0 (storageSlots fields)
  if !loaded.1 then none else some (readFields fields keccak s baseKey loaded.2)

end DynStruct

end PvmContract.Storage
