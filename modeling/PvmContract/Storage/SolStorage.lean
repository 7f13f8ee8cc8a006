import PvmContract.Storage.DerivedLaws

/-!
# Derived storage structs over whole runs

`#[derive(SolStorage)]` accepts structs of packable and of dynamic fields, and
expands to the static traits where no field is dynamic. Fields of any other type,
such as nested structs, tuples and arrays, are rejected by the derive.

Reading gives back what was written. `try_read` does so too, but for one value: a
struct without dynamic fields that is zero throughout has no entry in storage, so
it cannot be told from one that was never written (`zero_is_absent`).
-/

namespace PvmContract.Storage

open PvmContract.Data PvmContract.Types

/-- A struct that derives `SolStorage`, by the expansion it gets. -/
inductive StorageStruct where
  | static (ps : List Packable) (hne : ps ≠ []) (hle : rowSlots Packable.shape ps ≤ maxStaticSlots)
  | dynamic (fields : List StructField) (hdyn : ∃ i, (fields.get i).isDynamic = true)
    (hle : DynStruct.storageSlots fields ≤ maxStaticSlots)

namespace StorageStruct

/-- The implementation of `StorageEncode` and `StorageDecode`. -/
def codec : StorageStruct → StorageCodec
  | static ps hne hle => (staticRow ps hne hle).codec
  | dynamic fields hdyn hle => dynStruct fields hdyn hle

/-- `has_dynamic`. -/
def hasDynamic : StorageStruct → Bool
  | static _ _ _ => false
  | dynamic _ _ _ => true

/-- The keys of a struct: its slots, and the bodies of its dynamic fields. -/
def keys (S : StorageStruct) (keccak : Hash) (k : Key) : Set Key :=
  valueKeys keccak S.codec.headers S.codec.storageSlots k

theorem presence_none (S : StorageStruct) : S.codec.presence none = none := by
  cases S with
  | static ps hne hle => rfl
  | dynamic fields hdyn hle => rfl

/-- What `try_read` makes of a value that was written. -/
theorem presence_some {S : StorageStruct} (v : S.codec.Carrier) :
    (S.hasDynamic = true ∨ v ≠ S.codec.zero → S.codec.presence (some v) = some v) ∧
    (S.hasDynamic = false → v = S.codec.zero → S.codec.presence (some v) = none) := by
  cases S with
  | static ps hne hle =>
    have hzero := (staticRow ps hne hle).word_eq_zero_iff v
    constructor
    · rintro (h | h)
      · exact absurd h (by simp [hasDynamic])
      · exact if_neg fun hall => h (hzero.mp hall)
    · exact fun _ h => if_pos (hzero.mpr h)
  | dynamic fields hdyn hle => exact ⟨fun _ => rfl, fun h => absurd h (by simp [hasDynamic])⟩

/-- **Derived structs.** After any run of writes and clears over keys that had no entry: what is
written next is read back, and leaves the storage that it would have left without the run; `try_read`
gives it too, unless it is zero in a struct without dynamic fields; clearing leaves no entry at the
keys of the struct. Other keys keep their words. -/
theorem read_written (S : StorageStruct) {keccak : Hash} {k : Key}
    (hsep : Separate keccak (pointsAt S.codec.headers k) (k.range S.codec.storageSlots)) {s : Store}
    (hs : ∀ j ∈ S.keys keccak k, s.entry j = none) (ops : List (Option S.codec.Value)) :
    let t := S.codec.run keccak k s ops;
    (∀ v : S.codec.Value,
      let u := S.codec.writeToStorage keccak t k v.1;
      S.codec.readFromStorage keccak u k = v.1 ∧
      (S.hasDynamic = true ∨ v.1 ≠ S.codec.zero → S.codec.tryReadFromStorage keccak u k = some v.1) ∧
      (S.hasDynamic = false → v.1 = S.codec.zero → S.codec.tryReadFromStorage keccak u k = none) ∧
      u = S.codec.writeToStorage keccak s k v.1 ∧
      ∀ j ∉ S.keys keccak k, u.getStorageOrZero j = t.getStorageOrZero j) ∧
    (let u := S.codec.clearStorage keccak t k;
      (∀ j ∈ S.keys keccak k, u.entry j = none) ∧
      S.codec.tryReadFromStorage keccak u k = none ∧
      ∀ j ∉ S.keys keccak k, u.getStorageOrZero j = t.getStorageOrZero j) := by
  have hblank := S.codec.holds_none_iff.mpr hs
  obtain ⟨o, hrun⟩ := StorageCodec.run_moves hsep hblank ops
  constructor
  · intro v
    have hwrite := S.codec.write_moves hsep hrun.holds v.2
    have hfirst := S.codec.write_moves hsep hblank v.2
    have htry := S.codec.tryRead_eq hwrite.holds
    refine ⟨S.codec.read_eq hwrite.holds, fun h => ?_, fun h hv => ?_, ?_, fun j hj => ?_⟩
    · rw [htry]
      exact (presence_some v.1).1 h
    · rw [htry]
      exact (presence_some v.1).2 h hv
    · exact StorageCodec.eq_of_moves (hrun.trans hwrite) hfirst
    · exact StorageCodec.get_of_moves hwrite hj
  · have hclear := S.codec.clear_moves hsep hrun.holds
    refine ⟨S.codec.holds_none_iff.mp hclear.holds, ?_, fun j hj => ?_⟩
    · rw [S.codec.tryRead_eq hclear.holds, presence_none]
    · exact StorageCodec.get_of_moves hclear hj

end StorageStruct

/-- A struct of a `u64` and a `String`. -/
def account : StorageStruct :=
  .dynamic [.packable Scalar.u64.packable, .dynamic .string] ⟨1, rfl⟩ (by decide)

/-- A value of it. -/
def accountValue : account.codec.Value :=
  ⟨fun i => match i with
    | ⟨0, _⟩ => (7#64 : BitVec 64)
    | ⟨1, _⟩ => "seven",
   fun i => match i with
    | ⟨0, _⟩ => trivial
    | ⟨1, _⟩ => (by decide : IsSlice (asBytes "seven"))⟩

theorem account_separate : Separate slotHashes (pointsAt account.codec.headers (.ofNum 0))
    ((Key.ofNum 0).range account.codec.storageSlots) := by
  refine slotHashes_separate.mono ?_ ?_
  · rintro _ ⟨_, ⟨i, hi, rfl⟩, rfl⟩
    match i, hi with
    | ⟨0, _⟩, hi => exact absurd hi Bool.false_ne_true
    | ⟨1, _⟩, _ => exact .inr (by decide : (Key.ofNum 0).add 1 = Key.ofNum 1)
  · rintro _ ⟨i, hi, rfl⟩
    change ((Key.ofNum 0).add i).num < 2 ^ 64
    change i < 2 at hi
    rw [Key.num_add, Key.num_ofNum (by decide)]
    omega

/-- A value is written and cleared, and the struct is as new. -/
theorem account_round_trip :
    let ops := [some accountValue, none];
    let t := account.codec.run slotHashes (.ofNum 0) .empty ops;
    (∀ v : account.codec.Value,
      let u := account.codec.writeToStorage slotHashes t (.ofNum 0) v.1;
      account.codec.readFromStorage slotHashes u (.ofNum 0) = v.1 ∧
      (account.hasDynamic = true ∨ v.1 ≠ account.codec.zero →
        account.codec.tryReadFromStorage slotHashes u (.ofNum 0) = some v.1) ∧
      (account.hasDynamic = false → v.1 = account.codec.zero →
        account.codec.tryReadFromStorage slotHashes u (.ofNum 0) = none) ∧
      u = account.codec.writeToStorage slotHashes .empty (.ofNum 0) v.1 ∧
      ∀ j ∉ account.keys slotHashes (.ofNum 0), u.getStorageOrZero j = t.getStorageOrZero j) ∧
    (let u := account.codec.clearStorage slotHashes t (.ofNum 0);
      (∀ j ∈ account.keys slotHashes (.ofNum 0), u.entry j = none) ∧
      account.codec.tryReadFromStorage slotHashes u (.ofNum 0) = none ∧
      ∀ j ∉ account.keys slotHashes (.ofNum 0), u.getStorageOrZero j = t.getStorageOrZero j) :=
  account.read_written account_separate (fun _ _ => rfl) _

/-- A struct of one `u8`. -/
def level : StorageStruct := .static [Scalar.u8.packable] (by simp) (by decide)

/-- The value 0 of it is written, and read as zero, but does not count as present. -/
theorem zero_is_absent :
    let v : level.codec.Carrier := fun i => match i with
      | ⟨0, _⟩ => (0#8 : BitVec 8);
    let u := level.codec.writeToStorage slotHashes .empty (.ofNum 0) v;
    level.codec.readFromStorage slotHashes u (.ofNum 0) = v ∧
      level.codec.tryReadFromStorage slotHashes u (.ofNum 0) = none := by
  intro v u
  have hzero : v = level.codec.zero := by
    funext i
    match i with
    | ⟨0, _⟩ => rfl
  have hmoves : (level.codec.place slotHashes (.ofNum 0)).Moves Store.empty.bytes u.bytes (some v) :=
    StaticCodec.write_moves v
  refine ⟨level.codec.read_eq hmoves.holds, ?_⟩
  rw [level.codec.tryRead_eq hmoves.holds]
  exact (StorageStruct.presence_some v).2 rfl hzero

end PvmContract.Storage
