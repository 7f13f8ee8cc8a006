import PvmContract.Storage.Lazy
import PvmContract.Storage.SolStorage
import PvmContract.Data.Trace

/-!
# Structs of single values

A `#[storage]` struct, or a contract, whose fields are all `Lazy<T>`. The macros
number the fields with the layout walker and compute for each whether it is alone
in its slot; the handles are those of `new_at`.

The struct is a family of places, with the rest of its slots kept blank. Since the
places do not meet, a step of one handle moves the value of its own field and of no
other, and since the rest is blank, nothing is in the slot of a field that is alone.
So the struct behaves as a record of independent variables (`LazyStruct.fields_independent`).
-/

namespace PvmContract.Storage

open PvmContract.Data PvmContract.Types

/-! ### The types of the fields -/

namespace LeafType

/-- A packable type: those of 32 bytes have a slot to themselves. -/
def ofScalar (t : Scalar) : LeafType :=
  if narrow : t.packable.packedBytes < 32 then packed t.packable narrow else full t.packable.static.codec

/-- `Bytes` or `String`. -/
def ofDynamic (d : DynType) : LeafType := full d.codec

end LeafType

/-! ### The struct -/

/-- A storage struct of `Lazy` fields. -/
structure LazyStruct where
  fields : List LeafType
  /-- Slot numbers are constants of type `u64`. -/
  fits : rowSlots LeafType.shape fields < 2 ^ 64

namespace LazyStruct

variable (S : LazyStruct)

/-- A field. -/
abbrev Index : Type := Fin S.fields.length

/-- `Lazy::new_at`, as the struct calls it for a field. -/
def field (base : Key) (i : S.Index) : Lazy (S.fields.get i) where
  key := base.add (placed LeafType.shape S.fields i).slot
  offset := (placed LeafType.shape S.fields i).offset
  alone := aloneFlag LeafType.shape S.fields i
  within := placed_within LeafType.shape i

/-- The slots of the struct. -/
def keys (base : Key) : Set Key := base.range (rowSlots LeafType.shape S.fields)

/-- Those of them that are hashed. -/
def points (base : Key) : Set Key := {j | ∃ i : S.Index, j ∈ (S.fields.get i).points (S.field base i).key}

/-- An operation on one of the fields. -/
abbrev Op : Type := (i : S.Index) × LazyOp (S.fields.get i)

/-- What an operation returns. -/
abbrev Result : Type := (i : S.Index) × LazyResult (S.fields.get i)

/-- An operation on storage. -/
def exec (keccak : Hash) (base : Key) (s : Store) (op : S.Op) : Store × S.Result :=
  let r := (S.field base op.1).exec keccak s op.2
  (r.1, ⟨op.1, r.2⟩)

/-- A variable for each field: the value last set, or none. -/
abbrev Vars : Type := (i : S.Index) → Option (S.fields.get i).Carrier

/-- Before any operation. -/
def initial : S.Vars := fun _ => none

/-- An operation on the variables changes the one that it is about. -/
def spec (v : S.Vars) (op : S.Op) : S.Vars × S.Result :=
  let r := op.2.spec (v op.1)
  (Function.update v op.1 r.1, ⟨op.1, r.2⟩)

/-! ### The fields do not clobber each other -/

/-- The place of the struct. -/
def place (keccak : Hash) (base : Key) : Place Cell UInt8 S.Vars :=
  Place.family (fun i => (S.field base i).place keccak) (Store.cellsOf (S.keys base)) 0

variable {S} {keccak : Hash} {base : Key}

theorem field_fills (i : S.Index) : Fills keccak (S.fields.get i).shape (S.field base i).key (S.field base i).offset
    ((S.fields.get i).points (S.field base i).key) ((S.field base i).place keccak).cells :=
  LeafType.fills _ keccak _ _

theorem fits_keys : rowSlots LeafType.shape S.fields < 2 ^ 256 := lt_of_lt_of_le S.fits (by decide)

theorem field_slots_subset (i : S.Index) : (S.field base i).key.range (S.fields.get i).shape.slots ⊆ S.keys base :=
  range_add_subset (placed_slots_le LeafType.shape i)

theorem field_key_mem (i : S.Index) : (S.field base i).key ∈ S.keys base :=
  field_slots_subset i (Key.mem_range_self (Shape.slots_pos _))

/-- In storage that was never written, every field holds none. -/
theorem holds_initial {s : Store} (hblank : ∀ j ∈ ownKeys keccak (S.points base) (S.keys base), s.entry j = none) :
    (S.place keccak base).Holds s.bytes S.initial := by
  have hcell : ∀ c ∈ Store.cellsOf (ownKeys keccak (S.points base) (S.keys base)), s.bytes c = 0 := by
    rintro ⟨j, p⟩ hj
    exact (Store.entry_eq_none_iff_bytes s j).mp (hblank j hj) p
  refine (Place.family_blank_iff fun i => LeafType.none_iff).mpr ?_
  rintro c (hc | hc)
  · exact hcell c (.inl hc)
  · obtain ⟨i, hi⟩ := Set.mem_iUnion.mp hc
    have hsub : ownKeys keccak ((S.fields.get i).points (S.field base i).key)
        ((S.field base i).key.range (S.fields.get i).shape.slots) ⊆ ownKeys keccak (S.points base) (S.keys base) :=
      ownKeys_mono (fun _ hp => ⟨i, hp⟩) (field_slots_subset i)
    exact hcell c (hsub ((field_fills i).cells_subset hi))

variable (hsep : Separate keccak (S.points base) (S.keys base))

include hsep

theorem fields_disjoint {i j : S.Index} (hne : i ≠ j) :
    Disjoint ((S.field base i).place keccak).cells ((S.field base j).place keccak).cells :=
  fills_disjoint fits_keys hsep (fun i _ hp => ⟨i, hp⟩) (subset_refl _) field_fills hne

theorem field_apart (i : S.Index) : (S.field base i).Apart keccak :=
  hsep.mono (fun _ hp => ⟨i, hp⟩) (field_slots_subset i)

/-- What the macros compute is right: the slot of a field that is alone is blank beside the field. -/
theorem field_undisturbed {x : Cell → UInt8} {v : S.Vars} (h : (S.place keccak base).Holds x v) (i : S.Index) :
    (S.field base i).Undisturbed x := by
  intro narrow halone p hp
  refine h.2 _ (field_key_mem i) fun j hj => ?_
  by_cases hij : j = i
  · subst hij
    obtain ⟨-, hwindow⟩ := (field_fills j).window narrow hj
    exact hp hwindow
  · rcases (field_fills j).cells_subset hj with hslot | ⟨q, hq, hbody⟩
    · have hd := ranges_disjoint_of_alone fits_keys (k := base) halone hij
      exact Set.disjoint_left.mp hd hslot (Key.mem_range_self (Shape.slots_pos _))
    · exact Set.disjoint_left.mp (hsep.slots q ⟨j, hq⟩) hbody (field_key_mem i)

/-- **One operation.** -/
theorem exec_moves {s : Store} {v : S.Vars} (h : (S.place keccak base).Holds s.bytes v) (op : S.Op) :
    (S.place keccak base).Moves s.bytes (S.exec keccak base s op).1.bytes (S.spec v op).1 ∧
      (S.exec keccak base s op).2 = (S.spec v op).2 := by
  obtain ⟨i, op⟩ := op
  obtain ⟨hmoves, hresult⟩ := Lazy.exec_moves (field_apart hsep i) (h.1 i) (field_undisturbed hsep h i) op
  exact ⟨Place.family_moves (fun _ _ => fields_disjoint hsep) h hmoves, congrArg (Sigma.mk i) hresult⟩

/-- **Fields of a struct are independent variables.** In every run of operations from storage that was
never written, each operation returns what it returns for a record of variables, where an operation on
one field changes the variable of that field only. -/
theorem fields_independent {s : Store} (hblank : ∀ j ∈ ownKeys keccak (S.points base) (S.keys base), s.entry j = none)
    (ops : List S.Op) : (trace (S.exec keccak base) s ops).2 = (trace S.spec S.initial ops).2 := by
  refine (trace_refines (R := fun s v => (S.place keccak base).Holds s.bytes v) ?_ (holds_initial hblank)
    (along_of_forall (fun _ _ => trivial) _ _)).2
  intro s v op h _
  obtain ⟨hmoves, hresult⟩ := exec_moves hsep h op
  exact ⟨hmoves.holds, hresult⟩

end LazyStruct

/-- Three fields in one slot, a field with a body, and one that is alone in its slot. -/
def profile : LazyStruct where
  fields := [.ofScalar .u64, .ofScalar .u128, .ofScalar .bool, .ofDynamic .string, .ofScalar .u8]
  fits := by decide

namespace profile

abbrev nonce : profile.Index := ⟨0, by decide⟩
abbrev balance : profile.Index := ⟨1, by decide⟩
abbrev active : profile.Index := ⟨2, by decide⟩
abbrev name : profile.Index := ⟨3, by decide⟩
abbrev level : profile.Index := ⟨4, by decide⟩

theorem separate : Separate slotHashes (profile.points (.ofNum 0)) (profile.keys (.ofNum 0)) := by
  refine slotHashes_separate.mono ?_ ?_
  · rintro _ ⟨i, hi⟩
    match i, hi with
    | ⟨0, _⟩, hi => exact hi.elim
    | ⟨1, _⟩, hi => exact hi.elim
    | ⟨2, _⟩, hi => exact hi.elim
    | ⟨3, _⟩, ⟨h, hh, heq⟩ =>
      obtain rfl : h = 0 := hh
      exact .inr (heq.trans (by decide : ((Key.ofNum 0).add 1).add 0 = Key.ofNum 1))
    | ⟨4, _⟩, hi => exact hi.elim
  · rintro _ ⟨i, hi, rfl⟩
    change ((Key.ofNum 0).add i).num < 2 ^ 64
    change i < 3 at hi
    rw [Key.num_add, Key.num_ofNum (by decide)]
    omega

/-- Neighbours are set, cleared and taken, and each field keeps its own value. -/
theorem run_neighbours :
    (trace (profile.exec slotHashes (.ofNum 0)) .empty
      [⟨nonce, .set ⟨(7#64 : BitVec 64), trivial⟩⟩, ⟨balance, .set ⟨(9#128 : BitVec 128), trivial⟩⟩,
        ⟨active, .set ⟨true, trivial⟩⟩, ⟨name, .set ⟨"ada", (by decide : IsSlice (asBytes "ada"))⟩⟩,
        ⟨balance, .clear⟩, ⟨level, .set ⟨(1#8 : BitVec 8), trivial⟩⟩, ⟨nonce, .take⟩, ⟨nonce, .get⟩, ⟨active, .get⟩,
        ⟨name, .get⟩, ⟨level, .get⟩]).2 =
      [⟨nonce, .unit⟩, ⟨balance, .unit⟩, ⟨active, .unit⟩, ⟨name, .unit⟩, ⟨balance, .unit⟩, ⟨level, .unit⟩,
        ⟨nonce, .value (7#64 : BitVec 64)⟩, ⟨nonce, .value (0#64 : BitVec 64)⟩, ⟨active, .value true⟩,
        ⟨name, .value "ada"⟩, ⟨level, .value (1#8 : BitVec 8)⟩] :=
  (LazyStruct.fields_independent separate (fun _ _ => rfl) _).trans rfl

end profile

end PvmContract.Storage
