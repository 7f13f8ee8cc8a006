import Mathlib.Order.Fin.Basic
import PvmContract.Storage.VecComponent

/-!
# Structs as components

A `#[storage]` struct of components: `Lazy` leaves, vectors, and structs in turn. The
macro places the fields with the layout walker from the base key of the struct, and
clears them one after the other. The place of the struct is the family of the places
of its fields, with the rest of its slots kept blank.
-/

namespace PvmContract.Storage

open PvmContract.Data PvmContract.Contract

/-- A `#[storage]` struct. -/
structure StructDef where
  fields : List Component
  nonempty : fields ≠ []
  /-- Slot numbers are constants of type `u64`. -/
  fits : rowSlots Component.shape fields < 2 ^ 64

namespace StructDef

variable (S : StructDef)

abbrev Index : Type := Fin S.fields.length

/-- The slots of the struct. -/
def slots : ℕ := rowSlots Component.shape S.fields

/-- What `new_at` passes on to the field. -/
def field (base : Key) (i : S.Index) : Handle (S.fields.get i).shape where
  key := base.add (placed Component.shape S.fields i).slot
  offset := (placed Component.shape S.fields i).offset
  alone := aloneFlag Component.shape S.fields i
  within := placed_within Component.shape i

abbrev Val : Type := (i : S.Index) → (S.fields.get i).Val

abbrev Query : Type := (i : S.Index) × (S.fields.get i).Query

abbrev Answer : Type := (i : S.Index) × (S.fields.get i).Answer

abbrev Op : Type := (i : S.Index) × (S.fields.get i).Op

abbrev Out : Type := (i : S.Index) × (S.fields.get i).Out

abbrev Usage : Type := (i : S.Index) → (S.fields.get i).Usage

/-- A question to a field. -/
def ask (keccak : Hash) (s : Store) (base : Key) (q : S.Query) : Except Panic S.Answer :=
  Sigma.mk q.1 <$> (S.fields.get q.1).ask keccak s (S.field base q.1) q.2

/-- An operation on a field. -/
def exec (keccak : Hash) (s : Store) (base : Key) (op : S.Op) : Except Panic (Store × S.Out) :=
  (fun r => (r.1, ⟨op.1, r.2⟩)) <$> (S.fields.get op.1).exec keccak s (S.field base op.1) op.2

/-- `clear`. -/
def clear (keccak : Hash) (s : Store) (base : Key) : Except Panic Store :=
  (List.finRange S.fields.length).foldlM (fun s i => (S.fields.get i).clearAt keccak s (S.field base i)) s

/-! ### The reference -/

def answer (v : S.Val) (q : S.Query) : Except Panic S.Answer :=
  Sigma.mk q.1 <$> (S.fields.get q.1).answer (v q.1) q.2

def spec (v : S.Val) (op : S.Op) : Except Panic (S.Val × S.Out) :=
  (fun r => (Function.update v op.1 r.1, ⟨op.1, r.2⟩)) <$> (S.fields.get op.1).spec (v op.1) op.2

def clearSpec (v : S.Val) : Except Panic Unit :=
  (List.finRange S.fields.length).forM fun i => (S.fields.get i).clearSpec (v i)

def initial : S.Val := fun i => (S.fields.get i).initial

/-! ### The place of a struct -/

/-- The keys that the fields hash. -/
def points (keccak : Hash) (u : S.Usage) (base : Key) : Set Key :=
  {p | ∃ i : S.Index, p ∈ (S.fields.get i).points keccak (u i) (S.field base i).key}

def fieldPlace (keccak : Hash) (u : S.Usage) (base : Key) (i : S.Index) : Place Cell UInt8 (S.fields.get i).Val :=
  (S.fields.get i).place keccak (u i) (S.field base i).key (S.field base i).offset

def place (keccak : Hash) (u : S.Usage) (base : Key) : Place Cell UInt8 S.Val :=
  Place.family (S.fieldPlace keccak u base) (Store.cellsOf (base.range S.slots)) 0

variable {S} {keccak : Hash} {u : S.Usage} {base : Key}

theorem slots_pos : 0 < S.slots := by
  have h := placed_slot_lt Component.shape (⟨0, List.length_pos_iff.mpr S.nonempty⟩ : S.Index) (Shape.slots_pos _)
  exact lt_of_le_of_lt (Nat.zero_le _) h

/-- `PACKED_BYTES` and `SLOTS`. -/
def shape (S : StructDef) : Shape := ⟨32, S.slots, word_pos, word_le, slots_pos, fun h => absurd h (lt_irrefl 32)⟩

theorem slots_fit : S.slots < 2 ^ 256 := lt_of_lt_of_le S.fits (by decide)

theorem field_slots_subset (i : S.Index) :
    (S.field base i).key.range (S.fields.get i).shape.slots ⊆ base.range S.slots :=
  range_add_subset (placed_slots_le Component.shape i)

theorem field_key_mem (i : S.Index) : (S.field base i).key ∈ base.range S.slots :=
  field_slots_subset i (Key.mem_range_self (Shape.slots_pos _))

theorem field_occupies (i : S.Index) :
    Occupies keccak (S.fields.get i).shape (S.field base i).key (S.field base i).offset
    ((S.fields.get i).points keccak (u i) (S.field base i).key) (S.fieldPlace keccak u base i).cells :=
  (S.fields.get i).occupies keccak _ _ _

theorem owned_of_field {i : S.Index} {k : Key}
    (h : Owned keccak ((S.fields.get i).points keccak (u i) (S.field base i).key)
      ((S.field base i).key.range (S.fields.get i).shape.slots) k) :
    Owned keccak (S.points keccak u base) (base.range S.slots) k :=
  h.mono (fun _ hp => ⟨i, hp⟩) (field_slots_subset i)

theorem place_occupies (offset : ℕ) :
    Occupies keccak S.shape base offset (S.points keccak u base) (S.place keccak u base).cells where
  points_owned := by
    rintro p ⟨i, hp⟩
    exact owned_of_field ((field_occupies i).points_owned p hp)
  cells_owned := by
    rintro c (hc | hc)
    · exact .slot hc
    · obtain ⟨i, hi⟩ := Set.mem_iUnion.mp hc
      exact owned_of_field ((field_occupies i).cells_owned c hi)
  window h := absurd h (lt_irrefl 32)

theorem initial_iff {x : Cell → UInt8} :
    (S.place keccak u base).Holds x S.initial ↔ ∀ c ∈ (S.place keccak u base).cells, x c = 0 :=
  Place.family_blank_iff fun i => (S.fields.get i).initial_iff

theorem ask_eq {s : Store} {v : S.Val} (h : (S.place keccak u base).Holds s.bytes v) (q : S.Query) :
    S.ask keccak s base q = S.answer v q := by
  rw [ask, answer, (S.fields.get q.1).ask_eq (h.1 q.1)]

/-! ### Operations -/

variable (hsep : Separate keccak (S.points keccak u base) (base.range S.slots))

include hsep

theorem fields_disjoint {i j : S.Index} (hne : i ≠ j) :
    Disjoint (S.fieldPlace keccak u base i).cells (S.fieldPlace keccak u base j).cells :=
  occupies_disjoint slots_fit hsep (fun i _ hp => ⟨i, hp⟩) (subset_refl _) field_occupies hne

theorem field_separate (i : S.Index) : Separate keccak ((S.fields.get i).points keccak (u i) (S.field base i).key)
    ((S.field base i).key.range (S.fields.get i).shape.slots) :=
  hsep.mono (fun _ hp => ⟨i, hp⟩) (field_slots_subset i)

/-- The slot of a field that is alone is blank beside the field. -/
theorem field_undisturbed {x : Cell → UInt8} {v : S.Val} (h : (S.place keccak u base).Holds x v) (i : S.Index) :
    (S.field base i).Undisturbed x := by
  intro narrow halone p hp
  refine h.2 _ (field_key_mem i) fun j hj => ?_
  by_cases hij : j = i
  · subst hij
    obtain ⟨-, hwindow⟩ := (field_occupies j).window narrow hj
    exact hp hwindow
  · have hd := ranges_disjoint_of_alone slots_fit (k := base) halone hij
    have hkey : (S.field base i).key ∈ (S.field base i).key.range (S.fields.get i).shape.slots :=
      Key.mem_range_self (Shape.slots_pos _)
    exact hsep.owned_disjoint (fun _ hp => ⟨j, hp⟩) (Set.empty_subset _) (field_slots_subset j)
      (field_slots_subset i) hd
      ((field_occupies j).cells_owned _ hj) (.slot hkey)

theorem exec_related {s : Store} {v : S.Val} (h : (S.place keccak u base).Holds s.bytes v) (op : S.Op)
    (hlive : (S.fields.get op.1).live (v op.1) op.2) (hwithin : (S.fields.get op.1).within (u op.1) (v op.1) op.2) :
    Related (fun a b => (S.place keccak u base).Moves s.bytes a.1.bytes b.1 ∧ a.2 = b.2)
      (S.exec keccak s base op) (S.spec v op) := by
  obtain ⟨i, op⟩ := op
  have hexec := (S.fields.get i).exec_related (field_separate hsep i) (h.1 i) (field_undisturbed hsep h i)
    op hlive hwithin
  refine hexec.map fun a b hab => ⟨?_, congrArg (Sigma.mk i) hab.2⟩
  exact Place.family_moves (fun _ _ => fields_disjoint hsep) h hab.1

/-- Fields are cleared one after the other. -/
theorem clearFields_related {l : List S.Index} (hl : l.Nodup) {s : Store} {v w : S.Val}
    (h : (S.place keccak u base).Holds s.bytes w) (hw : ∀ i ∈ l, w i = v i) :
    Related (fun t _ => (S.place keccak u base).Moves s.bytes t.bytes fun i => if i ∈ l then S.initial i else w i)
      (l.foldlM (fun s i => (S.fields.get i).clearAt keccak s (S.field base i)) s)
      (l.forM fun i => (S.fields.get i).clearSpec (v i)) := by
  induction l generalizing s w with
  | nil =>
    simp only [List.not_mem_nil, if_false]
    exact .ok (.refl h)
  | cons i l ih =>
    obtain ⟨hi, hl⟩ := List.nodup_cons.mp hl
    have hcons : ((i :: l).forM fun i => (S.fields.get i).clearSpec (v i)) =
        ((S.fields.get i).clearSpec (v i) >>= fun _ => l.forM fun i => (S.fields.get i).clearSpec (v i)) := rfl
    have hclear := (S.fields.get i).clear_related (field_separate hsep i) (h.1 i) (field_undisturbed hsep h i)
    rw [hw i List.mem_cons_self] at hclear
    rw [List.foldlM_cons, hcons]
    refine hclear.bind fun t _ ht => ?_
    have hmove := Place.family_moves (fun _ _ => fields_disjoint hsep) h ht
    have hrest := ih hl hmove.holds fun j hj => by
      have hne : j ≠ i := fun heq => hi (heq ▸ hj)
      rw [Function.update_of_ne hne]
      exact hw j (List.mem_cons_of_mem _ hj)
    have hvalue : (fun j => if j ∈ l then S.initial j else Function.update w i (S.fields.get i).initial j) =
        fun j => if j ∈ i :: l then S.initial j else w j := by
      funext j
      by_cases hj : j = i
      · subst hj
        rw [if_neg hi, if_pos List.mem_cons_self, Function.update_self]
        rfl
      · simp only [Function.update_of_ne hj, List.mem_cons, hj, false_or]
    rw [hvalue] at hrest
    exact hrest.mono fun r _ hr => hmove.trans hr

theorem clear_related {s : Store} {v : S.Val} (h : (S.place keccak u base).Holds s.bytes v) :
    Related (fun t _ => (S.place keccak u base).Moves s.bytes t.bytes S.initial)
      (S.clear keccak s base) (S.clearSpec v) := by
  refine (clearFields_related hsep (List.nodup_finRange _) h fun _ _ => rfl).mono fun t _ ht => ?_
  simp only [List.mem_finRange, if_true] at ht
  exact ht

end StructDef

/-- A `#[storage]` struct as a component. -/
def Component.struct (S : StructDef) : Component where
  shape := S.shape
  needsRecursiveClear := true
  Val := S.Val
  initial := S.initial
  Query := S.Query
  Answer := S.Answer
  Op := S.Op
  Out := S.Out
  ask keccak s h q := S.ask keccak s h.key q
  exec keccak s h op := S.exec keccak s h.key op
  clearAt keccak s h := S.clear keccak s h.key
  answer := S.answer
  spec := S.spec
  clearSpec := S.clearSpec
  live v op := (S.fields.get op.1).live (v op.1) op.2
  Usage := S.Usage
  all i := (S.fields.get i).all
  within u v op := (S.fields.get op.1).within (u op.1) (v op.1) op.2
  points := S.points
  place keccak u key _ := S.place keccak u key
  slots_lt := S.fits
  within_all v op := (S.fields.get op.1).within_all (v op.1) op.2
  occupies _ _ _ offset := StructDef.place_occupies offset
  initial_iff := StructDef.initial_iff
  flat h := absurd h (by decide)
  recursive_full _ := rfl
  ask_eq h q := StructDef.ask_eq h q
  exec_related hsep h _ op hlive hwithin := StructDef.exec_related hsep h op hlive hwithin
  clear_related hsep h _ := StructDef.clear_related hsep h

end PvmContract.Storage
