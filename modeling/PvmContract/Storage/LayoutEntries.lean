import PvmContract.Storage.Struct
import PvmContract.Storage.PathLaws

/-!
# Layout entries

Under `abi-gen` the storage layout of a contract is printed, with an entry for each
leaf: a `Lazy`, a `Mapping` or a `StorageVec`. A `#[storage]` struct is flattened, and
the labels of its leaves are dotted paths (`erc20.total_supply`).

`Spot` is a leaf of a schema: a way through the fields of structs. The entries are
those of the spots, in declaration order (`emitEntries_eq`). Identifiers have no dots,
so a label, taken apart at its dots, says which spot it is of (`Spot.label_inj`). The
bytes of spots do not overlap (`Spot.regions_disjoint`), and what is kept in a spot is
found from its slot and its offset (`Path.locate_rest`).
-/

namespace PvmContract.Storage

open PvmContract.Data PvmContract.Data.Run

/-! ### Entries -/

/-- `StorageLayoutEntry`. -/
structure StorageLayoutEntry where
  label : String
  slot : String
  offset : ℕ
  ty : String
  deriving DecidableEq, Repr

/-- `a - b` on `u8`. -/
def u8Sub (p : Profile) (a b : ℕ) : Run ℕ :=
  if b ≤ a then pure (a - b) else
    match p with
    | .checked => .abort
    | .wrapping => pure ((a + 2 ^ 8 - b) % 2 ^ 8)

theorem u8Sub_of_le {p : Profile} {a b : ℕ} (h : b ≤ a) : u8Sub p a b = pure (a - b) := if_pos h

/-- The offset that `generate_layout_emit` computes for a field. -/
def Placement.printedOffset (p : Profile) (q : Placement) : Run ℕ := do
  let rest ← u8Sub p 32 q.offset
  u8Sub p rest (q.shape.packedBytes % 2 ^ 8)

theorem Placement.printedOffset_eq {p : Profile} {q : Placement} (h : q.offset + q.shape.packedBytes ≤ 32) :
    q.printedOffset p = pure q.solcOffset := by
  have hbyte : q.shape.packedBytes % 2 ^ 8 = q.shape.packedBytes := Nat.mod_eq_of_lt (by omega)
  rw [printedOffset, hbyte, u8Sub_of_le (by omega), pure_bind, u8Sub_of_le (by omega), solcOffset]

/-- `join_label`. -/
def joinLabel (pre name : String) : String := if pre = "" then name else pre ++ "." ++ name

/-- What is used of identifiers: they are not empty, and have no dots. -/
def IsIdent (name : String) : Prop := name ≠ "" ∧ '.' ∉ name.toList

/-- What a declaration names: the types of leaves and keys, structs, and their fields. -/
inductive Names : Schema → Type 1 where
  | leaf {T : LeafType} (name : String) : Names (.leaf T)
  | vec {elem : Schema} (inner : Names elem) : Names (.vec elem)
  | struct {n : ℕ} {fields : Fin (n + 1) → Schema} (ident : String) (idents : Fin (n + 1) → String)
      (inner : (i : Fin (n + 1)) → Names (fields i)) : Names (.struct n fields)
  | mapping {K : KeyType} {V : Schema} (key : String) (inner : Names V) : Names (.mapping K V)

namespace Names

/-- `StorageTypeName::name`. -/
def name : {S : Schema} → Names S → String
  | _, leaf name => name
  | _, vec inner => inner.name ++ "[]"
  | _, struct ident _ _ => ident
  | _, mapping key inner => "mapping(" ++ key ++ " => " ++ inner.name ++ ")"

/-- `StorageLayoutEmit::emit_entries`, with `generate_layout_emit` for the fields of a struct. -/
def emitEntries (p : Profile) : {S : Schema} → Names S → ℕ → ℕ → String → List StorageLayoutEntry →
    Run (List StorageLayoutEntry)
  | _, leaf name, base, offset, pre, entries => pure (entries ++ [⟨pre, toString base, offset, name⟩])
  | _, vec inner, base, offset, pre, entries => pure (entries ++ [⟨pre, toString base, offset, (vec inner).name⟩])
  | _, @mapping K V key inner, base, offset, pre, entries =>
    pure (entries ++ [⟨pre, toString base, offset, (@mapping K V key inner).name⟩])
  | _, @struct n fields _ idents inner, base, _, pre, entries =>
    (List.finRange (n + 1)).foldlM (fun entries i => do
      let step := fieldAt (fun i => (fields i).shape) i
      let slot ← uadd p base step.slot
      let offset ← step.printedOffset p
      (inner i).emitEntries p slot offset (joinLabel pre (idents i)) entries) entries

/-- What the compiler has seen to: fields are identifiers, and no two of a struct have one name. -/
def Proper : {S : Schema} → Names S → Prop
  | _, leaf _ => True
  | _, vec _ => True
  | _, mapping _ _ => True
  | _, struct _ idents inner =>
    Function.Injective idents ∧ (∀ i, IsIdent (idents i)) ∧ ∀ i, (inner i).Proper

end Names

/-! ### Spots -/

/-- A leaf of a schema. -/
inductive Spot : Schema → Type 1 where
  | leaf {T : LeafType} : Spot (.leaf T)
  | vec {elem : Schema} : Spot (.vec elem)
  | mapping {K : KeyType} {V : Schema} : Spot (.mapping K V)
  | field {n : ℕ} {fields : Fin (n + 1) → Schema} (i : Fin (n + 1)) (rest : Spot (fields i)) : Spot (.struct n fields)

/-- All leaves, in declaration order. -/
def Schema.spots : (S : Schema) → List (Spot S)
  | .leaf _ => [.leaf]
  | .vec _ => [.vec]
  | .mapping _ _ => [.mapping]
  | .struct n fields => (List.finRange (n + 1)).flatMap fun i => (fields i).spots.map (Spot.field i)

namespace Spot

variable {S : Schema}

/-- The schema of the leaf. -/
def schema : {S : Schema} → Spot S → Schema
  | _, @leaf T => .leaf T
  | _, @vec elem => .vec elem
  | _, @mapping K V => .mapping K V
  | _, field _ rest => rest.schema

/-- The slot of the leaf, from the first one of the schema. -/
def slot : {S : Schema} → Spot S → ℕ
  | _, leaf => 0
  | _, vec => 0
  | _, mapping => 0
  | _, @field _ fields i rest => (fieldAt (fun i => (fields i).shape) i).slot + rest.slot

/-- The offset that `new_at` is given. -/
def offset : {S : Schema} → Spot S → ℕ → ℕ
  | _, leaf, offset => offset
  | _, vec, offset => offset
  | _, mapping, offset => offset
  | _, @field _ fields i rest, _ => rest.offset (fieldAt (fun i => (fields i).shape) i).offset

/-- The dotted path, each identifier behind a dot. -/
def dotted : {S : Schema} → Spot S → Names S → List Char
  | _, leaf, _ => []
  | _, vec, _ => []
  | _, mapping, _ => []
  | _, field i rest, .struct _ idents inner => '.' :: ((idents i).toList ++ rest.dotted (inner i))

/-- The label of the leaf. -/
def label : {S : Schema} → Spot S → Names S → String → String
  | _, leaf, _, pre => pre
  | _, vec, _, pre => pre
  | _, mapping, _, pre => pre
  | _, field i rest, .struct _ idents inner, pre => rest.label (inner i) (joinLabel pre (idents i))

/-- The type of the leaf. -/
def ty : {S : Schema} → Spot S → Names S → String
  | _, leaf, names => names.name
  | _, vec, names => names.name
  | _, mapping, names => names.name
  | _, field i rest, .struct _ _ inner => rest.ty (inner i)

/-- solc counts offsets from the least significant byte. -/
def solcOffset (x : Spot S) (offset : ℕ) : ℕ := 32 - x.offset offset - x.schema.shape.packedBytes

/-- The entry of the leaf, in a whole with its first byte at an offset of slot `base`. -/
def entry (x : Spot S) (names : Names S) (base offset : ℕ) (pre : String) : StorageLayoutEntry :=
  ⟨x.label names pre, toString (base + x.slot), x.solcOffset offset, x.ty names⟩

theorem mem_spots (x : Spot S) : x ∈ S.spots := by
  induction x with
  | leaf => exact List.mem_singleton_self _
  | vec => exact List.mem_singleton_self _
  | mapping => exact List.mem_singleton_self _
  | field i rest ih => exact List.mem_flatMap.mpr ⟨i, List.mem_finRange i, List.mem_map_of_mem ih⟩

end Spot

theorem Schema.nodup_spots (S : Schema) : S.spots.Nodup := by
  induction S with
  | leaf T => exact List.nodup_singleton _
  | vec elem ih => exact List.nodup_singleton _
  | mapping K V ih => exact List.nodup_singleton _
  | struct n fields ih =>
    refine List.nodup_flatMap.mpr ⟨fun i _ => (ih i).map fun x y h => ?_, ?_⟩
    · cases h
      rfl
    · refine (List.nodup_finRange _).imp fun {i j} hne x hi hj => ?_
      obtain ⟨y, -, rfl⟩ := List.mem_map.mp hi
      obtain ⟨z, -, hz⟩ := List.mem_map.mp hj
      cases hz
      exact hne rfl

/-! ### Entries of spots -/

section

variable {n : ℕ} {shapes : Fin (n + 1) → Shape}

theorem fieldAt_shape (i : Fin (n + 1)) : (fieldAt shapes i).shape = shapes i := by
  rw [fieldAt, placed_shape, get_ofFn_cast]
  rfl

theorem fieldAt_within (i : Fin (n + 1)) : (fieldAt shapes i).offset + (shapes i).packedBytes ≤ 32 := by
  have h := placed_within id (i.cast (List.length_ofFn (f := shapes)).symm)
  rw [get_ofFn_cast] at h
  exact h

end

theorem foldlM_append {α : Type*} {β : Type} {f : List β → α → Run (List β)} {g : α → List β}
    {l : List α} (h : ∀ i ∈ l, ∀ entries, f entries i = pure (entries ++ g i)) (entries : List β) :
    l.foldlM f entries = pure (entries ++ l.flatMap g) := by
  induction l generalizing entries with
  | nil => rw [List.flatMap_nil, List.append_nil, List.foldlM_nil]
  | cons i l ih =>
    rw [List.foldlM_cons, h i List.mem_cons_self, pure_bind, ih fun j hj => h j (List.mem_cons_of_mem _ hj),
      List.flatMap_cons, List.append_assoc]

/-- **The entries are those of the leaves.** Slot numbers do not overflow. -/
theorem emitEntries_eq {p : Profile} {S : Schema} (names : Names S) {base offset : ℕ}
    (hbase : base + S.shape.slots ≤ 2 ^ 64) (pre : String) (entries : List StorageLayoutEntry) :
    names.emitEntries p base (32 - offset - S.shape.packedBytes) pre entries =
      pure (entries ++ S.spots.map fun x => x.entry names base offset pre) := by
  induction names generalizing base offset pre entries with
  | leaf name => rfl
  | vec inner ih => rfl
  | mapping key inner ih => rfl
  | @struct n fields ident idents inner ih =>
    rw [Names.emitEntries, Schema.spots, List.map_flatMap]
    refine foldlM_append (fun i _ entries => ?_) _
    have hslots := @fieldAt_slots_le _ (fun i => (fields i).shape) i
    have hpos := (fields i).shape.slots_pos
    have hrow : (Schema.struct n fields).shape.slots = (Shape.row fun i => (fields i).shape).slots := rfl
    rw [hrow] at hbase
    have hlt : base + (fieldAt (fun i => (fields i).shape) i).slot < 2 ^ 64 := by omega
    have hoffset : (fieldAt (fun i => (fields i).shape) i).solcOffset =
        32 - (fieldAt (fun i => (fields i).shape) i).offset - (fields i).shape.packedBytes := by
      rw [Placement.solcOffset, fieldAt_shape]
    have hprinted : (fieldAt (fun i => (fields i).shape) i).printedOffset p =
        pure (fieldAt (fun i => (fields i).shape) i).solcOffset := by
      apply Placement.printedOffset_eq
      rw [fieldAt_shape]
      exact @fieldAt_within _ (fun i => (fields i).shape) i
    change (uadd p base (fieldAt (fun i => (fields i).shape) i).slot >>= fun slot =>
      (fieldAt (fun i => (fields i).shape) i).printedOffset p >>= fun offset =>
        (inner i).emitEntries p slot offset (joinLabel pre (idents i)) entries) = _
    rw [uadd_of_lt hlt, pure_bind, hprinted, pure_bind, hoffset, ih i (by omega), List.map_map]
    congr 2
    refine List.map_congr_left fun x _ => ?_
    rw [Spot.entry, Function.comp_apply, Spot.entry, Nat.add_assoc]
    rfl

/-! ### Labels -/

theorem append_dotted_inj {a b r s : List Char} (ha : '.' ∉ a) (hb : '.' ∉ b) (hr : r = [] ∨ ∃ t, r = '.' :: t)
    (hs : s = [] ∨ ∃ t, s = '.' :: t) (h : a ++ r = b ++ s) : a = b ∧ r = s := by
  induction a generalizing b with
  | nil =>
    cases b with
    | nil => exact ⟨rfl, h⟩
    | cons c b =>
      rcases hr with rfl | ⟨t, rfl⟩
      · exact absurd h (List.cons_ne_nil _ _).symm
      · obtain ⟨hc, -⟩ := List.cons.inj h
        exact absurd (hc ▸ List.mem_cons_self) hb
  | cons c a ih =>
    cases b with
    | nil =>
      rcases hs with rfl | ⟨t, rfl⟩
      · exact absurd h (List.cons_ne_nil _ _)
      · obtain ⟨hc, -⟩ := List.cons.inj h
        exact absurd (hc ▸ List.mem_cons_self) ha
    | cons d b =>
      obtain ⟨hc, htail⟩ := List.cons.inj h
      obtain ⟨rfl, hrest⟩ := ih (fun hmem => ha (List.mem_cons_of_mem _ hmem))
        (fun hmem => hb (List.mem_cons_of_mem _ hmem)) htail
      exact ⟨by rw [hc], hrest⟩

theorem joinLabel_empty (name : String) : joinLabel "" name = name := if_pos rfl

theorem joinLabel_ne {pre name : String} (h : name ≠ "") : joinLabel pre name ≠ "" := by
  rw [joinLabel]
  split_ifs with hpre
  · exact h
  · intro heq
    have hlist := congrArg String.toList heq
    simp at hlist

namespace Spot

variable {S : Schema} {names : Names S}

theorem dotted_cases (x : Spot S) (names : Names S) : x.dotted names = [] ∨ ∃ t, x.dotted names = '.' :: t := by
  cases x with
  | leaf => exact .inl rfl
  | vec => exact .inl rfl
  | mapping => exact .inl rfl
  | field i rest =>
    cases names with
    | struct ident idents inner => exact .inr ⟨_, rfl⟩

/-- A dotted path says which leaf it leads to. -/
theorem dotted_inj (h : names.Proper) {x y : Spot S} (hxy : x.dotted names = y.dotted names) : x = y := by
  induction x with
  | leaf =>
    cases y
    rfl
  | vec =>
    cases y
    rfl
  | mapping =>
    cases y
    rfl
  | field i rest ih =>
    cases y with
    | field j rest' =>
      cases names with
      | struct ident idents inner =>
        obtain ⟨hinj, hident, hinner⟩ := h
        obtain ⟨hij, hrest⟩ := append_dotted_inj (hident i).2 (hident j).2 (rest.dotted_cases _) (rest'.dotted_cases _)
          (List.cons.inj hxy).2
        obtain rfl := hinj (String.toList_inj.mp hij)
        rw [ih (hinner i) hrest]

theorem toList_label (h : names.Proper) (x : Spot S) {pre : String} (hpre : pre ≠ "") :
    (x.label names pre).toList = pre.toList ++ x.dotted names := by
  induction x generalizing pre with
  | leaf => exact (List.append_nil _).symm
  | vec => exact (List.append_nil _).symm
  | mapping => exact (List.append_nil _).symm
  | field i rest ih =>
    cases names with
    | struct ident idents inner =>
      rw [label, dotted, ih (h.2.2 i) (joinLabel_ne (h.2.1 i).1), joinLabel, if_neg hpre]
      simp

theorem toList_label_empty (h : names.Proper) (x : Spot S) : (x.label names "").toList = (x.dotted names).tail := by
  cases x with
  | leaf => rfl
  | vec => rfl
  | mapping => rfl
  | field i rest =>
    cases names with
    | struct ident idents inner =>
      rw [label, dotted, joinLabel, if_pos rfl, toList_label (h.2.2 i) rest (h.2.1 i).1]
      rfl

/-- So does a label. -/
theorem label_inj (h : names.Proper) {x y : Spot S} {pre : String} (hxy : x.label names pre = y.label names pre) :
    x = y := by
  refine dotted_inj h ?_
  have hlist := congrArg String.toList hxy
  by_cases hpre : pre = ""
  · subst hpre
    rw [toList_label_empty h, toList_label_empty h] at hlist
    cases x with
    | leaf =>
      cases y
      rfl
    | vec =>
      cases y
      rfl
    | mapping =>
      cases y
      rfl
    | field i rest =>
      cases y with
      | field j rest' =>
        cases names with
        | struct ident idents inner => exact congrArg (List.cons '.') hlist
  · rw [toList_label h x hpre, toList_label h y hpre] at hlist
    exact List.append_cancel_left hlist

end Spot

/-! ### Places -/

/-- The bytes of a value, as slot numbers and positions in slots. -/
def Shape.region (s : Shape) (slot offset : ℕ) : Set (ℕ × ℕ) :=
  {x | (slot ≤ x.1 ∧ x.1 < slot + s.slots) ∧ offset ≤ x.2 ∧ x.2 < offset + s.packedBytes}

namespace Spot

variable {S : Schema} {base offset : ℕ}

/-- The bytes of the leaf. -/
def region (x : Spot S) (base offset : ℕ) : Set (ℕ × ℕ) := x.schema.shape.region (base + x.slot) (x.offset offset)

theorem region_field {n : ℕ} {fields : Fin (n + 1) → Schema} (i : Fin (n + 1)) (rest : Spot (fields i)) :
    (field i rest : Spot (.struct n fields)).region base offset = rest.region
      (base + (fieldAt (fun i => (fields i).shape) i).slot) (fieldAt (fun i => (fields i).shape) i).offset := by
  rw [region, region, slot, Nat.add_assoc]
  rfl

theorem within (x : Spot S) (h : offset + S.shape.packedBytes ≤ 32) :
    x.offset offset + x.schema.shape.packedBytes ≤ 32 := by
  induction x generalizing offset with
  | leaf => exact h
  | vec => exact h
  | mapping => exact h
  | @field n fields i rest ih => exact ih (@fieldAt_within _ (fun i => (fields i).shape) i)

/-- A leaf is within the whole. -/
theorem region_subset (x : Spot S) (h : offset + S.shape.packedBytes ≤ 32) :
    x.region base offset ⊆ S.shape.region base offset := by
  induction x generalizing base offset with
  | leaf => exact subset_refl _
  | vec => exact subset_refl _
  | mapping => exact subset_refl _
  | @field n fields i rest ih =>
    have hwithin := @fieldAt_within _ (fun i => (fields i).shape) i
    have hslots := @fieldAt_slots_le _ (fun i => (fields i).shape) i
    rw [region_field]
    refine (ih hwithin).trans ?_
    rintro ⟨t, b⟩ ⟨⟨hlow, hhigh⟩, hfirst, hlast⟩
    have hrow : (Schema.struct n fields).shape = Shape.row fun i => (fields i).shape := rfl
    have hbytes : (Shape.row fun i => (fields i).shape).packedBytes = 32 := rfl
    rw [hrow, hbytes] at h
    rw [hrow]
    refine ⟨⟨?_, ?_⟩, ?_, ?_⟩
    · exact le_trans (Nat.le_add_right _ _) hlow
    · change t < _
      dsimp only at hhigh
      omega
    · change offset ≤ b
      omega
    · change b < offset + (Shape.row fun i => (fields i).shape).packedBytes
      rw [hbytes]
      dsimp only at hlast
      omega

/-- Leaves do not overlap. -/
theorem regions_disjoint {x y : Spot S} (hne : x ≠ y) (h : offset + S.shape.packedBytes ≤ 32) :
    Disjoint (x.region base offset) (y.region base offset) := by
  induction x generalizing base offset with
  | leaf =>
    cases y
    exact absurd rfl hne
  | vec =>
    cases y
    exact absurd rfl hne
  | mapping =>
    cases y
    exact absurd rfl hne
  | @field n fields i rest ih =>
    cases y with
    | field j rest' =>
      rw [region_field, region_field]
      by_cases hij : i = j
      · subst hij
        exact ih (fun heq => hne (congrArg (field i) heq)) (@fieldAt_within _ (fun i => (fields i).shape) i)
      · have happart := @fieldAt_apart _ (fun i => (fields i).shape) i j hij
        refine Set.disjoint_left.mpr fun c hx hy => ?_
        obtain ⟨⟨hlow, hhigh⟩, hfirst, hlast⟩ := rest.region_subset (@fieldAt_within _ (fun i => (fields i).shape) i) hx
        obtain ⟨⟨hlow', hhigh'⟩, hfirst', hlast'⟩ :=
          rest'.region_subset (@fieldAt_within _ (fun i => (fields i).shape) j) hy
        rcases happart with hs | hs | ⟨hs, hn, hn', hside⟩
        · omega
        · omega
        · omega

end Spot

/-! ### Paths to leaves -/

namespace Path

/-- The leaf that a path goes through. -/
def spot : {S : Schema} → Path S → Spot S
  | _, window => .leaf
  | _, word _ => .leaf
  | _, chunk _ _ _ => .leaf
  | _, length => .vec
  | _, elem _ _ => .vec
  | _, entry _ _ => .mapping
  | _, field i rest => .field i rest.spot

/-- The rest of the path, in the leaf. -/
def rest : {S : Schema} → (path : Path S) → Path path.spot.schema
  | _, @window p narrow => @window p narrow
  | _, word j => word j
  | _, chunk header mem j => chunk header mem j
  | _, length => length
  | _, elem i path => elem i path
  | _, entry k path => entry k path
  | _, field _ path => path.rest

theorem locate_add_zero {S : Schema} (path : Path S) (keccak : Hash) (key : Key) (offset : ℕ) :
    path.locate keccak (key.add 0) offset = path.locate keccak key offset := by
  rw [Key.add_zero]

/-- What is kept in a leaf is found from the slot and the offset of the leaf. -/
theorem locate_rest {S : Schema} (path : Path S) (keccak : Hash) (key : Key) (offset : ℕ) :
    path.locate keccak key offset = path.rest.locate keccak (key.add path.spot.slot) (path.spot.offset offset) := by
  induction path generalizing key offset with
  | window => exact (locate_add_zero _ keccak key offset).symm
  | word j => exact (locate_add_zero _ keccak key offset).symm
  | chunk header mem j => exact (locate_add_zero _ keccak key offset).symm
  | length => exact (locate_add_zero _ keccak key offset).symm
  | elem i path ih => exact (locate_add_zero _ keccak key offset).symm
  | entry k path ih => exact (locate_add_zero _ keccak key offset).symm
  | @field n fields i path ih =>
    change path.locate keccak (key.add (fieldAt (fun i => (fields i).shape) i).slot)
      (fieldAt (fun i => (fields i).shape) i).offset = _
    rw [ih, Key.add_add]
    rfl

end Path

end PvmContract.Storage
