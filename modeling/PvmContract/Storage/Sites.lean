import Mathlib.Data.List.OfFn
import PvmContract.Storage.Shell

/-!
# Sites do not meet

No cell belongs to two sites of a schema, if the hash is spread on what is hashed for
the two. As for the access paths, this is an induction on entries and their addresses:
entries that part lead to different stretches of slots. One entry may also be behind
another; its key is then derived from the slot of a mapping, where the shell that it is
behind keeps nothing (`shell_apart`).
-/

namespace PvmContract.Storage

open PvmContract.Data PvmContract.Contract

/-! ### Addresses of owned keys -/

section

variable {keccak : Hash} {P : Set (List UInt8)} {points : Set Key} {a b : Address} {n : ℕ} {k : Key}

/-- An address that is known from its key, if the hash is spread on `P`. -/
structure Known (keccak : Hash) (P : Set (List UInt8)) (a : Address) : Prop where
  within : a.Within span
  preimages : a.preimages keccak ⊆ P

theorem Known.eq (hspread : Spread keccak span P) (ha : Known keccak P a) (hb : Known keccak P b)
    (h : a.key keccak = b.key keccak) : a = b :=
  Address.key_injective hspread (by decide) ha.within hb.within ha.preimages hb.preimages h

theorem Known.add (h : Known keccak P a) {i : ℕ} (hi : a.index + i < span) : Known keccak P (a.add i) :=
  ⟨h.within.add hi, by rw [Address.preimages_add]; exact h.preimages⟩

/-- What is behind a hashed key is known if the key is. -/
theorem Known.hashed (h : Known keccak P a) (hP : (a.key keccak).1 ∈ P) {i : ℕ} (hi : i < span) :
    Known keccak P (.hashed [] a i) :=
  ⟨⟨hi, h.within⟩, Set.insert_subset hP h.preimages⟩

/-- A stretch of slots from a known address, and the points that are hashed in it. -/
structure Charted (keccak : Hash) (P : Set (List UInt8)) (points : Set Key) (a : Address) (n : ℕ) : Prop where
  known : Known keccak P a
  room : a.index + n ≤ span
  points : ∀ p ∈ points, p.1 ∈ P

theorem Charted.slot (h : Charted keccak P points a n) {i : ℕ} (hi : i < n) : Known keccak P (a.add i) :=
  h.known.add (lt_of_lt_of_le (Nat.add_lt_add_left hi _) h.room)

/-- A key that belongs to the stretch has an address in it. -/
theorem Charted.exists_address (h : Charted keccak P points a n)
    (hk : Owned keccak points ((a.key keccak).range n) k) : ∃ b, b.key keccak = k ∧ a.Under n b ∧ Known keccak P b := by
  induction hk with
  | slot hk =>
    obtain ⟨i, hi, rfl⟩ := hk
    exact ⟨a.add i, a.key_add i, .here hi, h.slot hi⟩
  | @body p k hp _ hk ih =>
    obtain ⟨b, rfl, hunder, hb⟩ := ih
    obtain ⟨i, hi, rfl⟩ := hk
    exact ⟨.hashed [] b i, rfl, .behind hunder, hb.hashed (h.points _ hp) hi⟩

/-- The regions of the points meet neither each other nor the slots. -/
theorem Charted.separate (hspread : Spread keccak span P) (h : Charted keccak P points a n)
    (howned : ∀ p ∈ points, Owned keccak points ((a.key keccak).range n) p) :
    Separate keccak points ((a.key keccak).range n) where
  regions p hp q hq hne := by
    rw [Set.disjoint_left]
    rintro k ⟨i, hi, rfl⟩ ⟨j, hj, heq⟩
    exact hne (Subtype.ext (hspread.apart _ (h.points p hp) _ (h.points q hq) i hi j hj heq))
  slots p hp := by
    rw [Set.disjoint_left]
    rintro k ⟨i, hi, rfl⟩ ⟨j, hj, heq⟩
    obtain ⟨b, rfl, hunder, hb⟩ := h.exists_address (howned p hp)
    have hkey : (Address.hashed [] b i).key keccak = (a.add j).key keccak := heq.trans (a.key_add j).symm
    have hdepth := congrArg Address.depth ((hb.hashed (h.points _ hp) hi).eq hspread (h.slot hj) hkey)
    rw [Address.depth, Address.depth_add] at hdepth
    have hle := hunder.depth_le
    omega

end

/-! ### The place of a site -/

namespace Component

/-- What a component keeps at a slot of its own: the rest of the slot is blank. -/
def placeAt (c : Component) (keccak : Hash) (u : c.Usage) (key : Key) : Place Cell UInt8 c.Val :=
  (c.place keccak u key (entryOffset c.shape)).pad (Store.cellsOf {key}) 0

/-- The addresses of what a component keeps are known. -/
abbrev ChartedAt (c : Component) (keccak : Hash) (P : Set (List UInt8)) (u : c.Usage) (a : Address) : Prop :=
  Charted keccak P (c.points keccak u (a.key keccak)) a c.shape.slots

variable {c : Component} {keccak : Hash} {P : Set (List UInt8)} {u : c.Usage} {a : Address}

theorem ChartedAt.cell {offset : ℕ} (h : c.ChartedAt keccak P u a) {cell : Cell}
    (hc : cell ∈ (c.place keccak u (a.key keccak) offset).cells) :
    ∃ b, b.key keccak = cell.1 ∧ a.Under c.shape.slots b ∧ Known keccak P b :=
  h.exists_address ((c.occupies keccak u _ offset).cells_owned cell hc)

theorem ChartedAt.cellAt (h : c.ChartedAt keccak P u a) {cell : Cell}
    (hc : cell ∈ (c.placeAt keccak u (a.key keccak)).cells) :
    ∃ b, b.key keccak = cell.1 ∧ a.Under c.shape.slots b ∧ Known keccak P b := by
  rcases hc with hc | hc
  · have hkey : cell.1 = a.key keccak := hc
    have hself : a.Under c.shape.slots (a.add 0) := .here c.shape.slots_pos
    rw [Address.add_zero] at hself
    exact ⟨a, hkey.symm, hself, h.known⟩
  · exact h.cell hc

theorem ChartedAt.separateAt (hspread : Spread keccak span P) (h : c.ChartedAt keccak P u a) :
    Separate keccak (c.points keccak u (a.key keccak)) ((a.key keccak).range c.shape.slots) :=
  h.separate hspread (c.occupies keccak u _ 0).points_owned

/-- The same usage of an equal component. -/
def castUsage {c c' : Component} (h : c = c') (u : c.Usage) : c'.Usage := cast (congrArg Usage h) u

theorem cells_congr {c c' : Component} (h : c = c') (keccak : Hash) (u : c.Usage) (key : Key) (offset : ℕ) :
    (c.place keccak u key offset).cells = (c'.place keccak (castUsage h u) key offset).cells := by
  subst h
  rfl

theorem points_congr {c c' : Component} (h : c = c') (keccak : Hash) (u : c.Usage) (key : Key) :
    c.points keccak u key = c'.points keccak (castUsage h u) key := by
  subst h
  rfl

end Component

/-! ### Fields of a struct, by number -/

section

variable {n : ℕ} {f : Fin (n + 1) → Component} {shapes : Fin (n + 1) → Shape}
  {fits : rowSlots Component.shape (List.ofFn f) < 2 ^ 64}

theorem placed_congr {α β : Type*} {shape : α → Shape} {shape' : β → Shape} {l : List α} {l' : List β}
    (h : l.map shape = l'.map shape') {i : Fin l.length} {j : Fin l'.length} (hij : i.1 = j.1) :
    placed shape l i = placed shape' l' j := by
  have hget : (placements (l.map shape))[i.1]? = (placements (l'.map shape'))[j.1]? := by rw [h, hij]
  rw [List.getElem?_eq_getElem (by rw [length_placements]; exact i.2),
    List.getElem?_eq_getElem (by rw [length_placements]; exact j.2)] at hget
  exact Option.some.inj hget

/-- A field number as an index into the list of fields. -/
def StructDef.index (f : Fin (n + 1) → Component) (fits : rowSlots Component.shape (List.ofFn f) < 2 ^ 64)
    (i : Fin (n + 1)) : (StructDef.ofFn f fits).Index :=
  i.cast List.length_ofFn.symm

theorem StructDef.get_index (i : Fin (n + 1)) :
    (StructDef.ofFn f fits).fields.get (StructDef.index f fits i) = f i := by
  change (List.ofFn f).get (i.cast List.length_ofFn.symm) = f i
  rw [List.get_ofFn]
  rfl

theorem StructDef.exists_index (j : (StructDef.ofFn f fits).Index) : ∃ i, StructDef.index f fits i = j :=
  ⟨j.cast List.length_ofFn, rfl⟩

theorem StructDef.placed_index (h : ∀ i, (f i).shape = shapes i) (i : Fin (n + 1)) :
    placed Component.shape (StructDef.ofFn f fits).fields (StructDef.index f fits i) = fieldAt shapes i := by
  have hmap : (List.ofFn f).map Component.shape = (List.ofFn shapes).map id := by rw [map_shape_ofFn h, List.map_id]
  exact placed_congr hmap rfl

theorem StructDef.field_key (h : ∀ i, (f i).shape = shapes i) (base : Key) (i : Fin (n + 1)) :
    ((StructDef.ofFn f fits).field base (StructDef.index f fits i)).key = base.add (fieldAt shapes i).slot := by
  have hplaced := @StructDef.placed_index n f shapes fits h i
  rw [← hplaced]
  rfl

/-- What is in use of a field. -/
def StructDef.fieldUsage (u : (StructDef.ofFn f fits).Usage) (i : Fin (n + 1)) : (f i).Usage :=
  Component.castUsage (StructDef.get_index i) (u (StructDef.index f fits i))

theorem StructDef.points_index (h : ∀ i, (f i).shape = shapes i) (keccak : Hash) (u : (StructDef.ofFn f fits).Usage)
    (base : Key) (i : Fin (n + 1)) : (f i).points keccak (StructDef.fieldUsage u i) (base.add (fieldAt shapes i).slot) ⊆
      (StructDef.ofFn f fits).points keccak u base := by
  intro p hp
  refine ⟨StructDef.index f fits i, ?_⟩
  rw [StructDef.field_key h, Component.points_congr (StructDef.get_index i)]
  exact hp

end

/-! ### Parts of a shell -/

/-- What is in use of the elements of a vector. -/
def Schema.elemUsage {V : Schema} {h : V.Fits} (u : StorageVec.Usage (V.elemKind (V.shell h).1).elem) :
    StorageVec.Usage (V.shell h).1 :=
  ⟨u.count, fun i => Component.castUsage (V.elem_elemKind h) (u.elem i)⟩

section

variable {keccak : Hash} {P : Set (List UInt8)} {a : Address}

theorem charted_field {n : ℕ} {fields : Fin (n + 1) → Schema} {h : (Schema.struct n fields).Fits}
    {u : ((Schema.struct n fields).shell h).1.Usage}
    (hshell : ((Schema.struct n fields).shell h).1.ChartedAt keccak P u a) (i : Fin (n + 1)) :
    ((fields i).shell (h.2 i)).1.ChartedAt keccak P (StructDef.fieldUsage u i)
      (a.add (fieldAt (fun i => (fields i).shape) i).slot) := by
  have hshapes : ∀ i, ((fields i).shell (h.2 i)).1.shape = (fields i).shape := fun i => ((fields i).shell (h.2 i)).2
  have hle : (fieldAt (fun i => (fields i).shape) i).slot + (fields i).shape.slots ≤
      (Shape.row fun i => (fields i).shape).slots := fieldAt_slots_le i
  have hroom := hshell.room
  rw [((Schema.struct n fields).shell h).2] at hroom
  change a.index + (Shape.row fun i => (fields i).shape).slots ≤ span at hroom
  have hpos := (fields i).shape.slots_pos
  refine ⟨hshell.known.add (by omega), ?_, fun p hp => hshell.points p ?_⟩
  · rw [Address.index_add, hshapes]
    omega
  · rw [a.key_add] at hp
    exact StructDef.points_index hshapes keccak u (a.key keccak) i hp

/-- A vector of equal elements. -/
theorem StorageVec.points_congr {E E' : Component} (h : E = E') (u : Usage E) (keccak : Hash) (root : Key) :
    StorageVec.points E u keccak root =
      StorageVec.points E' ⟨u.count, fun i => Component.castUsage h (u.elem i)⟩ keccak root := by
  subst h
  rfl

theorem StorageVec.cells_congr {E E' : Component} (h : E = E') (u : Usage E) (keccak : Hash) (root : Key) :
    (StorageVec.place E u keccak root).cells =
      (StorageVec.place E' ⟨u.count, fun i => Component.castUsage h (u.elem i)⟩ keccak root).cells := by
  subst h
  rfl

theorem charted_points {V : Schema} {h : V.Fits} {u : ((Schema.vec V).shell h).1.Usage}
    (hshell : ((Schema.vec V).shell h).1.ChartedAt keccak P u a) :
    ∀ p ∈ StorageVec.points (V.shell h).1 (Schema.elemUsage u) keccak (a.key keccak), p.1 ∈ P := by
  intro p hp
  have hpoints := StorageVec.points_congr (V.elem_elemKind h) u keccak (a.key keccak)
  exact hshell.points p (hpoints.symm.subset hp)

/-- The region of a vector is known. -/
theorem charted_region {V : Schema} {h : V.Fits} {u : ((Schema.vec V).shell h).1.Usage}
    (hshell : ((Schema.vec V).shell h).1.ChartedAt keccak P u a) {i : ℕ} (hi : i < span) :
    Known keccak P (.hashed [] a i) :=
  hshell.known.hashed (charted_points hshell _ StorageVec.root_mem_points) hi

theorem charted_elem {V : Schema} {h : V.Fits} {u : ((Schema.vec V).shell h).1.Usage}
    (hshell : ((Schema.vec V).shell h).1.ChartedAt keccak P u a) {i : ℕ}
    (hi : i < StorageVec.size (V.shell h).1 (Schema.elemUsage u)) :
    (V.shell h).1.ChartedAt keccak P ((Schema.elemUsage u).elem i) (.hashed [] a (StorageVec.slotNum V.shape i)) := by
  have hspan := Path.span_eq
  have hslots := Path.slots_lt (S := V) h
  have hshape := (V.shell h).2
  have hlimit := StorageVec.lt_limit_of_lt_size hi
  rw [hshape] at hlimit
  have hnum := StorageVec.slotNum_lt (StorageVec.lt_limit_iff.mp hlimit)
  refine ⟨charted_region hshell (by omega), ?_, fun p hp => charted_points hshell p ?_⟩
  · rw [hshape]
    change StorageVec.slotNum V.shape i + V.shape.slots ≤ span
    omega
  · refine StorageVec.elemPoints_subset ⟨i, hi, ?_⟩
    rw [hshape]
    exact hp

end

/-! ### Addresses of entries -/

namespace Entry

variable {S : Schema}

/-- The key of an entry is hashed from that of a mapping in the schema. -/
theorem exists_derive (e : Entry S) (a : Address) :
    ∃ front root, e.derive a = .hashed front root 0 ∧ a.Under S.shape.slots root := by
  induction e generalizing a with
  | @here K V k =>
    obtain ⟨images, front, himages⟩ := List.eq_nil_or_concat (K.images k) |>.resolve_left (K.images_ne_nil k)
    rw [derive, himages, List.concat_eq_append, Address.chain_snoc]
    exact ⟨front, _, rfl, Address.under_chain (Path.under_self (.mapping K V) a)⟩
  | @under K V k rest ih =>
    obtain ⟨front, root, hderive, hunder⟩ := ih (a.chain (K.images k))
    refine ⟨front, root, hderive, ?_⟩
    obtain ⟨images, last, himages⟩ := List.eq_nil_or_concat (K.images k) |>.resolve_left (K.images_ne_nil k)
    rw [himages, List.concat_eq_append, Address.chain_snoc] at hunder
    exact .of_hashed (Address.under_chain (Path.under_self (.mapping K V) a)) hunder
  | @field n fields i rest ih =>
    obtain ⟨front, root, hderive, hunder⟩ := ih (a.add (fieldAt (fun i => (fields i).shape) i).slot)
    exact ⟨front, root, hderive, .inside (fieldAt_slots_le i) hunder⟩
  | @elem V i rest ih =>
    obtain ⟨front, root, hderive, hunder⟩ := ih (.hashed [] a (StorageVec.slotNum V.shape i))
    exact ⟨front, root, hderive, .of_hashed (Path.under_self (.vec V) a) hunder⟩

theorem depth_lt (e : Entry S) (a : Address) : a.depth < (e.derive a).depth := by
  obtain ⟨front, root, hderive, hunder⟩ := e.exists_derive a
  rw [hderive, Address.depth]
  exact Nat.lt_succ_of_le hunder.depth_le

/-- A schema that has an entry is not packed. -/
theorem packedBytes_eq (e : Entry S) : S.shape.packedBytes = 32 := by
  cases e with
  | here k => rfl
  | under k rest => rfl
  | field i rest => rfl
  | elem i rest => rfl

/-- No number of slots is out of reach. -/
theorem derive_within (e : Entry S) (h : S.Fits) {a : Address} (ha : a.Within span)
    (hroom : a.index + S.shape.slots ≤ span) : (e.derive a).Within span := by
  have hspan := Path.span_eq
  induction e generalizing a with
  | @here K V k => exact (Path.within_chain ha (K.images_ne_nil k)).1
  | @under K V k rest ih =>
    obtain ⟨hwithin, hindex⟩ := Path.within_chain ha (K.images_ne_nil k)
    have hslots := Path.slots_lt (S := V) h
    exact ih h hwithin (by omega)
  | @field n fields i rest ih =>
    have hle : (fieldAt (fun i => (fields i).shape) i).slot + (fields i).shape.slots ≤
        (Shape.row fun i => (fields i).shape).slots := fieldAt_slots_le i
    have hpos := (fields i).shape.slots_pos
    change a.index + (Shape.row fun i => (fields i).shape).slots ≤ span at hroom
    refine ih (h.2 i) (ha.add (by omega)) ?_
    rw [Address.index_add]
    omega
  | @elem V i rest ih =>
    have hslots := Path.slots_lt (S := V) h
    have hnum := StorageVec.slotNum_lt (StorageVec.lt_limit_iff.mp i.2)
    refine ih h ⟨by omega, ha⟩ ?_
    change StorageVec.slotNum V.shape i + V.shape.slots ≤ span
    omega

/-- The stretch of an entry begins at a slot number of zero. -/
theorem index_derive (e : Entry S) (a : Address) : (e.derive a).index = 0 := by
  obtain ⟨front, root, hderive, -⟩ := e.exists_derive a
  rw [hderive]
  rfl

/-! ### Entries part -/

section

variable {keccak : Hash} {P : Set (List UInt8)} (hspread : Spread keccak span P) {a : Address}

/-- The place of an entry of a schema at `a`. -/
abbrev placeAt (e : Entry S) (h : S.Fits) (keccak : Hash) (u : (e.component h).Usage) (a : Address) :
    Place Cell UInt8 (e.component h).Val :=
  (e.component h).placeAt keccak u ((e.derive a).key keccak)

/-- The addresses of what an entry keeps are known. -/
abbrev ChartedAt (e : Entry S) (h : S.Fits) (keccak : Hash) (P : Set (List UInt8)) (u : (e.component h).Usage)
    (a : Address) : Prop :=
  (e.component h).ChartedAt keccak P u (e.derive a)

/-- What an entry keeps has addresses behind its schema. -/
theorem cellAt_under {e : Entry S} {h : S.Fits} {u : (e.component h).Usage} (he : e.ChartedAt h keccak P u a)
    {cell : Cell}
    (hc : cell ∈ (e.placeAt h keccak u a).cells) :
    ∃ b, b.key keccak = cell.1 ∧ a.Under S.shape.slots b ∧ Known keccak P b ∧ a.depth < b.depth := by
  obtain ⟨b, hkey, hunder, hb⟩ := he.cellAt hc
  have hdepth := lt_of_lt_of_le (e.depth_lt a) hunder.depth_le
  obtain ⟨front, root, hderive, hroot⟩ := e.exists_derive a
  rw [hderive] at hunder
  exact ⟨b, hkey, .of_hashed hroot hunder, hb, hdepth⟩

include hspread

/-- An entry keeps nothing at a slot that is not hashed more often than its schema's. -/
theorem not_mem_of_depth {e : Entry S} {h : S.Fits} {u : (e.component h).Usage} (he : e.ChartedAt h keccak P u a)
    {b : Address}
    (hb : Known keccak P b) (hdepth : b.depth ≤ a.depth) {cell : Cell} (hkey : b.key keccak = cell.1) :
    cell ∉ (e.placeAt h keccak u a).cells := by
  intro hc
  obtain ⟨b', hkey', -, hb', hdepth'⟩ := cellAt_under he hc
  rw [hb.eq hspread hb' (hkey.trans hkey'.symm)] at hdepth
  omega

/-- Nor behind slots that do not meet the schema's. -/
theorem not_mem_of_under {e : Entry S} {h : S.Fits} {u : (e.component h).Usage} (he : e.ChartedAt h keccak P u a)
    {a' b : Address} {n : ℕ}
    (hb : Known keccak P b) (hunder : a'.Under n b) (hdepth : a'.depth = a.depth)
    (hslots : ∀ i < n, ∀ j < S.shape.slots, a'.add i ≠ a.add j) {cell : Cell} (hkey : b.key keccak = cell.1) :
    cell ∉ (e.placeAt h keccak u a).cells := by
  intro hc
  obtain ⟨b', hkey', hunder', hb', -⟩ := cellAt_under he hc
  rw [← hb.eq hspread hb' (hkey.trans hkey'.symm)] at hunder'
  exact hunder.disjoint hdepth hslots hunder'

/-- **A shell keeps nothing where the entries behind its mappings are.** -/
theorem shell_apart {e : Entry S} {h : S.Fits} {w : (S.shell h).1.Usage} {u : (e.component h).Usage} {offset : ℕ}
    (hshell : (S.shell h).1.ChartedAt keccak P w a) (he : e.ChartedAt h keccak P u a) {cell : Cell}
    (hc : cell ∈ ((S.shell h).1.place keccak w (a.key keccak) offset).cells) :
    cell ∉ (e.placeAt h keccak u a).cells := by
  induction e generalizing a offset with
  | here k => exact absurd hc (Set.notMem_empty _)
  | under k rest ih => exact absurd hc (Set.notMem_empty _)
  | @field n fields i rest ih =>
    have hshapes : ∀ i, ((fields i).shell (h.2 i)).1.shape = (fields i).shape := fun i => ((fields i).shell (h.2 i)).2
    rcases hc with ⟨j, hj, hkey⟩ | hc
    · -- a slot of the struct itself
      refine not_mem_of_depth hspread he (hshell.slot hj) (le_of_eq (a.depth_add j)) ?_
      rw [a.key_add, hkey]
    · obtain ⟨index, hindex⟩ := Set.mem_iUnion.mp hc
      obtain ⟨j, rfl⟩ := StructDef.exists_index index
      have hcells :=
        (Component.cells_congr (StructDef.get_index j) keccak (w (StructDef.index _ _ j)) _ _).subset hindex
      rw [StructDef.field_key hshapes, ← a.key_add] at hcells
      have hfield := charted_field hshell j
      by_cases hij : j = i
      · subst hij
        exact ih hfield he hcells
      · obtain ⟨b, hkey, hunder, hb⟩ := hfield.cell hcells
        rw [hshapes] at hunder
        have hdepth := (a.depth_add (fieldAt (fun i => (fields i).shape) j).slot).trans
          (a.depth_add (fieldAt (fun i => (fields i).shape) i).slot).symm
        have hslots := Path.field_add_ne (fun i => (fields i).shape) a hij (.inr rest.packedBytes_eq)
        exact not_mem_of_under hspread (e := rest) (h := h.2 i) he hb hunder hdepth hslots hkey
  | @elem V i rest ih =>
    have hfits : V.Fits := h
    have hshape := (V.shell hfits).2
    rcases (StorageVec.cells_congr (V.elem_elemKind hfits) w keccak (a.key keccak)).subset hc with
      ⟨j, hj, hkey⟩ | ⟨j, hj, hkey⟩ | hc
    · -- the length
      rw [Nat.lt_one_iff.mp hj, Key.add_zero] at hkey
      exact not_mem_of_depth hspread he hshell.known (le_refl _) hkey.symm
    · -- a slot of the region
      exact not_mem_of_depth hspread (e := rest) (h := hfits) he (charted_region hshell hj) (le_refl _) hkey.symm
    · obtain ⟨⟨j, hlimit⟩, hj⟩ := Set.mem_iUnion.mp hc
      have helem := charted_elem (h := hfits) hshell hlimit
      have hkey : StorageVec.elemKey (V.shell hfits).1.shape keccak (a.key keccak) j =
          (Address.hashed [] a (StorageVec.slotNum V.shape j)).key keccak := by
        rw [hshape]
        rfl
      rw [StorageVec.elemPlace, hkey] at hj
      by_cases hij : j = i.1
      · subst hij
        exact ih helem he hj
      · obtain ⟨b, hkey', hunder, hb⟩ := helem.cell hj
        rw [hshape] at hunder
        have hslots := Path.elem_add_ne [] a rest.packedBytes_eq hij
        exact not_mem_of_under hspread (e := rest) (h := hfits) he hb hunder rfl hslots hkey'

end

end Entry

/-! ### Sites -/

namespace Site

variable {S V V' : Schema} {keccak : Hash} {P : Set (List UInt8)} {a b b' : Address}

/-- The place of a site of a schema at `a`. -/
abbrev placeAt (x : Site S) (h : S.Fits) (keccak : Hash) (u : (x.component h).Usage) (a : Address) :
    Place Cell UInt8 (x.component h).Val :=
  (x.component h).placeAt keccak u ((x.derive a).key keccak)

/-- The addresses of what a site keeps are known. -/
abbrev ChartedAt (x : Site S) (h : S.Fits) (keccak : Hash) (P : Set (List UInt8)) (u : (x.component h).Usage)
    (a : Address) : Prop :=
  (x.component h).ChartedAt keccak P u (x.derive a)

/-- What a site keeps has addresses in the slots of its schema, or behind them. -/
theorem cellAt_under {x : Site S} {h : S.Fits} {u : (x.component h).Usage} (hx : x.ChartedAt h keccak P u a)
    {cell : Cell} (hc : cell ∈ (x.placeAt h keccak u a).cells) :
    ∃ b, b.key keccak = cell.1 ∧ a.Under S.shape.slots b ∧ Known keccak P b := by
  cases x with
  | whole =>
    obtain ⟨b, hkey, hunder, hb⟩ := Component.ChartedAt.cellAt hx hc
    have hshape : ((.whole : Site S).component h).shape = S.shape := (S.shell h).2
    rw [hshape] at hunder
    exact ⟨b, hkey, hunder, hb⟩
  | entry e =>
    obtain ⟨b, hkey, hunder, hb, -⟩ := Entry.cellAt_under (h := h) hx hc
    exact ⟨b, hkey, hunder, hb⟩

variable (hspread : Spread keccak span P)

include hspread

/-- Sites of schemas whose slots do not meet. -/
theorem apart_of_slots {x : Site V} {y : Site V'} {h : V.Fits} {h' : V'.Fits} {u : (x.component h).Usage}
    {u' : (y.component h').Usage} (hx : x.ChartedAt h keccak P u b) (hy : y.ChartedAt h' keccak P u' b')
    (hdepth : b.depth = b'.depth)
    (hslots : ∀ i < V.shape.slots, ∀ j < V'.shape.slots, b.add i ≠ b'.add j) :
    Disjoint (x.placeAt h keccak u b).cells (y.placeAt h' keccak u' b').cells := by
  rw [Set.disjoint_left]
  intro cell hc hc'
  obtain ⟨β, hkey, hunder, hβ⟩ := cellAt_under hx hc
  obtain ⟨β', hkey', hunder', hβ'⟩ := cellAt_under hy hc'
  rw [← hβ.eq hspread hβ' (hkey.trans hkey'.symm)] at hunder'
  exact hunder.disjoint hdepth hslots hunder'

/-- Sites behind entries of different keys of one mapping. -/
theorem apart_of_keys {K : KeyType} {k k' : K.Val} (hk : k ≠ k') {x y : Site V} {h : V.Fits}
    {u : (x.component h).Usage} {u' : (y.component h).Usage} (hx : x.ChartedAt h keccak P u (a.chain (K.images k)))
    (hy : y.ChartedAt h keccak P u' (a.chain (K.images k'))) :
    Disjoint (x.placeAt h keccak u (a.chain (K.images k))).cells
      (y.placeAt h keccak u' (a.chain (K.images k'))).cells := by
  have himages : K.images k ≠ K.images k' := fun heq => hk (KeyType.images_injective heq)
  have hlen := K.length_images k k'
  have hdepth : (a.chain (K.images k)).depth = (a.chain (K.images k')).depth := by
    rw [Address.depth_chain, Address.depth_chain, hlen]
  exact apart_of_slots hspread hx hy hdepth fun i _ j _ => Address.chain_add_ne himages hlen i j

/-- The schema itself and one of its entries. -/
theorem whole_apart {h : S.Fits} {e : Entry S} {w : ((.whole : Site S).component h).Usage} {u : (e.component h).Usage}
    (hx : (.whole : Site S).ChartedAt h keccak P w a) (he : (.entry e : Site S).ChartedAt h keccak P u a) :
    Disjoint ((.whole : Site S).placeAt h keccak w a).cells ((.entry e : Site S).placeAt h keccak u a).cells := by
  rw [Set.disjoint_left]
  rintro cell (hc | hc)
  · have hkey : cell.1 = a.key keccak := hc
    exact Entry.not_mem_of_depth hspread (h := h) he (Charted.known hx) (le_refl _) hkey.symm
  · exact Entry.shell_apart hspread (h := h) hx he hc

end Site

/-- **Two entries keep nothing in the same cell.** -/
theorem Entry.entries_apart {S : Schema} {keccak : Hash} {P : Set (List UInt8)} (hspread : Spread keccak span P)
    {h : S.Fits} {a : Address} {p q : Entry S} {u : (p.component h).Usage} {u' : (q.component h).Usage} (hne : p ≠ q)
    (hp : p.ChartedAt h keccak P u a) (hq : q.ChartedAt h keccak P u' a) :
    Disjoint (p.placeAt h keccak u a).cells (q.placeAt h keccak u' a).cells := by
  induction p generalizing a with
  | @here K V k =>
    have hV : V.Fits := h
    have hx : (.whole : Site V).ChartedAt hV keccak P u (a.chain (K.images k)) := hp
    cases q with
    | here k' =>
      have hy : (.whole : Site V).ChartedAt hV keccak P u' (a.chain (K.images k')) := hq
      have hk : k ≠ k' := fun heq => hne (congrArg here heq)
      have hapart := Site.apart_of_keys hspread hk hx hy
      exact hapart
    | under k' rest' =>
      have hy : (.entry rest' : Site V).ChartedAt hV keccak P u' (a.chain (K.images k')) := hq
      by_cases hk : k = k'
      · subst hk
        exact Site.whole_apart hspread (h := hV) hx hy
      · have hapart := Site.apart_of_keys hspread hk hx hy
        exact hapart
  | @under K V k rest ih =>
    have hV : V.Fits := h
    have hx : (.entry rest : Site V).ChartedAt hV keccak P u (a.chain (K.images k)) := hp
    cases q with
    | here k' =>
      have hy : (.whole : Site V).ChartedAt hV keccak P u' (a.chain (K.images k')) := hq
      by_cases hk : k = k'
      · subst hk
        exact (Site.whole_apart hspread (h := hV) hy hx).symm
      · have hapart := Site.apart_of_keys hspread hk hx hy
        exact hapart
    | under k' rest' =>
      have hy : (.entry rest' : Site V).ChartedAt hV keccak P u' (a.chain (K.images k')) := hq
      by_cases hk : k = k'
      · subst hk
        exact ih (h := hV) (fun heq => hne (congrArg (under k) heq)) hx hy
      · have hapart := Site.apart_of_keys hspread hk hx hy
        exact hapart
  | @field n fields i rest ih =>
    cases q with
    | field i' rest' =>
      by_cases hi : i = i'
      · subst hi
        exact ih (h := h.2 i) (fun heq => hne (congrArg (field i) heq)) hp hq
      · have hdepth := (a.depth_add (fieldAt (fun i => (fields i).shape) i).slot).trans
          (a.depth_add (fieldAt (fun i => (fields i).shape) i').slot).symm
        have hx : (.entry rest : Site (fields i)).ChartedAt (h.2 i) keccak P u _ := hp
        have hy : (.entry rest' : Site (fields i')).ChartedAt (h.2 i') keccak P u' _ := hq
        have hslots := Path.field_add_ne (fun i => (fields i).shape) a hi (.inl rest.packedBytes_eq)
        have hapart := Site.apart_of_slots hspread hx hy hdepth hslots
        exact hapart
  | @elem V i rest ih =>
    cases q with
    | elem i' rest' =>
      by_cases hi : i = i'
      · subst hi
        exact ih (h := h) (fun heq => hne (congrArg (elem i) heq)) hp hq
      · have hx : (.entry rest : Site V).ChartedAt h keccak P u _ := hp
        have hy : (.entry rest' : Site V).ChartedAt h keccak P u' _ := hq
        have hslots := Path.elem_add_ne [] a rest.packedBytes_eq fun heq => hi (Fin.ext heq)
        have hapart := Site.apart_of_slots hspread hx hy rfl hslots
        exact hapart

/-- **Two sites keep nothing in the same cell.** -/
theorem Site.sites_apart {S : Schema} {keccak : Hash} {P : Set (List UInt8)} (hspread : Spread keccak span P)
    {h : S.Fits} {a : Address} {x y : Site S} {u : (x.component h).Usage} {u' : (y.component h).Usage} (hne : x ≠ y)
    (hx : x.ChartedAt h keccak P u a) (hy : y.ChartedAt h keccak P u' a) :
    Disjoint (x.placeAt h keccak u a).cells (y.placeAt h keccak u' a).cells := by
  cases x with
  | whole =>
    cases y with
    | whole => exact absurd rfl hne
    | entry q => exact whole_apart hspread hx hy
  | entry p =>
    cases y with
    | whole => exact (whole_apart hspread hy hx).symm
    | entry q => exact Entry.entries_apart hspread (h := h) (fun heq => hne (congrArg Site.entry heq)) hx hy

end PvmContract.Storage
