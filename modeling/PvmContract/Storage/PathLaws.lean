import PvmContract.Storage.Paths
import PvmContract.Storage.Component

/-!
# Access paths do not meet

The induction that says that different paths of one schema lead to different places:
by address, with no hash in it (`derive_apart`), and with it, for keys that come from a
spread hash, by cell (`addresses_disjoint`).
-/

namespace PvmContract.Storage

open PvmContract.Data

/-! ### Fields -/

section

variable {n : ℕ} {shapes : Fin (n + 1) → Shape}

theorem get_ofFn_cast (i : Fin (n + 1)) : (List.ofFn shapes).get (i.cast List.length_ofFn.symm) = shapes i := by
  rw [List.get_eq_getElem, List.getElem_ofFn]
  rfl

theorem fieldAt_slots_le (i : Fin (n + 1)) : (fieldAt shapes i).slot + (shapes i).slots ≤ (Shape.row shapes).slots := by
  have h := placed_slots_le id (i.cast (List.length_ofFn (f := shapes)).symm)
  rw [get_ofFn_cast, rowSlots, List.map_id] at h
  exact h

/-- Two fields are in different slots, or side by side in one. -/
theorem fieldAt_apart {i j : Fin (n + 1)} (hne : i ≠ j) :
    (fieldAt shapes i).slot + (shapes i).slots ≤ (fieldAt shapes j).slot ∨
      (fieldAt shapes j).slot + (shapes j).slots ≤ (fieldAt shapes i).slot ∨
      (fieldAt shapes i).slot = (fieldAt shapes j).slot ∧ (shapes i).packedBytes < 32 ∧ (shapes j).packedBytes < 32 ∧
        ((fieldAt shapes j).offset + (shapes j).packedBytes ≤ (fieldAt shapes i).offset ∨
          (fieldAt shapes i).offset + (shapes i).packedBytes ≤ (fieldAt shapes j).offset) := by
  have hcast : i.cast (List.length_ofFn (f := shapes)).symm ≠ j.cast (List.length_ofFn (f := shapes)).symm :=
    fun h =>
    hne (Fin.ext (by simpa using congrArg Fin.val h))
  have happart := placed_apart id hcast
  have hi := placed_within id (i.cast (List.length_ofFn (f := shapes)).symm)
  have hj := placed_within id (j.cast (List.length_ofFn (f := shapes)).symm)
  rw [get_ofFn_cast, get_ofFn_cast] at happart
  rw [get_ofFn_cast] at hi hj
  have hposi := (shapes i).packedBytes_pos
  have hposj := (shapes j).packedBytes_pos
  change (fieldAt shapes i).offset + (shapes i).packedBytes ≤ 32 at hi
  change (fieldAt shapes j).offset + (shapes j).packedBytes ≤ 32 at hj
  rcases happart with h | h | ⟨hslot, -, -, hside⟩
  · exact .inl h
  · exact .inr (.inl h)
  · change (fieldAt shapes j).offset + (shapes j).packedBytes ≤ (fieldAt shapes i).offset ∨
      (fieldAt shapes i).offset + (shapes i).packedBytes ≤ (fieldAt shapes j).offset at hside
    exact .inr (.inr ⟨hslot, by omega, by omega, hside⟩)

end

namespace Path

variable {S : Schema} {a : Address} {offset : ℕ}

/-! ### What a path leads to -/

/-- A part of storage that belongs to a value of the given shape: it belongs to its slots, and if the value
is packed, it is its window. -/
structure Reaches (shape : Shape) (a : Address) (offset : ℕ) (r : Location Address) : Prop where
  under : a.Under shape.slots r.key
  window : shape.packedBytes < 32 → r = ⟨a, offset, shape.packedBytes⟩

theorem under_self (S : Schema) (a : Address) : a.Under S.shape.slots a := by
  have h : a.Under S.shape.slots (a.add 0) := .here S.shape.slots_pos
  rwa [Address.add_zero] at h

theorem slotIndexFor_toOption {shape : Shape} {i index : ℕ}
    (h : (StorageVec.slotIndexFor shape i).toOption = some index) : index = StorageVec.slotNum shape i := by
  rw [StorageVec.slotIndexFor] at h
  rw [StorageVec.slotNum]
  split_ifs at h with hnarrow hmany hfit
  · rw [if_pos hnarrow]
    exact (Option.some.inj h).symm
  · rw [if_neg hnarrow]
    exact (Option.some.inj h).symm
  · cases h
  · have hone : shape.slots = 1 := le_antisymm (Nat.le_of_not_lt hmany) shape.slots_pos
    rw [if_neg hnarrow, hone, Nat.mul_one]
    exact (Option.some.inj h).symm

/-- The step of a path into an element. -/
theorem derive_elem {elem : Schema} {i : Fin (2 ^ 64)} {rest : Path elem} {r : Location Address}
    (h : (Path.elem i rest).derive a offset = some r) :
    rest.derive (.hashed [] a (StorageVec.slotNum elem.shape i)) (StorageVec.elementOffset elem.shape i) = some r := by
  rw [derive] at h
  obtain ⟨index, hindex, hrest⟩ := Option.bind_eq_some_iff.mp h
  rw [← slotIndexFor_toOption hindex]
  exact hrest

/-- The step of a path into a field. -/
theorem derive_field {n : ℕ} {fields : Fin (n + 1) → Schema} {i : Fin (n + 1)} {rest : Path (fields i)}
    {r : Location Address} (h : (Path.field i rest).derive a offset = some r) :
    rest.derive (a.add (fieldAt (fun i => (fields i).shape) i).slot) (fieldAt (fun i => (fields i).shape) i).offset =
      some r := h

/-- The step of a path into an entry. -/
theorem derive_entry {K : KeyType} {V : Schema} {k : K.Val} {rest : Path V} {r : Location Address}
    (h : (Path.entry k rest).derive a offset = some r) :
    rest.derive (a.chain (K.images k)) (entryOffset V.shape) = some r := h

theorem derive_reaches {p : Path S} {r : Location Address} (h : p.derive a offset = some r) :
    Reaches S.shape a offset r := by
  induction p generalizing a offset with
  | @window p narrow =>
    obtain rfl := Option.some.inj h
    exact ⟨under_self (.leaf (.packed p narrow)) a, fun _ => rfl⟩
  | word j =>
    obtain rfl := Option.some.inj h
    exact ⟨.here j.2, fun narrow => absurd narrow (lt_irrefl 32)⟩
  | @chunk c header mem j =>
    obtain rfl := Option.some.inj h
    exact ⟨.behind (.here (c.headers_lt _ mem)), fun narrow => absurd narrow (lt_irrefl 32)⟩
  | @length elem =>
    obtain rfl := Option.some.inj h
    exact ⟨under_self (.vec elem) a, fun narrow => absurd narrow (lt_irrefl 32)⟩
  | @elem elem i rest ih =>
    exact ⟨.of_hashed (under_self (.vec elem) a) (ih (derive_elem h)).under, fun narrow => absurd narrow (lt_irrefl 32)⟩
  | @field n fields i rest ih =>
    exact ⟨.inside (fieldAt_slots_le i) (ih (derive_field h)).under, fun narrow => absurd narrow (lt_irrefl 32)⟩
  | @entry K V k rest ih =>
    refine ⟨?_, fun narrow => absurd narrow (lt_irrefl 32)⟩
    have hunder := (ih (derive_entry h)).under
    obtain ⟨images, front, himages⟩ := List.eq_nil_or_concat (K.images k) |>.resolve_left (K.images_ne_nil k)
    rw [himages, List.concat_eq_append, Address.chain_snoc] at hunder
    exact .of_hashed (Address.under_chain (under_self (.mapping K V) a)) hunder

/-! ### Paths part -/

/-- Parts of storage that do not meet, by address. -/
def Apart (r r' : Location Address) : Prop :=
  r.key ≠ r'.key ∨ r.offset + r.len ≤ r'.offset ∨ r'.offset + r'.len ≤ r.offset

/-- What belongs to different stretches of slots does not meet. -/
theorem Reaches.apart {shape shape' : Shape} {a' : Address} {offset' : ℕ} {r r' : Location Address}
    (h : Reaches shape a offset r) (h' : Reaches shape' a' offset' r') (hdepth : a.depth = a'.depth)
    (hslots : ∀ i < shape.slots, ∀ j < shape'.slots, a.add i ≠ a'.add j) : Apart r r' := by
  left
  intro hkey
  exact h.under.disjoint hdepth hslots (hkey ▸ h'.under)

/-- Windows that are side by side do not meet. -/
theorem Reaches.apart_of_windows {shape shape' : Shape} {a' : Address} {offset' : ℕ} {r r' : Location Address}
    (h : Reaches shape a offset r) (h' : Reaches shape' a' offset' r') (narrow : shape.packedBytes < 32)
    (narrow' : shape'.packedBytes < 32)
    (hside : offset + shape.packedBytes ≤ offset' ∨ offset' + shape'.packedBytes ≤ offset) : Apart r r' := by
  rw [h.window narrow, h'.window narrow']
  exact .inr hside

theorem add_ne {m m' s s' : ℕ} (h : m + s ≤ m' ∨ m' + s' ≤ m) : ∀ i < s, ∀ j < s', (a.add m).add i ≠ (a.add m').add j := by
  intro i hi j hj heq
  rw [Address.add_add, Address.add_add] at heq
  have hindex := Address.add_inj heq
  omega

theorem hashed_add_ne {front : List UInt8} {m m' s s' : ℕ} (h : m + s ≤ m' ∨ m' + s' ≤ m) :
    ∀ i < s, ∀ j < s', (Address.hashed front a m).add i ≠ (Address.hashed front a m').add j := by
  intro i hi j hj heq
  have hindex := congrArg Address.index heq
  rw [Address.index_add, Address.index_add, Address.index, Address.index] at hindex
  omega

/-- Two fields, one of which is not packed, have no slot in common. -/
theorem field_add_ne {n : ℕ} (shapes : Fin (n + 1) → Shape) (a : Address) {i j : Fin (n + 1)} (hne : i ≠ j)
    (hfull : (shapes i).packedBytes = 32 ∨ (shapes j).packedBytes = 32) :
    ∀ m < (shapes i).slots, ∀ m' < (shapes j).slots,
      (a.add (fieldAt shapes i).slot).add m ≠ (a.add (fieldAt shapes j).slot).add m' := by
  rcases fieldAt_apart hne with hslots | hslots | ⟨-, narrow, narrow', -⟩
  · exact add_ne (.inl hslots)
  · exact add_ne (.inr hslots)
  · omega

/-- Two elements that are not packed have no slot in common. -/
theorem elem_add_ne (front : List UInt8) (a : Address) {E : Shape} (hfull : E.packedBytes = 32) {i j : ℕ} (hne : i ≠ j) :
    ∀ m < E.slots, ∀ m' < E.slots, (Address.hashed front a (StorageVec.slotNum E i)).add m ≠
      (Address.hashed front a (StorageVec.slotNum E j)).add m' := by
  rcases StorageVec.elements_apart E hne with hslots | hslots | ⟨narrow, -⟩
  · exact hashed_add_ne (.inl hslots)
  · exact hashed_add_ne (.inr hslots)
  · omega

/-- A chunk is not a slot of the value. -/
theorem chunk_ne_slot {front : List UInt8} {m n j : ℕ} : Address.hashed front (a.add m) j ≠ a.add n := by
  intro h
  have hdepth := congrArg Address.depth h
  rw [Address.depth, Address.depth_add, Address.depth_add] at hdepth
  omega

/-- Nothing in an element is the root of the vector. -/
theorem elem_ne_root {elem : Schema} {i : Fin (2 ^ 64)} {rest : Path elem} {r : Location Address}
    (h : (Path.elem i rest).derive a offset = some r) : r.key ≠ a := by
  have hdepth := (derive_reaches (derive_elem h)).under.depth_le
  rintro rfl
  rw [Address.depth] at hdepth
  omega

/-- **Different paths of one schema lead to places that do not meet.** -/
theorem derive_apart {p q : Path S} (hne : p ≠ q) {r r' : Location Address} (hp : p.derive a offset = some r)
    (hq : q.derive a offset = some r') : Apart r r' := by
  induction p generalizing a offset with
  | window =>
    cases q with
    | window => exact absurd rfl hne
  | word j =>
    obtain rfl := Option.some.inj hp
    cases q with
    | word j' =>
      obtain rfl := Option.some.inj hq
      refine .inl fun hkey => hne ?_
      rw [Fin.ext (Address.add_inj hkey)]
    | chunk header' mem' j' =>
      obtain rfl := Option.some.inj hq
      exact .inl fun hkey => chunk_ne_slot hkey.symm
  | chunk header mem j =>
    obtain rfl := Option.some.inj hp
    cases q with
    | word j' =>
      obtain rfl := Option.some.inj hq
      exact .inl chunk_ne_slot
    | chunk header' mem' j' =>
      obtain rfl := Option.some.inj hq
      refine .inl fun hkey => hne ?_
      obtain ⟨-, hroot, hindex⟩ := Address.hashed.inj hkey
      obtain rfl := Address.add_inj hroot
      rw [Fin.ext hindex]
  | length =>
    obtain rfl := Option.some.inj hp
    cases q with
    | length => exact absurd rfl hne
    | elem i' rest' => exact .inl fun hkey => elem_ne_root hq hkey.symm
  | elem i rest ih =>
    cases q with
    | length =>
      obtain rfl := Option.some.inj hq
      exact .inl (elem_ne_root hp)
    | elem i' rest' =>
      have hp := derive_elem hp
      have hq := derive_elem hq
      by_cases hi : i = i'
      · subst hi
        exact ih (fun heq => hne (congrArg _ heq)) hp hq
      · have hreach := derive_reaches hp
        have hreach' := derive_reaches hq
        rcases StorageVec.elements_apart _ fun h => hi (Fin.ext h) with hslots | hslots | ⟨narrow, hside⟩
        · exact hreach.apart hreach' rfl (hashed_add_ne (.inl hslots))
        · exact hreach.apart hreach' rfl (hashed_add_ne (.inr hslots))
        · exact hreach.apart_of_windows hreach' narrow narrow hside
  | field i rest ih =>
    cases q with
    | field i' rest' =>
      by_cases hi : i = i'
      · subst hi
        exact ih (fun heq => hne (congrArg _ heq)) hp hq
      · have hreach := derive_reaches (derive_field hp)
        have hreach' := derive_reaches (derive_field hq)
        have hdepth := fun m m' => (a.depth_add m).trans (a.depth_add m').symm
        rcases fieldAt_apart hi with hslots | hslots | ⟨-, narrow, narrow', hside⟩
        · exact hreach.apart hreach' (hdepth _ _) (add_ne (.inl hslots))
        · exact hreach.apart hreach' (hdepth _ _) (add_ne (.inr hslots))
        · exact hreach.apart_of_windows hreach' narrow narrow' hside.symm
  | @entry K V k rest ih =>
    cases q with
    | entry k' rest' =>
      by_cases hk : k = k'
      · subst hk
        exact ih (fun heq => hne (congrArg _ heq)) hp hq
      · have hlen := K.length_images k k'
        have himages : K.images k ≠ K.images k' := fun h => hk (KeyType.images_injective h)
        have hdepth : (a.chain (K.images k)).depth = (a.chain (K.images k')).depth := by
          rw [Address.depth_chain, Address.depth_chain, hlen]
        have hreach := derive_reaches (derive_entry hp)
        have hreach' := derive_reaches (derive_entry hq)
        exact hreach.apart hreach' hdepth fun i _ j _ => Address.chain_add_ne himages hlen i j

/-! ### Within reach -/

theorem span_eq : span = 2 ^ 64 + 2 ^ 64 := by decide

theorem slots_lt {S : Schema} (h : S.Fits) : S.shape.slots < 2 ^ 64 := by
  cases S with
  | leaf T => exact T.slots_lt
  | vec elem => exact Nat.one_lt_two_pow (by decide)
  | struct n fields => exact h.1
  | mapping K V => exact Nat.one_lt_two_pow (by decide)

theorem within_chain {fronts : List (List UInt8)} (h : a.Within span) (hne : fronts ≠ []) :
    (a.chain fronts).Within span ∧ (a.chain fronts).index = 0 := by
  induction fronts using List.reverseRecOn with
  | nil => exact absurd rfl hne
  | append_singleton fronts front ih =>
    rw [Address.chain_snoc]
    refine ⟨⟨by decide, ?_⟩, rfl⟩
    by_cases hnil : fronts = []
    · subst hnil
      exact h
    · exact (ih hnil).1

/-- An element that is found has a slot number of 64 bits. -/
theorem slotNum_lt_of_derive {elem : Schema} {i : Fin (2 ^ 64)} {rest : Path elem} {r : Location Address}
    (h : (Path.elem i rest).derive a offset = some r) : StorageVec.slotNum elem.shape i < 2 ^ 64 := by
  by_cases hlimit : i.1 * elem.shape.slots < 2 ^ 64
  · exact StorageVec.slotNum_lt hlimit
  · rw [derive, StorageVec.slotIndexFor_overflow i.2 (Nat.le_of_not_lt hlimit)] at h
    cases h

/-- No number of slots is out of reach, if there is room for the value. -/
theorem derive_within (hfits : S.Fits) {p : Path S} (hroot : a.Within span) (hroom : a.index + S.shape.slots ≤ span)
    {r : Location Address} (h : p.derive a offset = some r) : r.key.Within span := by
  induction p generalizing a offset with
  | window =>
    obtain rfl := Option.some.inj h
    exact hroot
  | word j =>
    obtain rfl := Option.some.inj h
    exact hroot.add (lt_of_lt_of_le (Nat.add_lt_add_left j.2 _) hroom)
  | @chunk c header mem j =>
    obtain rfl := Option.some.inj h
    have hslot : header < c.storageSlots := c.headers_lt _ mem
    have hj := j.2
    exact ⟨lt_trans hj (by decide), hroot.add (lt_of_lt_of_le (Nat.add_lt_add_left hslot _) hroom)⟩
  | length =>
    obtain rfl := Option.some.inj h
    exact hroot
  | @elem elem i rest ih =>
    have hslots := slots_lt (S := elem) hfits
    have hspan := span_eq
    have hnum := slotNum_lt_of_derive h
    have hwithin : (Address.hashed [] a (StorageVec.slotNum elem.shape i)).Within span := ⟨by omega, hroot⟩
    refine ih hfits hwithin ?_ (derive_elem h)
    change StorageVec.slotNum elem.shape i + elem.shape.slots ≤ span
    omega
  | @field n fields i rest ih =>
    have hle : (fieldAt (fun i => (fields i).shape) i).slot + (fields i).shape.slots ≤
        (Shape.row fun i => (fields i).shape).slots := fieldAt_slots_le i
    have hpos := (fields i).shape.slots_pos
    change a.index + (Shape.row fun i => (fields i).shape).slots ≤ span at hroom
    refine ih (hfits.2 i) (hroot.add (by omega)) ?_ (derive_field h)
    rw [Address.index_add]
    omega
  | @entry K V k rest ih =>
    obtain ⟨hwithin, hindex⟩ := within_chain hroot (K.images_ne_nil k)
    have hslots := slots_lt (S := V) hfits
    refine ih hfits hwithin ?_ (derive_entry h)
    rw [hindex, Nat.zero_add]
    exact le_of_lt (lt_trans hslots (by decide))

end Path

/-! ### Tuples taken apart -/

namespace KeyType

theorem length_steps {K : KeyType} (k k' : K.Val) : (K.steps k).length = (K.steps k').length := by
  induction K with
  | single K => rfl
  | tuple n hlow hhigh keys ih =>
    rw [steps, steps, List.length_flatMap, List.length_flatMap]
    exact congrArg List.sum (List.map_congr_left fun i _ => ih i (k i) (k' i))

theorem steps_injective {K : KeyType} {k k' : K.Val} (h : K.steps k = K.steps k') : k = k' := by
  induction K with
  | single K =>
    obtain ⟨-, hk⟩ := Step.key.inj (List.singleton_inj.mp h)
    exact eq_of_heq hk
  | tuple n hlow hhigh keys ih =>
    funext i
    exact ih i (flatMap_inj (fun i _ => length_steps (k i) (k' i)) h i (List.mem_finRange i))

end KeyType

/-- A nested mapping is a handle. -/
theorem KeyType.shape_nest (K : KeyType) (V : Schema) : (K.nest V).shape = .handle := by
  induction K generalizing V with
  | single K => rfl
  | tuple n hlow hhigh keys ih =>
    rw [nest]
    cases hl : List.finRange n with
    | nil =>
      have hlen := congrArg List.length hl
      rw [List.length_finRange, List.length_nil] at hlen
      omega
    | cons i l => exact ih i _

/-- Taking tuples apart moves nothing. -/
theorem Schema.shape_nested (S : Schema) : S.nested.shape = S.shape := by
  induction S with
  | leaf T => rfl
  | vec elem ih => rfl
  | struct n fields ih => exact congrArg Shape.row (funext ih)
  | mapping K V ih => exact K.shape_nest V.nested

theorem KeyType.fits_nest (K : KeyType) {V : Schema} (h : V.Fits) : (K.nest V).Fits := by
  induction K generalizing V with
  | single K => exact h
  | tuple n hlow hhigh keys ih =>
    rw [nest]
    induction List.finRange n with
    | nil => exact h
    | cons i l ihl => exact ih i ihl

theorem Schema.fits_nested {S : Schema} (h : S.Fits) : S.nested.Fits := by
  induction S with
  | leaf T => trivial
  | vec elem ih => exact ih h
  | struct n fields ih =>
    refine ⟨?_, fun i => ih i (h.2 i)⟩
    rw [show (struct n fun i => (fields i).nested).shape = (struct n fields).shape from (struct n fields).shape_nested]
    exact h.1
  | mapping K V ih => exact K.fits_nest (ih h)

namespace Path

/-- A path is known from its steps. -/
theorem steps_injective {S : Schema} {p q : Path S} (h : p.steps = q.steps) : p = q := by
  induction p with
  | window =>
    cases q with
    | window => rfl
  | word j =>
    cases q with
    | word j' => rw [Fin.ext (Step.word.inj (List.singleton_inj.mp h))]
    | chunk header' mem' j' => cases List.singleton_inj.mp h
  | chunk header mem j =>
    cases q with
    | word j' => cases List.singleton_inj.mp h
    | chunk header' mem' j' =>
      obtain ⟨rfl, hj⟩ := Step.chunk.inj (List.singleton_inj.mp h)
      rw [Fin.ext hj]
  | length =>
    cases q with
    | length => rfl
    | elem i' rest' => cases (List.cons.inj h).1
  | elem i rest ih =>
    cases q with
    | length => cases (List.cons.inj h).1
    | elem i' rest' =>
      obtain ⟨hi, hrest⟩ := List.cons.inj h
      rw [Fin.ext (Step.elem.inj hi), ih hrest]
  | field i rest ih =>
    cases q with
    | field i' rest' =>
      obtain ⟨hi, hrest⟩ := List.cons.inj h
      obtain rfl := Fin.ext (Step.field.inj hi)
      rw [ih hrest]
  | @entry K V k rest ih =>
    cases q with
    | entry k' rest' =>
      obtain ⟨hk, hrest⟩ := List.append_inj h (KeyType.length_steps k k')
      rw [KeyType.steps_injective hk, ih hrest]

/-- A path that leads to the same place with the same steps. -/
structure Mirrors {S T : Schema} (p : Path S) (q : Path T) : Prop where
  steps : p.steps = q.steps
  derive : ∀ a offset, p.derive a offset = q.derive a offset

/-- A value that is not packed is found without its offset. -/
theorem derive_offset {S : Schema} (p : Path S) (hfull : S.shape.packedBytes = 32) (a : Address) (offset offset' : ℕ) :
    p.derive a offset = p.derive a offset' := by
  cases p with
  | @window p narrow => exact absurd hfull (ne_of_lt narrow)
  | word j => rfl
  | chunk header mem j => rfl
  | length => rfl
  | elem i rest => rfl
  | field i rest => rfl
  | entry k rest => rfl

/-- The path through nested mappings. -/
theorem exists_nest (K : KeyType) (k : K.Val) {V : Schema} (rest : Path V) :
    ∃ p : Path (K.nest V), p.steps = K.steps k ++ rest.steps ∧
      ∀ a offset, p.derive a offset = rest.derive (a.chain (K.images k)) (entryOffset V.shape) := by
  induction K generalizing V with
  | single K => exact ⟨(Path.entry k rest : Path (.mapping (.single K) V)), rfl, fun _ _ => rfl⟩
  | tuple n hlow hhigh keys ih =>
    have hlist : ∀ l : List (Fin n), ∃ p : Path (l.foldr (fun i V => (keys i).nest V) V),
        p.steps = l.flatMap (fun i => (keys i).steps (k i)) ++ rest.steps ∧
          ∀ a, p.derive a (entryOffset (l.foldr (fun i V => (keys i).nest V) V).shape) =
            rest.derive (a.chain (l.flatMap fun i => (keys i).images (k i))) (entryOffset V.shape) := by
      intro l
      induction l with
      | nil => exact ⟨rest, rfl, fun _ => rfl⟩
      | cons i l ihl =>
        obtain ⟨p, hsteps, hderive⟩ := ihl
        obtain ⟨q, hqsteps, hqderive⟩ := ih i (k i) p
        refine ⟨q, ?_, fun a => ?_⟩
        · rw [List.flatMap_cons, List.append_assoc, ← hsteps]
          exact hqsteps
        · rw [List.flatMap_cons, Address.chain_append, ← hderive]
          exact hqderive a _
    obtain ⟨p, hsteps, hderive⟩ := hlist (List.finRange n)
    have hfull : ((KeyType.tuple n hlow hhigh keys).nest V).shape.packedBytes = 32 := by
      rw [KeyType.shape_nest]
      rfl
    exact ⟨p, hsteps, fun a offset => (derive_offset p hfull a offset _).trans (hderive a)⟩

/-- **The path through a schema with its tuples taken apart.** -/
theorem exists_nested {S : Schema} (p : Path S) : ∃ q : Path S.nested, q.Mirrors p := by
  induction p with
  | window => exact ⟨.window, rfl, fun _ _ => rfl⟩
  | word j => exact ⟨.word j, rfl, fun _ _ => rfl⟩
  | chunk header mem j => exact ⟨.chunk header mem j, rfl, fun _ _ => rfl⟩
  | length => exact ⟨.length, rfl, fun _ _ => rfl⟩
  | @elem elem i rest ih =>
    obtain ⟨q, hsteps, hderive⟩ := ih
    have helem : ∀ a offset, (Path.elem i q).derive a offset = (Path.elem i rest).derive a offset := by
      intro a offset
      simp only [derive, elem.shape_nested, hderive]
    exact ⟨.elem i q, congrArg (Step.elem i.1 :: ·) hsteps, helem⟩
  | @field n fields i rest ih =>
    obtain ⟨q, hsteps, hderive⟩ := ih
    have hshapes : (fun i => (fields i).nested.shape) = fun i => (fields i).shape := funext fun i => (fields i).shape_nested
    have hfield : ∀ a offset, (Path.field i q : Path (.struct n fun i => (fields i).nested)).derive a offset =
        (Path.field i rest).derive a offset := by
      intro a offset
      simp only [derive, hshapes, hderive]
    exact ⟨.field i q, congrArg (Step.field i.1 :: ·) hsteps, hfield⟩
  | @entry K V k rest ih =>
    obtain ⟨q, hsteps, hderive⟩ := ih
    obtain ⟨p, hp, hpderive⟩ := exists_nest K k q
    have hentry : ∀ a offset, p.derive a offset = (Path.entry k rest).derive a offset := by
      intro a offset
      rw [hpderive, hderive, V.shape_nested]
      rfl
    exact ⟨p, hp.trans (congrArg (K.steps k ++ ·) hsteps), hentry⟩

end Path

/-! ### Keys -/

/-- `StorageKey::from_slot`. -/
def fromSlot (slot : Fin (2 ^ 64)) : Key := ⟨List.replicate 24 0 ++ beBytes 8 slot, by
  rw [List.length_append, List.length_replicate, length_beBytes]⟩

theorem fromSlot_eq (keccak : Hash) (slot : Fin (2 ^ 64)) : fromSlot slot = (Address.slot slot).key keccak := by
  apply Subtype.ext
  exact (beBytes_add_of_lt (j := 24) (k := 8) (lt_of_lt_of_eq slot.2 (by norm_num))).symm

/-- What is hashed on the way, from a root slot. -/
def Path.preimages {S : Schema} (keccak : Hash) (p : Path S) (root : Fin (2 ^ 64)) (offset : ℕ) : Set (List UInt8) :=
  ((p.derive (.slot root) offset).map fun r => r.key.preimages keccak).getD ∅

/-- Locations of addresses that do not meet have no cell in common. -/
theorem cells_disjoint {keccak : Hash} {P : Set (List UInt8)} (hspread : Spread keccak span P) {r r' : Location Address}
    (hr : r.key.Within span) (hr' : r'.key.Within span) (hP : r.key.preimages keccak ⊆ P)
    (hP' : r'.key.preimages keccak ⊆ P) (h : Path.Apart r r') :
    Disjoint (Location.cells ⟨r.key.key keccak, r.offset, r.len⟩)
      (Location.cells ⟨r'.key.key keccak, r'.offset, r'.len⟩) := by
  rw [Set.disjoint_left]
  rintro ⟨k, q⟩ ⟨hkey, hlow, hhigh⟩ ⟨hkey', hlow', hhigh'⟩
  dsimp only at hkey hlow hhigh hkey' hlow' hhigh'
  rcases h with hne | hside
  · exact hne (Address.key_injective hspread (by decide) hr hr' hP hP' (hkey.symm.trans hkey'))
  · omega

/-- What a path that is found hashes is what its key is derived from. -/
theorem Path.preimages_eq {S : Schema} {keccak : Hash} {p : Path S} {root : Fin (2 ^ 64)} {offset : ℕ}
    {r : Location Address} (h : p.derive (.slot root) offset = some r) :
    p.preimages keccak root offset = r.key.preimages keccak := by
  rw [preimages, h]
  rfl

/-- No number of slots on a path from a root slot is out of reach. -/
theorem Path.root_within {S : Schema} (hfits : S.Fits) {p : Path S} {root : Fin (2 ^ 64)} {offset : ℕ}
    {r : Location Address} (h : p.derive (.slot root) offset = some r) : r.key.Within span := by
  have hspan := span_eq
  have hslots := slots_lt hfits
  have hroot := root.2
  refine derive_within hfits ?_ ?_ h
  · change root.1 < span
    omega
  · change root.1 + S.shape.slots ≤ span
    omega

/-- **Derived keys do not collide.** Take two paths from one root slot, in schemas that are the same with
their tuples taken apart. If the paths differ by a step, then no cell is kept for both; if they do not, then
they lead to the same place. And the slot of a key is solc's: from its single keys in order, each hashed in
front of the slot of the one before. -/
theorem addresses_disjoint {S T : Schema} (hfits : S.Fits) (hnested : S.nested = T.nested) (root : Fin (2 ^ 64))
    (offset : ℕ) {keccak : Hash} (p : Path S) (q : Path T)
    (hspread : Spread keccak span (p.preimages keccak root offset ∪ q.preimages keccak root offset))
    {r r' : Location Key} (hr : p.locate keccak (fromSlot root) offset = some r)
    (hr' : q.locate keccak (fromSlot root) offset = some r') :
    (p.steps ≠ q.steps → Disjoint r.cells r'.cells) ∧ (p.steps = q.steps → r = r') ∧
      ∀ (K : KeyType) (k : K.Val) (slot : Key),
        K.deriveSlot keccak k slot = some (KeyType.solcSlot keccak (K.images k) slot) := by
  rw [fromSlot_eq keccak root, Path.locate_eq] at hr hr'
  obtain ⟨s, hs, rfl⟩ := Option.map_eq_some_iff.mp hr
  obtain ⟨s', hs', rfl⟩ := Option.map_eq_some_iff.mp hr'
  rw [Path.preimages_eq hs, Path.preimages_eq hs'] at hspread
  obtain ⟨p', hp⟩ := p.exists_nested
  obtain ⟨q', hq⟩ : ∃ q' : Path S.nested, q'.Mirrors q := by
    rw [hnested]
    exact q.exists_nested
  have hfits' := Schema.fits_nested hfits
  have hsp : p'.derive (.slot root) offset = some s := (hp.derive _ _).trans hs
  have hsq : q'.derive (.slot root) offset = some s' := (hq.derive _ _).trans hs'
  refine ⟨fun hne => ?_, fun heq => ?_, fun K k slot => K.deriveSlot_eq keccak k slot⟩
  · have hpaths : p' ≠ q' := fun h => hne (hp.steps.symm.trans ((congrArg Path.steps h).trans hq.steps))
    exact cells_disjoint hspread (Path.root_within hfits' hsp) (Path.root_within hfits' hsq)
      Set.subset_union_left Set.subset_union_right (Path.derive_apart hpaths hsp hsq)
  · obtain rfl := Path.steps_injective (hp.steps.trans (heq.trans hq.steps.symm))
    rw [Option.some.inj (hsp.symm.trans hsq)]

/-! ### Two entries of one mapping -/

/-- The word of the number 5, in front of slot 0. -/
def outerPreimage : List UInt8 := beBytes 32 5 ++ beBytes 32 0

def outerHash : ℕ := 0x2b232c97452f0950c94e2539fdc7e69d21166113cf7a9bcb99b220a3fe5d720a

/-- A letter, in front of the slot of the number 5. -/
def innerPreimage (letter : UInt8) : List UInt8 := letter :: beBytes 32 outerHash

/-- The hashes of the three preimages. -/
def entryHashes (preimage : List UInt8) : Key :=
  if preimage = outerPreimage then .ofNum outerHash
  else if preimage = innerPreimage 97 then
    .ofNum 0x5c13276b968864e6a5e3452ab607db2bc029121614daff0972dd35aa12c0f516
  else .ofNum 0x9b48b70bb2f27baaec26ca7e87683c29407f5b9f979eaf0e1a97fa4e5261191e

theorem entryHashes_spread :
    Spread entryHashes span ({innerPreimage 97, outerPreimage} ∪ {innerPreimage 98, outerPreimage}) := by
  have houter : (entryHashes outerPreimage).num = outerHash := by
    rw [entryHashes, if_pos rfl]
    exact Key.num_ofNum (by decide)
  have ha : (entryHashes (innerPreimage 97)).num =
      0x5c13276b968864e6a5e3452ab607db2bc029121614daff0972dd35aa12c0f516 := by
    rw [entryHashes, if_neg (by decide), if_pos rfl]
    exact Key.num_ofNum (by decide)
  have hb : (entryHashes (innerPreimage 98)).num =
      0x9b48b70bb2f27baaec26ca7e87683c29407f5b9f979eaf0e1a97fa4e5261191e := by
    rw [entryHashes, if_neg (by decide), if_neg (by decide)]
    exact Key.num_ofNum (by decide)
  have hspan := Path.span_eq
  rw [outerHash] at houter
  apply Spread.of_nums
  · rintro x ((rfl | rfl) | (rfl | rfl))
    all_goals omega
  · rintro x ((rfl | rfl) | (rfl | rfl)) y ((rfl | rfl) | (rfl | rfl)) hne
    all_goals first | exact absurd rfl hne | omega

/-- `Mapping<u64, Mapping<String, u64>>`. -/
def nestedEntries : Schema :=
  .mapping (.single (.prim .u64)) (.mapping (.single .string) (.leaf (.packed Scalar.u64.packable (by decide))))

/-- The two keys of the mapping, as a tuple. -/
def pairKey : KeyType := .tuple 2 (le_refl 2) (by decide) fun
  | 0 => .single (.prim .u64)
  | 1 => .single .string

/-- `Mapping<(u64, String), u64>`. -/
def pairEntries : Schema := .mapping pairKey (.leaf (.packed Scalar.u64.packable (by decide)))

/-- The entry of 5 and "a", by a tuple. -/
def pairPath : Path pairEntries :=
  Path.entry (fun | 0 => (5#64 : BitVec 64) | 1 => ("a" : String) : pairKey.Val) .window

/-- The entry of 5 and "b", by two calls. -/
def nestedPath : Path nestedEntries :=
  Path.entry (5#64 : BitVec 64) (Path.entry ("b" : String) .window)

/-- Where an entry of 5 is. -/
def entryAddress (text : List UInt8) : Address :=
  .hashed text (.hashed (SingleKey.image (.prim .u64) (5#64 : BitVec 64)) (.slot 0) 0) 0

theorem entryAddress_preimages (letter : UInt8) :
    (entryAddress [letter]).preimages entryHashes = {innerPreimage letter, outerPreimage} := by
  have houter : SingleKey.image (.prim .u64) (5#64 : BitVec 64) ++ ((Address.slot 0).key entryHashes).1 =
      outerPreimage := rfl
  have hslot : (Address.hashed (SingleKey.image (.prim .u64) (5#64 : BitVec 64)) (.slot 0) 0).key entryHashes =
      .ofNum outerHash := by
    rw [Address.key, houter, Key.add_zero, entryHashes, if_pos rfl]
  rw [entryAddress, Address.preimages, Address.preimages, Address.preimages, hslot, houter, insert_empty_eq]
  rfl

theorem pairPath_derive : pairPath.derive (.slot 0) 0 = some ⟨entryAddress [97], 24, 8⟩ := rfl

theorem nestedPath_derive : nestedPath.derive (.slot 0) 0 = some ⟨entryAddress [98], 24, 8⟩ := rfl

theorem entries_disjoint :
    Disjoint
      (Location.cells ⟨.ofNum 0x5c13276b968864e6a5e3452ab607db2bc029121614daff0972dd35aa12c0f516, 24, 8⟩)
      (Location.cells ⟨.ofNum 0x9b48b70bb2f27baaec26ca7e87683c29407f5b9f979eaf0e1a97fa4e5261191e, 24, 8⟩) := by
  have hspread : Spread entryHashes span
      (pairPath.preimages entryHashes 0 0 ∪ nestedPath.preimages entryHashes 0 0) := by
    rw [Path.preimages_eq pairPath_derive, Path.preimages_eq nestedPath_derive, entryAddress_preimages,
      entryAddress_preimages]
    exact entryHashes_spread
  have hfits : pairEntries.Fits := trivial
  have hnested : pairEntries.nested = nestedEntries.nested := rfl
  have hsteps : pairPath.steps ≠ nestedPath.steps := by
    intro h
    have htext := (Step.key.inj (List.cons.inj (List.cons.inj h).2).1).2
    exact absurd (eq_of_heq htext) (by decide : ("a" : String) ≠ "b")
  exact (addresses_disjoint hfits hnested 0 0 pairPath nestedPath hspread rfl rfl).1 hsteps

end PvmContract.Storage
