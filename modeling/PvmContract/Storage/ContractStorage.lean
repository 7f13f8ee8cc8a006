import PvmContract.Storage.Sites
import PvmContract.Data.Prog

/-!
# The storage of a contract

What a contract does with its storage: it asks the components of its sites, operates on
them, through handles that it makes anew or has kept, and deletes entries of its
mappings. `perform` is what the code does, on the bytes of the storage. `respond` is the
reference, in which every site has a value of its own, and there are no keys and no
hashes.

A program that runs on the one runs alike on the other (`storage_refines`), as long as
the hash is spread on what is hashed for the sites that it uses, and for what it uses of
the vectors there. So all that is kept in fields, structs, vectors and mappings, at any
depth, is kept apart. Handles may be kept; a handle to an element is used while its index
is below the length.
-/

namespace PvmContract.Storage

open PvmContract.Data PvmContract.Contract

/-! ### Values of a shell -/

section

variable {keccak : Hash} {key : Key} {offset : ℕ} {x : Cell → UInt8}

theorem Component.holds_cast {c c' : Component} (h : c = c') {u : c.Usage} {v : c.Val}
    (hv : (c.place keccak u key offset).Holds x v) :
    (c'.place keccak (castUsage h u) key offset).Holds x (cast (congrArg Component.Val h) v) := by
  subst h
  exact hv

theorem StorageVec.holds_cast {E E' : Component} (h : E = E') {u : Usage E} {l : List E.Val}
    (hl : (StorageVec.place E u keccak key).Holds x l) :
    (StorageVec.place E' ⟨u.count, fun i => Component.castUsage h (u.elem i)⟩ keccak key).Holds x
      (cast (congrArg (fun c => List c.Val) h) l) := by
  subst h
  exact hl

/-- An element is held at its slot. -/
theorem StorageVec.holds_elem {E : Component} {u : Usage E} {l : List E.Val}
    (hl : (StorageVec.place E u keccak key).Holds x l) {i : ℕ} {v : E.Val} (hv : l[i]? = some v) :
    ∃ offset, (E.place keccak (u.elem i) (StorageVec.elemKey E.shape keccak key i) offset).Holds x v := by
  have hi : i < StorageVec.size E u := lt_of_lt_of_le (List.getElem?_eq_some_iff.mp hv).1 hl.1.2
  have helem : (StorageVec.elemPlace E u keccak key ⟨i, hi⟩).Holds x (StorageVec.elems E u l ⟨i, hi⟩) :=
    hl.2.2.1 ⟨i, hi⟩
  rw [StorageVec.elems_of_getElem? hi hv] at helem
  exact ⟨_, helem⟩

/-- The value of a field. -/
def StructDef.value {n : ℕ} {f : Fin (n + 1) → Component} {fits : rowSlots Component.shape (List.ofFn f) < 2 ^ 64}
    (v : (StructDef.ofFn f fits).Val) (i : Fin (n + 1)) : (f i).Val :=
  cast (congrArg Component.Val (StructDef.get_index i)) (v (StructDef.index f fits i))

theorem StructDef.holds_value {n : ℕ} {f : Fin (n + 1) → Component} {shapes : Fin (n + 1) → Shape}
    {fits : rowSlots Component.shape (List.ofFn f) < 2 ^ 64} (h : ∀ i, (f i).shape = shapes i)
    {u : (StructDef.ofFn f fits).Usage} {v : (StructDef.ofFn f fits).Val}
    (hv : ((StructDef.ofFn f fits).place keccak u key).Holds x v) (i : Fin (n + 1)) :
    ∃ offset, ((f i).place keccak (StructDef.fieldUsage u i) (key.add (fieldAt shapes i).slot) offset).Holds x
      (StructDef.value v i) := by
  have hfield := Component.holds_cast (StructDef.get_index i) (hv.1 (StructDef.index f fits i))
  rw [StructDef.field_key h] at hfield
  exact ⟨_, hfield⟩

/-- The elements of a vector. -/
def Schema.elements {V : Schema} {h : V.Fits} (v : List (V.elemKind (V.shell h).1).elem.Val) : List (V.shell h).1.Val :=
  cast (congrArg (fun c => List c.Val) (V.elem_elemKind h)) v

end

/-! ### The way to an entry -/

namespace Entry

/-- The reference of `walk`: every index on the way is that of an element. -/
def reach : {S : Schema} → (e : Entry S) → (h : S.Fits) → (S.shell h).1.Val →
    ((e' : Entry S) → (e'.component h).Val) → Except Panic Unit
  | _, here _, _, _, _ => .ok ()
  | _, @under _ V k rest, h, _, inner => rest.reach (S := V) h (inner (here k)) fun e => inner (under k e)
  | _, field i rest, h, v, inner => rest.reach (Schema.Fits.field h i) (StructDef.value v i) fun e => inner (field i e)
  | _, @elem V i rest, h, v, inner =>
    ((Schema.elements (V := V) (h := h) v)[i.1]?).elim (.error .outOfBoundsAccess) fun w =>
      rest.reach (S := V) h w fun e => inner (elem i e)

/-- The way of the code is that of the reference. -/
theorem walk_eq {S : Schema} (e : Entry S) (h : S.Fits) {keccak : Hash} {s : Store} {a : Address} {offset : ℕ}
    {w : (S.shell h).1.Usage} {u : (e' : Entry S) → (e'.component h).Usage}
    {v : (S.shell h).1.Val} {inner : (e' : Entry S) → (e'.component h).Val}
    (hv : ((S.shell h).1.place keccak w (a.key keccak) offset).Holds s.bytes v)
    (hinner : ∀ e' ∈ e.prefixes, ((e'.component h).place keccak (u e') ((e'.derive a).key keccak)
      (entryOffset (e'.component h).shape)).Holds s.bytes (inner e')) :
    e.walk keccak s h (a.key keccak) = (fun _ => (e.derive a).key keccak) <$> e.reach h v inner := by
  induction e generalizing a offset with
  | @here K V k => exact keySlot_eq keccak K k a
  | @under K V k rest ih =>
    have hV : V.Fits := h
    have hvalue := hinner (here k) List.mem_cons_self
    have hrest := @ih hV (a.chain (K.images k)) _ _ (fun e => u (under k e)) (inner (here k))
      (fun e => inner (under k e)) hvalue fun e' he' =>
      hinner (under k e') (List.mem_cons_of_mem _ (List.mem_map_of_mem he'))
    rw [walk, keySlot_eq]
    exact hrest
  | @field n fields i rest ih =>
    have hshapes : ∀ i, ((fields i).shell (h.2 i)).1.shape = (fields i).shape := fun i => ((fields i).shell (h.2 i)).2
    obtain ⟨offset', hvalue⟩ := StructDef.holds_value hshapes hv i
    rw [← a.key_add] at hvalue
    have hrest := ih (h.2 i) (u := fun e => u (field i e)) hvalue fun e' he' =>
      hinner (field i e') (List.mem_map_of_mem he')
    rw [walk, ← a.key_add]
    exact hrest
  | @elem V i rest ih =>
    have hV : V.Fits := h
    have hl := StorageVec.holds_cast (V.elem_elemKind hV) hv
    change (StorageVec.place (V.shell hV).1 (Schema.elemUsage w) keccak (a.key keccak)).Holds s.bytes
      (Schema.elements v) at hl
    rw [walk, reach, StorageVec.entry_eq hl]
    by_cases hi : i.1 < (Schema.elements (h := hV) v).length
    · obtain ⟨offset', hvalue⟩ := StorageVec.holds_elem hl (List.getElem?_eq_getElem hi)
      rw [(V.shell hV).2] at hvalue
      have hrest := @ih hV (.hashed [] a (StorageVec.slotNum V.shape i)) _ _ (fun e => u (elem i e)) _
        (fun e => inner (elem i e)) hvalue fun e' he' => hinner (elem i e') (List.mem_map_of_mem he')
      rw [if_pos hi, List.getElem?_eq_getElem hi, elementSlot_eq_key i.2]
      exact hrest
    · rw [if_neg hi, List.getElem?_eq_none (Nat.le_of_not_lt hi)]
      rfl

end Entry

/-! ### Values that are present -/

theorem Packable.getD_slotImage (p : Packable) (o : Option p.Carrier) (q : ℕ) : (p.static.slotImage o 0).1.getD q 0 =
    if 32 - p.packedBytes ≤ q ∧ q < 32 - p.packedBytes + p.packedBytes then
      (o.elim (zeroBytes p.packedBytes) p.toBytes).1.getD (q - (32 - p.packedBytes)) 0
    else 0 := by
  have hle := p.packedBytes_le
  cases o with
  | none =>
    rw [Option.elim_none, getD_zeroBytes, ite_self]
    exact Word.getD_zero q
  | some v =>
    have hfit : 32 - p.packedBytes + p.packedBytes ≤ 32 := by omega
    have hpack := p.getD_packInto v Word.zero hfit q
    rw [Word.getD_zero] at hpack
    exact hpack

/-- A packed value at the end of a slot of its own is the value of that slot. -/
theorem Packable.static_holds {p : Packable} {key : Key} {x : Cell → UInt8} {o : Option p.Carrier}
    (h : ((p.place key (32 - p.packedBytes)).pad (Store.cellsOf {key}) 0).Holds x o) :
    (p.static.place key).Holds x o := by
  obtain ⟨hwindow, hblank⟩ := h
  intro i hi q
  obtain rfl := Nat.lt_one_iff.mp hi
  rw [Key.add_zero, p.getD_slotImage]
  by_cases hq : 32 - p.packedBytes ≤ q ∧ q < 32 - p.packedBytes + p.packedBytes
  · obtain ⟨j, rfl⟩ := Nat.exists_eq_add_of_le hq.1
    rw [if_pos hq, Nat.add_sub_cancel_left]
    exact hwindow j (Nat.lt_of_add_lt_add_left hq.2)
  · rw [if_neg hq]
    exact hblank (key, q) rfl fun hin => hq hin.2

namespace LeafType

/-- `try_read_value`: a packed type is read from its whole slot, where it is right-aligned. -/
def tryReadValue (keccak : Hash) (s : Store) (key : Key) : (T : LeafType) → Option T.Carrier
  | packed p _ => p.static.tryReadFromStorageStatic s key
  | full c => c.tryReadFromStorage keccak s key

/-- Its reference: a packed value whose bytes are zeros does not count. -/
def present : (T : LeafType) → Option T.Carrier → Option T.Carrier
  | packed p _, o => p.static.presence o
  | full c, o => c.presence o

theorem tryReadValue_eq {T : LeafType} {keccak : Hash} {s : Store} {key : Key} {o : Option T.Carrier}
    (h : ((Component.leaf T).placeAt keccak () key).Holds s.bytes o) : T.tryReadValue keccak s key = T.present o := by
  cases T with
  | packed p narrow =>
    exact StaticCodec.tryRead_eq (Packable.static_holds h)
  | full c => exact c.tryRead_eq h.1

end LeafType

/-- What `try_get` returns, for values of leaf types. -/
def Schema.Present : Schema → Type
  | .leaf T => Option T.Carrier
  | .vec _ | .struct _ _ | .mapping _ _ => Unit

namespace Schema

/-- `try_get`, at the slot of an entry. -/
def tryGet (keccak : Hash) (s : Store) (key : Key) : (V : Schema) → V.Present
  | leaf T => T.tryReadValue keccak s key
  | vec _ | struct _ _ | mapping _ _ => ()

/-- The reference of `try_get`. -/
def present : (V : Schema) → (h : V.Fits) → (V.shell h).1.Val → V.Present
  | leaf T, _, o => T.present o
  | vec _, _, _ | struct _ _, _, _ | mapping _ _, _, _ => ()

theorem tryGet_eq {V : Schema} {h : V.Fits} {keccak : Hash} {s : Store} {u : (V.shell h).1.Usage} {key : Key}
    {v : (V.shell h).1.Val} (hv : ((V.shell h).1.placeAt keccak u key).Holds s.bytes v) :
    V.tryGet keccak s key = V.present h v := by
  cases V with
  | leaf T => exact LeafType.tryReadValue_eq hv
  | vec elem => rfl
  | struct n fields => rfl
  | mapping K V => rfl

end Schema

/-! ### Commands -/

section

variable (S : Schema) (h : S.Fits)

/-- What a contract does with its storage. -/
inductive StorageCommand : Type 1 where
  /-- A question to what the way to a site comes to. -/
  | ask (x : Site S) (q : (x.component h).Query)
  /-- An operation on it. -/
  | exec (x : Site S) (op : (x.component h).Op)
  /-- An operation through a handle that was made earlier. -/
  | held (x : Site S) (op : (x.component h).Op)
  /-- `Mapping::try_get`. -/
  | tryGet (e : Entry S)
  /-- `Mapping::delete` and `Mapping::remove`. -/
  | delete (e : Entry S)

variable {S h}

namespace StorageCommand

/-- What comes back, or a panic. -/
def Answer : StorageCommand S h → Type
  | .ask x _ => Except Panic (x.component h).Answer
  | .exec x _ => Except Panic (x.component h).Out
  | .held x _ => Except Panic (x.component h).Out
  | .tryGet e => Except Panic e.schema.Present
  | .delete _ => Except Panic Unit

/-- The site that is used. -/
def site : StorageCommand S h → Site S
  | .ask x _ => x
  | .exec x _ => x
  | .held x _ => x
  | .tryGet e => .entry e
  | .delete e => .entry e

end StorageCommand

/-- A panic leaves the storage as it was. -/
def settled {α : Type} (s : Store) : Except Panic (Store × α) → Except Panic α × Store
  | .ok (t, a) => (.ok a, t)
  | .error e => (.error e, s)

/-- What the code does. -/
def perform (keccak : Hash) (root : Key) : Responder (StorageCommand S h) StorageCommand.Answer Store
  | .ask x q, s =>
    let answer : Except Panic (x.component h).Answer := do
      let key ← x.walk keccak s h root
      (x.component h).ask keccak s ((x.component h).handleAt key) q
    some (answer, s)
  | .exec x op, s =>
    let result : Except Panic (Store × (x.component h).Out) := do
      let key ← x.walk keccak s h root
      (x.component h).exec keccak s ((x.component h).handleAt key) op
    some (settled s result)
  | .held x op, s =>
    (x.locate keccak root).map fun key => settled s ((x.component h).exec keccak s ((x.component h).handleAt key) op)
  | .tryGet e, s =>
    let answer : Except Panic e.schema.Present := do
      let key ← e.walk keccak s h root
      return e.schema.tryGet keccak s key
    some (answer, s)
  | .delete e, s =>
    let result : Except Panic (Store × Unit) := do
      let key ← e.walk keccak s h root
      let t ← (e.component h).clearAt keccak s ((e.component h).handleAt key)
      return (t, ())
    some (settled s result)

/-! ### The reference -/

variable (S h) in
/-- A value for every site. -/
abbrev StorageState : Type 1 := (x : Site S) → (x.component h).Val

variable (S h) in
/-- Storage that was never written. -/
def StorageState.initial : StorageState S h := fun x => (x.component h).initial

namespace StorageState

/-- The reference of the way to a site. -/
def reach (v : StorageState S h) : Site S → Except Panic Unit
  | .whole => .ok ()
  | .entry e => e.reach h (v .whole) fun e => v (.entry e)

open Classical in
/-- A site gets another value. -/
noncomputable def set (v : StorageState S h) (x : Site S) (w : (x.component h).Val) : StorageState S h :=
  Function.update v x w

theorem set_self (v : StorageState S h) (x : Site S) (w : (x.component h).Val) : v.set x w x = w := by
  classical exact Function.update_self x w v

theorem set_of_ne (v : StorageState S h) {x y : Site S} (hne : y ≠ x) (w : (x.component h).Val) :
    v.set x w y = v y := by
  classical exact Function.update_of_ne hne w v

theorem set_same (v : StorageState S h) (x : Site S) : v.set x (v x) = v := by
  classical exact Function.update_eq_self x v

end StorageState

/-- A panic leaves the state as it was. -/
noncomputable def StorageState.settled {α : Type} (v : StorageState S h) (x : Site S) :
    Except Panic ((x.component h).Val × α) → Except Panic α × StorageState S h
  | .ok (w, a) => (.ok a, v.set x w)
  | .error e => (.error e, v)

/-- What the commands mean. -/
noncomputable def respond : Responder (StorageCommand S h) StorageCommand.Answer (StorageState S h)
  | .ask x q, v =>
    let answer : Except Panic (x.component h).Answer := do
      v.reach x
      (x.component h).answer (v x) q
    some (answer, v)
  | .exec x op, v =>
    let result : Except Panic ((x.component h).Val × (x.component h).Out) := do
      v.reach x
      (x.component h).spec (v x) op
    some (v.settled x result)
  | .held x op, v => some (v.settled x ((x.component h).spec (v x) op))
  | .tryGet e, v =>
    let answer : Except Panic e.schema.Present := do
      v.reach (.entry e)
      return e.schema.present (e.fits h) (v (.entry e))
    some (answer, v)
  | .delete e, v =>
    let result : Except Panic ((e.component h).Val × Unit) := do
      v.reach (.entry e)
      (e.component h).clearSpec (v (.entry e))
      return ((e.component h).initial, ())
    some (v.settled (.entry e) result)

/-! ### The code does what the commands mean -/

/-- What is hashed for a site: on the way to it, and in what is in use of it. -/
def Site.preimages (x : Site S) (h : S.Fits) (keccak : Hash) (u : (x.component h).Usage) (a : Address) :
    Set (List UInt8) :=
  (x.derive a).preimages keccak ∪ {b | ∃ p ∈ (x.component h).points keccak u ((x.derive a).key keccak), b = p.1}

variable (S h) in
/-- The sites in use, and what is in use of each. -/
structure StorageUsage where
  sites : Set (Site S)
  parts : (x : Site S) → (x.component h).Usage

/-- What is hashed for all that is in use. -/
def StorageUsage.preimages (used : StorageUsage S h) (keccak : Hash) (a : Address) : Set (List UInt8) :=
  {b | ∃ x ∈ used.sites, b ∈ x.preimages h keccak (used.parts x) a}

/-- The place of a site in use. -/
abbrev StorageUsage.place (used : StorageUsage S h) (keccak : Hash) (root : Fin (2 ^ 64)) (x : Site S) :
    Place Cell UInt8 (x.component h).Val :=
  x.placeAt h keccak (used.parts x) (.slot root)

/-- Sites that can be used side by side: with an entry all that it is behind, and the hash is spread on
what is hashed for them. -/
structure Usable (keccak : Hash) (root : Fin (2 ^ 64)) (used : StorageUsage S h) : Prop where
  whole : Site.whole ∈ used.sites
  prefixes : ∀ e, Site.entry e ∈ used.sites → ∀ e' ∈ e.prefixes, Site.entry e' ∈ used.sites
  spread : Spread keccak span (used.preimages keccak (.slot root))

/-- The storage holds the state at the sites in use, and is otherwise as it was. -/
structure Represents (keccak : Hash) (root : Fin (2 ^ 64)) (used : StorageUsage S h) (s₀ s : Store)
    (v : StorageState S h) : Prop where
  holds : ∀ x ∈ used.sites, (used.place keccak root x).Holds s.bytes (v x)
  outside : ∀ c, (∀ x ∈ used.sites, c ∉ (used.place keccak root x).cells) → s.bytes c = s₀.bytes c

/-- A command that keeps to what is in use, and whose handle is about something that is still there. -/
def StorageCommand.Allowed (used : StorageUsage S h) (v : StorageState S h) (c : StorageCommand S h) : Prop :=
  c.site ∈ used.sites ∧
    match c with
    | .exec x op | .held x op => (x.component h).live (v x) op ∧ (x.component h).within (used.parts x) (v x) op
    | .ask _ _ | .tryGet _ | .delete _ => True

variable {keccak : Hash} {root : Fin (2 ^ 64)} {used : StorageUsage S h} {s₀ s : Store} {v : StorageState S h}
  {x : Site S}

theorem Site.charted (hx : x ∈ used.sites) :
    x.ChartedAt h keccak (used.preimages keccak (.slot root)) (used.parts x) (.slot root) := by
  have hspan := Path.span_eq
  have hslots := Path.slots_lt h
  have hroot := root.2
  have hwithin : (Address.slot root.1).Within span := by
    change root.1 < span
    omega
  have hroom : (Address.slot root.1).index + S.shape.slots ≤ span := by
    change root.1 + S.shape.slots ≤ span
    omega
  have hshape : (x.component h).shape.slots = x.schema.shape.slots := congrArg Shape.slots (x.schema.shell (x.fits h)).2
  refine ⟨⟨?_, fun b hb => ⟨x, hx, .inl hb⟩⟩, ?_, fun p hp => ⟨x, hx, .inr ⟨p, hp, rfl⟩⟩⟩
  · cases x with
    | whole => exact hwithin
    | entry e => exact e.derive_within h hwithin hroom
  · rw [hshape]
    cases x with
    | whole => exact hroom
    | entry e =>
      have hvalue := Path.slots_lt (e.fits h)
      have hindex := e.index_derive (.slot root)
      change (e.derive (.slot root)).index + e.schema.shape.slots ≤ span
      omega

theorem Usable.separate (hu : Usable keccak root used) (hx : x ∈ used.sites) :
    Separate keccak ((x.component h).points keccak (used.parts x) ((x.derive (.slot root)).key keccak))
      (((x.derive (.slot root)).key keccak).range (x.component h).shape.slots) :=
  Component.ChartedAt.separateAt hu.spread (Site.charted hx)

/-- A site that moves moves alone. -/
theorem Represents.moves (hu : Usable keccak root used) (hx : x ∈ used.sites) (hr : Represents keccak root used s₀ s v)
    {t : Store} {w : (x.component h).Val}
    (hm : (used.place keccak root x).Moves s.bytes t.bytes w) :
    Represents keccak root used s₀ t (v.set x w) where
  holds y hy := by
    by_cases hyx : y = x
    · subst hyx
      rw [StorageState.set_self]
      exact hm.holds
    · rw [StorageState.set_of_ne v hyx]
      exact hm.frame (hr.holds y hy)
        (Site.sites_apart hu.spread (fun heq => hyx heq.symm) (Site.charted hx) (Site.charted hy))
  outside c hc := (hm.outside c (hc x hx)).trans (hr.outside c hc)

/-- The handle of a site is alone in its slot. -/
theorem Represents.undisturbed (hx : x ∈ used.sites) (hr : Represents keccak root used s₀ s v) :
    ((x.component h).handleAt ((x.derive (.slot root)).key keccak)).Undisturbed s.bytes := by
  intro narrow _ p hp
  refine (hr.holds x hx).2 _ rfl fun hin => hp ?_
  exact (((x.component h).occupies keccak _ _ _).window narrow hin).2

/-- The code finds the way to a site when the reference does. -/
theorem Represents.walk_eq (hu : Usable keccak root used) (hx : x ∈ used.sites)
    (hr : Represents keccak root used s₀ s v) :
    x.walk keccak s h (fromSlot root) = (fun _ => (x.derive (.slot root)).key keccak) <$> v.reach x := by
  rw [fromSlot_eq keccak root]
  cases x with
  | whole => rfl
  | entry e =>
    have hwhole := (hr.holds _ hu.whole).1
    exact e.walk_eq h hwhole fun e' he' => (hr.holds _ (hu.prefixes e hx e' he')).1

theorem Site.locate_eq (x : Site S) (keccak : Hash) (root : Fin (2 ^ 64)) :
    x.locate keccak (fromSlot root) = some ((x.derive (.slot root)).key keccak) := by
  rw [fromSlot_eq keccak root]
  cases x with
  | whole => rfl
  | entry e => exact e.locate_eq keccak (.slot root)

section

variable (hu : Usable keccak root used) (hx : x ∈ used.sites) (hr : Represents keccak root used s₀ s v)

include hu hx hr

/-- What an operation does to the storage is what it does to the value of its site. -/
theorem Represents.settled {α : Type} {m : Except Panic (Store × α)} {n : Except Panic ((x.component h).Val × α)}
    (hm : Related (fun a b => ((x.component h).place keccak (used.parts x) ((x.derive (.slot root)).key keccak)
      (entryOffset (x.component h).shape)).Moves s.bytes a.1.bytes b.1 ∧ a.2 = b.2) m n) :
    Prog.Simulates (Represents keccak root used s₀) (some (Storage.settled s m)) (some (v.settled x n)) := by
  cases hm with
  | @ok a b hab =>
    obtain ⟨t, out⟩ := a
    obtain ⟨w, out'⟩ := b
    obtain ⟨hmoves, rfl⟩ := hab
    exact .some _ (hr.moves hu hx (hmoves.pad (hr.holds x hx)))
  | error e => exact .some _ hr

theorem Represents.exec_related (op : (x.component h).Op)
    (hop : (x.component h).live (v x) op ∧ (x.component h).within (used.parts x) (v x) op) :
    Related (fun a b => ((x.component h).place keccak (used.parts x) ((x.derive (.slot root)).key keccak)
        (entryOffset (x.component h).shape)).Moves s.bytes a.1.bytes b.1 ∧ a.2 = b.2)
      ((x.component h).exec keccak s ((x.component h).handleAt ((x.derive (.slot root)).key keccak)) op)
      ((x.component h).spec (v x) op) :=
  (x.component h).exec_related (hu.separate hx) (hr.holds x hx).1 (hr.undisturbed hx) op hop.1 hop.2

end

/-- One command. -/
theorem perform_simulates (hu : Usable keccak root used) (c : StorageCommand S h)
    (hr : Represents keccak root used s₀ s v) (hc : c.Allowed used v) :
    Prog.Simulates (Represents keccak root used s₀) (perform keccak (fromSlot root) c s) (respond c v) := by
  obtain ⟨hx, hop⟩ := hc
  cases c with
  | ask x q =>
    have hx : x ∈ used.sites := hx
    have hask := (x.component h).ask_eq (h := (x.component h).handleAt ((x.derive (.slot root)).key keccak))
      (hr.holds x hx).1 q
    rw [perform, respond, hr.walk_eq hu hx, bind_map_left, hask]
    exact .some _ hr
  | exec x op =>
    have hx : x ∈ used.sites := hx
    rw [perform, respond, hr.walk_eq hu hx, bind_map_left]
    refine hr.settled hu hx ?_
    cases v.reach x with
    | error e => exact .error e
    | ok _ => exact hr.exec_related hu hx op hop
  | held x op =>
    have hx : x ∈ used.sites := hx
    rw [perform, respond, x.locate_eq]
    exact hr.settled hu hx (hr.exec_related hu hx op hop)
  | tryGet e =>
    have hx : Site.entry e ∈ used.sites := hx
    have hwalk : e.walk keccak s h (fromSlot root) =
        (fun _ => (e.derive (.slot root)).key keccak) <$> v.reach (.entry e) := hr.walk_eq hu hx
    have hget : e.schema.tryGet keccak s ((e.derive (.slot root)).key keccak) =
        e.schema.present (e.fits h) (v (.entry e)) := Schema.tryGet_eq (hr.holds _ hx)
    rw [perform, respond, hwalk, bind_map_left, hget]
    exact .some _ hr
  | delete e =>
    have hx : Site.entry e ∈ used.sites := hx
    have hwalk : e.walk keccak s h (fromSlot root) = _ := hr.walk_eq hu hx
    have hclear := (e.component h).clear_related (h := (e.component h).handleAt ((e.derive (.slot root)).key keccak))
      (hu.separate hx) (hr.holds _ hx).1 (hr.undisturbed hx)
    rw [perform, respond, hwalk, bind_map_left]
    refine hr.settled hu hx ?_
    cases v.reach (.entry e) with
    | error e => exact .error e
    | ok _ =>
      refine hclear.bind fun t _ ht => ?_
      exact .ok ⟨ht, rfl⟩

/-- Storage that was never written at the sites in use. -/
theorem represents_initial (hblank : ∀ x ∈ used.sites, ∀ c ∈ (used.place keccak root x).cells, s.bytes c = 0) :
    Represents keccak root used s s (.initial S h) where
  holds x hx := Place.pad_blank (x.component h).initial_iff (hblank x hx)
  outside _ _ := rfl

theorem respond_answers (c : StorageCommand S h) (v : StorageState S h) : ∃ a w, respond c v = some (a, w) := by
  cases c with
  | ask x q => exact ⟨_, _, rfl⟩
  | exec x op => exact ⟨_, _, rfl⟩
  | held x op => exact ⟨_, _, rfl⟩
  | tryGet e => exact ⟨_, _, rfl⟩
  | delete e => exact ⟨_, _, rfl⟩

theorem respond_exec {op : (x.component h).Op} {w : (x.component h).Val} {out : (x.component h).Out}
    (hreach : v.reach x = .ok ()) (hspec : (x.component h).spec (v x) op = .ok (w, out)) :
    respond (.exec x op) v = some (.ok out, v.set x w) := by
  rw [respond, hreach]
  exact congrArg (fun r => some (v.settled x r)) hspec

theorem respond_held {op : (x.component h).Op} {w : (x.component h).Val} {out : (x.component h).Out}
    (hspec : (x.component h).spec (v x) op = .ok (w, out)) :
    respond (.held x op) v = some (.ok out, v.set x w) :=
  congrArg (fun r => some (v.settled x r)) hspec

theorem respond_ask {q : (x.component h).Query} {answer : (x.component h).Answer} (hreach : v.reach x = .ok ())
    (hanswer : (x.component h).answer (v x) q = .ok answer) : respond (.ask x q) v = some (.ok answer, v) := by
  rw [respond, hreach]
  exact congrArg (fun r => some (r, v)) hanswer

/-- **A contract's storage is what its sites hold.** Started on storage that was never written, the code ends
every program of commands with the outcome of the reference. The storage then holds the state of the reference
at the sites in use, and nothing else of it has changed. -/
theorem storage_refines {α : Type*} (hu : Usable keccak root used)
    (hblank : ∀ x ∈ used.sites, ∀ c ∈ (used.place keccak root x).cells, s.bytes c = 0)
    {p : Prog (StorageCommand S h) StorageCommand.Answer α}
    (hp : p.Along respond (fun v c => c.Allowed used v) (.initial S h)) :
    ∃ r t v, p.run (perform keccak (fromSlot root)) s = some (r, t) ∧
      p.run respond (.initial S h) = some (r, v) ∧ Represents keccak root used s t v := by
  obtain ⟨⟨r, v⟩, hv⟩ := Prog.run_answers respond_answers p (.initial S h)
  have hends : p.Ends respond (fun v c => c.Allowed used v) (.initial S h) r v := ⟨hp, hv⟩
  obtain ⟨t, hrun, hrep⟩ := hends.simulates (fun c _ _ hr hc => perform_simulates hu c hr hc)
    (represents_initial hblank)
  exact ⟨r, t, v, hrun, hv, hrep⟩

end

/-! ### Two vectors in a mapping -/

/-- `Mapping<u64, StorageVec<u64>>`. -/
def vecEntries : Schema :=
  .mapping (.single (.prim .u64)) (.vec (.leaf (.packed Scalar.u64.packable Scalar.u64_narrow)))

theorem vecEntries_fits : vecEntries.Fits := trivial

/-- The vector of a number. -/
def vecSite (k : BitVec 64) : Site vecEntries := .entry (.here k)

/-- The vectors of 5 and 6 are in use. -/
def vecUsage : StorageUsage vecEntries vecEntries_fits :=
  ⟨{.whole, vecSite 5#64, vecSite 6#64}, fun x => (x.component vecEntries_fits).all⟩

/-- The key of a vector, and of its elements. -/
def vecRoots : ℕ → ℕ × ℕ
  | 5 => (0x2b232c97452f0950c94e2539fdc7e69d21166113cf7a9bcb99b220a3fe5d720a,
    0xe3d631b26859e467c1b67a022155b59ea1d0c431074ce3cc5b424d06e598ce5b)
  | _ => (0x62103cf3131c85df57aad364d21cba02556d3092d6cb54c298c2e7726a7870bd,
    0xab15bf46a7b5a0fed230b26afe212fe8303fc537eb6e007370eabeaf0b869955)

/-- What is hashed: a number in front of slot 0, and the key of its vector. -/
def vecPreimages : Set (List UInt8) :=
  {beBytes 32 5 ++ beBytes 32 0, beBytes 32 6 ++ beBytes 32 0, beBytes 32 (vecRoots 5).1, beBytes 32 (vecRoots 6).1}

/-- The hashes of the preimages. -/
def vecHashes (preimage : List UInt8) : Key :=
  if preimage = beBytes 32 5 ++ beBytes 32 0 then .ofNum (vecRoots 5).1
  else if preimage = beBytes 32 6 ++ beBytes 32 0 then .ofNum (vecRoots 6).1
  else if preimage = beBytes 32 (vecRoots 5).1 then .ofNum (vecRoots 5).2
  else .ofNum (vecRoots 6).2

theorem vecHashes_site (k : BitVec 64) (hk : k = 5#64 ∨ k = 6#64) :
    vecHashes (beBytes 32 k.toNat ++ beBytes 32 0) = .ofNum (vecRoots k.toNat).1 := by
  rcases hk with rfl | rfl
  · exact if_pos rfl
  · exact (if_neg (by decide)).trans (if_pos rfl)

theorem vecHashes_spread : Spread vecHashes span vecPreimages := by
  have h5 : (vecHashes (beBytes 32 5 ++ beBytes 32 0)).num = (vecRoots 5).1 := by
    rw [vecHashes, if_pos rfl]
    exact Key.num_ofNum (by decide)
  have h6 : (vecHashes (beBytes 32 6 ++ beBytes 32 0)).num = (vecRoots 6).1 := by
    rw [vecHashes, if_neg (by decide), if_pos rfl]
    exact Key.num_ofNum (by decide)
  have h5' : (vecHashes (beBytes 32 (vecRoots 5).1)).num = (vecRoots 5).2 := by
    rw [vecHashes, if_neg (by decide), if_neg (by decide), if_pos rfl]
    exact Key.num_ofNum (by decide)
  have h6' : (vecHashes (beBytes 32 (vecRoots 6).1)).num = (vecRoots 6).2 := by
    rw [vecHashes, if_neg (by decide), if_neg (by decide), if_neg (by decide)]
    exact Key.num_ofNum (by decide)
  have hspan := Path.span_eq
  simp only [vecRoots] at h5 h6 h5' h6'
  rw [vecPreimages]
  simp only [vecRoots]
  apply Spread.of_nums
  · rintro x (rfl | rfl | rfl | rfl)
    all_goals omega
  · rintro x (rfl | rfl | rfl | rfl) y (rfl | rfl | rfl | rfl) hne
    all_goals first | exact absurd rfl hne | omega

theorem vecSite_preimages (k : BitVec 64) :
    ((vecSite k).derive (.slot 0)).preimages vecHashes = {beBytes 32 k.toNat ++ beBytes 32 0} := by
  have himage : SingleKey.image (.prim .u64) k = beBytes 32 k.toNat := rfl
  have hkey : ((Address.slot 0).key vecHashes).1 = beBytes 32 0 := rfl
  change insert (SingleKey.image (.prim .u64) k ++ ((Address.slot 0).key vecHashes).1) ∅ = _
  rw [himage, hkey, insert_empty_eq]

theorem vecSite_key (k : BitVec 64) (hk : k = 5#64 ∨ k = 6#64) :
    ((vecSite k).derive (.slot 0)).key vecHashes = .ofNum (vecRoots k.toNat).1 := by
  have hkey : ((vecSite k).derive (.slot 0)).key vecHashes =
      (vecHashes (beBytes 32 k.toNat ++ beBytes 32 0)).add 0 := rfl
  rw [hkey, Key.add_zero, vecHashes_site k hk]

theorem vecSite_points {k : BitVec 64} (hk : k = 5#64 ∨ k = 6#64) {p : Key}
    (hp : p ∈ ((vecSite k).component vecEntries_fits).points vecHashes (vecUsage.parts (vecSite k))
      (((vecSite k).derive (.slot 0)).key vecHashes)) : p.1 = beBytes 32 (vecRoots k.toNat).1 := by
  obtain rfl | ⟨i, -, hp⟩ := hp
  · rw [vecSite_key k hk]
    rfl
  · exact absurd hp (Set.notMem_empty _)

theorem mem_vecPreimages {k : BitVec 64} (hk : k = 5#64 ∨ k = 6#64) :
    beBytes 32 k.toNat ++ beBytes 32 0 ∈ vecPreimages ∧ beBytes 32 (vecRoots k.toNat).1 ∈ vecPreimages := by
  rcases hk with rfl | rfl
  · exact ⟨.inl rfl, .inr (.inr (.inl rfl))⟩
  · exact ⟨.inr (.inl rfl), .inr (.inr (.inr rfl))⟩

theorem vecSite_subset {k : BitVec 64} (hk : k = 5#64 ∨ k = 6#64) :
    (vecSite k).preimages vecEntries_fits vecHashes (vecUsage.parts (vecSite k)) (.slot 0) ⊆ vecPreimages := by
  rintro b (hb | ⟨p, hp, rfl⟩)
  · rw [vecSite_preimages, Set.mem_singleton_iff] at hb
    rw [hb]
    exact (mem_vecPreimages hk).1
  · rw [vecSite_points hk hp]
    exact (mem_vecPreimages hk).2

theorem vecUsage_usable : Usable vecHashes 0 vecUsage where
  whole := .inl rfl
  prefixes := by
    rintro e (he | he | he) e' he'
    · cases he
    · obtain rfl := Site.entry.inj he
      cases he'
    · obtain rfl := Site.entry.inj he
      cases he'
  spread := by
    refine vecHashes_spread.mono ?_
    rintro b ⟨x, rfl | rfl | rfl, hb⟩
    · rcases hb with hb | ⟨p, hp, -⟩
      · exact absurd hb (Set.notMem_empty _)
      · exact absurd hp (Set.notMem_empty _)
    · exact vecSite_subset (.inl rfl) hb
    · exact vecSite_subset (.inr rfl) hb

theorem vecSite_ne : vecSite 5#64 ≠ vecSite 6#64 := by
  intro heq
  exact absurd (Entry.here.inj (Site.entry.inj heq)) (by decide : (5#64 : BitVec 64) ≠ 6#64)

theorem first_lt : 0 < 2 ^ 64 := Nat.two_pow_pos 64

/-- The index of the first element. -/
def firstIndex : U64 := ⟨0, first_lt⟩

/-- The values of the vectors. -/
abbrev VecValue : LeafType := .packed Scalar.u64.packable Scalar.u64_narrow

/-- The first element becomes 7. -/
def setSeven : StorageVec.Op (.simple VecValue) :=
  .inl (.cursor firstIndex (LazyOp.set (T := VecValue) ⟨(7#64 : BitVec 64), trivial⟩))

/-- The vector of 5 grows, that of 6 gets a number, the element of 5 is written through the handle that
`grow` returned, and is read. -/
def growBoth : Prog (StorageCommand vecEntries vecEntries_fits) StorageCommand.Answer
    (Except Panic (StorageVec.Answer (LazyResult VecValue))) :=
  .ask (.exec (vecSite 5#64) (.inl .grow)) fun _ =>
    .ask (.exec (vecSite 6#64) (.inr (.push ⟨(8#64 : BitVec 64), trivial⟩))) fun _ =>
      .ask (.held (vecSite 5#64) setSeven) fun _ =>
        .ask (.ask (vecSite 5#64) (.get firstIndex (LeafQuery.get (T := VecValue)))) fun answer => .done answer

/-- The states of the run: an element, a number, the element written. -/
noncomputable def grownState : StorageState vecEntries vecEntries_fits :=
  (StorageState.initial vecEntries vecEntries_fits).set (vecSite 5#64) [none]

noncomputable def pushedState : StorageState vecEntries vecEntries_fits :=
  grownState.set (vecSite 6#64) [some (8#64 : BitVec 64)]

noncomputable def writtenState : StorageState vecEntries vecEntries_fits :=
  pushedState.set (vecSite 5#64) [some (7#64 : BitVec 64)]

theorem vecSite_reach (k : BitVec 64) (v : StorageState vecEntries vecEntries_fits) :
    v.reach (vecSite k) = .ok () := rfl

theorem growBoth_ends : growBoth.Ends respond (fun v c => c.Allowed vecUsage v) (.initial vecEntries vecEntries_fits)
    (.ok (.get (LazyResult.value (T := VecValue) (7#64 : BitVec 64)))) writtenState := by
  have hgrown : grownState (vecSite 5#64) = [none] := StorageState.set_self _ _ _
  have hempty : grownState (vecSite 6#64) = [] := StorageState.set_of_ne _ vecSite_ne.symm _
  have hpushed : pushedState (vecSite 5#64) = [none] := (StorageState.set_of_ne _ vecSite_ne _).trans hgrown
  have hwritten : writtenState (vecSite 5#64) = [some (7#64 : BitVec 64)] := StorageState.set_self _ _ _
  refine .ask (b := .ok .unit) (t := grownState) ⟨.inr (.inl rfl), trivial, Component.within_all _ _ _⟩ ?_ ?_
  · exact respond_exec (vecSite_reach _ _) rfl
  refine .ask (b := .ok .unit) (t := pushedState) ⟨.inr (.inr rfl), trivial, Component.within_all _ _ _⟩ ?_ ?_
  · refine respond_exec (vecSite_reach _ _) ?_
    rw [hempty]
    rfl
  refine .ask (b := .ok (.out .unit)) (t := writtenState)
    ⟨.inr (.inl rfl), ?_, Component.within_all _ _ _⟩ ?_ ?_
  · rw [hpushed]
    exact ⟨none, rfl, trivial⟩
  · refine respond_held ?_
    rw [hpushed]
    rfl
  refine .ask (t := writtenState) ⟨.inr (.inl rfl), trivial⟩ ?_ (.done _ _)
  refine respond_ask (vecSite_reach _ _) ?_
  rw [hwritten]
  rfl

/-- Two vectors of one mapping are written in turn, one through a handle that is kept meanwhile. -/
theorem storage_refines_vectors :
    ∃ r t v, growBoth.run (perform vecHashes (fromSlot 0)) Store.empty = some (r, t) ∧
      growBoth.run respond (.initial vecEntries vecEntries_fits) = some (r, v) ∧
      r = .ok (.get (LazyResult.value (T := VecValue) (7#64 : BitVec 64))) ∧
      v (vecSite 6#64) = [some (8#64 : BitVec 64)] ∧ Represents vecHashes 0 vecUsage Store.empty t v := by
  obtain ⟨r, t, v, hrun, hv, hrep⟩ := storage_refines (s := Store.empty) vecUsage_usable
    (fun _ _ c _ => Store.bytes_empty c)
    growBoth_ends.along
  have hsame : some (r, v) = some (_, writtenState) := hv.symm.trans growBoth_ends.run
  obtain ⟨hr, rfl⟩ := Prod.mk.inj (Option.some.inj hsame)
  have hsixth : writtenState (vecSite 6#64) = [some (8#64 : BitVec 64)] :=
    (StorageState.set_of_ne _ vecSite_ne.symm _).trans (StorageState.set_self _ _ _)
  exact ⟨r, t, writtenState, hrun, hv, hr, hsixth, hrep⟩

end PvmContract.Storage
