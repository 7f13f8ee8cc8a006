import Mathlib.Data.Fintype.Basic
import Mathlib.Tactic.FinCases
import PvmContract.Storage.LayoutEntries
import PvmContract.Storage.SlotChecks

/-!
# The storage layout of a contract

`__storage_layout_json` prints the entries of the fields of a contract, those that are
numbered by the walker and those pinned by `#[slot(N)]`. A raw slot is no number, and
is not printed. Tools read the storage of a contract by its layout alone, so there has
to be an entry for all that is kept in storage, it has to say where that is, and no
label may be used twice. The entries say so if the fields are apart
(`storageLayout_describes`), which is what the slot checks are for.

The fields are placed by the walker on natural numbers. The constants that the compiler
evaluates for them are on `u64`, and are the same, if there are any, as long as no field
runs past the last slot number.
-/

namespace PvmContract.Storage

open PvmContract.Data PvmContract.Data.Run PvmContract.Storage.SlotChecks

/-! ### Contracts -/

/-- A storage field of a contract, with its type. -/
structure ContractField extends SlotField where
  schema : Schema
  names : Names schema
  shape_eq : schema.shape = shape

namespace ContractField

/-- The fields, as the slot checks see them. -/
def slots (fields : List ContractField) : List SlotField := fields.map ContractField.toSlotField

/-- The fields that are printed, and where they are: those with a slot number that are compiled. -/
def slotExprs : List ContractField → List Placement → List (ContractField × Placement)
  | [], _ => []
  | f :: rest, chain =>
    match f.slot with
    | .explicit n =>
      if f.enabled then (f, Pin.placement ⟨f.toSlotField, n⟩) :: slotExprs rest chain else slotExprs rest chain
    -- A raw slot is outside of the numbered layout.
    | .explicitRaw => slotExprs rest chain
    | .auto =>
      match chain with
      -- The chain has a step for each of these fields.
      | [] => slotExprs rest []
      | q :: chain => (f, q) :: slotExprs rest chain

/-- The fields that are printed, with the walker's chain. -/
def printed (fields : List ContractField) : List (ContractField × Placement) :=
  slotExprs fields (placements (autoShapes (slots fields)))

/-- `__storage_layout_json`, before the list is turned into text. -/
def storageLayout (p : Profile) (fields : List ContractField) : Run (List StorageLayoutEntry) :=
  (printed fields).foldlM (fun entries x => do
    let offset ← x.2.printedOffset p
    x.1.names.emitEntries p x.2.slot offset (joinLabel "" x.1.name) entries) []

/-- The leaves of a contract, in declaration order. -/
def leaves (fields : List ContractField) : List ((x : ContractField × Placement) × Spot x.1.schema) :=
  (printed fields).flatMap fun x => x.1.schema.spots.map (Sigma.mk x)

/-- The entry of a leaf. -/
def entryOf (l : (x : ContractField × Placement) × Spot x.1.schema) : StorageLayoutEntry :=
  l.2.entry l.1.1.names l.1.2.slot l.1.2.offset l.1.1.name

/-- The bytes of a leaf. -/
def regionOf (l : (x : ContractField × Placement) × Spot x.1.schema) : Set (ℕ × ℕ) :=
  l.2.region l.1.2.slot l.1.2.offset

/-- What a layout is read for. -/
structure Describes (fields : List ContractField) (entries : List StorageLayoutEntry) : Prop where
  /-- There is an entry for each leaf, in declaration order. -/
  complete : entries = (leaves fields).map entryOf
  /-- A label is of one leaf. -/
  labels : (entries.map StorageLayoutEntry.label).Nodup
  apart : (leaves fields).Pairwise fun a b => Disjoint (regionOf a) (regionOf b)
  /-- What is kept in a field is found from the slot and the offset of an entry. -/
  located : ∀ x ∈ printed fields, ∀ path : Path x.1.schema, ∃ e ∈ entries, ∃ slot, e.slot = toString slot ∧
    e.label = path.spot.label x.1.names x.1.name ∧
    ∀ keccak, path.locate keccak (.ofNum x.2.slot) x.2.offset =
      path.rest.locate keccak (.ofNum slot) (32 - e.offset - path.spot.schema.shape.packedBytes)

variable {fields : List ContractField}

theorem slots_cons (f : ContractField) (fields : List ContractField) :
    slots (f :: fields) = f.toSlotField :: slots fields := rfl

/-! ### Printed fields -/

section

variable {f : ContractField} {chain : List Placement}

theorem slotExprs_explicit {n : Fin (2 ^ 64)} (h : f.slot = .explicit n) : slotExprs (f :: fields) chain =
    if f.enabled then (f, Pin.placement ⟨f.toSlotField, n⟩) :: slotExprs fields chain else slotExprs fields chain := by
  simp only [slotExprs, h]

theorem slotExprs_raw (h : f.slot = .explicitRaw) : slotExprs (f :: fields) chain = slotExprs fields chain := by
  simp only [slotExprs, h]

theorem slotExprs_nil (h : f.slot = .auto) : slotExprs (f :: fields) [] = slotExprs fields [] := by
  simp only [slotExprs, h]

theorem slotExprs_cons (h : f.slot = .auto) (q : Placement) :
    slotExprs (f :: fields) (q :: chain) = (f, q) :: slotExprs fields chain := by
  simp only [slotExprs, h]

end

theorem slotExprs_auto (h : pins (slots fields) = []) {chain : List Placement}
    (hchain : chain.map Placement.shape = autoShapes (slots fields)) :
    (slotExprs fields chain).map Prod.snd = chain ∧ ∀ x ∈ slotExprs fields chain, x.2.shape = x.1.shape := by
  induction fields generalizing chain with
  | nil =>
    have hnil : chain = [] := List.map_eq_nil_iff.mp hchain
    subst hnil
    exact ⟨rfl, fun x hx => absurd hx List.not_mem_nil⟩
  | cons f rest ih =>
    rw [slots_cons, pins, List.filterMap_cons] at h
    rw [slots_cons, autoShapes, List.filter_cons, SlotField.isAuto] at hchain
    cases hslot : f.slot with
    | explicit n =>
      rw [SlotField.pin, hslot] at h
      exact absurd h (List.cons_ne_nil _ _)
    | explicitRaw =>
      rw [SlotField.pin, hslot] at h
      rw [hslot] at hchain
      rw [slotExprs_raw hslot]
      exact ih h hchain
    | auto =>
      rw [SlotField.pin, hslot] at h
      rw [hslot, decide_eq_true rfl, if_pos rfl, List.map_cons] at hchain
      cases chain with
      | nil => exact absurd hchain (List.cons_ne_nil _ _).symm
      | cons q chain =>
        obtain ⟨hq, hchain⟩ := List.cons.inj hchain
        obtain ⟨hsnd, hshape⟩ := ih h hchain
        rw [slotExprs_cons hslot]
        exact ⟨congrArg (List.cons q) hsnd, List.forall_mem_cons.mpr ⟨hq, hshape⟩⟩

theorem slotExprs_pinned (h : autoShapes (slots fields) = []) (chain : List Placement) :
    (slotExprs fields chain).map Prod.snd = (active (slots fields)).map Pin.placement ∧
      ∀ x ∈ slotExprs fields chain, x.2.shape = x.1.shape := by
  induction fields with
  | nil => exact ⟨rfl, fun x hx => absurd hx List.not_mem_nil⟩
  | cons f rest ih =>
    rw [slots_cons, autoShapes, List.filter_cons, SlotField.isAuto] at h
    rw [slots_cons, active, pins, List.filterMap_cons]
    cases hslot : f.slot with
    | explicit n =>
      rw [hslot] at h
      obtain ⟨hsnd, hshape⟩ := ih h
      rw [slotExprs_explicit hslot, SlotField.pin, hslot]
      by_cases henabled : f.enabled = true
      · rw [if_pos henabled]
        refine ⟨?_, List.forall_mem_cons.mpr ⟨rfl, hshape⟩⟩
        rw [List.filter_cons, if_pos henabled, List.map_cons, List.map_cons, hsnd]
        rfl
      · rw [if_neg henabled]
        refine ⟨?_, hshape⟩
        rw [List.filter_cons, if_neg henabled, hsnd]
        rfl
    | explicitRaw =>
      rw [hslot] at h
      rw [slotExprs_raw hslot, SlotField.pin, hslot]
      exact ih h
    | auto =>
      rw [hslot, decide_eq_true rfl, if_pos rfl] at h
      exact absurd h (List.cons_ne_nil _ _)

/-- The printed fields are those with slot numbers. -/
theorem printed_numbered (h : Admitted (slots fields)) : (printed fields).map Prod.snd = numbered (slots fields) ∧
    ∀ x ∈ printed fields, x.2.shape = x.1.shape := by
  rcases h.unmixed with hpins | hauto
  · obtain ⟨hsnd, hshape⟩ := slotExprs_auto hpins (placements_declared (autoShapes (slots fields)))
    rw [numbered, active_of_pins hpins]
    exact ⟨hsnd, hshape⟩
  · obtain ⟨hsnd, hshape⟩ := slotExprs_pinned hauto (placements (autoShapes (slots fields)))
    refine ⟨hsnd.trans ?_, hshape⟩
    rw [numbered, hauto]
    exact (List.append_nil _).symm

theorem numbered_within (fields : List SlotField) {q : Placement} (hq : q ∈ numbered fields) :
    q.offset + q.shape.packedBytes ≤ 32 := by
  rcases List.mem_append.mp hq with h | h
  · obtain ⟨a, -, rfl⟩ := List.mem_map.mp h
    exact le_of_eq_of_le (Nat.zero_add _) a.shape.packedBytes_le
  · exact placements_within h

/-- The printed fields are compiled, in declaration order. -/
theorem slotExprs_sublist (h : ∀ f ∈ slots fields, f.isAuto = true → f.gated = false) (chain : List Placement) :
    ((slotExprs fields chain).map Prod.fst).Sublist (fields.filter fun f => f.enabled) := by
  induction fields generalizing chain with
  | nil => exact List.Sublist.slnil
  | cons f rest ih =>
    rw [slots_cons, List.forall_mem_cons] at h
    have hrest := ih h.2
    rw [List.filter_cons]
    cases hslot : f.slot with
    | explicit n =>
      rw [slotExprs_explicit hslot]
      by_cases henabled : f.enabled = true
      · rw [if_pos henabled, if_pos henabled]
        exact (hrest chain).cons_cons _
      · rw [if_neg henabled, if_neg henabled]
        exact hrest chain
    | explicitRaw =>
      rw [slotExprs_raw hslot]
      split_ifs with henabled
      · exact (hrest chain).cons _
      · exact hrest chain
    | auto =>
      have hgated := h.1 (by rw [SlotField.isAuto, hslot, decide_eq_true rfl])
      have henabled : f.enabled = true := by
        rw [SlotField.gated, Option.isSome_eq_false_iff, Option.isNone_iff_eq_none] at hgated
        rw [SlotField.enabled, hgated]
        rfl
      rw [if_pos henabled]
      cases chain with
      | nil =>
        rw [slotExprs_nil hslot]
        exact (hrest []).cons _
      | cons q chain =>
        rw [slotExprs_cons hslot]
        exact (hrest chain).cons_cons _

theorem mem_of_printed (h : Admitted (slots fields)) {x : ContractField × Placement} (hx : x ∈ printed fields) :
    x.1 ∈ fields :=
  (List.mem_filter.mp ((slotExprs_sublist h.ungated _).subset (List.mem_map_of_mem hx))).1

theorem printed_names (h : Admitted (slots fields)) :
    (printed fields).Pairwise fun x y => x.1.name ≠ y.1.name := by
  have hnames := h.names
  rw [slots, List.filter_map, List.map_map] at hnames
  have hdistinct := ((slotExprs_sublist h.ungated (placements (autoShapes (slots fields)))).map
    fun f => f.name).nodup hnames
  rw [List.map_map, List.Nodup, List.pairwise_map] at hdistinct
  exact hdistinct

/-! ### The layout of a contract -/

section

variable (h : Admitted (slots fields)) (hvalid : Valid (slots fields))

include h

theorem printed_within {x : ContractField × Placement} (hx : x ∈ printed fields) :
    x.2.offset + x.1.schema.shape.packedBytes ≤ 32 := by
  obtain ⟨hsnd, hshape⟩ := printed_numbered h
  rw [x.1.shape_eq, ← hshape x hx]
  exact numbered_within _ (hsnd ▸ List.mem_map_of_mem hx)

include hvalid in
theorem printed_inRange {x : ContractField × Placement} (hx : x ∈ printed fields) :
    x.2.slot + x.1.schema.shape.slots ≤ 2 ^ 64 := by
  obtain ⟨hsnd, hshape⟩ := printed_numbered h
  rw [x.1.shape_eq, ← hshape x hx]
  exact hvalid.inRange _ (hsnd ▸ List.mem_map_of_mem hx)

include hvalid in
/-- Fields do not overlap. -/
theorem printed_apart : (printed fields).Pairwise fun x y =>
    Disjoint (x.1.schema.shape.region x.2.slot x.2.offset) (y.1.schema.shape.region y.2.slot y.2.offset) := by
  obtain ⟨hsnd, hshape⟩ := printed_numbered h
  have hapart := hvalid.apart
  rw [← hsnd, List.pairwise_map] at hapart
  refine hapart.imp_of_mem fun {x y} hx hy hxy => ?_
  rw [Shape.region, Shape.region, x.1.shape_eq, y.1.shape_eq, ← hshape x hx, ← hshape y hy]
  exact hxy

include hvalid in
theorem leaves_apart : (leaves fields).Pairwise fun a b => Disjoint (regionOf a) (regionOf b) := by
  refine List.pairwise_flatMap.mpr ⟨fun x hx => ?_, ?_⟩
  · rw [List.pairwise_map]
    exact (x.1.schema.nodup_spots).imp fun hne => Spot.regions_disjoint hne (printed_within h hx)
  · refine (printed_apart h hvalid).imp_of_mem fun {x y} hx hy hxy a ha b hb => ?_
    obtain ⟨s, -, rfl⟩ := List.mem_map.mp ha
    obtain ⟨t, -, rfl⟩ := List.mem_map.mp hb
    exact hxy.mono (s.region_subset (printed_within h hx)) (t.region_subset (printed_within h hy))

theorem labels_nodup (hnames : ∀ x ∈ printed fields, IsIdent x.1.name ∧ x.1.names.Proper) :
    (((leaves fields).map entryOf).map StorageLayoutEntry.label).Nodup := by
  rw [List.map_map, List.Nodup, List.pairwise_map]
  refine List.pairwise_flatMap.mpr ⟨fun x hx => ?_, ?_⟩
  · rw [List.pairwise_map]
    exact (x.1.schema.nodup_spots).imp fun hne heq => hne (Spot.label_inj (hnames x hx).2 heq)
  · refine (printed_names h).imp_of_mem fun {x y} hx hy hne a ha b hb heq => ?_
    obtain ⟨s, -, rfl⟩ := List.mem_map.mp ha
    obtain ⟨t, -, rfl⟩ := List.mem_map.mp hb
    obtain ⟨hx, hpx⟩ := hnames x hx
    obtain ⟨hy, hpy⟩ := hnames y hy
    have hlist := congrArg String.toList heq
    change (s.label x.1.names x.1.name).toList = (t.label y.1.names y.1.name).toList at hlist
    rw [Spot.toList_label hpx s hx.1, Spot.toList_label hpy t hy.1] at hlist
    obtain ⟨hname, -⟩ := append_dotted_inj hx.2 hy.2 (s.dotted_cases _) (t.dotted_cases _) hlist
    exact hne (String.toList_inj.mp hname)

include hvalid in
/-- The printed entries are those of the leaves. -/
theorem storageLayout_eq (p : Profile) : storageLayout p fields = pure ((leaves fields).map entryOf) := by
  obtain ⟨-, hshape⟩ := printed_numbered h
  rw [storageLayout, leaves, List.map_flatMap, ← List.nil_append (List.flatMap _ _)]
  refine foldlM_append (fun x hx entries => ?_) []
  have hoffset : x.2.solcOffset = 32 - x.2.offset - x.1.schema.shape.packedBytes := by
    rw [Placement.solcOffset, hshape x hx, x.1.shape_eq]
  have hwithin := printed_within h hx
  rw [x.1.shape_eq, ← hshape x hx] at hwithin
  rw [Placement.printedOffset_eq hwithin, pure_bind, hoffset, joinLabel_empty, emitEntries_eq x.1.names (printed_inRange h hvalid hx), List.map_map]
  rfl

theorem entry_located {x : ContractField × Placement} (hx : x ∈ printed fields) (path : Path x.1.schema)
    (keccak : Hash) : path.locate keccak (.ofNum x.2.slot) x.2.offset =
      path.rest.locate keccak (.ofNum (x.2.slot + path.spot.slot))
        (32 - (entryOf ⟨x, path.spot⟩).offset - path.spot.schema.shape.packedBytes) := by
  have hwithin := path.spot.within (printed_within h hx)
  have hoffset : 32 - (entryOf ⟨x, path.spot⟩).offset - path.spot.schema.shape.packedBytes =
      path.spot.offset x.2.offset := by
    change 32 - (32 - path.spot.offset x.2.offset - path.spot.schema.shape.packedBytes) -
      path.spot.schema.shape.packedBytes = _
    omega
  have hkey : ((Address.slot x.2.slot).add path.spot.slot).key keccak =
      ((Address.slot x.2.slot).key keccak).add path.spot.slot := Address.key_add _ _
  change Key.ofNum (x.2.slot + path.spot.slot) = (Key.ofNum x.2.slot).add path.spot.slot at hkey
  rw [path.locate_rest, hkey, hoffset]

include hvalid in
/-- The constants of the chain are the walker's steps. -/
theorem chain_eq {p : Profile} {steps : List LayoutStep}
    (hsteps : Returns (autoSlotConsts p .first (autoShapes (slots fields))) steps) :
    steps = (placements (autoShapes (slots fields))).map Placement.step :=
  (autoSlotConsts_eq LayoutStep.sound_first (by decide) ((h.valid_iff.mp hvalid).2.2) hsteps).symm

end

/-- **Storage layout.** The layout of a contract whose fields are apart is printed. It has an entry for each leaf,
with a label of its own, and the slot and the offset of the entry are those the leaf is found at. The fields are
where the compiler's constants place them. -/
theorem storageLayout_describes (p : Profile) (h : Admitted (slots fields)) (hvalid : Valid (slots fields))
    (hnames : ∀ f ∈ fields, IsIdent f.name ∧ f.names.Proper) :
    (∃ entries, Returns (storageLayout p fields) entries ∧ Describes fields entries) ∧
      ∀ steps, Returns (autoSlotConsts p .first (autoShapes (slots fields))) steps →
        steps = (placements (autoShapes (slots fields))).map Placement.step := by
  refine ⟨⟨_, by rw [storageLayout_eq h hvalid p]; rfl, rfl, labels_nodup h fun x hx => hnames _ ?_,
    leaves_apart h hvalid, fun x hx path => ?_⟩, fun steps => chain_eq h hvalid⟩
  · exact mem_of_printed h hx
  · refine ⟨entryOf ⟨x, path.spot⟩, List.mem_map_of_mem ?_, x.2.slot + path.spot.slot, rfl, rfl,
      entry_located h hx path⟩
    exact List.mem_flatMap.mpr ⟨x, hx, List.mem_map_of_mem path.spot.mem_spots⟩

/-- The fields of a struct of two time stamps. -/
def stampFields : Fin 2 → Schema := fun _ => .leaf (.packed Scalar.u64.packable Scalar.u64_narrow)

theorem stampFields_fits : (Schema.struct 1 stampFields).Fits := ⟨by decide, fun _ => trivial⟩

/-- A contract with time stamps, which share a slot, and balances. -/
def stampsAndBalances : List ContractField :=
  [{ name := "stamps", shape := (Schema.struct 1 stampFields).shape, slots_lt := Path.slots_lt stampFields_fits,
     slot := .auto, cfg := none, schema := .struct 1 stampFields, shape_eq := rfl,
     names := .struct "Stamps" (fun i => if i.1 = 0 then "born" else "expires") fun _ => .leaf "uint64" },
   { name := "balances", shape := nestedEntries.shape, slots_lt := Path.slots_lt (S := nestedEntries) trivial,
     slot := .auto, cfg := none, schema := nestedEntries, shape_eq := rfl,
     names := .mapping "uint64" (.mapping "string" (.leaf "uint64")) }]

example : (leaves stampsAndBalances).map entryOf =
    [⟨"stamps.born", "0", 0, "uint64"⟩, ⟨"stamps.expires", "0", 8, "uint64"⟩,
      ⟨"balances", "1", 0, "mapping(uint64 => mapping(string => uint64))"⟩] := by
  decide

theorem stampsAndBalances_admitted : Admitted (slots stampsAndBalances) where
  host := by decide
  unmixed := .inl rfl
  ungated := by decide
  full := by
    rw [active_of_pins rfl]
    exact fun a ha => absurd ha List.not_mem_nil
  names := by decide

theorem stampsAndBalances_valid : Valid (slots stampsAndBalances) where
  apart := placements_disjoint _
  inRange := by decide

theorem stampsAndBalances_names : ∀ f ∈ stampsAndBalances, IsIdent f.name ∧ f.names.Proper := by
  refine List.forall_mem_cons.mpr ⟨⟨by simp [IsIdent], ?_, fun i => ?_, fun i => trivial⟩,
    List.forall_mem_singleton.mpr ⟨by simp [IsIdent], trivial⟩⟩
  · decide
  · fin_cases i
    · simp [IsIdent]
    · simp [IsIdent]

theorem storageLayout_describes_stampsAndBalances :
    (∃ entries, Returns (storageLayout .checked stampsAndBalances) entries ∧ Describes stampsAndBalances entries) ∧
      ∀ steps, Returns (autoSlotConsts .checked .first (autoShapes (slots stampsAndBalances))) steps →
        steps = (placements (autoShapes (slots stampsAndBalances))).map Placement.step :=
  storageLayout_describes .checked stampsAndBalances_admitted stampsAndBalances_valid stampsAndBalances_names

end ContractField

end PvmContract.Storage
