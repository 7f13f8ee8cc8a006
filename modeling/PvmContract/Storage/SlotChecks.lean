import Mathlib.Data.ZMod.Defs
import PvmContract.Data.Run
import PvmContract.Storage.Layout

/-!
# The slot checks of a contract struct

The fields of a contract struct either all pin a slot with `#[slot(N)]`, or are
all numbered by the layout walker; `#[slot(raw = KEY)]` fields may stand beside
both and are not looked at. `extract_slot_fields_from_struct` decides which, and
refuses two fields with one literal. What it cannot see, the slot counts of the
fields' types, is left to const items of the generated code: one for each pair
of pinned fields, one for each pinned field, and the chain of the walker.

Const items are evaluated by the compiler on `u64`. The body of a const item
always has its overflow checks; a `const fn`, such as the walker, has those of
the build (`Profile`). A field with `#[cfg]` attributes is checked under the
same attributes.

`Valid` says what the checks are for: no two fields share a byte, and no field
runs past the last slot number. The checks of a pair compute the ends of both
fields, and a field that ends with the last slot has an end of `2 ^ 64`, which
is not a `u64`. So a valid struct may be refused (`FalseAlarm`); a field without
a partner is in no pair, and may run past the last slot (`Missed`).
-/

namespace PvmContract.Storage.SlotChecks

open PvmContract.Data PvmContract.Data.Run

/-- `Slot`: how the slot of a field is determined. -/
inductive Slot where
  /-- `#[slot(N)]`. -/
  | explicit (n : Fin (2 ^ 64))
  /-- `#[slot(raw = KEY)]`. -/
  | explicitRaw
  /-- No attribute. -/
  | auto
  deriving DecidableEq, Repr

/-- `SlotField`, and what the checks read of its type. -/
structure SlotField where
  name : String
  /-- `PACKED_BYTES` and `SLOTS`. -/
  shape : Shape
  slots_lt : shape.slots < 2 ^ 64
  slot : Slot
  /-- Whether the `#[cfg]` attributes of the field enable it, if it has any. -/
  cfg : Option Bool

namespace SlotField

/-- The field has `#[cfg]` attributes. -/
def gated (f : SlotField) : Bool := f.cfg.isSome

/-- The field is compiled. -/
def enabled (f : SlotField) : Bool := f.cfg.getD true

def isAuto (f : SlotField) : Bool := f.slot = .auto

end SlotField

/-- A field pinned by `#[slot(N)]`. -/
structure Pin extends SlotField where
  /-- `N`. -/
  start : Fin (2 ^ 64)

/-- `explicit_slot`: a raw slot is not a number. -/
def SlotField.pin (f : SlotField) : Option Pin :=
  match f.slot with
  | .explicit n => some ⟨f, n⟩
  | .explicitRaw | .auto => none

/-- The pinned fields, in declaration order. -/
def pins (fields : List SlotField) : List Pin := fields.filterMap SlotField.pin

/-- The types of the fields the walker numbers. -/
def autoShapes (fields : List SlotField) : List Shape := (fields.filter SlotField.isAuto).map SlotField.shape

/-- `for (i, a) in fields.iter().enumerate() { for b in &fields[i + 1..] }`. -/
def pairsOf {α : Type} : List α → List (α × α)
  | [] => []
  | a :: rest => rest.map (fun b => (a, b)) ++ pairsOf rest

/-! ### The fields of the struct -/

/-- At most one of the two fields is compiled: the compiler wants distinct names. -/
def exempt (a b : Pin) : Bool := a.gated && b.gated && a.name == b.name

/-- Two fields with one literal. -/
def clash (a b : Pin) : Bool := a.start == b.start && !exempt a b

def hostReserved : String :=
  "`host` is a reserved field name injected by the #[contract] macro. Rename this storage field."

def missingSlot (name : String) : String :=
  "field `" ++ name ++ "` is missing `#[slot(N)]`. Fields must either all pin a numeric slot with `#[slot(N)]`, " ++
  "or all be left un-annotated for auto-numbering by declaration order. Mixing the two modes is not supported. " ++
  "(`#[slot(raw = KEY)]` fields are exempt and may coexist with either mode.)"

def cfgOnAuto : String :=
  "#[cfg] is not supported on auto-numbered storage fields: a cfg-disabled field would shift the on-chain slot " ++
  "numbers of every field after it, producing a different storage layout per feature combination. Pin the slot " ++
  "with `#[slot(N)]` if you need conditional fields."

def duplicateSlot (a b : Pin) : String :=
  "duplicate slot " ++ toString a.start.1 ++ ": fields `" ++ a.name ++ "` and `" ++ b.name ++
    "` use the same slot number"

/-- The field an error about mixed modes points at. -/
def offender (fields : List SlotField) : Option SlotField :=
  if (pins fields).isEmpty then none else fields.find? SlotField.isAuto

/-- `extract_slot_fields_from_struct`, past the parsing of the attributes. -/
def extractSlotFields (fields : List SlotField) : Except String (List SlotField) :=
  if fields.any (fun f => f.name == "host") then .error hostReserved
  else match offender fields with
    | some f => .error (missingSlot f.name)
    | none =>
      if fields.any (fun f => f.isAuto && f.gated) then .error cfgOnAuto
      else match (pairsOf (pins fields)).find? (fun x => clash x.1 x.2) with
        | some x => .error (duplicateSlot x.1 x.2)
        | none => .ok fields

/-! ### The const items -/

/-- A const item of the generated code: a name, whether it is compiled, the text of its assertion, and its
evaluation. A panic is a compile error. -/
structure ConstItem where
  ident : String
  enabled : Bool
  message : String
  value : Run Unit

/-- `assert!(b)`. -/
def assert (b : Bool) : Run Unit := if b then pure () else .abort

/-- One item of `explicit_slot_full_slot_only_checks`. -/
def fullSlotOnlyCheck (a : Pin) : ConstItem where
  ident := "__pvm_storage_full_slot_only_" ++ a.name
  enabled := a.enabled
  message := "explicit `#[slot(N)]` on field `" ++ a.name ++ "` requires a full-slot type (`PACKED_BYTES == 32`). " ++
    "Sub-word types (e.g. `Lazy<bool>`, `Lazy<u32>`, `Lazy<u128>`, `Lazy<Address>`) cannot use explicit slot pinning " ++
    "because solc places them right-aligned within their slot — explicit mode would place them at byte 0, producing " ++
    "a non-solc layout. Use auto-numbering (which packs sub-word fields per solc via the `layout_step` walker) or " ++
    "wrap this field in a `#[storage]` sub-struct."
  value := assert (a.shape.packedBytes == 32)

def explicitSlotFullSlotOnlyChecks (fields : List SlotField) : List ConstItem :=
  (pins fields).map fullSlotOnlyCheck

/-- The name of the item for a pair. -/
def overlapIdent (a b : Pin) : String := "__pvm_storage_overlap_" ++ (a.name ++ ("_vs_" ++ b.name))

/-- One item of `explicit_slot_overlap_checks`. -/
def overlapCheck (a b : Pin) : ConstItem where
  ident := overlapIdent a b
  enabled := a.enabled && b.enabled
  message := "storage layout collision: explicit slots `" ++ a.name ++ "` (starting at slot " ++
    toString a.start.1 ++ ") and `" ++ b.name ++ "` (starting at slot " ++ toString b.start.1 ++ ") have overlapping " ++
    "slot ranges. Multi-slot composites (e.g. `Lazy<(U256, U256)>`) consume multiple consecutive slots; verify each " ++
    "`#[slot(N)]` field's range does not intersect any other."
  value := do
    let aEnd ← uadd .checked a.start.1 a.shape.slots
    let bEnd ← uadd .checked b.start.1 b.shape.slots
    assert (!(decide (a.start.1 < bEnd) && decide (b.start.1 < aEnd)))

def explicitSlotOverlapChecks (fields : List SlotField) : List ConstItem :=
  ((pairsOf (pins fields)).filter fun x => !exempt x.1 x.2).map fun x => overlapCheck x.1 x.2

/-- The checks that stand side by side in the generated module. -/
def constItems (fields : List SlotField) : List ConstItem :=
  explicitSlotOverlapChecks fields ++ explicitSlotFullSlotOnlyChecks fields

/-- `(slot, space)` of `layout_step`, on `u64`. -/
def entryU64 (p : Profile) (prev : LayoutStep) (bytes : ℕ) : Run (ℕ × ℕ) :=
  if prev.nextSpace < bytes then do
    let slot ← uadd p prev.nextSlot 1
    pure (slot, 32)
  else pure (prev.nextSlot, prev.nextSpace)

/-- `(next_slot, next_space)` of `layout_step`, on `u64`. -/
def exitU64 (p : Profile) (slot offset slots : ℕ) : Run (ℕ × ℕ) :=
  if slots > 1 then do
    let stop ← uadd p slot slots
    let last ← usub p stop 1
    pure (last, 0)
  else pure (slot, offset)

/-- `layout_step` on `u64`. -/
def layoutStepU64 (p : Profile) (prev : LayoutStep) (packedBytes slots : ℕ) : Run LayoutStep := do
  let bytes := packedBytes % 256
  let entry ← entryU64 p prev bytes
  let offset := entry.2 - bytes
  let exit ← exitU64 p entry.1 offset slots
  pure ⟨entry.1, offset, exit.1, exit.2⟩

/-- `auto_slot_consts`: one step for each field, seeded by the one before. -/
def autoSlotConsts (p : Profile) (prev : LayoutStep) : List Shape → Run (List LayoutStep)
  | [] => pure []
  | s :: rest => do
    let step ← layoutStepU64 p prev s.packedBytes s.slots
    let steps ← autoSlotConsts p step rest
    pure (step :: steps)

/-- The macro and the compiler accept the fields of a struct. -/
structure Accepts (p : Profile) (fields : List SlotField) : Prop where
  extracted : extractSlotFields fields = .ok fields
  /-- No two items of one name are compiled. -/
  idents : (((constItems fields).filter ConstItem.enabled).map ConstItem.ident).Nodup
  asserts : ∀ c ∈ constItems fields, c.enabled = true → Returns c.value ()
  chain : ∃ steps, Returns (autoSlotConsts p .first (autoShapes fields)) steps

/-! ### What the checks are for -/

/-- The pinned fields that are compiled. -/
def active (fields : List SlotField) : List Pin := (pins fields).filter fun a => a.enabled

/-- Past the last slot of a pinned field. -/
def Pin.stop (a : Pin) : ℕ := a.start.1 + a.shape.slots

/-- Where a pinned field is placed: at the first byte of its slot. -/
def Pin.placement (a : Pin) : Placement := ⟨a.shape, ⟨a.start.1, 0, a.stop, 32⟩⟩

/-- The places of all fields with a slot number. -/
def numbered (fields : List SlotField) : List Placement :=
  (active fields).map Pin.placement ++ placements (autoShapes fields)

/-- What the macro and the compiler admit, whatever the slots of the fields are. -/
structure Admitted (fields : List SlotField) : Prop where
  host : ∀ f ∈ fields, f.name ≠ "host"
  /-- The two modes are not mixed. -/
  unmixed : pins fields = [] ∨ autoShapes fields = []
  /-- A numbered field has no `#[cfg]`. -/
  ungated : ∀ f ∈ fields, f.isAuto = true → f.gated = false
  /-- A pinned field has a full-slot type. -/
  full : ∀ a ∈ active fields, a.shape.Full
  /-- The fields of a struct have distinct names. -/
  names : ((fields.filter SlotField.enabled).map SlotField.name).Nodup

/-- The fields are apart, and none runs past the last slot number. -/
structure Valid (fields : List SlotField) : Prop where
  apart : (numbered fields).Pairwise fun a b => Disjoint a.footprint b.footprint
  inRange : ∀ q ∈ numbered fields, q.slot + q.shape.slots ≤ 2 ^ 64

/-- A valid struct that is refused: one of several pinned fields ends with the last slot number, a literal is
used by a field that is not compiled too, two pairs of names give one item name, or the walker, with overflow
checks, steps over a field of several slots that ends with the last slot number. -/
def FalseAlarm (p : Profile) (fields : List SlotField) : Prop :=
  Valid fields ∧
    ((2 ≤ (active fields).length ∧ ∃ a ∈ active fields, a.stop = 2 ^ 64) ∨
      (∃ x ∈ pairsOf (pins fields), clash x.1 x.2 = true) ∨
      (¬ ((pairsOf (active fields)).map fun x => overlapIdent x.1 x.2).Nodup) ∨
      (p = .checked ∧ ∃ q ∈ placements (autoShapes fields), 1 < q.shape.slots ∧ q.slot + q.shape.slots = 2 ^ 64))

/-- An invalid struct that is accepted: the only pinned field runs past the last slot number, or one that the
walker numbers without overflow checks does. -/
def Missed (p : Profile) (fields : List SlotField) : Prop :=
  (∃ a, active fields = [a] ∧ 2 ^ 64 < a.stop ∧ ∀ x ∈ pairsOf (pins fields), clash x.1 x.2 = false) ∨
    (p = .wrapping ∧ ∃ q ∈ placements (autoShapes fields), 2 ^ 64 < q.slot + q.shape.slots)

/-! ### Pairs -/

section

variable {α : Type}

theorem forall_pairsOf {P : α → α → Prop} {l : List α} : (∀ x ∈ pairsOf l, P x.1 x.2) ↔ l.Pairwise P := by
  induction l with
  | nil => simp [pairsOf]
  | cons a rest ih =>
    rw [pairsOf, List.pairwise_cons, ← ih, List.forall_mem_append, List.forall_mem_map]

theorem pairsOf_filter (q : α → Bool) (l : List α) :
    pairsOf (l.filter q) = (pairsOf l).filter fun x => q x.1 && q x.2 := by
  induction l with
  | nil => rfl
  | cons a rest ih =>
    rw [pairsOf, List.filter_append, List.filter_map, ← ih]
    by_cases h : q a = true
    · rw [List.filter_cons_of_pos h, pairsOf]
      congr 2
      refine List.filter_congr fun b _ => ?_
      simp only [Function.comp_apply, h, Bool.true_and]
    · rw [List.filter_cons_of_neg h]
      have hnone : rest.filter ((fun x : α × α => q x.1 && q x.2) ∘ fun b => (a, b)) = [] := by
        rw [List.filter_eq_nil_iff]
        intro b _
        simp only [Function.comp_apply, Bool.not_eq_true _ ▸ h, Bool.false_and, Bool.false_eq_true, not_false_iff]
      rw [hnone, List.map_nil, List.nil_append]

/-- What is asked of both members of every pair is asked of every member of a list that has pairs. -/
theorem pairwise_and_both {P : α → Prop} {R : α → α → Prop} {l : List α} :
    l.Pairwise (fun a b => P a ∧ P b ∧ R a b) ↔ l.Pairwise R ∧ (2 ≤ l.length → ∀ a ∈ l, P a) := by
  constructor
  · intro h
    refine ⟨h.imp fun hab => hab.2.2, fun hlen a ha => ?_⟩
    match l, hlen with
    | b :: c :: rest, _ =>
      have hb := List.pairwise_cons.mp h
      rcases List.mem_cons.mp ha with rfl | ha
      · exact (hb.1 c List.mem_cons_self).1
      · exact (hb.1 a ha).2.1
  · rintro ⟨hR, hP⟩
    by_cases hlen : 2 ≤ l.length
    · exact hR.imp_of_mem fun ha hb hab => ⟨hP hlen _ ha, hP hlen _ hb, hab⟩
    · match l, hlen with
      | [], _ => exact List.Pairwise.nil
      | [a], _ => exact List.pairwise_singleton _ a
      | _ :: _ :: _, h => exact absurd (by simp) h

end

/-! ### The pinned fields -/

theorem pin_eq_some {f : SlotField} {a : Pin} (h : f.pin = some a) : a.toSlotField = f := by
  unfold SlotField.pin at h
  split at h
  · exact (Option.some.inj h) ▸ rfl
  · exact absurd h (by simp)
  · exact absurd h (by simp)

theorem pins_toSlotField (fields : List SlotField) : ((pins fields).map Pin.toSlotField).Sublist fields := by
  induction fields with
  | nil => exact List.Sublist.slnil
  | cons f rest ih =>
    rw [pins, List.filterMap_cons]
    cases h : f.pin with
    | none => exact ih.cons f
    | some a =>
      rw [List.map_cons, pin_eq_some h]
      exact ih.cons_cons f

/-- The pinned fields that are compiled have distinct names. -/
theorem Admitted.active_names {fields : List SlotField} (h : Admitted fields) :
    (active fields).Pairwise fun a b => a.name ≠ b.name := by
  have hsub : ((active fields).map Pin.toSlotField).Sublist (fields.filter SlotField.enabled) := by
    have hmap : (active fields).map Pin.toSlotField =
        ((pins fields).map Pin.toSlotField).filter SlotField.enabled := by
      rw [List.filter_map]
      rfl
    rw [hmap]
    exact (pins_toSlotField fields).filter _
  have hnames := h.names.sublist (hsub.map SlotField.name)
  rw [List.map_map] at hnames
  exact List.pairwise_map.mp hnames

theorem exempt_eq_false {a b : Pin} (h : a.name ≠ b.name) : exempt a b = false := by
  rw [exempt, beq_false_of_ne h, Bool.and_false]

/-- Nothing but two equal literals is left to be refused. -/
theorem Admitted.extracted_iff {fields : List SlotField} (h : Admitted fields) :
    extractSlotFields fields = .ok fields ↔ ∀ x ∈ pairsOf (pins fields), clash x.1 x.2 = false := by
  have hhost : fields.any (fun f => f.name == "host") = false := by
    rw [List.any_eq_false]
    intro f hf
    rw [beq_iff_eq]
    exact h.host f hf
  have hoffender : offender fields = none := by
    unfold offender
    rcases h.unmixed with hpins | hauto
    · rw [hpins]
      rfl
    · rw [autoShapes, List.map_eq_nil_iff, List.filter_eq_nil_iff] at hauto
      rw [List.find?_eq_none.mpr hauto, ite_self]
  have hcfg : fields.any (fun f => f.isAuto && f.gated) = false := by
    rw [List.any_eq_false]
    intro f hf hboth
    rw [Bool.and_eq_true] at hboth
    exact absurd hboth.2 (by rw [h.ungated f hf hboth.1]; simp)
  rw [extractSlotFields, hhost, if_neg Bool.false_ne_true, hoffender]
  simp only [hcfg, Bool.false_eq_true, if_false]
  cases hfind : (pairsOf (pins fields)).find? (fun x => clash x.1 x.2) with
  | none =>
    rw [List.find?_eq_none] at hfind
    simp only [true_iff]
    exact fun x hx => Bool.eq_false_iff.mpr (hfind x hx)
  | some x =>
    have hclash : clash x.1 x.2 = true := List.find?_some (p := fun x : Pin × Pin => clash x.1 x.2) hfind
    simp only [reduceCtorEq, false_iff]
    exact fun hall => absurd hclash (by rw [hall x (List.mem_of_find?_eq_some hfind)]; simp)

/-! ### The names of the items -/

/-- The pairs whose check is compiled are those of the fields that are. -/
theorem Admitted.overlapChecks_enabled {fields : List SlotField} (h : Admitted fields) :
    (explicitSlotOverlapChecks fields).filter ConstItem.enabled =
      (pairsOf (active fields)).map fun x => overlapCheck x.1 x.2 := by
  have hexempt : ∀ x ∈ pairsOf (active fields), exempt x.1 x.2 = false :=
    forall_pairsOf.mpr (h.active_names.imp exempt_eq_false)
  have hpairs : pairsOf (active fields) =
      (pairsOf (pins fields)).filter fun x => x.1.enabled && x.2.enabled := pairsOf_filter _ _
  rw [explicitSlotOverlapChecks, List.filter_map, List.filter_filter]
  congr 1
  rw [hpairs]
  refine List.filter_congr fun x hx => ?_
  by_cases hen : (x.1.enabled && x.2.enabled) = true
  · have hmem : x ∈ pairsOf (active fields) := by
      rw [hpairs]
      exact List.mem_filter.mpr ⟨hx, hen⟩
    rw [hexempt x hmem, Bool.not_false, Bool.and_true]
    rfl
  · rw [Bool.not_eq_true] at hen
    have hoff : (ConstItem.enabled ∘ fun x : Pin × Pin => overlapCheck x.1 x.2) x = false := hen
    rw [hoff, hen, Bool.false_and]

theorem fullSlotChecks_enabled (fields : List SlotField) :
    (explicitSlotFullSlotOnlyChecks fields).filter ConstItem.enabled = (active fields).map fullSlotOnlyCheck := by
  rw [explicitSlotFullSlotOnlyChecks, List.filter_map]
  rfl

/-- The names of the two kinds of items differ behind `__pvm_storage_`. -/
theorem overlapIdent_ne (a b c : Pin) : overlapIdent a b ≠ "__pvm_storage_full_slot_only_" ++ c.name := by
  unfold overlapIdent
  intro h
  have hchars := congrArg String.toList h
  simp [String.toList_append] at hchars

/-- Two items have one name only if two pairs of fields give one. -/
theorem Admitted.idents_iff {fields : List SlotField} (h : Admitted fields) :
    (((constItems fields).filter ConstItem.enabled).map ConstItem.ident).Nodup ↔
      ((pairsOf (active fields)).map fun x => overlapIdent x.1 x.2).Nodup := by
  have hfull : (((active fields).map fullSlotOnlyCheck).map ConstItem.ident).Nodup := by
    rw [List.map_map]
    refine List.pairwise_map.mpr (h.active_names.imp fun hne heq => hne ?_)
    exact String.append_right_inj _ |>.mp heq
  have hmap : ((pairsOf (active fields)).map fun x => overlapCheck x.1 x.2).map ConstItem.ident =
      (pairsOf (active fields)).map fun x => overlapIdent x.1 x.2 := by
    rw [List.map_map]
    rfl
  rw [constItems, List.filter_append, h.overlapChecks_enabled, fullSlotChecks_enabled, List.map_append,
    List.nodup_append, hmap]
  constructor
  · exact fun hall => hall.1
  · intro hpairs
    refine ⟨hpairs, hfull, fun i hi j hj => ?_⟩
    obtain ⟨x, -, rfl⟩ := List.mem_map.mp hi
    obtain ⟨c, hc, rfl⟩ := List.mem_map.mp hj
    obtain ⟨a, -, rfl⟩ := List.mem_map.mp hc
    exact overlapIdent_ne x.1 x.2 a

/-! ### The checks of the pinned fields -/

/-- The slots of one field end before those of the other begin. -/
def Pin.Apart (a b : Pin) : Prop := a.stop ≤ b.start.1 ∨ b.stop ≤ a.start.1

theorem returns_assert {b : Bool} {u : Unit} : Returns (assert b) u ↔ b = true := by
  cases b with
  | true => exact ⟨fun _ => rfl, fun _ => rfl⟩
  | false => exact ⟨fun h => absurd h not_returns_abort, fun h => absurd h Bool.false_ne_true⟩

/-- Both ends are computed before they are compared. -/
theorem overlapCheck_returns (a b : Pin) :
    Returns (overlapCheck a b).value () ↔ a.stop < 2 ^ 64 ∧ b.stop < 2 ^ 64 ∧ a.Apart b := by
  change Returns (uadd .checked a.start.1 a.shape.slots >>= fun aEnd => uadd .checked b.start.1 b.shape.slots >>=
    fun bEnd => assert (!(decide (a.start.1 < bEnd) && decide (b.start.1 < aEnd)))) () ↔ _
  have hcompare : (!(decide (a.start.1 < b.stop) && decide (b.start.1 < a.stop))) = true ↔ a.Apart b := by
    rw [Bool.not_eq_true', Bool.and_eq_false_iff, decide_eq_false_iff_not, decide_eq_false_iff_not, not_lt, not_lt,
      or_comm]
    rfl
  constructor
  · intro h
    obtain ⟨aEnd, ha, h⟩ := returns_bind.mp h
    obtain ⟨bEnd, hb, h⟩ := returns_bind.mp h
    obtain ⟨hafits, rfl⟩ := returns_usize_checked.mp ha
    obtain ⟨hbfits, rfl⟩ := returns_usize_checked.mp hb
    exact ⟨hafits, hbfits, hcompare.mp (returns_assert.mp h)⟩
  · rintro ⟨ha, hb, h⟩
    exact (returns_usize_checked.mpr ⟨ha, rfl⟩).bind
      ((returns_usize_checked.mpr ⟨hb, rfl⟩).bind (returns_assert.mpr (hcompare.mpr h)))

theorem fullSlotOnlyCheck_returns {a : Pin} (h : a.shape.Full) : Returns (fullSlotOnlyCheck a).value () :=
  returns_assert.mpr (beq_iff_eq.mpr h)

/-- The checks that are compiled compare every two of the fields that are. -/
theorem Admitted.asserts_iff {fields : List SlotField} (h : Admitted fields) :
    (∀ c ∈ constItems fields, c.enabled = true → Returns c.value ()) ↔
      (active fields).Pairwise Pin.Apart ∧
        (2 ≤ (active fields).length → ∀ a ∈ active fields, a.stop < 2 ^ 64) := by
  have hfilter : (∀ c ∈ constItems fields, c.enabled = true → Returns c.value ()) ↔
      ∀ c ∈ (constItems fields).filter ConstItem.enabled, Returns c.value () := by
    simp only [List.mem_filter, and_imp]
  have hfull : ∀ a ∈ active fields, Returns (fullSlotOnlyCheck a).value () :=
    fun a ha => fullSlotOnlyCheck_returns (h.full a ha)
  rw [hfilter, constItems, List.filter_append, h.overlapChecks_enabled, fullSlotChecks_enabled,
    List.forall_mem_append, List.forall_mem_map, List.forall_mem_map, and_iff_left hfull]
  simp only [overlapCheck_returns]
  rw [← pairwise_and_both, ← forall_pairsOf]

/-- Two pinned fields of full-slot types share no byte if and only if they share no slot. -/
theorem disjoint_placement_iff {a b : Pin} (ha : a.shape.Full) (hb : b.shape.Full) :
    Disjoint a.placement.footprint b.placement.footprint ↔ a.Apart b := by
  have hmem : ∀ (c : Pin), c.shape.Full → ∀ x : ℕ × ℕ,
      x ∈ c.placement.footprint ↔ (c.start.1 ≤ x.1 ∧ x.1 < c.stop) ∧ x.2 < 32 := by
    intro c hc x
    change (c.start.1 ≤ x.1 ∧ x.1 < c.stop) ∧ 0 ≤ x.2 ∧ x.2 < 0 + c.shape.packedBytes ↔ _
    rw [Nat.zero_add, hc]
    simp only [Nat.zero_le, true_and]
  have ha0 : a.start.1 < a.stop := Nat.lt_add_of_pos_right a.shape.slots_pos
  have hb0 : b.start.1 < b.stop := Nat.lt_add_of_pos_right b.shape.slots_pos
  rw [Set.disjoint_left]
  constructor
  · intro h
    by_contra hcross
    rw [Pin.Apart, not_or, not_le, not_le] at hcross
    -- the larger of the two first slots is in both
    have hboth := h ((hmem a ha (max a.start.1 b.start.1, 0)).mpr ⟨⟨le_max_left _ _, max_lt ha0 hcross.1⟩, Nat.succ_pos 31⟩)
    exact hboth ((hmem b hb _).mpr ⟨⟨le_max_right _ _, max_lt hcross.2 hb0⟩, Nat.succ_pos 31⟩)
  · intro h x hxa hxb
    obtain ⟨⟨ha1, ha2⟩, -⟩ := (hmem a ha x).mp hxa
    obtain ⟨⟨hb1, hb2⟩, -⟩ := (hmem b hb x).mp hxb
    rcases h with h | h
    · exact absurd (lt_of_lt_of_le ha2 h) (Nat.not_lt.mpr hb1)
    · exact absurd (lt_of_lt_of_le hb2 h) (Nat.not_lt.mpr ha1)

/-! ### The walker on `u64` -/

/-- Without overflow checks every step has a result. -/
theorem layoutStepU64_wrapping (prev : LayoutStep) (packedBytes slots : ℕ) :
    ∃ step, Returns (layoutStepU64 .wrapping prev packedBytes slots) step := by
  have hadd : ∀ a b, ∃ c, Returns (uadd .wrapping a b) c := fun a b => ⟨_, rfl⟩
  have hsub : ∀ a b, ∃ c, Returns (usub .wrapping a b) c := by
    intro a b
    by_cases h : b ≤ a
    · exact ⟨_, by rw [usub_of_le h]; rfl⟩
    · exact ⟨_, by rw [usub, if_neg h]; rfl⟩
  refine exists_returns_bind ?_ fun entry => exists_returns_bind ?_ fun exit => ⟨_, returns_pure.mpr rfl⟩
  · unfold entryU64
    split_ifs
    · exact exists_returns_bind (hadd _ _) fun slot => ⟨_, returns_pure.mpr rfl⟩
    · exact ⟨_, rfl⟩
  · unfold exitU64
    split_ifs
    · exact exists_returns_bind (hadd _ _) fun stop => exists_returns_bind (hsub _ _) fun last =>
        ⟨_, returns_pure.mpr rfl⟩
    · exact ⟨_, rfl⟩

theorem entryU64_checked {prev : LayoutStep} (hprev : prev.nextSlot < 2 ^ 64) {bytes : ℕ} {entry : ℕ × ℕ} :
    Returns (entryU64 .checked prev bytes) entry ↔
      (if prev.nextSpace < bytes then (prev.nextSlot + 1, 32) else (prev.nextSlot, prev.nextSpace)) = entry ∧
        entry.1 < 2 ^ 64 := by
  by_cases hfit : prev.nextSpace < bytes
  · rw [entryU64, if_pos hfit, if_pos hfit]
    constructor
    · intro h
      obtain ⟨slot, hslot, h⟩ := returns_bind.mp h
      obtain ⟨hlt, rfl⟩ := returns_usize_checked.mp hslot
      rw [← returns_pure.mp h]
      exact ⟨rfl, hlt⟩
    · rintro ⟨rfl, hlt⟩
      exact (returns_usize_checked.mpr ⟨hlt, rfl⟩).bind (returns_pure.mpr rfl)
  · rw [entryU64, if_neg hfit, if_neg hfit, returns_pure]
    constructor
    · rintro rfl
      exact ⟨rfl, hprev⟩
    · exact fun h => h.1

theorem exitU64_checked {slot offset slots : ℕ} {exit : ℕ × ℕ} :
    Returns (exitU64 .checked slot offset slots) exit ↔
      (if slots > 1 then (slot + slots - 1, 0) else (slot, offset)) = exit ∧ (1 < slots → slot + slots < 2 ^ 64) := by
  by_cases hmulti : slots > 1
  · have hpos : 1 ≤ slot + slots := le_trans (le_of_lt hmulti) (Nat.le_add_left _ _)
    rw [exitU64, if_pos hmulti, if_pos hmulti]
    constructor
    · intro h
      obtain ⟨stop, hstop, h⟩ := returns_bind.mp h
      obtain ⟨hlt, rfl⟩ := returns_usize_checked.mp hstop
      rw [usub_of_le hpos, pure_andThen] at h
      exact ⟨returns_pure.mp h, fun _ => hlt⟩
    · rintro ⟨rfl, hlt⟩
      refine (returns_usize_checked.mpr ⟨hlt hmulti, rfl⟩).bind ?_
      rw [usub_of_le hpos, pure_andThen]
      exact returns_pure.mpr rfl
  · rw [exitU64, if_neg hmulti, if_neg hmulti, returns_pure]
    exact ⟨fun h => ⟨h, fun h1 => absurd h1 hmulti⟩, fun h => h.1⟩

/-- With overflow checks a step has a result if the slots of the field, and the end of a field of several slots,
are `u64`. It is the step on natural numbers then. -/
theorem layoutStepU64_checked {prev : LayoutStep} (hprev : prev.nextSlot < 2 ^ 64) (s : Shape) {step : LayoutStep} :
    Returns (layoutStepU64 .checked prev s.packedBytes s.slots) step ↔
      layoutStep prev s.packedBytes s.slots = step ∧ step.slot < 2 ^ 64 ∧
        (1 < s.slots → step.slot + s.slots < 2 ^ 64) := by
  constructor
  · intro h
    obtain ⟨entry, hin, h⟩ := returns_bind.mp h
    obtain ⟨exit, hout, h⟩ := returns_bind.mp h
    obtain ⟨rfl, hlt⟩ := (entryU64_checked hprev).mp hin
    obtain ⟨rfl, hmulti⟩ := exitU64_checked.mp hout
    rw [← returns_pure.mp h]
    exact ⟨rfl, hlt, hmulti⟩
  · rintro ⟨rfl, hlt, hmulti⟩
    exact ((entryU64_checked hprev).mpr ⟨rfl, hlt⟩).bind
      ((exitU64_checked.mpr ⟨rfl, hmulti⟩).bind (returns_pure.mpr rfl))

/-- Without overflow checks the chain has a result. -/
theorem autoSlotConsts_wrapping (prev : LayoutStep) (shapes : List Shape) :
    ∃ steps, Returns (autoSlotConsts .wrapping prev shapes) steps := by
  induction shapes generalizing prev with
  | nil => exact ⟨[], rfl⟩
  | cons s rest ih =>
    exact exists_returns_bind (layoutStepU64_wrapping prev _ _) fun step =>
      exists_returns_bind (ih step) fun steps => ⟨_, rfl⟩

/-- With overflow checks the chain has a result if every step has. -/
theorem autoSlotConsts_checked {prev : LayoutStep} (hsound : prev.Sound) (hprev : prev.nextSlot < 2 ^ 64)
    (shapes : List Shape) :
    (∃ steps, Returns (autoSlotConsts .checked prev shapes) steps) ↔
      ∀ q ∈ slotChain prev shapes, q.slot < 2 ^ 64 ∧ (1 < q.shape.slots → q.slot + q.shape.slots < 2 ^ 64) := by
  induction shapes generalizing prev with
  | nil => simpa [slotChain] using ⟨[], rfl⟩
  | cons s rest ih =>
    have hspec := layoutStep_spec hsound s
    have hnext : (layoutStep prev s.packedBytes s.slots).slot < 2 ^ 64 →
        (1 < s.slots → (layoutStep prev s.packedBytes s.slots).slot + s.slots < 2 ^ 64) →
        (layoutStep prev s.packedBytes s.slots).nextSlot < 2 ^ 64 := by
      intro hlt hmulti
      have hstop : (layoutStep prev s.packedBytes s.slots).nextSlot + 1 =
          (layoutStep prev s.packedBytes s.slots).slot + s.slots := hspec.nextSlot_eq
      rcases s.slots_cases with h1 | ⟨h1, -⟩
      · omega
      · have := hmulti h1
        omega
    rw [slotChain, List.forall_mem_cons]
    constructor
    · rintro ⟨steps, h⟩
      obtain ⟨step, hstep, h⟩ := returns_bind.mp h
      obtain ⟨steps', hsteps, -⟩ := returns_bind.mp h
      obtain ⟨rfl, hlt, hmulti⟩ := (layoutStepU64_checked hprev s).mp hstep
      exact ⟨⟨hlt, hmulti⟩, (ih hspec.sound (hnext hlt hmulti)).mp ⟨steps', hsteps⟩⟩
    · rintro ⟨⟨hlt, hmulti⟩, hrest⟩
      obtain ⟨steps, hsteps⟩ := (ih hspec.sound (hnext hlt hmulti)).mpr hrest
      exact ⟨_, ((layoutStepU64_checked hprev s).mpr ⟨rfl, hlt, hmulti⟩).bind (hsteps.bind rfl)⟩

theorem entryU64_of_lt {p : Profile} {prev : LayoutStep} {bytes : ℕ}
    (h : (if prev.nextSpace < bytes then (prev.nextSlot + 1, 32) else (prev.nextSlot, prev.nextSpace)).1 < 2 ^ 64) :
    entryU64 p prev bytes =
      pure (if prev.nextSpace < bytes then (prev.nextSlot + 1, 32) else (prev.nextSlot, prev.nextSpace)) := by
  by_cases hfit : prev.nextSpace < bytes
  · rw [if_pos hfit] at h
    rw [entryU64, if_pos hfit, if_pos hfit, uadd_of_lt h, pure_bind]
  · rw [entryU64, if_neg hfit, if_neg hfit]

/-- An end of `2 ^ 64` wraps to zero, and the last slot wraps back. -/
theorem exitU64_wrapping {slot offset slots : ℕ} (h : slot + slots ≤ 2 ^ 64) :
    exitU64 .wrapping slot offset slots = pure (if slots > 1 then (slot + slots - 1, 0) else (slot, offset)) := by
  by_cases hmulti : slots > 1
  · rw [exitU64, if_pos hmulti, if_pos hmulti]
    rcases Nat.lt_or_eq_of_le h with hlt | heq
    · rw [uadd_of_lt hlt, pure_bind, usub_of_le (by omega), pure_bind]
    · have hwrap : uadd .wrapping slot slots = pure 0 := by
        rw [uadd, heq]
        rfl
      have hback : usub .wrapping 0 1 = pure (2 ^ 64 - 1) := rfl
      rw [hwrap, pure_bind, hback, pure_bind, heq]
  · rw [exitU64, if_neg hmulti, if_neg hmulti]

/-- A field that does not run past the last slot number is placed as on natural numbers, if it is placed. -/
theorem layoutStepU64_eq {p : Profile} {prev : LayoutStep} (hprev : prev.nextSlot < 2 ^ 64) {s : Shape}
    (h : (layoutStep prev s.packedBytes s.slots).slot + s.slots ≤ 2 ^ 64) {step : LayoutStep}
    (hstep : Returns (layoutStepU64 p prev s.packedBytes s.slots) step) :
    layoutStep prev s.packedBytes s.slots = step := by
  cases p with
  | checked => exact ((layoutStepU64_checked hprev s).mp hstep).1
  | wrapping =>
    have hpos := s.slots_pos
    have hlt : (layoutStep prev s.packedBytes s.slots).slot < 2 ^ 64 := by omega
    rw [layoutStepU64, entryU64_of_lt hlt, pure_bind] at hstep
    dsimp only at hstep
    rw [exitU64_wrapping (by exact h), pure_bind] at hstep
    exact returns_pure.mp hstep

/-- So are all fields. -/
theorem autoSlotConsts_eq {p : Profile} {prev : LayoutStep} (hsound : prev.Sound) (hprev : prev.nextSlot < 2 ^ 64)
    {shapes : List Shape} (h : ∀ q ∈ slotChain prev shapes, q.slot + q.shape.slots ≤ 2 ^ 64)
    {steps : List LayoutStep} (hsteps : Returns (autoSlotConsts p prev shapes) steps) :
    (slotChain prev shapes).map Placement.step = steps := by
  induction shapes generalizing prev steps with
  | nil => exact returns_pure.mp hsteps
  | cons s rest ih =>
    have hspec := layoutStep_spec hsound s
    rw [slotChain, List.forall_mem_cons] at h
    have hnext : (layoutStep prev s.packedBytes s.slots).nextSlot + 1 =
        (layoutStep prev s.packedBytes s.slots).slot + s.slots := hspec.nextSlot_eq
    have hlast : (layoutStep prev s.packedBytes s.slots).slot + s.slots ≤ 2 ^ 64 := h.1
    obtain ⟨step, hstep, hsteps⟩ := returns_bind.mp hsteps
    obtain ⟨steps', hsteps', hsteps⟩ := returns_bind.mp hsteps
    obtain rfl := layoutStepU64_eq hprev hlast hstep
    have hlt : (layoutStep prev s.packedBytes s.slots).nextSlot < 2 ^ 64 := by omega
    rw [slotChain, List.map_cons, ih hspec.sound hlt h.2 hsteps']
    exact returns_pure.mp hsteps

/-! ### The checks and what they are for -/

/-- The chain of the walker is evaluated, if it is not refused, to the placements of the fields. -/
theorem chain_iff (p : Profile) (shapes : List Shape) :
    (∃ steps, Returns (autoSlotConsts p .first shapes) steps) ↔ (p = .checked → ∀ q ∈ placements shapes,
      q.slot < 2 ^ 64 ∧ (1 < q.shape.slots → q.slot + q.shape.slots < 2 ^ 64)) := by
  cases p with
  | checked =>
    rw [autoSlotConsts_checked LayoutStep.sound_first (by decide)]
    exact ⟨fun h _ => h, fun h => h rfl⟩
  | wrapping => exact ⟨fun _ h => absurd h (by decide), fun _ => autoSlotConsts_wrapping _ _⟩

theorem Admitted.accepts_iff {fields : List SlotField} (h : Admitted fields) (p : Profile) :
    Accepts p fields ↔ (∀ x ∈ pairsOf (pins fields), clash x.1 x.2 = false) ∧
      ((pairsOf (active fields)).map fun x => overlapIdent x.1 x.2).Nodup ∧
      ((active fields).Pairwise Pin.Apart ∧ (2 ≤ (active fields).length → ∀ a ∈ active fields, a.stop < 2 ^ 64)) ∧
      (p = .checked → ∀ q ∈ placements (autoShapes fields),
        q.slot < 2 ^ 64 ∧ (1 < q.shape.slots → q.slot + q.shape.slots < 2 ^ 64)) := by
  rw [← h.extracted_iff, ← h.idents_iff, ← h.asserts_iff, ← chain_iff]
  exact ⟨fun ha => ⟨ha.extracted, ha.idents, ha.asserts, ha.chain⟩, fun ha => ⟨ha.1, ha.2.1, ha.2.2.1, ha.2.2.2⟩⟩

theorem active_of_pins {fields : List SlotField} (h : pins fields = []) : active fields = [] := by
  rw [active, h, List.filter_nil]

theorem Admitted.valid_iff {fields : List SlotField} (h : Admitted fields) :
    Valid fields ↔ (active fields).Pairwise Pin.Apart ∧ (∀ a ∈ active fields, a.stop ≤ 2 ^ 64) ∧
      ∀ q ∈ placements (autoShapes fields), q.slot + q.shape.slots ≤ 2 ^ 64 := by
  have hpinned : ((active fields).map Pin.placement).Pairwise (fun a b => Disjoint a.footprint b.footprint) ↔
      (active fields).Pairwise Pin.Apart := by
    rw [List.pairwise_map]
    constructor
    · exact fun hall => hall.imp_of_mem fun ha hb hab => (disjoint_placement_iff (h.full _ ha) (h.full _ hb)).mp hab
    · exact fun hall => hall.imp_of_mem fun ha hb hab => (disjoint_placement_iff (h.full _ ha) (h.full _ hb)).mpr hab
  have hcross : ∀ a ∈ (active fields).map Pin.placement, ∀ q ∈ placements (autoShapes fields),
      Disjoint a.footprint q.footprint := by
    intro a ha q hq
    rcases h.unmixed with hpins | hauto
    · rw [active_of_pins hpins] at ha
      exact absurd ha (by simp)
    · rw [hauto] at hq
      exact absurd hq (by simp [placements, slotChain])
  have hrange : (∀ q ∈ numbered fields, q.slot + q.shape.slots ≤ 2 ^ 64) ↔
      (∀ a ∈ active fields, a.stop ≤ 2 ^ 64) ∧
        ∀ q ∈ placements (autoShapes fields), q.slot + q.shape.slots ≤ 2 ^ 64 := by
    rw [numbered, List.forall_mem_append, List.forall_mem_map]
    rfl
  rw [← hrange, ← hpinned]
  constructor
  · exact fun hvalid => ⟨(List.pairwise_append.mp hvalid.apart).1, hvalid.inRange⟩
  · rintro ⟨hapart, hin⟩
    exact ⟨List.pairwise_append.mpr ⟨hapart, placements_disjoint (autoShapes fields), hcross⟩, hin⟩

/-- The false alarms are the valid structs that are refused. -/
theorem Admitted.falseAlarm_iff {fields : List SlotField} (h : Admitted fields) (p : Profile) :
    FalseAlarm p fields ↔ Valid fields ∧ ¬ Accepts p fields := by
  refine and_congr_right fun hvalid => ?_
  obtain ⟨hapart, hends, hwalked⟩ := h.valid_iff.mp hvalid
  rw [h.accepts_iff]
  constructor
  · rintro (⟨hlen, a, ha, hstop⟩ | ⟨x, hx, hclash⟩ | hidents | ⟨rfl, q, hq, hmulti, hstop⟩) ⟨hno, hnodup, ⟨-, hlt⟩, hchain⟩
    · exact absurd (hlt hlen a ha) (by omega)
    · exact absurd hclash (by rw [hno x hx]; exact Bool.false_ne_true)
    · exact hidents hnodup
    · exact absurd ((hchain rfl q hq).2 hmulti) (by omega)
  · intro hrefused
    by_contra hnone
    rw [not_or, not_or, not_or] at hnone
    obtain ⟨hlast, hclash, hidents, hchain⟩ := hnone
    refine hrefused ⟨fun x hx => ?_, Classical.not_not.mp hidents, ⟨hapart, fun hlen a ha => ?_⟩, fun hp q hq => ?_⟩
    · rw [← Bool.not_eq_true]
      exact fun hx' => hclash ⟨x, hx, hx'⟩
    · exact Nat.lt_of_le_of_ne (hends a ha) fun heq => hlast ⟨hlen, a, ha, heq⟩
    · have hpos := q.shape.slots_pos
      have hle := hwalked q hq
      refine ⟨by omega, fun hmulti => Nat.lt_of_le_of_ne hle fun heq => hchain ⟨hp, q, hq, hmulti, heq⟩⟩

/-- The missed structs are the invalid ones that are accepted. -/
theorem Admitted.missed_iff {fields : List SlotField} (h : Admitted fields) (p : Profile) :
    Missed p fields ↔ Accepts p fields ∧ ¬ Valid fields := by
  rw [h.accepts_iff, h.valid_iff]
  constructor
  · rintro (⟨a, hactive, hstop, hno⟩ | ⟨rfl, q, hq, hstop⟩)
    · -- a pinned field: nothing is numbered by the walker
      have hauto : autoShapes fields = [] := by
        refine h.unmixed.resolve_left fun hpins => ?_
        rw [active_of_pins hpins] at hactive
        exact absurd hactive (by simp)
      rw [hactive, hauto]
      refine ⟨⟨hno, by simp [pairsOf], ⟨List.pairwise_singleton _ a, ?_⟩, ?_⟩, fun hvalid => ?_⟩
      · exact fun hlen => absurd hlen (by simp)
      · exact fun _ q hq => absurd hq (by simp [placements, slotChain])
      · exact absurd (hvalid.2.1 a List.mem_cons_self) (by omega)
    · -- a field of the walker: none is pinned
      have hpins : pins fields = [] := by
        refine h.unmixed.resolve_right fun hauto => ?_
        rw [hauto] at hq
        exact absurd hq (by simp [placements, slotChain])
      rw [active_of_pins hpins, hpins]
      refine ⟨⟨by simp [pairsOf], by simp [pairsOf], ⟨List.Pairwise.nil, by simp⟩, ?_⟩, fun hvalid => ?_⟩
      · exact fun hp => absurd hp (by decide)
      · exact absurd (hvalid.2.2 q hq) (by omega)
  · rintro ⟨⟨hno, -, ⟨hapart, hlt⟩, hchain⟩, hinvalid⟩
    by_cases hends : ∀ a ∈ active fields, a.stop ≤ 2 ^ 64
    · refine Or.inr ?_
      have hover : ¬ ∀ q ∈ placements (autoShapes fields), q.slot + q.shape.slots ≤ 2 ^ 64 :=
        fun hwalked => hinvalid ⟨hapart, hends, hwalked⟩
      cases p with
      | checked =>
        refine absurd (fun q hq => ?_) hover
        obtain ⟨hslot, hmulti⟩ := hchain rfl q hq
        rcases q.shape.slots_cases with h1 | ⟨h1, -⟩
        · rw [h1]
          exact hslot
        · exact le_of_lt (hmulti h1)
      | wrapping =>
        simp only [not_forall, not_le] at hover
        obtain ⟨q, hq, hstop⟩ := hover
        exact ⟨rfl, q, hq, hstop⟩
    · refine Or.inl ?_
      simp only [not_forall, not_le] at hends
      obtain ⟨a, ha, hstop⟩ := hends
      have hlen : ¬ 2 ≤ (active fields).length := fun hlen => absurd (hlt hlen a ha) (by omega)
      cases hactive : active fields with
      | nil =>
        rw [hactive] at ha
        exact absurd ha (by simp)
      | cons b rest =>
        cases rest with
        | nil =>
          rw [hactive, List.mem_singleton] at ha
          exact ⟨b, rfl, ha ▸ hstop, hno⟩
        | cons c rest =>
          rw [hactive] at hlen
          exact absurd (by simp) hlen

/-- **The checks accept the valid structs, but for false alarms and missed ones.** -/
theorem accepts_exact_iff (p : Profile) (fields : List SlotField) (h : Admitted fields) :
    (Accepts p fields ↔ Valid fields) ↔ ¬ FalseAlarm p fields ∧ ¬ Missed p fields := by
  rw [h.falseAlarm_iff, h.missed_iff]
  constructor
  · intro hiff
    exact ⟨fun hv => hv.2 (hiff.mpr hv.1), fun ha => ha.2 (hiff.mp ha.1)⟩
  · rintro ⟨hfalse, hmissed⟩
    constructor
    · intro ha
      by_contra hv
      exact hmissed ⟨ha, hv⟩
    · intro hv
      by_contra ha
      exact hfalse ⟨hv, ha⟩

/-- A pinned field of one or two slots, such as `Lazy<U256>` or `Lazy<(U256, U256)>`. -/
def pinnedField (name : String) (n : Fin (2 ^ 64)) (pair : Bool) : SlotField where
  name := name
  shape := ⟨32, if pair then 2 else 1, Nat.succ_pos 31, le_refl 32, by split_ifs <;> decide, fun h => absurd h (lt_irrefl 32)⟩
  slots_lt := by dsimp only; split_ifs <;> decide
  slot := .explicit n
  cfg := none

theorem forall_mem_two {α : Type} {P : α → Prop} {a b : α} (ha : P a) (hb : P b) : ∀ x ∈ [a, b], P x :=
  List.forall_mem_cons.mpr ⟨ha, List.forall_mem_cons.mpr ⟨hb, fun x hx => absurd hx (by simp)⟩⟩

theorem forall_placements_nil {P : Placement → Prop} : ∀ q ∈ placements [], P q :=
  fun q hq => absurd hq (by simp [placements, slotChain])

theorem admitted_two {m n : String} (k l : Fin (2 ^ 64)) (a b : Bool) (hm : m ≠ "host") (hn : n ≠ "host") (hmn : m ≠ n) :
    Admitted [pinnedField m k a, pinnedField n l b] where
  host := forall_mem_two hm hn
  unmixed := Or.inr rfl
  ungated := forall_mem_two (fun _ => rfl) (fun _ => rfl)
  full := by
    change ∀ c ∈ [Pin.mk (pinnedField m k a) k, Pin.mk (pinnedField n l b) l], c.shape.Full
    exact forall_mem_two rfl rfl
  names := by
    change [m, n].Nodup
    exact List.pairwise_pair.mpr hmn

theorem admitted_one {m : String} (k : Fin (2 ^ 64)) (a : Bool) (hm : m ≠ "host") : Admitted [pinnedField m k a] where
  host := fun f hf => by
    rw [List.mem_singleton.mp hf]
    exact hm
  unmixed := Or.inr rfl
  ungated := fun f hf _ => by
    rw [List.mem_singleton.mp hf]
    rfl
  full := fun c hc => by
    have hmem : c ∈ [Pin.mk (pinnedField m k a) k] := hc
    rw [List.mem_singleton.mp hmem]
    rfl
  names := List.pairwise_singleton _ _

/-- Two slots from slot 0, and slot 2: the checks of such fields are exact. -/
theorem touching_exact :
    let fields := [pinnedField "total" 0 true, pinnedField "owner" 2 false];
    Accepts .checked fields ↔ Valid fields := by
  intro fields
  have hactive : active fields = [⟨pinnedField "total" 0 true, 0⟩, ⟨pinnedField "owner" 2 false, 2⟩] := rfl
  have hpins : pins fields = [⟨pinnedField "total" 0 true, 0⟩, ⟨pinnedField "owner" 2 false, 2⟩] := rfl
  have hauto : autoShapes fields = [] := rfl
  refine (accepts_exact_iff .checked fields
    (admitted_two 0 2 true false (by decide) (by decide) (by decide))).mpr ⟨?_, ?_⟩
  · rintro ⟨-, ⟨-, a, ha, hstop⟩ | ⟨x, hx, hclash⟩ | hidents | ⟨-, q, hq, -⟩⟩
    · rw [hactive] at ha
      exact forall_mem_two (P := fun c : Pin => c.stop ≠ 2 ^ 64) (by decide) (by decide) a ha hstop
    · rw [hpins] at hx
      rw [List.mem_singleton.mp hx] at hclash
      exact absurd hclash (by decide)
    · rw [hactive] at hidents
      exact hidents (List.pairwise_singleton _ _)
    · rw [hauto] at hq
      exact forall_placements_nil (P := fun _ => False) q hq
  · rintro (⟨a, ha, -⟩ | ⟨hp, -⟩)
    · rw [hactive] at ha
      exact absurd (congrArg List.length ha) (by simp)
    · exact absurd hp (by decide)

/-- The last slot and the first one are apart, and their struct is refused. A field of two slots that begins
with the last one is accepted. -/
theorem last_slot_inexact :
    let ends := [pinnedField "last" (2 ^ 64 - 1) false, pinnedField "first" 0 false];
    let lone := [pinnedField "lone" (2 ^ 64 - 1) true];
    ∀ p, (Valid ends ∧ ¬ Accepts p ends) ∧ Accepts p lone ∧ ¬ Valid lone := by
  intro ends lone p
  constructor
  · have hadmitted : Admitted ends := admitted_two _ 0 false false (by decide) (by decide) (by decide)
    have hactive : active ends =
        [⟨pinnedField "last" (2 ^ 64 - 1) false, 2 ^ 64 - 1⟩, ⟨pinnedField "first" 0 false, 0⟩] := rfl
    have hvalid : Valid ends := by
      refine hadmitted.valid_iff.mpr ⟨?_, ?_, forall_placements_nil⟩
      · rw [hactive]
        exact List.pairwise_pair.mpr (Or.inr (by decide))
      · rw [hactive]
        exact forall_mem_two (by decide) (by decide)
    have hlast : ∃ a ∈ active ends, a.stop = 2 ^ 64 := by
      rw [hactive]
      exact ⟨_, List.mem_cons_self, by decide⟩
    exact (hadmitted.falseAlarm_iff p).mp ⟨hvalid, Or.inl ⟨le_of_eq (congrArg List.length hactive).symm, hlast⟩⟩
  · have hadmitted : Admitted lone := admitted_one _ true (by decide)
    refine (hadmitted.missed_iff p).mp (Or.inl ⟨⟨pinnedField "lone" (2 ^ 64 - 1) true, 2 ^ 64 - 1⟩, rfl, by decide, ?_⟩)
    change ∀ x ∈ pairsOf [Pin.mk (pinnedField "lone" (2 ^ 64 - 1) true) (2 ^ 64 - 1)], clash x.1 x.2 = false
    simp [pairsOf]

end PvmContract.Storage.SlotChecks
