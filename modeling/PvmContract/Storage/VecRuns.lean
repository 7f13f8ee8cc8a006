import PvmContract.Storage.Struct

/-!
# Vectors over whole runs

A run of operations on a vector that was never written returns what the same operations
on an empty list return, and leaves nothing behind of the elements that were removed, as
long as every cursor is used while there is an element at its index.

The guards of components are tied to the borrow that returned them, so their uses meet
this condition. The cursor of a value is an owned handle, which may be kept: when it is
written after its element was removed, the value is found again by the next element at
that index (`stale_cursor`).
-/

namespace PvmContract.Storage.StorageVec

open PvmContract.Data PvmContract.Contract

/-- One step. -/
theorem step_refines {K : VecKind} {u : Usage K.elem} {keccak : Hash} {root : Key}
    (hsep : Separate keccak (points K.elem u keccak root) (root.range 1)) (s : Store) (l : List K.elem.Val) (op : Op K)
    (h : (place K.elem u keccak root).Holds s.bytes l) (hop : liveOp l op ∧ withinOp u l op) :
    (place K.elem u keccak root).Holds (attempt (execOp keccak root) s op).1.bytes (attempt specOp l op).1 ∧
      (attempt (execOp keccak root) s op).2 = (attempt specOp l op).2 := by
  have hrelated := execOp_related hsep h op hop.1 hop.2
  refine attempt_refines (R := fun (s : Store) l => (place K.elem u keccak root).Holds s.bytes l) h ?_
  exact hrelated.mono fun a b hab => ⟨hab.1.holds, hab.2⟩

/-- **A vector is a list.** The hash has to keep apart what is in use of the vector in the run. -/
theorem storageVec_run (K : VecKind) {keccak : Hash} {root : Key} {u : Usage K.elem}
    (hsep : Separate keccak (points K.elem u keccak root) (root.range 1)) {s : Store}
    (hblank : ∀ j, Owned keccak (points K.elem u keccak root) (root.range 1) j → s.entry j = none)
    {ops : List (Op K)} (hlive : Along (attempt specOp) liveOp [] ops)
    (hwithin : Along (attempt specOp) (withinOp u) [] ops) :
    let run := trace (attempt (execOp keccak root)) s ops;
    let reference := trace (attempt specOp) [] ops;
    run.2 = reference.2 ∧
      ∀ i : Fin (size K.elem u), reference.1.length ≤ i.1 → ∀ c ∈ (elemPlace K.elem u keccak root i).cells,
        run.1.bytes c = 0 := by
  have hinitial : (place K.elem u keccak root).Holds s.bytes [] := by
    refine initial_iff.mpr fun c hc => ?_
    exact (Store.entry_eq_none_iff_bytes s c.1).mp (hblank c.1 ((place_occupies 0).cells_owned c hc)) c.2
  obtain ⟨hlast, houts⟩ := trace_refines (step_refines hsep) hinitial (hlive.and hwithin)
  refine ⟨houts, fun i hi c hc => ?_⟩
  have hheld : (elemPlace K.elem u keccak root i).Holds _ (elems K.elem u _ i) := hlast.2.2.1 i
  rw [elems_of_le hi] at hheld
  exact K.elem.initial_iff.mp hheld c hc

/-- `StorageVec<u64>`. -/
def u64Vec : VecKind := .simple (.packed Scalar.u64.packable Scalar.u64_narrow)

theorem u64Vec_points {keccak : Hash} {root p : Key} (hp : p ∈ points u64Vec.elem (.all u64Vec.elem) keccak root) :
    p = root := by
  rcases hp with rfl | ⟨i, -, hp⟩
  · rfl
  · exact absurd hp (Set.notMem_empty _)

theorem u64Vec_separate :
    Separate slotHashes (points u64Vec.elem (.all u64Vec.elem) slotHashes (.ofNum 0)) ((Key.ofNum 0).range 1) := by
  refine slotHashes_separate.mono (fun p hp => .inl (u64Vec_points hp)) ?_
  rintro _ ⟨i, hi, rfl⟩
  rw [Nat.lt_one_iff.mp hi, Key.add_zero]
  exact Nat.two_pow_pos 64

/-- Five elements take two slots. The third one is written through its cursor, and four are taken away
in three ways. -/
def sampleOps : List (Op u64Vec) :=
  [.inr (.push ⟨(1#64 : BitVec 64), trivial⟩), .inr (.push ⟨(2#64 : BitVec 64), trivial⟩), .inl .grow,
    .inl (.cursor 2 (.set ⟨(3#64 : BitVec 64), trivial⟩)), .inr (.push ⟨(4#64 : BitVec 64), trivial⟩),
    .inr (.push ⟨(5#64 : BitVec 64), trivial⟩), .inl (.ask (.iter [.next .get, .nextBack .get])), .inr .pop,
    .inl .eraseLast, .inl (.ask (.last .get)), .inl .clear, .inl (.ask (.get 0 .get)), .inl .grow,
    .inl (.ask (.get 0 .get))]

theorem sampleOps_live : Along (attempt specOp) liveOp [] sampleOps :=
  ⟨trivial, trivial, trivial, ⟨_, rfl, trivial⟩, trivial, trivial, trivial, trivial, trivial, trivial, trivial,
    trivial, trivial, trivial, trivial⟩

/-! ### Vectors in vectors -/

/-- What is in use of a vector of vectors that has one element. -/
def Usage.one {K : VecKind} (u : Usage K.elem) : Usage (.vec K) := ⟨1, fun _ => u⟩

/-- It hashes its own root, and what its element does. -/
theorem points_one {K : VecKind} {u : Usage K.elem} {keccak : Hash} {root p : Key}
    (hp : p ∈ points (.vec K) u.one keccak root) : p = root ∨ p ∈ points K.elem u keccak (dynBodyRoot keccak root) := by
  rcases hp with rfl | ⟨i, hi, hp⟩
  · exact .inl rfl
  · obtain rfl : i = 0 := Nat.lt_one_iff.mp (lt_of_lt_of_le hi (Nat.min_le_left _ _))
    have hkey : elemKey (Component.vec K).shape keccak root 0 = dynBodyRoot keccak root := by
      rw [elemKey, slotNum, ite_eq_right_iff.mpr fun _ => by rw [Nat.zero_div, Nat.zero_mul], Nat.zero_mul,
        Key.add_zero]
    rw [hkey] at hp
    exact .inr hp

/-- `StorageVec<StorageVec<StorageVec<StorageVec<u64>>>>`. -/
def deepVec : VecKind := .container (.vec (.container (.vec (.container (.vec u64Vec)))))

/-- One element of each of the outer vectors is in use. -/
def deepUsage : Usage deepVec.elem := Usage.one (Usage.one (Usage.one (.all u64Vec.elem)))

/-- The hash of the first slot, the hash of that, and so on. -/
def deepRoot : ℕ → ℕ
  | 0 => 0
  | 1 => 0x290decd9548b62a8d60345a988386fc84ba6bc95484008f6362f93160ef3e563
  | 2 => 0x510e4e770828ddbf7f7b00ab00a9f6adaf81c0dc9cc85f1f8249c256942d61d9
  | 3 => 0x356e5a2cc1eba076e650ac7473fccc37952b46bc2e419a200cec0c451dce2336
  | _ => 0xb903bd7696740696b2b18bd1096a2873bb8ad0c2e7f25b00a0431014edb3f539

/-- The hashes of the roots. -/
def deepHashes (preimage : List UInt8) : Key :=
  if preimage = (Key.ofNum (deepRoot 0)).1 then .ofNum (deepRoot 1)
  else if preimage = (Key.ofNum (deepRoot 1)).1 then .ofNum (deepRoot 2)
  else if preimage = (Key.ofNum (deepRoot 2)).1 then .ofNum (deepRoot 3)
  else .ofNum (deepRoot 4)

theorem deepHashes_root : ∀ i < 4, dynBodyRoot deepHashes (.ofNum (deepRoot i)) = .ofNum (deepRoot (i + 1)) := by
  decide

theorem deep_points {p : Key} (hp : p ∈ points deepVec.elem deepUsage deepHashes (.ofNum 0)) :
    ∃ i < 4, p = .ofNum (deepRoot i) := by
  rcases points_one hp with rfl | hp
  · exact ⟨0, by decide, rfl⟩
  rw [show Key.ofNum 0 = .ofNum (deepRoot 0) from rfl, deepHashes_root 0 (by decide)] at hp
  rcases points_one hp with rfl | hp
  · exact ⟨1, by decide, rfl⟩
  rw [deepHashes_root 1 (by decide)] at hp
  rcases points_one hp with rfl | hp
  · exact ⟨2, by decide, rfl⟩
  rw [deepHashes_root 2 (by decide)] at hp
  exact ⟨3, by decide, u64Vec_points hp⟩

/-- The region of a root begins with the next one. -/
theorem deep_region {i : ℕ} (hi : i < 4) {k : Key} (hk : k ∈ region deepHashes (.ofNum (deepRoot i))) :
    deepRoot (i + 1) ≤ k.num ∧ k.num < deepRoot (i + 1) + 2 ^ 65 := by
  have hfit : ∀ i < 4, deepRoot (i + 1) + 2 ^ 65 < 2 ^ 256 := by decide
  have hroot := hfit i hi
  rw [region, deepHashes_root i hi] at hk
  have hnum : (Key.ofNum (deepRoot (i + 1))).num = deepRoot (i + 1) := Key.num_ofNum (by omega)
  have hrange := Key.num_of_mem_range (by rw [hnum]; exact le_of_lt hroot) hk
  rw [hnum] at hrange
  exact hrange

theorem deep_separate :
    Separate deepHashes (points deepVec.elem deepUsage deepHashes (.ofNum 0)) ((Key.ofNum 0).range 1) where
  regions p hp q hq hne := by
    obtain ⟨i, hi, rfl⟩ := deep_points hp
    obtain ⟨j, hj, rfl⟩ := deep_points hq
    have hij : i ≠ j := fun heq => hne (heq ▸ rfl)
    have hapart : ∀ i < 4, ∀ j < 4, i ≠ j →
        deepRoot (i + 1) + 2 ^ 65 ≤ deepRoot (j + 1) ∨ deepRoot (j + 1) + 2 ^ 65 ≤ deepRoot (i + 1) := by decide
    rw [Set.disjoint_left]
    intro k hk hk'
    have hroots := hapart i hi j hj hij
    have hi' := deep_region hi hk
    have hj' := deep_region hj hk'
    omega
  slots p hp := by
    obtain ⟨i, hi, rfl⟩ := deep_points hp
    have hpos : ∀ i < 4, 0 < deepRoot (i + 1) := by decide
    rw [Set.disjoint_left]
    rintro k hk ⟨t, ht, rfl⟩
    have hroot := hpos i hi
    have hi' := deep_region hi hk
    rw [Nat.lt_one_iff.mp ht, Key.add_zero, Key.num_ofNum (by decide)] at hi'
    omega

/-- The first element of a vector of vectors is operated on. -/
def inFirst {K : VecKind} (op : Op K) : Op (.container (.vec K)) := .inl (.cursor 0 op)

/-- Each vector gets an element, the innermost gets two numbers and loses one, and all is erased. -/
def deepOps : List (Op deepVec) :=
  [.inl .grow, inFirst (.inl .grow), inFirst (inFirst (.inl .grow)),
    inFirst (inFirst (inFirst (.inr (.push ⟨(5#64 : BitVec 64), trivial⟩)))),
    inFirst (inFirst (inFirst (.inr (.push ⟨(7#64 : BitVec 64), trivial⟩)))), inFirst (inFirst (inFirst (.inr .pop))),
    inFirst (inFirst (inFirst (.inl (.ask (.first .get))))), .inl .eraseLast, .inl .grow, inFirst (.inl (.ask .len))]

theorem live_inFirst {K : VecKind} {l : List (Component.vec K).Val} {v : List K.elem.Val} (hv : l[0]? = some v)
    {op : Op K} (h : liveOp v op) : liveOp (K := .container (.vec K)) l (inFirst op) := ⟨v, hv, h⟩

theorem within_inFirst {K : VecKind} {u : Usage K.elem} {l : List (Component.vec K).Val} {v : List K.elem.Val}
    (hv : l[0]? = some v) {op : Op K} (h : withinOp u v op) :
    withinOp (K := .container (.vec K)) u.one l (inFirst op) := by
  intro w hw
  obtain rfl := Option.some.inj (hv.symm.trans hw)
  exact h

theorem within_grow {K : VecKind} {u : Usage K.elem} : withinOp (K := .container (.vec K)) u.one [] (.inl .grow) :=
  fun _ => Nat.one_pos

theorem deepOps_live : Along (attempt specOp) liveOp [] deepOps :=
  ⟨trivial, live_inFirst rfl trivial, live_inFirst rfl (live_inFirst rfl trivial),
    live_inFirst rfl (live_inFirst rfl (live_inFirst rfl trivial)),
    live_inFirst rfl (live_inFirst rfl (live_inFirst rfl trivial)),
    live_inFirst rfl (live_inFirst rfl (live_inFirst rfl trivial)),
    live_inFirst rfl (live_inFirst rfl (live_inFirst rfl trivial)), trivial, trivial, live_inFirst rfl trivial, trivial⟩

theorem deepOps_within : Along (attempt specOp) (withinOp deepUsage) [] deepOps :=
  ⟨within_grow, within_inFirst rfl within_grow, within_inFirst rfl (within_inFirst rfl within_grow),
    within_inFirst rfl (within_inFirst rfl (within_inFirst rfl id)),
    within_inFirst rfl (within_inFirst rfl (within_inFirst rfl id)),
    within_inFirst rfl (within_inFirst rfl (within_inFirst rfl trivial)),
    within_inFirst rfl (within_inFirst rfl (within_inFirst rfl trivial)), trivial, within_grow,
    within_inFirst rfl trivial, trivial⟩

/-- Both runs return what lists return. -/
theorem storageVec_run_samples :
    (trace (attempt (execOp slotHashes (.ofNum 0))) .empty sampleOps).2 =
        ([.ok .unit, .ok .unit, .ok .unit, .ok (.out .unit), .ok .unit, .ok .unit,
          .ok (.answer (.items [some (.value (1#64 : BitVec 64)), some (.value (5#64 : BitVec 64))])),
          .ok (.option (some (5#64 : BitVec 64))), .ok (.bool true),
          .ok (.answer (.tryGet (some (.value (3#64 : BitVec 64))))), .ok .unit, .error .outOfBoundsAccess, .ok .unit,
          .ok (.answer (.get (.value (0#64 : BitVec 64))))] : List (Except Panic (Out u64Vec))) ∧
      (trace (attempt (execOp deepHashes (.ofNum 0))) .empty deepOps).2 =
        ([.ok .unit, .ok (.out .unit), .ok (.out (.out .unit)), .ok (.out (.out (.out .unit))),
          .ok (.out (.out (.out .unit))), .ok (.out (.out (.out (.option (some (7#64 : BitVec 64)))))),
          .ok (.out (.out (.out (.answer (.tryGet (some (.value (5#64 : BitVec 64)))))))), .ok (.bool true), .ok .unit,
          .ok (.out (.answer (.len 0)))] : List (Except Panic (Out deepVec))) := by
  constructor
  · exact (storageVec_run u64Vec u64Vec_separate (fun _ _ => rfl) sampleOps_live
      (along_of_forall withinOp_all _ _)).1.trans rfl
  · exact (storageVec_run deepVec deep_separate (fun _ _ => rfl) deepOps_live deepOps_within).1.trans rfl

/-! ### A cursor that is kept -/

/-- An element is grown and popped, its cursor is written, and an element is grown again. -/
def staleOps : List (Op u64Vec) :=
  [.inl .grow, .inr .pop, .inl (.cursor 0 (.set ⟨(5#64 : BitVec 64), trivial⟩)), .inl .grow, .inl (.ask (.get 0 .get))]

/-- The new element is not zero. -/
theorem stale_cursor :
    (trace (attempt (execOp slotHashes (.ofNum 0))) .empty staleOps).2.getLast? =
        some (.ok (.answer (.get (.value (5#64 : BitVec 64))))) ∧
      (trace (attempt specOp) [] staleOps).2.getLast? = some (.ok (.answer (.get (.value (0#64 : BitVec 64))))) := by
  constructor
  · rfl
  · rfl

end PvmContract.Storage.StorageVec
