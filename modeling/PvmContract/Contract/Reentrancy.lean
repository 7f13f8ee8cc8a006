import PvmContract.Data.Store
import Mathlib.Data.Bool.Basic
import Mathlib.Tactic.Basic

/-!
# The reentrancy guard

A `#[non_reentrant]` method is wrapped by the dispatcher: `&self` methods are
rejected while the lock is taken, `&mut self` methods also take it. The lock is a
word of transient storage, which the frames of a transaction share and which a
reverting frame rolls back; the flag that says which frame took it is a static of
the contract, and every call frame starts with it down. A frame leaves through
the trailing unlock of the dispatcher, through a raw `return_value` of the body,
which releases the lock if the flag is still up, or by reverting.

A trace is what the frames of a transaction do, as a tree: the calls into the
contract with what their bodies do and how they stop, and the calls that pass
through other contracts. Running a trace keeps a record of every call frame of
the contract, with the methods whose bodies were running in the frames around it.
The invariant that carries everything is `LockedBy`: the lock is taken exactly
when a guarded `&mut self` body is running. Each call leaves it as it found it
(`keeps_runAct`), so every record is sound (`transaction_sound`).
-/

namespace PvmContract.Contract

open PvmContract.Data

/-- Solidity's state mutability classifications. -/
inductive StateMutability where
  | pure
  | view
  | nonPayable
  | payable
  deriving DecidableEq, Repr

namespace Reentrancy

/-- What the guard reads of a method. -/
structure Method where
  /-- `view` takes `&self`; `nonPayable` and `payable` take `&mut self`. -/
  mutability : StateMutability
  /-- `#[non_reentrant]`. -/
  isNonReentrant : Bool
  deriving DecidableEq, Repr

/-- A guarded method that takes `&mut self`. -/
def Method.Full (m : Method) : Prop :=
  m.isNonReentrant = true ∧ (m.mutability = .nonPayable ∨ m.mutability = .payable)

/-- A guarded method: the macro rejects the attribute on one without a receiver. -/
def Method.Guarded (m : Method) : Prop := m.isNonReentrant = true ∧ m.mutability ≠ .pure

/-- The state of a call frame: the transient storage as the frame sees it, and
the static `REENTRANCY_LOCK_HELD`. -/
structure Frame where
  transient : Store
  held : Bool

/-- `LOCKED`. -/
def locked : Word := ⟨List.replicate 32 1, List.length_replicate⟩

/-- `UNLOCKED`. -/
def unlocked : Word := Word.zero

/-- How a method's body stops. -/
inductive Stop where
  /-- It returns a value, or `Ok`. -/
  | returns
  /-- It returns `Err(e)`. -/
  | fails
  /-- It calls `return_value` itself. -/
  | returnValue
  /-- It calls `revert` itself, or traps. -/
  | reverts
  deriving DecidableEq, Repr

/-- What code running in a transaction does, one act at a time. -/
inductive Act (key : Key) where
  /-- A write to the transient storage of the contract, not at the lock's key. -/
  | write (k : Key) (v : Word) (h : k ≠ key)
  /-- A call frame of the contract: the method the dispatcher selects, whether its
  payable guard, size check and decoding let it through, and its body. -/
  | call (m : Method) (admitted : Bool) (body : List (Act key)) (stop : Stop)
  /-- A call frame of another contract, in which `body` happens. -/
  | foreign (body : List (Act key)) (reverts : Bool)

/-- What became of a call frame. -/
inductive Fate where
  /-- Reverted before the guard. -/
  | refused
  /-- Reverted by the guard. -/
  | rejected
  /-- The body ran, and stopped so. -/
  | ran (stop : Stop)
  deriving DecidableEq, Repr

/-- The frame was rolled back. -/
def Fate.Reverted : Fate → Prop
  | .refused | .rejected | .ran .fails | .ran .reverts => True
  | .ran .returns | .ran .returnValue => False

/-- The record of a call frame of the contract. -/
structure Record where
  method : Method
  /-- The methods whose bodies run in the frames around this one. -/
  outer : List Method
  fate : Fate
  /-- The lock's word when the frame starts, and after it has ended. -/
  before : Word
  after : Word

section Guard

variable (key : Key)

/-- `__reentrancy_is_locked`. -/
def isLocked (f : Frame) : Bool := f.transient.getStorageOrZero key != unlocked

/-- `__reentrancy_lock`. -/
def lock (f : Frame) : Frame := ⟨f.transient.setStorageOrClear key locked, true⟩

/-- `__reentrancy_unlock`. -/
def unlock (f : Frame) : Frame := ⟨f.transient.setStorageOrClear key unlocked, false⟩

/-- `__reentrancy_clear_if_held`. -/
def clearIfHeld (f : Frame) : Frame :=
  if f.held then ⟨f.transient.setStorageOrClear key unlocked, false⟩ else f

/-- `PolkaVmHost::return_value`: what a successful frame leaves. -/
def returnValue (f : Frame) : Option Store := some (clearIfHeld key f).transient

/-- The end of a body that the dispatcher does not guard: its value is lowered to
`return_value`, its error to `revert`. -/
def finish (f : Frame) : Stop → Option Store
  | .returns | .returnValue => returnValue key f
  | .fails | .reverts => none

/-- The end of a body under the full guard: the unlock stands between the body
and what is done with its result, and a body that does not return skips it. -/
def finishFull (f : Frame) : Stop → Option Store
  | .returns => returnValue key (unlock key f)
  | .fails => none
  | .returnValue => returnValue key f
  | .reverts => none

/-- The guarded part of `generate_dispatch_arm`: what the frame leaves, if it does
not revert, and its fate. `body` is the method's body. -/
def dispatchArm (m : Method) (f : Frame) (body : Frame → Frame × List Record) (stop : Stop) :
    Option Store × Fate × List Record :=
  match m.isNonReentrant, m.mutability with
  | true, .view =>
    if isLocked key f then (none, .rejected, [])
    else (finish key (body f).1 stop, .ran stop, (body f).2)
  | true, .nonPayable | true, .payable =>
    if isLocked key f then (none, .rejected, [])
    else (finishFull key (body (lock key f)).1 stop, .ran stop, (body (lock key f)).2)
  | _, _ => (finish key (body f).1 stop, .ran stop, (body f).2)

mutual

/-- One act in a frame. `here` says whether the frame is the contract's own, and
`outer` which methods' bodies are running. -/
def runAct (here : Bool) (outer : List Method) (f : Frame) : Act key → Frame × List Record
  | .write k v _ =>
    -- another contract's write is to its own transient storage
    (if here then { f with transient := f.transient.setStorageOrClear k v } else f, [])
  | .call m admitted body stop =>
    let r :=
      if admitted then
        dispatchArm key m ⟨f.transient, false⟩ (fun g => runActs true (m :: outer) g body) stop
      else (none, .refused, [])
    let after := r.1.getD f.transient
    ({ f with transient := after },
      ⟨m, outer, r.2.1, f.transient.getStorageOrZero key, after.getStorageOrZero key⟩ :: r.2.2)
  | .foreign body reverts =>
    let r := runActs false outer ⟨f.transient, false⟩ body
    ({ f with transient := if reverts then f.transient else r.1.transient }, r.2)

/-- The acts of a frame in order. -/
def runActs (here : Bool) (outer : List Method) (f : Frame) : List (Act key) → Frame × List Record
  | [] => (f, [])
  | a :: rest =>
    let r := runAct here outer f a
    let r' := runActs here outer r.1 rest
    (r'.1, r.2 ++ r'.2)

end

/-- A transaction: transient storage starts empty. -/
def transaction (acts : List (Act key)) : Frame × List Record := runActs key false [] ⟨.empty, false⟩ acts

/-! ### One frame -/

variable {key}

theorem isLocked_iff (f : Frame) : isLocked key f = true ↔ f.transient.getStorageOrZero key ≠ unlocked := by
  rw [isLocked, bne_iff_ne]

theorem isLocked_eq_false_iff (f : Frame) :
    isLocked key f = false ↔ f.transient.getStorageOrZero key = unlocked := by
  rw [← Bool.not_eq_true, isLocked_iff, not_not]

theorem locked_ne_unlocked : locked ≠ unlocked := by decide

theorem Method.Full.guarded {m : Method} (h : m.Full) : m.Guarded := by
  obtain ⟨h1, h2⟩ := h
  refine ⟨h1, ?_⟩
  rcases h2 with h2 | h2
  · rw [h2]
    decide
  · rw [h2]
    decide

/-- What the dispatcher does with a method: reject it, run its body under the
lock, or run its body as it is. -/
theorem dispatchArm_cases (m : Method) (f : Frame) (body : Frame → Frame × List Record) (stop : Stop) :
    m.Guarded ∧ isLocked key f = true ∧ dispatchArm key m f body stop = (none, .rejected, []) ∨
    m.Full ∧ isLocked key f = false ∧ dispatchArm key m f body stop =
        (finishFull key (body (lock key f)).1 stop, .ran stop, (body (lock key f)).2) ∨
    ¬ m.Full ∧ (m.Guarded → isLocked key f = false) ∧ dispatchArm key m f body stop =
        (finish key (body f).1 stop, .ran stop, (body f).2) := by
  obtain ⟨mutability, guarded⟩ := m
  cases guarded with
  | false =>
    have hnot : ¬ Method.Guarded ⟨mutability, false⟩ := fun h => Bool.false_ne_true h.1
    exact Or.inr (Or.inr ⟨fun h => hnot h.guarded, fun h => absurd h hnot, rfl⟩)
  | true =>
    cases mutability with
    | pure =>
      have hnot : ¬ Method.Guarded ⟨.pure, true⟩ := fun h => h.2 rfl
      exact Or.inr (Or.inr ⟨fun h => hnot h.guarded, fun h => absurd h hnot, rfl⟩)
    | view =>
      have hnot : ¬ Method.Full ⟨.view, true⟩ := by simp [Method.Full]
      have hguard : Method.Guarded ⟨.view, true⟩ := ⟨rfl, by decide⟩
      cases h : isLocked key f with
      | true => exact Or.inl ⟨hguard, rfl, by simp [dispatchArm, h]⟩
      | false => exact Or.inr (Or.inr ⟨hnot, fun _ => rfl, by simp [dispatchArm, h]⟩)
    | nonPayable =>
      have hfull : Method.Full ⟨.nonPayable, true⟩ := ⟨rfl, Or.inl rfl⟩
      cases h : isLocked key f with
      | true => exact Or.inl ⟨hfull.guarded, rfl, by simp [dispatchArm, h]⟩
      | false => exact Or.inr (Or.inl ⟨hfull, rfl, by simp [dispatchArm, h]⟩)
    | payable =>
      have hfull : Method.Full ⟨.payable, true⟩ := ⟨rfl, Or.inr rfl⟩
      cases h : isLocked key f with
      | true => exact Or.inl ⟨hfull.guarded, rfl, by simp [dispatchArm, h]⟩
      | false => exact Or.inr (Or.inl ⟨hfull, rfl, by simp [dispatchArm, h]⟩)

/-- A frame that did not take the lock leaves it alone. -/
theorem finish_getD {f g : Frame} {s : Store} (hheld : g.held = false)
    (hlock : g.transient.getStorageOrZero key = s.getStorageOrZero key) (hs : s = f.transient) (stop : Stop) :
    ((finish key g stop).getD s).getStorageOrZero key = f.transient.getStorageOrZero key := by
  have hclear : clearIfHeld key g = g := by
    rw [clearIfHeld, hheld]
    rfl
  cases stop with
  | returns => simpa [finish, returnValue, hclear, hs] using hlock
  | returnValue => simpa [finish, returnValue, hclear, hs] using hlock
  | fails => simp [finish, hs]
  | reverts => simp [finish, hs]

/-- A frame that took the lock and does not revert frees it, by the trailing
unlock or in `return_value`. -/
theorem finishFull_get {g : Frame} (hheld : g.held = true) {stop : Stop} {s : Store}
    (h : finishFull key g stop = some s) : s.getStorageOrZero key = unlocked := by
  cases stop with
  | returns =>
    have hs : (unlock key g).transient = s := by simpa [finishFull, returnValue, clearIfHeld, unlock] using h
    rw [← hs, unlock, Store.get_set_self]
  | returnValue =>
    have hs : (unlock key g).transient = s := by
      simpa [finishFull, returnValue, clearIfHeld, unlock, hheld] using h
    rw [← hs, unlock, Store.get_set_self]
  | fails => simp [finishFull] at h
  | reverts => simp [finishFull] at h

/-! ### The invariant -/

/-- The lock is taken exactly when a guarded `&mut self` body is running. -/
def LockedBy (key : Key) (outer : List Method) (s : Store) : Prop :=
  s.getStorageOrZero key ≠ unlocked ↔ ∃ o ∈ outer, o.Full

theorem LockedBy.congr {outer : List Method} {s t : Store} (h : LockedBy key outer s)
    (heq : t.getStorageOrZero key = s.getStorageOrZero key) : LockedBy key outer t := by
  rw [LockedBy, heq]
  exact h

theorem LockedBy.cons {outer : List Method} {s : Store} (h : LockedBy key outer s) {m : Method}
    (hm : ¬ m.Full) : LockedBy key (m :: outer) s := by
  have hiff : (∃ o ∈ m :: outer, o.Full) ↔ ∃ o ∈ outer, o.Full := by
    simp only [List.mem_cons, exists_eq_or_imp, hm, false_or]
  rw [LockedBy, hiff]
  exact h

theorem LockedBy.lock (outer : List Method) (f : Frame) {m : Method} (hm : m.Full) :
    LockedBy key (m :: outer) (lock key f).transient := by
  rw [LockedBy, Reentrancy.lock, Store.get_set_self]
  exact ⟨fun _ => ⟨m, List.mem_cons_self, hm⟩, fun _ => locked_ne_unlocked⟩

/-- What the guard promises of a call frame. -/
structure Record.Sound (r : Record) : Prop where
  /-- A guarded body is not entered while a guarded `&mut self` body runs outside. -/
  exclusive : ∀ stop, r.fate = .ran stop → r.method.Guarded → ∀ o ∈ r.outer, ¬ o.Full
  /-- Nothing else makes the guard reject a frame. -/
  rejected : r.fate = .rejected → ∃ o ∈ r.outer, o.Full
  /-- Every frame leaves the lock as it was, the rejected and the reverted ones among them. -/
  restored : r.after = r.before
  /-- A frame that took the lock and did not revert leaves it free. -/
  released : ∀ stop, r.fate = .ran stop → r.method.Full → ¬ r.fate.Reverted → r.after = unlocked

/-- What running code keeps, from a frame whose lock is accounted for: the flag,
the lock's word, and the soundness of every record. -/
structure Keeps (key : Key) (f : Frame) (r : Frame × List Record) : Prop where
  held : r.1.held = f.held
  lock : r.1.transient.getStorageOrZero key = f.transient.getStorageOrZero key
  sound : ∀ x ∈ r.2, x.Sound

/-- The step lemma for a call frame: if its body keeps the lock, so does the call. -/
theorem keeps_call {outer : List Method} {f : Frame} (hf : LockedBy key outer f.transient) (m : Method)
    (admitted : Bool) {body : List (Act key)} (stop : Stop)
    (hbody : ∀ g : Frame, LockedBy key (m :: outer) g.transient →
      Keeps key g (runActs key true (m :: outer) g body)) (here : Bool) :
    Keeps key f (runAct key here outer f (.call m admitted body stop)) := by
  cases admitted with
  | false =>
    simp only [runAct, Bool.false_eq_true, if_false, Option.getD_none]
    refine ⟨rfl, rfl, fun x hx => ?_⟩
    rw [List.mem_singleton] at hx
    subst hx
    exact ⟨by simp, by simp, rfl, by simp⟩
  | true =>
    simp only [runAct, if_true]
    rcases @dispatchArm_cases key m ⟨f.transient, false⟩
      (fun g => runActs key true (m :: outer) g body) stop with
      ⟨-, hlocked, h⟩ | ⟨hfull, hfree, h⟩ | ⟨hnot, hguard, h⟩
    · -- the guard rejects the frame
      rw [h]
      rw [isLocked_iff] at hlocked
      refine ⟨rfl, rfl, fun x hx => ?_⟩
      rw [List.mem_singleton] at hx
      subst hx
      exact ⟨by simp, fun _ => hf.mp hlocked, rfl, by simp⟩
    · -- the body runs under the lock, which was free
      rw [h]
      have hfree' : f.transient.getStorageOrZero key = unlocked := (isLocked_eq_false_iff _).mp hfree
      have hk := hbody (lock key ⟨f.transient, false⟩) (LockedBy.lock outer _ hfull)
      have hafter : (((finishFull key (runActs key true (m :: outer) (lock key ⟨f.transient, false⟩) body).1
          stop).getD f.transient).getStorageOrZero key) = unlocked := by
        cases hfin : finishFull key (runActs key true (m :: outer) (lock key ⟨f.transient, false⟩) body).1 stop with
        | none => exact hfree'
        | some s => exact finishFull_get hk.held hfin
      refine ⟨rfl, hafter.trans hfree'.symm, fun x hx => ?_⟩
      rcases List.mem_cons.mp hx with rfl | hx
      · refine ⟨?_, by simp, hafter.trans hfree'.symm, fun _ _ _ _ => hafter⟩
        intro _ _ _ o ho hfull'
        exact hf.mpr ⟨o, ho, hfull'⟩ hfree'
      · exact hk.sound x hx
    · -- the body runs without taking the lock
      rw [h]
      have hk := hbody ⟨f.transient, false⟩ (hf.cons hnot)
      have hafter := finish_getD (f := f) hk.held hk.lock rfl stop
      refine ⟨rfl, hafter, fun x hx => ?_⟩
      rcases List.mem_cons.mp hx with rfl | hx
      · refine ⟨?_, by simp, hafter, fun _ _ hfull => absurd hfull hnot⟩
        intro _ _ hg o ho hfull'
        have hlocked := hf.mpr ⟨o, ho, hfull'⟩
        exact hlocked ((isLocked_eq_false_iff _).mp (hguard hg))
      · exact hk.sound x hx

mutual

/-- Every act keeps the lock. -/
theorem keeps_runAct (here : Bool) {outer : List Method} {f : Frame} (hf : LockedBy key outer f.transient) :
    (a : Act key) → Keeps key f (runAct key here outer f a)
  | .write k v h => by
    cases here with
    | true => exact ⟨rfl, Store.get_set_of_ne _ v h.symm, by simp [runAct]⟩
    | false => exact ⟨rfl, rfl, by simp [runAct]⟩
  | .call m admitted body stop =>
    keeps_call hf m admitted stop (fun _ hg => keeps_runActs true hg body) here
  | .foreign body reverts => by
    have hk := keeps_runActs false (f := ⟨f.transient, false⟩) hf body
    cases reverts with
    | true => exact ⟨rfl, rfl, hk.sound⟩
    | false => exact ⟨rfl, hk.lock, hk.sound⟩

/-- The run lemma: so do any number of them. -/
theorem keeps_runActs (here : Bool) {outer : List Method} {f : Frame} (hf : LockedBy key outer f.transient) :
    (acts : List (Act key)) → Keeps key f (runActs key here outer f acts)
  | [] => ⟨rfl, rfl, by simp [runActs]⟩
  | a :: rest => by
    have ha := keeps_runAct here hf a
    have hrest := keeps_runActs here (hf.congr ha.lock) rest
    refine ⟨hrest.held.trans ha.held, hrest.lock.trans ha.lock, fun x hx => ?_⟩
    rcases List.mem_append.mp hx with hx | hx
    · exact ha.sound x hx
    · exact hrest.sound x hx

end

/-- **Reentrancy.** In every transaction, every call frame of the contract is
guarded as promised, and the lock is free when the transaction ends. -/
theorem transaction_sound (acts : List (Act key)) :
    (∀ r ∈ (transaction key acts).2, r.Sound) ∧
      (transaction key acts).1.transient.getStorageOrZero key = unlocked := by
  have hfree : LockedBy key [] Store.empty := by
    rw [LockedBy, Store.get_empty]
    simp [unlocked]
  have hk : Keeps key ⟨.empty, false⟩ (runActs key false [] ⟨.empty, false⟩ acts) := keeps_runActs false hfree acts
  exact ⟨hk.sound, hk.lock⟩

end Guard

end Reentrancy

end PvmContract.Contract
