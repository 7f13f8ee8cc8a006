import Mathlib.Logic.Basic

/-!
# Machines and their traces

A machine takes a state and an operation to a new state and an output. Two machines
with the same operations and outputs are compared by a relation between their
states: if every step keeps the relation and gives the same output, then so does
every run (`trace_refines`). A machine may refine another only as long as its
operations meet a condition on the state of the other; `Along` says that they do at
every step of a run.

An operation may also fail; its machine then stays in the state it was in
(`attempt`). Two computations that may fail are compared by `Related`: they fail
alike, or give results in a relation.
-/

namespace PvmContract.Data

variable {σ τ Op Out : Type*}

/-- A run: the last state, and the outputs in order. -/
def trace (step : σ → Op → σ × Out) : σ → List Op → σ × List Out
  | s, [] => (s, [])
  | s, op :: ops =>
    let rest := trace step (step s op).1 ops
    (rest.1, (step s op).2 :: rest.2)

/-- Every operation of a run meets a condition on the state before it. -/
def Along (step : σ → Op → σ × Out) (allowed : σ → Op → Prop) : σ → List Op → Prop
  | _, [] => True
  | s, op :: ops => allowed s op ∧ Along step allowed (step s op).1 ops

instance decidableAlong (step : σ → Op → σ × Out) (allowed : σ → Op → Prop) [∀ s op, Decidable (allowed s op)] :
    ∀ s ops, Decidable (Along step allowed s ops)
  | _, [] => .isTrue trivial
  | s, op :: ops =>
    have := decidableAlong step allowed (step s op).1 ops
    inferInstanceAs (Decidable (allowed s op ∧ Along step allowed (step s op).1 ops))

theorem along_of_forall {step : σ → Op → σ × Out} {allowed : σ → Op → Prop} (h : ∀ s op, allowed s op) (s : σ)
    (ops : List Op) : Along step allowed s ops := by
  induction ops generalizing s with
  | nil => exact trivial
  | cons op ops ih => exact ⟨h s op, ih _⟩

theorem Along.and {step : σ → Op → σ × Out} {p q : σ → Op → Prop} {s : σ} {ops : List Op} (hp : Along step p s ops)
    (hq : Along step q s ops) : Along step (fun s op => p s op ∧ q s op) s ops := by
  induction ops generalizing s with
  | nil => exact trivial
  | cons op ops ih => exact ⟨⟨hp.1, hq.1⟩, ih hp.2 hq.2⟩

/-- **Runs refine as steps do.** -/
theorem trace_refines {step : σ → Op → σ × Out} {spec : τ → Op → τ × Out} {R : σ → τ → Prop} {allowed : τ → Op → Prop}
    (hstep : ∀ s v op, R s v → allowed v op → R (step s op).1 (spec v op).1 ∧ (step s op).2 = (spec v op).2)
    {s : σ} {v : τ} (h : R s v) {ops : List Op} (hops : Along spec allowed v ops) :
    R (trace step s ops).1 (trace spec v ops).1 ∧ (trace step s ops).2 = (trace spec v ops).2 := by
  induction ops generalizing s v with
  | nil => exact ⟨h, rfl⟩
  | cons op ops ih =>
    obtain ⟨hallowed, hrest⟩ := hops
    obtain ⟨hR, hout⟩ := hstep s v op h hallowed
    obtain ⟨hR', houts⟩ := ih hR hrest
    exact ⟨hR', congrArg₂ List.cons hout houts⟩

/-! ### Computations that may fail -/

/-- The same error, or results in a relation. -/
inductive Related {ε α β : Type*} (R : α → β → Prop) : Except ε α → Except ε β → Prop where
  | ok {a b} : R a b → Related R (.ok a) (.ok b)
  | error (e) : Related R (.error e) (.error e)

namespace Related

variable {ε α β : Type*} {R : α → β → Prop} {m : Except ε α} {n : Except ε β}

theorem mono {S : α → β → Prop} (h : Related R m n) (hRS : ∀ a b, R a b → S a b) : Related S m n := by
  cases h with
  | ok hab => exact .ok (hRS _ _ hab)
  | error e => exact .error e

end Related

section

variable {ε α β α' β' : Type}

/-- One computation after the other. -/
theorem Related.bind {R : α → β → Prop} {S : α' → β' → Prop} {m : Except ε α} {n : Except ε β} {f : α → Except ε α'}
    {g : β → Except ε β'} (h : Related R m n) (hfg : ∀ a b, R a b → Related S (f a) (g b)) :
    Related S (m >>= f) (n >>= g) := by
  cases h with
  | ok hab => exact hfg _ _ hab
  | error e => exact .error e

/-- What is computed from the result on one side. -/
theorem Related.bind_left {R : α → β → Prop} {S : α' → β → Prop} {m : Except ε α} {n : Except ε β} {g : α → α'}
    (h : Related R m n) (hg : ∀ a b, R a b → S (g a) b) : Related S (m >>= fun a => .ok (g a)) n := by
  cases h with
  | ok hab => exact .ok (hg _ _ hab)
  | error e => exact .error e

/-- What is computed from the results on both sides. -/
theorem Related.map {R : α → β → Prop} {S : α' → β' → Prop} {m : Except ε α} {n : Except ε β} {f : α → α'} {g : β → β'}
    (h : Related R m n) (hfg : ∀ a b, R a b → S (f a) (g b)) : Related S (f <$> m) (g <$> n) := by
  cases h with
  | ok hab => exact .ok (hfg _ _ hab)
  | error e => exact .error e

end

/-- An operation that fails leaves the state as it was. -/
def attempt {ε : Type*} (step : σ → Op → Except ε (σ × Out)) (s : σ) (op : Op) : σ × Except ε Out :=
  match step s op with
  | .ok r => (r.1, .ok r.2)
  | .error e => (s, .error e)

theorem attempt_refines {ε : Type*} {step : σ → Op → Except ε (σ × Out)} {spec : τ → Op → Except ε (τ × Out)}
    {R : σ → τ → Prop} {s : σ} {v : τ} {op : Op} (hR : R s v)
    (h : Related (fun a b => R a.1 b.1 ∧ a.2 = b.2) (step s op) (spec v op)) :
    R (attempt step s op).1 (attempt spec v op).1 ∧ (attempt step s op).2 = (attempt spec v op).2 := by
  unfold attempt
  generalize step s op = m at h
  generalize spec v op = n at h
  cases h with
  | ok hab => exact ⟨hab.1, congrArg Except.ok hab.2⟩
  | error e => exact ⟨hR, rfl⟩

end PvmContract.Data
