import Mathlib.Data.Nat.Notation
import Mathlib.Tactic.Basic

/-!
# Programs that ask

A program is a value, or a command with what the program does with its answer. It
runs against a responder, which answers commands in a state and may abort instead.
What a program asks is a property of the program alone (`Asks`), so a rule about
its runs needs the responder to behave on those commands only.

`run_related` is the rule for what a run does to the state: a preorder that every
answer respects is respected by the run. `run_congr` compares two responders in one
state, and `run_simulates` two that have states of their own: if they answer alike in
states that are related, and keep these related, then a program runs alike in both. The
second may be asked things that the first is not meant to answer; `Along` says that a
program does not, and `Ends` also how its run ends.
-/

namespace PvmContract.Data

universe u v w x

/-- A program over the commands `C`, which are answered in `A`. -/
inductive Prog (C : Type u) (A : C → Type v) (α : Type w) : Type (max u v w) where
  | done (a : α)
  | ask (c : C) (k : A c → Prog C A α)

/-- How commands are answered in a state. -/
abbrev Responder (C : Type u) (A : C → Type v) (S : Type x) : Type (max u v x) :=
  (c : C) → S → Option (A c × S)

namespace Prog

variable {C : Type u} {A : C → Type v} {α : Type w} {S : Type x}

/-- The run of a program against a responder. -/
def run (h : Responder C A S) : Prog C A α → S → Option (α × S)
  | done a, s => some (a, s)
  | ask c k, s =>
    match h c s with
    | some (a, s) => (k a).run h s
    | none => none

/-- Every command that the program may ask satisfies `P`. -/
def Asks (P : C → Prop) : Prog C A α → Prop
  | done _ => True
  | ask c k => P c ∧ ∀ a, (k a).Asks P

/-- Every command of the run is allowed in the state in which it is asked. -/
def Along (h : Responder C A S) (allowed : S → C → Prop) : Prog C A α → S → Prop
  | done _, _ => True
  | ask c k, s => allowed s c ∧ ∀ a s', h c s = some (a, s') → (k a).Along h allowed s'

variable {h h' : Responder C A S} {P : C → Prop}

theorem run_ask_some {c : C} {k : A c → Prog C A α} {s s' : S} {a : A c} (hc : h c s = some (a, s')) :
    (ask c k).run h s = (k a).run h s' := by
  rw [run, hc]

theorem run_ask_none {c : C} {k : A c → Prog C A α} {s : S} (hc : h c s = none) :
    (ask c k).run h s = none := by
  rw [run, hc]

/-- A run that ends has had its first command answered. -/
theorem run_ask_eq_some {c : C} {k : A c → Prog C A α} {s : S} {r : α × S}
    (hr : (ask c k).run h s = some r) : ∃ a s', h c s = some (a, s') ∧ (k a).run h s' = some r := by
  cases hc : h c s with
  | none =>
    rw [run_ask_none hc] at hr
    exact absurd hr (by simp)
  | some out =>
    obtain ⟨a, s'⟩ := out
    rw [run_ask_some hc] at hr
    exact ⟨a, s', rfl, hr⟩

/-- A run ends if every command is answered. -/
theorem run_answers (hanswer : ∀ c s, ∃ a s', h c s = some (a, s')) (p : Prog C A α) (s : S) :
    ∃ r, p.run h s = some r := by
  induction p generalizing s with
  | done a => exact ⟨_, rfl⟩
  | ask c k ih =>
    obtain ⟨a, s', hc⟩ := hanswer c s
    rw [run_ask_some hc]
    exact ih a s'

theorem asks_of_forall (hP : ∀ c, P c) (p : Prog C A α) : p.Asks P := by
  induction p with
  | done a => trivial
  | ask c k ih => exact ⟨hP c, ih⟩

/-- **The run rule.** A preorder that every answer respects is respected by the run. -/
theorem run_related {R : S → S → Prop} (hrefl : ∀ s, R s s) (htrans : ∀ {s t u}, R s t → R t u → R s u)
    (hstep : ∀ c s a s', P c → h c s = some (a, s') → R s s') {p : Prog C A α} (hp : p.Asks P) {s : S}
    {r : α × S} (hr : p.run h s = some r) : R s r.2 := by
  induction p generalizing s with
  | done a =>
    obtain rfl := Option.some.inj hr
    exact hrefl s
  | ask c k ih =>
    obtain ⟨a, s', hc, hk⟩ := run_ask_eq_some hr
    exact htrans (hstep c s a s' hp.1 hc) (ih a (hp.2 a) hk)

/-- Responders that answer a program's commands alike run it alike. -/
theorem run_congr (hstep : ∀ c s, P c → h c s = h' c s) {p : Prog C A α} (hp : p.Asks P) (s : S) :
    p.run h s = p.run h' s := by
  induction p generalizing s with
  | done a => rfl
  | ask c k ih =>
    cases hc : h c s with
    | none => rw [run_ask_none hc, run_ask_none ((hstep c s hp.1).symm.trans hc)]
    | some out =>
      obtain ⟨a, s'⟩ := out
      rw [run_ask_some hc, run_ask_some ((hstep c s hp.1).symm.trans hc)]
      exact ih a (hp.2 a) s'

/-- The same answer, in states that are related. -/
inductive Simulates {T : Type*} {β : Type*} (R : S → T → Prop) : Option (β × S) → Option (β × T) → Prop where
  | none : Simulates R none none
  | some (b) {s t} : R s t → Simulates R (some (b, s)) (some (b, t))

/-- **The simulation rule.** -/
theorem run_simulates {T : Type*} {g : Responder C A T} {R : S → T → Prop} {allowed : T → C → Prop}
    (hstep : ∀ c s t, R s t → allowed t c → Simulates R (h c s) (g c t)) {p : Prog C A α} {s : S} {t : T}
    (hp : p.Along g allowed t) (hR : R s t) : Simulates R (p.run h s) (p.run g t) := by
  induction p generalizing s t with
  | done a => exact .some a hR
  | ask c k ih =>
    obtain ⟨hc, hk⟩ := hp
    have hanswer := hstep c s t hR hc
    cases hs : h c s with
    | none =>
      rw [hs] at hanswer
      cases ht : g c t with
      | none =>
        rw [run_ask_none hs, run_ask_none ht]
        exact .none
      | some out =>
        rw [ht] at hanswer
        cases hanswer
    | some out =>
      rw [hs] at hanswer
      cases ht : g c t with
      | none =>
        rw [ht] at hanswer
        cases hanswer
      | some out' =>
        rw [ht] at hanswer
        obtain ⟨a, s'⟩ := out
        obtain ⟨a', t'⟩ := out'
        cases hanswer with
        | some _ hR' =>
          rw [run_ask_some hs, run_ask_some ht]
          exact ih a (hk a t' ht) hR'

/-- The run asks only what is allowed, and this is how it ends. -/
structure Ends (h : Responder C A S) (allowed : S → C → Prop) (p : Prog C A α) (s : S) (a : α) (s' : S) : Prop where
  along : p.Along h allowed s
  run : p.run h s = some (a, s')

namespace Ends

variable {allowed : S → C → Prop} {s s' : S} {a : α}

theorem done (a : α) (s : S) : Ends h allowed (.done a) s a s := ⟨trivial, rfl⟩

theorem ask {c : C} {k : A c → Prog C A α} {b : A c} {t : S} (hc : allowed s c) (hb : h c s = some (b, t))
    (hk : Ends h allowed (k b) t a s') : Ends h allowed (.ask c k) s a s' where
  along := by
    refine ⟨hc, fun b' t' hb' => ?_⟩
    obtain ⟨rfl, rfl⟩ := Prod.mk.inj (Option.some.inj (hb.symm.trans hb'))
    exact hk.along
  run := (run_ask_some hb).trans hk.run

/-- A run whose end is known for one responder ends alike for another that simulates it. -/
theorem simulates {T : Type*} {g : Responder C A T} {R : T → S → Prop}
    (hstep : ∀ c t s, R t s → allowed s c → Simulates R (g c t) (h c s)) {p : Prog C A α}
    (hp : Ends h allowed p s a s') {t : T} (hR : R t s) : ∃ t', p.run g t = some (a, t') ∧ R t' s' := by
  have hsim := run_simulates hstep hp.along hR
  rw [hp.run] at hsim
  cases hrun : p.run g t with
  | none =>
    rw [hrun] at hsim
    cases hsim
  | some out =>
    rw [hrun] at hsim
    obtain ⟨a', t'⟩ := out
    cases hsim with
    | some _ hR' => exact ⟨t', rfl, hR'⟩

end Ends

end Prog

end PvmContract.Data
