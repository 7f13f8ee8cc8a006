import Mathlib.Data.Nat.Notation
import Mathlib.Logic.Relation

/-!
# Walks that mark what they pass

Walks along a relation `R` that never step on a marked element, where elements are
marked as the walk leaves them. A walk that reaches its target can leave its first
element for good (`exists_step_avoiding`), so marking loses no target. Marking an
element of a finite list leaves fewer to mark (`unmarked_cons_lt`), and where no
cycle is in reach and only the elements of a finite list have successors, there is
no endless walk (`acc_of_no_cycle`).
-/

namespace PvmContract.Data

open Relation

variable {α : Type} {R : α → α → Prop}

/-- A step onto an element that is not marked. -/
def Avoiding (R : α → α → Prop) (marked : List α) (a b : α) : Prop := R a b ∧ b ∉ marked

theorem Avoiding.mono {marked marked' : List α} (h : ∀ a ∈ marked', a ∈ marked) {a b : α}
    (hab : Avoiding R marked a b) : Avoiding R marked' a b :=
  ⟨hab.1, fun hb => hab.2 (h b hb)⟩

/-- A walk that ends elsewhere leaves its first element for good at some point. -/
theorem exists_step_avoiding {marked : List α} {a b : α} (h : ReflTransGen (Avoiding R marked) a b) :
    b = a ∨ ∃ c, Avoiding R (a :: marked) a c ∧ ReflTransGen (Avoiding R (a :: marked)) c b := by
  induction h with
  | refl => exact .inl rfl
  | @tail b c _ hbc ih =>
    by_cases hca : c = a
    · exact .inl hca
    · have hmem : c ∉ a :: marked := by
        rw [List.mem_cons]
        rintro (rfl | hc)
        · exact hca rfl
        · exact hbc.2 hc
      rcases ih with rfl | ⟨d, had, hdb⟩
      · exact .inr ⟨c, ⟨hbc.1, hmem⟩, .refl⟩
      · exact .inr ⟨d, had, hdb.tail ⟨hbc.1, hmem⟩⟩

/-- How many elements of a list are not marked. -/
def unmarked [DecidableEq α] (all marked : List α) : ℕ := all.countP fun a => a ∉ marked

theorem unmarked_cons_le [DecidableEq α] (all marked : List α) (a : α) :
    unmarked all (a :: marked) ≤ unmarked all marked := by
  refine List.countP_mono_left fun b _ hb => ?_
  rw [decide_eq_true_eq, List.mem_cons, not_or] at hb
  exact decide_eq_true hb.2

theorem unmarked_cons_lt [DecidableEq α] {all marked : List α} {a : α} (ha : a ∈ all) (hm : a ∉ marked) :
    unmarked all (a :: marked) < unmarked all marked := by
  obtain ⟨front, back, rfl⟩ := List.append_of_mem ha
  have hfront := unmarked_cons_le front marked a
  have hback := unmarked_cons_le back marked a
  simp only [unmarked] at hfront hback ⊢
  rw [List.countP_append, List.countP_append, List.countP_cons_of_neg (by simp), List.countP_cons_of_pos (by simpa using hm)]
  omega

/-- Where no cycle is in reach, walks end. -/
theorem acc_of_no_cycle [DecidableEq α] (all : List α) (hall : ∀ a b, R a b → a ∈ all) {a : α}
    (h : ∀ b, ReflTransGen R a b → ¬ TransGen R b b) : Acc (fun b a => R a b) a := by
  -- The elements passed so far are marked: none of them comes again.
  have hmarked : ∀ n marked a, unmarked all marked = n → (∀ b ∈ marked, TransGen R b a) →
      (∀ b, ReflTransGen R a b → ¬ TransGen R b b) → Acc (fun b a => R a b) a := by
    intro n
    induction n using Nat.strongRecOn with
    | ind n ih =>
      intro marked a hn hmark hcycle
      refine Acc.intro a fun b hab => ?_
      have ha : a ∉ marked := fun hmem => hcycle a .refl (hmark a hmem)
      refine ih _ ?_ (a :: marked) b rfl (fun c hc => ?_) fun c hc => hcycle c (.head hab hc)
      · rw [← hn]
        exact unmarked_cons_lt (hall a b hab) ha
      · rcases List.mem_cons.mp hc with rfl | hc
        · exact .single hab
        · exact (hmark c hc).tail hab
  exact hmarked _ [] a rfl (by simp) h

end PvmContract.Data
