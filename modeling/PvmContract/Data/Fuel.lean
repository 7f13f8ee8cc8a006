import Mathlib.Data.List.Forall2
import Mathlib.Data.Nat.Notation
import Mathlib.Tactic.Basic

/-!
# Recursion with fuel

A recursive function whose recursion is not structural is given by its body,
which is handed the function for the calls it makes. `unroll` runs the body to a
depth: at depth `0` there is no answer, as on a machine whose stack is full. The
function terminates at an argument when some depth gives an answer.

Whether it does is a question about the calls alone. A body that answers whenever
its calls are answered terminates wherever the call relation is accessible
(`terminates_of_acc`), and a body that cannot answer unless they are terminates
nowhere else (`acc_of_terminates`).
-/

namespace PvmContract.Data

variable {α β γ : Type*}

/-- The body run to a depth. -/
def unroll (body : (α → Option β) → α → Option β) : ℕ → α → Option β
  | 0, _ => none
  | depth + 1, a => body (unroll body depth) a

/-- Some depth gives an answer. -/
def Terminates (body : (α → Option β) → α → Option β) (a : α) : Prop :=
  ∃ depth, (unroll body depth a).isSome = true

/-- The calls that are made for an argument. -/
def CalledBy (calls : α → List α) (b a : α) : Prop := b ∈ calls a

/-- One depth is enough for a whole list. -/
theorem exists_depth {p : ℕ → α → Prop} {as : List α} (h : ∀ a ∈ as, ∃ n, ∀ m ≥ n, p m a) :
    ∃ n, ∀ a ∈ as, ∀ m ≥ n, p m a := by
  induction as with
  | nil => exact ⟨0, by simp⟩
  | cons a as ih =>
    obtain ⟨n, hn⟩ := h a (by simp)
    obtain ⟨k, hk⟩ := ih fun b hb => h b (by simp [hb])
    refine ⟨max n k, fun b hb m hm => ?_⟩
    rcases List.mem_cons.mp hb with rfl | hb
    · exact hn m (Nat.le_trans (Nat.le_max_left n k) hm)
    · exact hk b hb m (Nat.le_trans (Nat.le_max_right n k) hm)

section

variable {body : (α → Option β) → α → Option β} {calls : α → List α} {a : α}

/-- A body that answers where its calls do has an answer at every depth from some depth on. -/
theorem exists_forall_of_acc
    (hbody : ∀ rec a, (∀ b ∈ calls a, (rec b).isSome = true) → (body rec a).isSome = true)
    (h : Acc (CalledBy calls) a) : ∃ n, ∀ m ≥ n, (unroll body m a).isSome = true := by
  induction h with
  | intro a _ ih =>
    obtain ⟨n, hn⟩ := exists_depth fun b hb => ih b hb
    refine ⟨n + 1, fun m hm => ?_⟩
    cases m with
    | zero => exact absurd hm (Nat.not_succ_le_zero n)
    | succ m => exact hbody _ a fun b hb => hn b hb m (Nat.le_of_succ_le_succ hm)

theorem terminates_of_acc
    (hbody : ∀ rec a, (∀ b ∈ calls a, (rec b).isSome = true) → (body rec a).isSome = true)
    (h : Acc (CalledBy calls) a) : Terminates body a := by
  obtain ⟨n, hn⟩ := exists_forall_of_acc hbody h
  exact ⟨n, hn n (Nat.le_refl n)⟩

/-- A body that makes all its calls answers nowhere else. -/
theorem acc_of_terminates
    (hbody : ∀ rec a, (body rec a).isSome = true → ∀ b ∈ calls a, (rec b).isSome = true)
    (h : Terminates body a) : Acc (CalledBy calls) a := by
  obtain ⟨depth, h⟩ := h
  induction depth generalizing a with
  | zero => cases h
  | succ depth ih => exact Acc.intro a fun b hb => ih (hbody _ a h b hb)

end

/-- Calls that are matched by the calls of another recursion end where those do. -/
theorem acc_of_map {calls : α → List α} {calls' : γ → List γ} {f : γ → α}
    (hf : ∀ c, ∀ d ∈ calls' c, f d ∈ calls (f c)) {c : γ} (h : Acc (CalledBy calls) (f c)) :
    Acc (CalledBy calls') c := by
  generalize ha : f c = a at h
  induction h generalizing c with
  | intro a _ ih =>
    subst ha
    exact Acc.intro c fun d hd => ih (f d) (hf c d hd) rfl

/-- A body whose answers stand when more calls are answered gives the same answer at every greater depth. -/
theorem unroll_succ {body : (α → Option β) → α → Option β}
    (hbody : ∀ rec rec' : α → Option β, (∀ a b, rec a = some b → rec' a = some b) →
      ∀ a b, body rec a = some b → body rec' a = some b) {depth : ℕ} {a : α} {b : β}
    (h : unroll body depth a = some b) : unroll body (depth + 1) a = some b := by
  induction depth generalizing a b with
  | zero => cases h
  | succ depth ih => exact hbody _ _ (fun a b hab => ih hab) a b h

/-! ### Bodies that go through lists -/

/-- Entries that are related as the entries before them. -/
theorem forall₂_of_mem {R S : α → β → Prop} {as : List α} {bs : List β} (h : List.Forall₂ R as bs)
    (hRS : ∀ a ∈ as, ∀ b, R a b → S a b) : List.Forall₂ S as bs := by
  induction h with
  | nil => exact .nil
  | cons hab _ ih => exact .cons (hRS _ (by simp) _ hab) (ih fun a ha => hRS a (by simp [ha]))

/-- Entries that are related to the same entries of another list. -/
theorem forall₂_of_common {R : α → β → Prop} {S : α → γ → Prop} {T : β → γ → Prop} {as : List α} {bs : List β}
    {cs : List γ} (hR : List.Forall₂ R as bs) (hS : List.Forall₂ S as cs)
    (hT : ∀ a ∈ as, ∀ b c, R a b → S a c → T b c) : List.Forall₂ T bs cs := by
  induction hR generalizing cs with
  | nil =>
    cases hS
    exact .nil
  | cons hab _ ih =>
    cases hS with
    | cons hac hS => exact .cons (hT _ (by simp) _ _ hab hac) (ih hS fun a ha => hT a (by simp [ha]))

/-- A list is answered when each of its entries is. -/
theorem isSome_mapM_iff {f : α → Option β} {as : List α} :
    (as.mapM f).isSome = true ↔ ∀ a ∈ as, (f a).isSome = true := by
  induction as with
  | nil => simp
  | cons a as ih =>
    rw [List.mapM_cons]
    cases ha : f a with
    | none => simp [ha]
    | some b =>
      cases has : as.mapM f with
      | none =>
        rw [has] at ih
        simpa [ha] using ih
      | some bs =>
        rw [has] at ih
        simpa [ha] using ih

/-- What a list is answered with comes from its entries. -/
theorem exists_of_mem_mapM {f : α → Option β} {as : List α} {bs : List β} {b : β} (h : as.mapM f = some bs)
    (hb : b ∈ bs) : ∃ a ∈ as, f a = some b := by
  induction as generalizing bs with
  | nil =>
    obtain rfl : [] = bs := Option.some.inj h
    cases hb
  | cons a as ih =>
    rw [List.mapM_cons] at h
    obtain ⟨c, hc, h⟩ := Option.bind_eq_some_iff.mp h
    obtain ⟨cs, hcs, h⟩ := Option.bind_eq_some_iff.mp h
    obtain rfl := Option.some.inj h
    rcases List.mem_cons.mp hb with rfl | hb
    · exact ⟨a, by simp, hc⟩
    · obtain ⟨d, hd, hf⟩ := ih hcs hb
      exact ⟨d, by simp [hd], hf⟩

/-- A list is answered entry by entry. -/
theorem mapM_eq_some_iff {f : α → Option β} {as : List α} {bs : List β} :
    as.mapM f = some bs ↔ List.Forall₂ (fun a b => f a = some b) as bs := by
  induction as generalizing bs with
  | nil =>
    rw [List.forall₂_nil_left_iff, List.mapM_nil]
    exact Option.some_inj.trans eq_comm
  | cons a as ih =>
    rw [List.mapM_cons]
    constructor
    · intro h
      obtain ⟨b, hb, h⟩ := Option.bind_eq_some_iff.mp h
      obtain ⟨bs', hbs, h⟩ := Option.bind_eq_some_iff.mp h
      obtain rfl := Option.some.inj h
      exact .cons hb (ih.mp hbs)
    · rintro (_ | ⟨hb, hbs⟩)
      rw [hb, ih.mpr hbs]
      rfl

/-- Answers that are images of answers, entry by entry. -/
theorem mapM_eq_map {f : α → Option γ} {g : α → Option β} {k : β → γ} {as : List α}
    (h : ∀ a ∈ as, f a = (g a).map k) : as.mapM f = (as.mapM g).map (List.map k) := by
  induction as with
  | nil => rfl
  | cons a as ih =>
    rw [List.mapM_cons, List.mapM_cons, h a (by simp), ih fun b hb => h b (by simp [hb])]
    cases g a with
    | none => rfl
    | some b => cases as.mapM g <;> rfl

/-- A search whose answers are known finds an entry where the answer is yes. -/
theorem anyM_eq_some {f : α → Option Bool} {g : β → Bool} {as : List α} {bs : List β}
    (h : List.Forall₂ (fun a b => f a = some (g b)) as bs) : as.anyM f = some (bs.any g) := by
  induction h with
  | nil => rfl
  | @cons a b as bs hab _ ih =>
    rw [List.anyM_cons, hab, List.any_cons, Option.bind_eq_bind, Option.bind_some]
    cases g b with
    | true => rfl
    | false => exact ih

/-- A search that finds nothing was answered at each entry. -/
theorem eq_of_anyM_eq_false {f : α → Option Bool} {as : List α} (h : as.anyM f = some false) :
    ∀ a ∈ as, f a = some false := by
  induction as with
  | nil => simp
  | cons a as ih =>
    rw [List.anyM_cons] at h
    obtain ⟨b, hb, h⟩ := Option.bind_eq_some_iff.mp h
    cases b with
    | true => cases h
    | false => exact List.forall_mem_cons.mpr ⟨hb, ih h⟩

/-- A search has the same answer when more is known. -/
theorem anyM_mono {f g : α → Option Bool} (hfg : ∀ a b, f a = some b → g a = some b) {as : List α} {b : Bool}
    (h : as.anyM f = some b) : as.anyM g = some b := by
  induction as with
  | nil => exact h
  | cons a as ih =>
    rw [List.anyM_cons] at h ⊢
    obtain ⟨c, hc, h⟩ := Option.bind_eq_some_iff.mp h
    rw [hfg a c hc, Option.bind_eq_bind, Option.bind_some]
    cases c with
    | true => exact h
    | false => exact ih h

/-- A search answers when it could be answered at each entry. -/
theorem isSome_anyM {f : α → Option Bool} {as : List α} (h : ∀ a ∈ as, (f a).isSome = true) :
    (as.anyM f).isSome = true := by
  induction as with
  | nil => rfl
  | cons a as ih =>
    obtain ⟨b, hb⟩ := Option.isSome_iff_exists.mp (h a (by simp))
    rw [List.anyM_cons, hb, Option.bind_eq_bind, Option.bind_some]
    cases b with
    | true => rfl
    | false => exact ih fun b hb => h b (by simp [hb])

end PvmContract.Data
