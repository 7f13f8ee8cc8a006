import Mathlib.Data.Nat.Notation
import Mathlib.Tactic.Basic
import Mathlib.Tactic.SplitIfs
import Mathlib.Algebra.Ring.Nat

/-!
# Fallible runs with machine arithmetic

A run of a decoder ends with a value, with an error value or with a panic, and
it reserves memory on the way. `Run` keeps both: the sizes it asked the
allocator for, and how it ended. The plain `+` and `*` of a 64-bit machine
depend on the build (`Profile`): with overflow checks on they panic, without
them they wrap.

Three things are said about runs. `Returns` is success with a value. `Safe` is
the absence of panics together with a bound on every reservation. `Agrees`
compares the runs of one program under the two profiles: where the checked one
does not panic, the wrapping one is the same run. Each has a rule for `>>=`.
-/

namespace PvmContract.Data

/-- How a computation ends. -/
inductive Exit (α : Type) where
  /-- A value is returned. -/
  | ok (a : α)
  /-- An error value is returned. -/
  | err
  /-- The computation is aborted. -/
  | panic
  deriving DecidableEq, Repr

/-- A computation: the sizes it reserved memory for, in order, and how it ended. -/
structure Run (α : Type) where
  /-- The capacities asked for. -/
  allocs : List ℕ
  /-- How the computation ended. -/
  exit : Exit α
  deriving DecidableEq, Repr

namespace Run

variable {α β : Type}

/-- Return an error value. -/
def fail : Run α := ⟨[], .err⟩

/-- Abort. -/
def abort : Run α := ⟨[], .panic⟩

/-- Reserve room for `n` elements. -/
def alloc (n : ℕ) : Run Unit := ⟨[n], .ok ()⟩

/-- Sequencing: what follows a run that returned a value. -/
def andThen (x : Run α) (f : α → Run β) : Run β :=
  match x.exit with
  | .ok a => ⟨x.allocs ++ (f a).allocs, (f a).exit⟩
  | .err => ⟨x.allocs, .err⟩
  | .panic => ⟨x.allocs, .panic⟩

instance : Monad Run where
  pure a := ⟨[], .ok a⟩
  bind := andThen

/-- `o.ok_or(DecodeError)`. -/
def ofOption (o : Option α) : Run α :=
  match o with
  | some a => pure a
  | none => fail

theorem bind_def (x : Run α) (f : α → Run β) : x >>= f = x.andThen f := rfl

theorem pure_def (a : α) : (pure a : Run α) = ⟨[], .ok a⟩ := rfl

theorem bind_ok (l : List ℕ) (a : α) (f : α → Run β) :
    (⟨l, .ok a⟩ : Run α) >>= f = ⟨l ++ (f a).allocs, (f a).exit⟩ := rfl

theorem bind_err (l : List ℕ) (f : α → Run β) : (⟨l, .err⟩ : Run α) >>= f = ⟨l, .err⟩ := rfl

theorem bind_panic (l : List ℕ) (f : α → Run β) : (⟨l, .panic⟩ : Run α) >>= f = ⟨l, .panic⟩ := rfl

@[simp] theorem pure_andThen (a : α) (f : α → Run β) : pure a >>= f = f a := by
  simp [bind_def, pure_def, andThen]

@[simp] theorem fail_andThen (f : α → Run β) : fail >>= f = fail := rfl

@[simp] theorem abort_andThen (f : α → Run β) : abort >>= f = abort := rfl

@[simp] theorem map_eq_andThen (f : α → β) (x : Run α) : f <$> x = x >>= fun a => pure (f a) := rfl

@[simp] theorem ofOption_some (a : α) : ofOption (some a) = pure a := rfl

@[simp] theorem ofOption_none : ofOption (none : Option α) = fail := rfl

theorem andThen_pure (x : Run α) : x >>= pure = x := by
  obtain ⟨allocs, exit⟩ := x
  cases exit <;> simp [bind_def, pure_def, andThen]

theorem andThen_assoc (x : Run α) (f : α → Run β) (g : β → Run γ) :
    x >>= f >>= g = x >>= fun a => f a >>= g := by
  obtain ⟨allocs, exit⟩ := x
  cases exit with
  | ok a => rcases hf : f a with ⟨allocs', exit' | _ | _⟩ <;> simp [bind_def, andThen, hf]
  | err => rfl
  | panic => rfl

instance : LawfulMonad Run :=
  LawfulMonad.mk' Run andThen_pure pure_andThen andThen_assoc

/-! ### Success -/

/-- The run returns `a`. -/
def Returns (x : Run α) (a : α) : Prop := x.exit = .ok a

@[simp] theorem returns_pure {a b : α} : Returns (pure a) b ↔ a = b := by
  simp [Returns, pure_def]

@[simp] theorem not_returns_fail {a : α} : ¬Returns fail a := by simp [Returns, fail]

@[simp] theorem not_returns_abort {a : α} : ¬Returns abort a := by simp [Returns, abort]

@[simp] theorem returns_alloc {n : ℕ} {u : Unit} : Returns (alloc n) u := by simp [Returns, alloc]

@[simp] theorem returns_ofOption {o : Option α} {a : α} : Returns (ofOption o) a ↔ o = some a := by
  cases o <;> simp

/-- A sequence returns a value when both its parts do. -/
theorem returns_bind {x : Run α} {f : α → Run β} {b : β} :
    Returns (x >>= f) b ↔ ∃ a, Returns x a ∧ Returns (f a) b := by
  rcases x with ⟨allocs, exit | _ | _⟩ <;> simp [Returns, bind_def, andThen]

theorem Returns.bind {x : Run α} {f : α → Run β} {a : α} {b : β} (hx : Returns x a)
    (hf : Returns (f a) b) : Returns (x >>= f) b := returns_bind.mpr ⟨a, hx, hf⟩

/-- Two continuations of a run matter only where it returns. -/
theorem exists_returns_bind {x : Run α} {f : α → Run β} (hx : ∃ a, Returns x a)
    (hf : ∀ a, ∃ b, Returns (f a) b) : ∃ b, Returns (x >>= f) b := by
  obtain ⟨a, ha⟩ := hx
  obtain ⟨b, hb⟩ := hf a
  exact ⟨b, ha.bind hb⟩

theorem bind_congr_of_returns {x : Run α} {f g : α → Run β} (h : ∀ a, Returns x a → f a = g a) :
    x >>= f = x >>= g := by
  rcases x with ⟨allocs, a | _ | _⟩
  · rw [bind_ok, bind_ok, h a rfl]
  · rfl
  · rfl

theorem Returns.unique {x : Run α} {a b : α} (ha : Returns x a) (hb : Returns x b) : a = b := by
  have h := ha.symm.trans hb
  exact Exit.ok.inj h

/-! ### Safety -/

/-- No panic, and nothing larger than `lim` is reserved. -/
structure Safe (lim : ℕ) (x : Run α) : Prop where
  /-- The run does not abort. -/
  no_panic : x.exit ≠ .panic
  /-- Every reservation is bounded. -/
  bounded : ∀ n ∈ x.allocs, n ≤ lim

@[simp] theorem safe_pure {lim : ℕ} (a : α) : Safe lim (pure a) := ⟨by simp [pure_def], by simp [pure_def]⟩

@[simp] theorem safe_fail {lim : ℕ} : Safe lim (fail : Run α) := ⟨by simp [fail], by simp [fail]⟩

@[simp] theorem not_safe_abort {lim : ℕ} : ¬Safe lim (abort : Run α) := fun h => h.no_panic rfl

@[simp] theorem safe_alloc {lim n : ℕ} : Safe lim (alloc n) ↔ n ≤ lim :=
  ⟨fun h => h.bounded n (by simp [alloc]), fun h => ⟨by simp [alloc], by simpa [alloc] using h⟩⟩

@[simp] theorem safe_ofOption {lim : ℕ} (o : Option α) : Safe lim (ofOption o) := by
  cases o <;> simp

/-- A sequence is safe when its first part is, and its second is on what the first returns. -/
theorem safe_bind {lim : ℕ} {x : Run α} {f : α → Run β} :
    Safe lim (x >>= f) ↔ Safe lim x ∧ ∀ a, Returns x a → Safe lim (f a) := by
  obtain ⟨allocs, exit⟩ := x
  cases exit with
  | ok a =>
    constructor
    · rintro ⟨hp, hb⟩
      have hb' : ∀ n, n ∈ allocs ∨ n ∈ (f a).allocs → n ≤ lim := fun n hn =>
        hb n (by simpa [bind_def, andThen] using hn)
      refine ⟨⟨by simp, fun n hn => hb' n (.inl hn)⟩, fun a' ha' => ?_⟩
      obtain rfl : a = a' := Exit.ok.inj ha'
      exact ⟨hp, fun n hn => hb' n (.inr hn)⟩
    · rintro ⟨hx, hf⟩
      have hfa := hf a rfl
      refine ⟨hfa.no_panic, fun n hn => ?_⟩
      rcases List.mem_append.mp hn with hn | hn
      · exact hx.bounded n hn
      · exact hfa.bounded n hn
  | err =>
    rw [bind_err]
    exact ⟨fun h => ⟨⟨by simp, h.bounded⟩, by simp [Returns]⟩, fun h => ⟨by simp, h.1.bounded⟩⟩
  | panic =>
    rw [bind_panic]
    exact ⟨fun h => absurd rfl h.no_panic, fun h => absurd rfl h.1.no_panic⟩

/-- The run panics. -/
def Aborts (x : Run α) : Prop := x.exit = .panic

theorem Aborts.not_safe {x : Run α} (h : Aborts x) {lim : ℕ} : ¬Safe lim x := fun hs => hs.no_panic h

@[simp] theorem not_aborts_pure {a : α} : ¬Aborts (pure a) := by simp [Aborts, pure_def]

@[simp] theorem not_aborts_fail : ¬Aborts (fail : Run α) := by simp [Aborts, fail]

theorem exists_limit (ns : List ℕ) : ∃ lim, ∀ n ∈ ns, n ≤ lim := by
  induction ns with
  | nil => exact ⟨0, by simp⟩
  | cons n ns ih =>
    obtain ⟨lim, hlim⟩ := ih
    refine ⟨max n lim, fun m hm => ?_⟩
    rcases List.mem_cons.mp hm with rfl | hm
    · exact Nat.le_max_left _ _
    · exact Nat.le_trans (hlim m hm) (Nat.le_max_right _ _)

/-- A run that no limit makes safe panics. -/
theorem aborts_of_not_safe {x : Run α} (h : ∀ lim, ¬Safe lim x) : Aborts x := by
  obtain ⟨lim, hlim⟩ := exists_limit x.allocs
  exact Classical.byContradiction fun hne => h lim ⟨hne, hlim⟩

theorem Aborts.bind_left {x : Run α} (h : Aborts x) (f : α → Run β) : Aborts (x >>= f) := by
  rcases x with ⟨allocs, exit⟩
  obtain rfl : exit = .panic := h
  rfl

theorem Returns.aborts_bind {x : Run α} {f : α → Run β} {a : α} (hx : Returns x a) (hf : Aborts (f a)) :
    Aborts (x >>= f) := by
  rcases x with ⟨allocs, exit⟩
  obtain rfl : exit = .ok a := hx
  exact hf

theorem safe_of_map {lim : ℕ} {f : α → β} {x : Run α} (h : Safe lim (f <$> x)) : Safe lim x :=
  (safe_bind.mp h).1

theorem exists_of_returns_map {f : α → β} {x : Run α} {b : β} (h : Returns (f <$> x) b) : ∃ a, Returns x a := by
  obtain ⟨a, ha, -⟩ := returns_bind.mp h
  exact ⟨a, ha⟩

/-- A sequence aborts in one of its parts. -/
theorem aborts_bind {x : Run α} {f : α → Run β} :
    Aborts (x >>= f) ↔ Aborts x ∨ ∃ a, Returns x a ∧ Aborts (f a) := by
  rcases x with ⟨allocs, exit | _ | _⟩ <;> simp [Aborts, Returns, bind_def, andThen]

theorem aborts_of_map {f : α → β} {x : Run α} (h : Aborts (f <$> x)) : Aborts x := by
  rcases x with ⟨allocs, exit | _ | _⟩
  · exact absurd (show Exit.ok (f exit) = .panic from h) (by simp)
  · exact absurd (show (Exit.err : Exit β) = .panic from h) (by simp)
  · rfl

/-- Values of equal types. -/
theorem eq_pure_of_cast {x : Run α} {b : β} (hαβ : α = β) (h : cast hαβ <$> x = pure b) :
    x = pure (cast hαβ.symm b) := by
  subst hαβ
  exact (id_map x).symm.trans h

theorem Safe.bind {lim : ℕ} {x : Run α} {f : α → Run β} (hx : Safe lim x)
    (hf : ∀ a, Returns x a → Safe lim (f a)) : Safe lim (x >>= f) := safe_bind.mpr ⟨hx, hf⟩

end Run

/-! ### Machine arithmetic -/

/-- How a build treats an overflowing `+` or `*`. -/
inductive Profile where
  /-- Overflow checks are on. -/
  | checked
  /-- Overflow checks are off. -/
  | wrapping
  deriving DecidableEq, Repr

/-- A result of plain arithmetic on `usize`. -/
def Profile.usize : Profile → ℕ → Run ℕ
  | .checked, n => if n < 2 ^ 64 then pure n else .abort
  | .wrapping, n => pure (n % 2 ^ 64)

/-- `a + b` on `usize`. -/
def uadd (p : Profile) (a b : ℕ) : Run ℕ := p.usize (a + b)

/-- `a * b` on `usize`. -/
def umul (p : Profile) (a b : ℕ) : Run ℕ := p.usize (a * b)

/-- `a - b` on `usize`. -/
def usub (p : Profile) (a b : ℕ) : Run ℕ :=
  if b ≤ a then pure (a - b) else
    match p with
    | .checked => .abort
    | .wrapping => pure ((a + 2 ^ 64 - b) % 2 ^ 64)

/-- `a.checked_add(b).ok_or(DecodeError)`. -/
def checkedAdd (a b : ℕ) : Run ℕ := if a + b < 2 ^ 64 then pure (a + b) else .fail

namespace Run

variable {α β : Type}

theorem usize_of_lt {p : Profile} {n : ℕ} (h : n < 2 ^ 64) : p.usize n = pure n := by
  cases p with
  | checked => rw [Profile.usize, if_pos h]
  | wrapping => rw [Profile.usize, Nat.mod_eq_of_lt h]

theorem uadd_of_lt {p : Profile} {a b : ℕ} (h : a + b < 2 ^ 64) : uadd p a b = pure (a + b) :=
  usize_of_lt h

theorem usub_of_le {p : Profile} {a b : ℕ} (h : b ≤ a) : usub p a b = pure (a - b) := if_pos h

theorem umul_of_lt {p : Profile} {a b : ℕ} (h : a * b < 2 ^ 64) : umul p a b = pure (a * b) :=
  usize_of_lt h

theorem umul_zero (p : Profile) (a : ℕ) : umul p a 0 = pure 0 := usize_of_lt (by omega)

theorem checkedAdd_of_lt {a b : ℕ} (h : a + b < 2 ^ 64) : checkedAdd a b = pure (a + b) := by
  rw [checkedAdd, if_pos h]

theorem checkedAdd_zero {a : ℕ} (h : a < 2 ^ 64) : checkedAdd a 0 = pure a := checkedAdd_of_lt h

theorem returns_checkedAdd {a b c : ℕ} : Returns (checkedAdd a b) c ↔ a + b < 2 ^ 64 ∧ c = a + b := by
  rw [checkedAdd]
  split_ifs with h
  · rw [returns_pure]
    exact ⟨fun hc => ⟨h, hc.symm⟩, fun hc => hc.2.symm⟩
  · exact ⟨fun hc => absurd hc not_returns_fail, fun hc => absurd hc.1 h⟩

@[simp] theorem safe_checkedAdd {lim a b : ℕ} : Safe lim (checkedAdd a b) := by
  unfold checkedAdd
  split_ifs <;> simp

theorem returns_usize_checked {n m : ℕ} : Returns (Profile.checked.usize n) m ↔ n < 2 ^ 64 ∧ m = n := by
  rw [Profile.usize]
  split_ifs with h
  · rw [returns_pure]
    exact ⟨fun hm => ⟨h, hm.symm⟩, fun hm => hm.2.symm⟩
  · exact ⟨fun hm => absurd hm not_returns_abort, fun hm => absurd hm.1 h⟩

theorem safe_usize_checked {lim n : ℕ} : Safe lim (Profile.checked.usize n) ↔ n < 2 ^ 64 := by
  rw [Profile.usize]
  split_ifs with h
  · exact ⟨fun _ => h, fun _ => safe_pure n⟩
  · exact ⟨fun hs => absurd hs not_safe_abort, fun hn => absurd hn h⟩

/-! ### The two profiles -/

/-- Where the first run does not panic, the second is the same run. -/
def Agrees (x y : Run α) : Prop := x.exit ≠ .panic → y = x

@[simp] theorem Agrees.refl (x : Run α) : Agrees x x := fun _ => rfl

theorem Agrees.usize (n : ℕ) : Agrees (Profile.checked.usize n) (Profile.wrapping.usize n) := by
  by_cases h : n < 2 ^ 64
  · rw [usize_of_lt h, usize_of_lt h]
    exact Agrees.refl _
  · intro hp
    rw [Profile.usize, if_neg h] at hp
    exact absurd rfl hp

theorem Agrees.uadd (a b : ℕ) : Agrees (uadd .checked a b) (uadd .wrapping a b) := .usize _

theorem Agrees.umul (a b : ℕ) : Agrees (umul .checked a b) (umul .wrapping a b) := .usize _

theorem Agrees.bind {x y : Run α} {f g : α → Run β} (hxy : Agrees x y)
    (hfg : ∀ a, Returns x a → Agrees (f a) (g a)) : Agrees (x >>= f) (y >>= g) := by
  intro hp
  obtain ⟨allocs, exit⟩ := x
  cases exit with
  | ok a =>
    rw [hxy (by simp), bind_ok, bind_ok, hfg a rfl hp]
  | err => rw [hxy (by simp)]; rfl
  | panic => exact absurd rfl hp

end Run

end PvmContract.Data
