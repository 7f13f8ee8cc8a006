import PvmContract.Contract.Routing

/-!
# The choice of a handler

What a contract with given selectors, fallback and receive does with calldata and a
value, as the language prescribes it: `receive` takes empty calldata, the first
method with the selector takes the calldata that has one, and the fallback takes
what is left. Then a target that is not payable refuses a value.

`choice` says nothing of how a dispatcher finds its target or where it checks the
value. The generated `call` follows it (`call_follows`), with its check hoisted or
not; the code of the refusal may differ, for the hoisted check stands before the
search.
-/

namespace PvmContract.Contract

open PvmContract.Data PvmContract.Macros Run

/-- What the caller sees of the handlers of a contract. -/
structure Interface where
  /-- The selectors, and whether the method is payable. -/
  methods : List (Selector × Bool)
  /-- Whether there is a fallback, and whether it is payable. -/
  fallback : Option Bool
  hasReceive : Bool

/-- A handler, the methods by position. -/
inductive Target where
  | method (i : ℕ)
  | receive
  | fallback
  deriving DecidableEq, Repr

/-- What becomes of a call. -/
inductive Choice where
  /-- One handler takes it. -/
  | enters (t : Target)
  /-- It is reverted, and no handler sees it. -/
  | refused (e : FrameworkError)
  deriving DecidableEq, Repr

namespace Interface

/-- The first method with the selector of the calldata. -/
def selected (s : Interface) (data : List UInt8) : Option ℕ :=
  if h : 4 ≤ data.length then s.methods.findIdx? (fun m => m.1 == selectorOf data h) else none

/-- The handler a call is for. -/
def target (s : Interface) (data : List UInt8) : Option Target :=
  if data.length = 0 ∧ s.hasReceive = true then some .receive
  else
    match s.selected data with
    | some i => some (.method i)
    | none => s.fallback.map fun _ => .fallback

/-- The handler accepts a value. -/
def payable (s : Interface) : Target → Bool
  | .method i => s.methods[i]?.any (·.2)
  | .receive => true
  | .fallback => s.fallback.any (·)

/-- The revert of a call that is for nobody. -/
def missing (data : List UInt8) : FrameworkError := if data.length < 4 then .noSelector else .unknownSelector

/-- What becomes of the call. -/
def choice (s : Interface) (value : Word) (data : List UInt8) : Choice :=
  match s.target data with
  | none => .refused (missing data)
  | some t => if s.payable t = true ∨ value = Word.zero then .enters t else .refused .nonPayableValueReceived

variable {s : Interface} {value : Word} {data : List UInt8}

theorem choice_of_target {t : Target} (h : s.target data = some t) :
    s.choice value data =
      if s.payable t = true ∨ value = Word.zero then .enters t else .refused .nonPayableValueReceived := by
  rw [choice, h]

theorem choice_of_no_target (h : s.target data = none) : s.choice value data = .refused (missing data) := by
  rw [choice, h]

theorem target_of_receive (hlen : data.length = 0) (hrec : s.hasReceive = true) :
    s.target data = some .receive := by
  rw [target, if_pos ⟨hlen, hrec⟩]

theorem selected_of_short (h : ¬ 4 ≤ data.length) : s.selected data = none := by
  rw [selected, dif_neg h]

theorem selected_of_selector (h : 4 ≤ data.length) :
    s.selected data = s.methods.findIdx? (fun m => m.1 == selectorOf data h) := by
  rw [selected, dif_pos h]

theorem not_receives_of_selected {i : ℕ} (h : s.selected data = some i) :
    ¬ (data.length = 0 ∧ s.hasReceive = true) := by
  rintro ⟨hlen, -⟩
  rw [selected_of_short (by rw [hlen]; decide)] at h
  exact absurd h (by simp)

theorem target_of_selected {i : ℕ} (h : s.selected data = some i) : s.target data = some (.method i) := by
  rw [target, if_neg (not_receives_of_selected h), h]

theorem target_of_not_selected (hrec : ¬ (data.length = 0 ∧ s.hasReceive = true)) (h : s.selected data = none) :
    s.target data = s.fallback.map fun _ => .fallback := by
  rw [target, if_neg hrec, h]

theorem missing_of_short (h : ¬ 4 ≤ data.length) : missing data = .noSelector := by
  rw [missing, if_pos (Nat.lt_of_not_le h)]

theorem missing_of_selector (h : 4 ≤ data.length) : missing data = .unknownSelector := by
  rw [missing, if_neg (Nat.not_lt.mpr h)]

end Interface

/-! ### The generated `call` -/

namespace ParsedContract

/-- The interface of a contract module. -/
def interface (c : ParsedContract) : Interface :=
  ⟨c.methods.map fun m => (m.selector, m.mutability == .payable), c.fallback, c.hasReceive⟩

/-- The arm of a method past its value check. -/
def body (env : Env) (m : MethodInfo) (input : List UInt8) : Routed :=
  match (m.decode env.profile input).exit with
  | .ok args => enter env m args
  | .err => .reverted .invalidCalldata
  | .panic => .aborted

/-- A dispatch goes as chosen: the arm of the one method, the one handler, or a revert. -/
def Follows (c : ParsedContract) (env : Env) (data : List UInt8) : Choice → Routed → Prop
  | .enters (.method i), r => ∃ m, c.methods[i]? = some m ∧ r = body env m (data.drop 4)
  | .enters .receive, r => r = .runs .receive
  | .enters .fallback, r => r = .runs .fallback
  | .refused _, r => ∃ e, r = .reverted e

variable {c : ParsedContract} {env : Env} {data : List UInt8} {value : Word}

theorem interface_selected (h : 4 ≤ data.length) :
    c.interface.selected data = c.methods.findIdx? (fun m => m.selector == selectorOf data h) := by
  rw [Interface.selected_of_selector h, interface, List.findIdx?_map]
  rfl

theorem find_of_selected {i : ℕ} (h : 4 ≤ data.length) (hsel : c.interface.selected data = some i) :
    c.methods.find? (fun m => m.selector == selectorOf data h) = c.methods[i]? := by
  rw [List.find?_eq_bind_findIdx?_getElem?, ← interface_selected h, hsel]
  rfl

theorem find_of_not_selected (h : 4 ≤ data.length) (hsel : c.interface.selected data = none) :
    c.methods.find? (fun m => m.selector == selectorOf data h) = none := by
  rw [List.find?_eq_bind_findIdx?_getElem?, ← interface_selected h, hsel]
  rfl

theorem exists_of_selected {i : ℕ} (hsel : c.interface.selected data = some i) :
    ∃ m, c.methods[i]? = some m := by
  rw [Interface.selected] at hsel
  split at hsel
  · rw [interface, List.findIdx?_map] at hsel
    obtain ⟨hi, -⟩ := List.findIdx?_eq_some_iff_getElem.mp hsel
    exact ⟨_, List.getElem?_eq_getElem hi⟩
  · exact absurd hsel (by simp)

theorem payable_method {i : ℕ} {m : MethodInfo} (hm : c.methods[i]? = some m) :
    c.interface.payable (.method i) = (m.mutability == .payable) := by
  simp [Interface.payable, interface, hm]

theorem guard_of_accepts {isPayable : Bool} (h : isPayable = true ∨ value = Word.zero) :
    ¬ ((!isPayable && valueTransferredIsNonzero value) = true) := by
  rw [Bool.and_eq_true, Bool.not_eq_true', valueTransferredIsNonzero_iff]
  rintro ⟨hnot, hv⟩
  rcases h with h | h
  · rw [h] at hnot
    exact absurd hnot (by decide)
  · exact hv h

theorem guard_of_refuses {isPayable : Bool} (h : ¬ (isPayable = true ∨ value = Word.zero)) :
    (!isPayable && valueTransferredIsNonzero value) = true := by
  push Not at h
  rw [Bool.and_eq_true, Bool.not_eq_true', valueTransferredIsNonzero_iff]
  exact ⟨Bool.eq_false_iff.mpr h.1, h.2⟩

theorem orFallback_refuses {payable : Bool} (hfb : c.fallback = some payable)
    (h : ¬ (payable = true ∨ env.value = Word.zero)) (e : FrameworkError) :
    c.orFallback env e = .reverted .nonPayableValueReceived := by
  rw [orFallback, hfb]
  exact if_pos (guard_of_refuses h)

/-- The fallback, or the revert in its place, goes as chosen. -/
theorem orFallback_follows (htarget : c.interface.target data = c.fallback.map fun _ => .fallback)
    (e : FrameworkError) : c.Follows env data (c.interface.choice env.value data) (c.orFallback env e) := by
  cases hfb : c.fallback with
  | none =>
    rw [hfb] at htarget
    rw [Interface.choice_of_no_target htarget, orFallback, hfb]
    exact ⟨_, rfl⟩
  | some payable =>
    rw [hfb] at htarget
    have hpay : c.interface.payable .fallback = payable := by simp [Interface.payable, interface, hfb]
    rw [Interface.choice_of_target htarget, hpay]
    by_cases hok : payable = true ∨ env.value = Word.zero
    · rw [if_pos hok, orFallback, hfb]
      exact if_neg (guard_of_accepts hok)
    · rw [if_neg hok]
      exact ⟨_, orFallback_refuses hfb hok e⟩

/-- A module whose check is hoisted has no payable target but `receive`. -/
theorem not_payable_of_allNonPayable (hall : c.allNonPayable = true) (i : ℕ) :
    c.interface.payable (.method i) = false ∧ c.interface.payable .fallback = false := by
  rw [allNonPayable, Bool.and_eq_true, Bool.and_eq_true, List.all_eq_true] at hall
  obtain ⟨⟨hfb, -⟩, hmethods⟩ := hall
  constructor
  · cases hm : c.methods[i]? with
    | none => simp [Interface.payable, interface, hm]
    | some m =>
      rw [payable_method hm]
      have hne := hmethods m (List.mem_of_getElem? hm)
      simpa using hne
  · cases hsome : c.fallback with
    | none => simp [Interface.payable, interface, hsome]
    | some payable => simpa [Interface.payable, interface, fallbackIsPayable, hsome] using hfb

theorem body_ne_unhandled {m : MethodInfo} {input : List UInt8} : body env m input ≠ .unhandled := by
  intro h
  rw [body] at h
  split at h
  · rw [enter] at h
    split at h <;> exact absurd h (by simp)
  · exact absurd h (by simp)
  · exact absurd h (by simp)

/-- An arm goes as chosen, if the hoisted check lets the call pass. -/
theorem arm_follows {i : ℕ} (hguard : c.allNonPayable = true → env.value = Word.zero)
    (hsel : c.interface.selected data = some i) {m : MethodInfo} (hm : c.methods[i]? = some m) :
    c.Follows env data (c.interface.choice env.value data) (arm env c.allNonPayable m (data.drop 4)) ∧
      arm env c.allNonPayable m (data.drop 4) ≠ .unhandled := by
  rw [Interface.choice_of_target (Interface.target_of_selected hsel), payable_method hm]
  by_cases hok : m.mutability = .payable ∨ env.value = Word.zero
  · have harm : arm env c.allNonPayable m (data.drop 4) = body env m (data.drop 4) := arm_of_guard (Or.inr hok)
    rw [if_pos (hok.imp beq_iff_eq.mpr id), harm]
    exact ⟨⟨m, hm, rfl⟩, body_ne_unhandled⟩
  · push Not at hok
    have hnot : c.allNonPayable = false := Bool.eq_false_iff.mpr fun hall => hok.2 (hguard hall)
    have harm : arm env c.allNonPayable m (data.drop 4) = .reverted .nonPayableValueReceived := by
      rw [arm, if_pos]
      simp [hnot, hok.1, (valueTransferredIsNonzero_iff _).mpr hok.2]
    rw [if_neg (by simpa using hok), harm]
    exact ⟨⟨_, rfl⟩, by simp⟩

/-- The hoisted check refuses a call with value, whoever it is for. -/
theorem hoisted_follows (hall : c.allNonPayable = true) (hv : env.value ≠ Word.zero) (hlen : 4 ≤ data.length) :
    c.Follows env data (c.interface.choice env.value data) (.reverted .nonPayableValueReceived) := by
  have hrec : ¬ (data.length = 0 ∧ c.interface.hasReceive = true) := fun h => by omega
  cases hsel : c.interface.selected data with
  | some i =>
    rw [Interface.choice_of_target (Interface.target_of_selected hsel),
      (not_payable_of_allNonPayable hall i).1, if_neg (by simpa using hv)]
    exact ⟨_, rfl⟩
  | none =>
    have htarget := Interface.target_of_not_selected hrec hsel
    cases hfb : c.interface.fallback with
    | none =>
      rw [hfb] at htarget
      rw [Interface.choice_of_no_target htarget]
      exact ⟨_, rfl⟩
    | some payable =>
      rw [hfb] at htarget
      rw [Interface.choice_of_target htarget, (not_payable_of_allNonPayable hall 0).2,
        if_neg (by simpa using hv)]
      exact ⟨_, rfl⟩

/-- **The generated `call` makes the prescribed choice.** -/
theorem call_follows (hbuf : c.bufferSize.any (· < data.length) = false) :
    c.Follows env data (c.interface.choice env.value data) (c.call env data) := by
  by_cases hlen : 4 ≤ data.length
  · rw [call_of_selector hbuf hlen]
    by_cases hguard : c.allNonPayable = true → env.value = Word.zero
    · rw [route_eq hguard]
      cases hsel : c.interface.selected data with
      | none =>
        have hrec : ¬ (data.length = 0 ∧ c.interface.hasReceive = true) := fun h => by omega
        rw [find_of_not_selected hlen hsel]
        exact orFallback_follows (Interface.target_of_not_selected hrec hsel) _
      | some i =>
        obtain ⟨m, hm⟩ := exists_of_selected hsel
        obtain ⟨hfollows, hne⟩ := arm_follows hguard hsel hm
        rw [find_of_selected hlen hsel, hm]
        dsimp only
        split
        · rename_i hun
          exact absurd hun hne
        · exact hfollows
    · push Not at hguard
      rw [route_hoisted hguard.1 hguard.2]
      exact hoisted_follows hguard.1 hguard.2 hlen
  · rw [call_of_short hbuf hlen]
    by_cases hrec : data.length = 0 ∧ c.hasReceive = true
    · have hboth : (c.hasReceive && data.length == 0) = true := by simp [hrec.1, hrec.2]
      have hpay : c.interface.payable .receive = true := rfl
      rw [if_pos hboth, Interface.choice_of_target (Interface.target_of_receive hrec.1 hrec.2),
        if_pos (Or.inl hpay)]
      rfl
    · have hboth : ¬ ((c.hasReceive && data.length == 0) = true) := by simpa [and_comm] using hrec
      rw [if_neg hboth]
      exact orFallback_follows
        (Interface.target_of_not_selected hrec (Interface.selected_of_short hlen)) _

end ParsedContract

end PvmContract.Contract
