import PvmContract.Contract.Reentrancy
import PvmContract.Macros.Dispatch
import Mathlib.Data.List.Nodup

/-!
# Routing and payability

The generated `route` of a contract module, the `call` entry point over it, and
hand-written chains of routers. The value check stands in two places: where no
method and no fallback of a module is payable it is hoisted before the `match`
on the selector, and otherwise every arm of a non-payable method makes it.

What a method's body does is not modelled, only that it is entered and with which
arguments: the outcome `runs`. The arm is `generate_dispatch_arm` in full up to
there: the payable guard, the size check and the decoding of `decodeCall`, and the
reentrancy guard, whose lock is a fact about the transaction (`Env.locked`).

The hoisted check also stands before the arm for an unmatched selector, where the
`Router` trait promises `Unhandled`. `proper_iff` says that this is the only way
for a module to misroute, and `chain_eq` what a chain of routers does where it
does not happen.
-/

namespace PvmContract.Contract

open PvmContract.Data PvmContract.Macros Run

/-- A function selector. -/
abbrev Selector : Type := ByteArr 4

/-- The selector of calldata that has one. -/
def selectorOf (data : List UInt8) (h : 4 ≤ data.length) : Selector :=
  ⟨data.take 4, by rw [List.length_take]; omega⟩

/-- The frame a call runs in. -/
structure Env where
  /-- The build's arithmetic. -/
  profile : Profile
  /-- `value_transferred`. -/
  value : Word
  /-- `__reentrancy_is_locked`. -/
  locked : Bool

/-- The 64-bit words of the value, in the byte order of the machine. -/
def valueWords (v : Word) : List ℕ :=
  [ofBe (v.1.take 8).reverse, ofBe ((v.1.drop 8).take 8).reverse, ofBe ((v.1.drop 16).take 8).reverse,
    ofBe (v.1.drop 24).reverse]

/-- `value_transferred_is_nonzero`. -/
def valueTransferredIsNonzero (v : Word) : Bool := (valueWords v).foldl (· ||| ·) 0 != 0

/-- The reverts of the dispatcher. -/
inductive FrameworkError where
  | noSelector
  | unknownSelector
  | nonPayableValueReceived
  | invalidCalldata
  | calldataTooLarge
  | reentrancyGuardReentrantCall
  deriving DecidableEq, Repr

/-- A method of a contract: what the dispatcher reads of it, and its argument
decoder, which the macro generates from the parameters. -/
structure MethodInfo where
  selector : Selector
  paramTypes : List Field
  mutability : StateMutability
  isNonReentrant : Bool
  decode : Profile → List UInt8 → Run (Types.Fields (implOf paramTypes))
  decode_eq : decodeCall paramTypes = some decode

/-- What the reentrancy guard reads of a method. -/
def MethodInfo.guard (m : MethodInfo) : Reentrancy.Method := ⟨m.mutability, m.isNonReentrant⟩

/-- A contract module. -/
structure ParsedContract where
  methods : List MethodInfo
  hasReceive : Bool
  /-- Whether there is a fallback, and whether it is payable. -/
  fallback : Option Bool
  /-- The calldata buffer of a contract without an allocator. -/
  bufferSize : Option ℕ

/-- A piece of user code that the dispatcher enters. -/
inductive Handler where
  | method (m : MethodInfo) (args : Types.Fields (implOf m.paramTypes))
  | receive
  | fallback

/-- How far a dispatch comes. -/
inductive Routed where
  /-- It reverts. -/
  | reverted (e : FrameworkError)
  /-- It panics. -/
  | aborted
  /-- It enters a handler's body. -/
  | runs (h : Handler)
  /-- No selector matches. -/
  | unhandled

namespace ParsedContract

/-- `fallback_is_payable`. -/
def fallbackIsPayable (c : ParsedContract) : Bool := c.fallback == some true

/-- `all_non_payable` of `generate_router`: the check is hoisted. -/
def allNonPayable (c : ParsedContract) : Bool :=
  !c.fallbackIsPayable && !c.methods.isEmpty && c.methods.all (fun m => m.mutability != .payable)

/-- The guarded body of an arm, with the arguments decoded. -/
def enter (env : Env) (m : MethodInfo) (args : Types.Fields (implOf m.paramTypes)) : Routed :=
  if m.isNonReentrant && m.mutability != .pure && env.locked then .reverted .reentrancyGuardReentrantCall
  else .runs (.method m args)

/-- `generate_dispatch_arm`. -/
def arm (env : Env) (guardHoisted : Bool) (m : MethodInfo) (input : List UInt8) : Routed :=
  if !(guardHoisted || m.mutability == .payable) && valueTransferredIsNonzero env.value then
    .reverted .nonPayableValueReceived
  else
    match (m.decode env.profile input).exit with
    | .ok args => enter env m args
    | .err => .reverted .invalidCalldata
    | .panic => .aborted

/-- The generated `route`. -/
def route (c : ParsedContract) (env : Env) (selector : Selector) (input : List UInt8) : Routed :=
  if c.allNonPayable && valueTransferredIsNonzero env.value then .reverted .nonPayableValueReceived
  else
    match c.methods.find? (fun m => m.selector == selector) with
    | some m => arm env c.allNonPayable m input
    | none => .unhandled

/-- The fallback, or the revert that stands in its place. -/
def orFallback (c : ParsedContract) (env : Env) (e : FrameworkError) : Routed :=
  match c.fallback with
  | some payable =>
    if !payable && valueTransferredIsNonzero env.value then .reverted .nonPayableValueReceived
    else .runs .fallback
  | none => .reverted e

/-- The generated `call`. -/
def call (c : ParsedContract) (env : Env) (data : List UInt8) : Routed :=
  if c.bufferSize.any (· < data.length) then .reverted .calldataTooLarge
  else if h : 4 ≤ data.length then
    match c.route env (selectorOf data h) (data.drop 4) with
    | .unhandled => c.orFallback env .unknownSelector
    | r => r
  else if c.hasReceive && data.length == 0 then .runs .receive
  else c.orFallback env .noSelector

/-- A chain of routers, each tried in turn. -/
def chain (env : Env) (selector : Selector) (input : List UInt8) : List ParsedContract → Routed
  | [] => .unhandled
  | c :: rest =>
    match c.route env selector input with
    | .unhandled => chain env selector input rest
    | r => r

/-- The handler accepts value. -/
def Payable (c : ParsedContract) : Handler → Prop
  | .method m _ => m.mutability = .payable
  | .receive => True
  | .fallback => c.fallbackIsPayable = true

/-- A method of the module has the selector. -/
def Declares (c : ParsedContract) (selector : Selector) : Prop := ∃ m ∈ c.methods, m.selector = selector

instance (c : ParsedContract) (selector : Selector) : Decidable (c.Declares selector) :=
  inferInstanceAs (Decidable (∃ m ∈ c.methods, m.selector = selector))

/-! ### The value check -/

theorem valueTransferredIsNonzero_iff (v : Word) : valueTransferredIsNonzero v = true ↔ v ≠ Word.zero := by
  have hbytes : (∀ b ∈ v.1, b = 0) ↔ (∀ b ∈ v.1.take 8, b = 0) ∧ (∀ b ∈ (v.1.drop 8).take 8, b = 0) ∧
      (∀ b ∈ (v.1.drop 16).take 8, b = 0) ∧ ∀ b ∈ v.1.drop 24, b = 0 := by
    have hsplit : v.1 = v.1.take 8 ++ ((v.1.drop 8).take 8 ++ ((v.1.drop 16).take 8 ++ v.1.drop 24)) := by
      rw [show v.1.drop 24 = (v.1.drop 16).drop 8 from by rw [List.drop_drop], List.take_append_drop,
        show v.1.drop 16 = (v.1.drop 8).drop 8 from by rw [List.drop_drop], List.take_append_drop,
        List.take_append_drop]
    conv => lhs; rw [hsplit]
    simp only [List.forall_mem_append]
  rw [ne_eq, Word.eq_zero_iff, hbytes]
  simp only [valueTransferredIsNonzero, valueWords, List.foldl_cons, List.foldl_nil, bne_iff_ne, ne_eq,
    Nat.or_eq_zero_iff, ofBe_eq_zero_iff, List.mem_reverse, and_assoc, true_and]

theorem valueTransferredIsNonzero_zero : valueTransferredIsNonzero Word.zero = false := by
  rw [← Bool.not_eq_true, valueTransferredIsNonzero_iff, not_not]

theorem valueTransferredIsNonzero_eq_false_iff (v : Word) :
    valueTransferredIsNonzero v = false ↔ v = Word.zero := by
  rw [← Bool.not_eq_true, valueTransferredIsNonzero_iff, not_not]

/-! ### Arms and routes -/

variable {c : ParsedContract} {env : Env} {selector : Selector} {input : List UInt8}

/-- The same frame without value. -/
def withoutValue (env : Env) : Env := { env with value := Word.zero }

theorem enter_runs {m : MethodInfo} {args : Types.Fields (implOf m.paramTypes)} {h : Handler}
    (hrun : enter env m args = .runs h) : h = .method m args := by
  rw [enter] at hrun
  split at hrun
  · exact absurd hrun (by simp)
  · exact (Routed.runs.inj hrun).symm

/-- An arm enters its own method, and not with value unless that is payable or
the check was made before. -/
theorem arm_runs {hoisted : Bool} {m : MethodInfo} {h : Handler} (hrun : arm env hoisted m input = .runs h) :
    (∃ args, h = .method m args) ∧ (hoisted = true ∨ m.mutability = .payable ∨ env.value = Word.zero) := by
  rw [arm] at hrun
  split at hrun
  · exact absurd hrun (by simp)
  · rename_i hguard
    constructor
    · split at hrun
      · exact ⟨_, enter_runs hrun⟩
      · exact absurd hrun (by simp)
      · exact absurd hrun (by simp)
    · by_contra hcon
      simp only [not_or, Bool.not_eq_true] at hcon
      obtain ⟨hh, hp, hv⟩ := hcon
      exact hguard (by simp [hh, hp, (valueTransferredIsNonzero_iff _).mpr hv])

/-- What an arm does where its value check passes. -/
theorem arm_of_guard {hoisted : Bool} {m : MethodInfo}
    (hguard : hoisted = true ∨ m.mutability = .payable ∨ env.value = Word.zero) :
    arm env hoisted m input =
      match (m.decode env.profile input).exit with
      | .ok args => enter env m args
      | .err => .reverted .invalidCalldata
      | .panic => .aborted := by
  rw [arm, if_neg]
  rcases hguard with h | h | h
  · simp [h]
  · simp [h]
  · simp [h, valueTransferredIsNonzero_zero]

theorem allNonPayable_of_payable {m : MethodInfo} (hm : m ∈ c.methods) (hp : m.mutability = .payable) :
    c.allNonPayable = false := by
  rw [allNonPayable, Bool.and_eq_false_iff]
  refine Or.inr (List.all_eq_false.mpr ⟨m, hm, ?_⟩)
  simp [hp]

theorem allNonPayable_of_fallback (h : c.fallbackIsPayable = true) : c.allNonPayable = false := by
  simp [allNonPayable, h]

/-- Past the prelude a route is its `match`. -/
theorem route_eq (h : c.allNonPayable = true → env.value = Word.zero) :
    c.route env selector input =
      match c.methods.find? (fun m => m.selector == selector) with
      | some m => arm env c.allNonPayable m input
      | none => .unhandled := by
  rw [route, if_neg]
  intro hcon
  rw [Bool.and_eq_true, valueTransferredIsNonzero_iff] at hcon
  exact hcon.2 (h hcon.1)

/-- The prelude of a module whose check is hoisted. -/
theorem route_hoisted (h : c.allNonPayable = true) (hv : env.value ≠ Word.zero) :
    c.route env selector input = .reverted .nonPayableValueReceived := by
  rw [route, if_pos]
  rw [Bool.and_eq_true]
  exact ⟨h, (valueTransferredIsNonzero_iff _).mpr hv⟩

theorem find_of_not_declares (h : ¬ c.Declares selector) :
    c.methods.find? (fun m => m.selector == selector) = none := by
  rw [List.find?_eq_none]
  intro m hm heq
  exact h ⟨m, hm, beq_iff_eq.mp heq⟩

/-- With distinct selectors the first arm that matches is the only one. -/
theorem find_of_mem (hd : (c.methods.map (·.selector)).Nodup) {m : MethodInfo} (hm : m ∈ c.methods) :
    c.methods.find? (fun m' => m'.selector == m.selector) = some m := by
  cases hfind : c.methods.find? (fun m' => m'.selector == m.selector) with
  | none =>
    have hnone := List.find?_eq_none.mp hfind m hm
    simp at hnone
  | some m' =>
    have hmem := List.mem_of_find?_eq_some hfind
    have hfound := List.find?_some hfind
    have heq : m'.selector = m.selector := beq_iff_eq.mp hfound
    rw [List.inj_on_of_nodup_map hd hmem hm heq]

/-- A route enters a method with the selector, and not with value unless it is payable. -/
theorem route_runs {h : Handler} (hrun : c.route env selector input = .runs h) :
    ∃ m ∈ c.methods, m.selector = selector ∧ (∃ args, h = .method m args) ∧
      (m.mutability = .payable ∨ env.value = Word.zero) := by
  by_cases hguard : c.allNonPayable = true → env.value = Word.zero
  · rw [route_eq hguard] at hrun
    cases hfind : c.methods.find? (fun m => m.selector == selector) with
    | none =>
      rw [hfind] at hrun
      exact absurd hrun (by simp)
    | some m =>
      rw [hfind] at hrun
      obtain ⟨hargs, hval⟩ := arm_runs hrun
      have hfound := List.find?_some hfind
      have heq : m.selector = selector := beq_iff_eq.mp hfound
      refine ⟨m, List.mem_of_find?_eq_some hfind, heq, hargs, ?_⟩
      rcases hval with h | h | h
      · exact Or.inr (hguard h)
      · exact Or.inl h
      · exact Or.inr h
  · push Not at hguard
    rw [route_hoisted hguard.1 hguard.2] at hrun
    exact absurd hrun (by simp)

/-- A route never falls through to the next router for a declared selector. -/
theorem route_ne_unhandled (hdecl : c.Declares selector) : c.route env selector input ≠ .unhandled := by
  obtain ⟨m, hm, heq⟩ := hdecl
  intro hcon
  by_cases hguard : c.allNonPayable = true → env.value = Word.zero
  · rw [route_eq hguard] at hcon
    cases hfind : c.methods.find? (fun m => m.selector == selector) with
    | none =>
      have hnone := List.find?_eq_none.mp hfind m hm
      exact absurd (beq_iff_eq.mpr heq) hnone
    | some m' =>
      rw [hfind] at hcon
      have harm : arm env c.allNonPayable m' input = .unhandled := hcon
      rw [arm] at harm
      split at harm
      · exact absurd harm (by simp)
      · split at harm
        · rw [enter] at harm
          split at harm <;> exact absurd harm (by simp)
        · exact absurd harm (by simp)
        · exact absurd harm (by simp)
  · push Not at hguard
    rw [route_hoisted hguard.1 hguard.2] at hcon
    exact absurd hcon (by simp)

theorem route_of_not_declares (hdecl : ¬ c.Declares selector)
    (h : c.allNonPayable = true → env.value = Word.zero) : c.route env selector input = .unhandled := by
  rw [route_eq h, find_of_not_declares hdecl]

/-! ### Calls -/

theorem call_of_selector {data : List UInt8} (hbuf : c.bufferSize.any (· < data.length) = false)
    (h : 4 ≤ data.length) :
    c.call env data =
      match c.route env (selectorOf data h) (data.drop 4) with
      | .unhandled => c.orFallback env .unknownSelector
      | r => r := by
  rw [call, hbuf, if_neg Bool.false_ne_true, dif_pos h]

theorem call_of_short {data : List UInt8} (hbuf : c.bufferSize.any (· < data.length) = false)
    (h : ¬ 4 ≤ data.length) :
    c.call env data =
      if c.hasReceive && data.length == 0 then .runs .receive else c.orFallback env .noSelector := by
  rw [call, hbuf, if_neg Bool.false_ne_true, dif_neg h]

theorem bufferSize_of_runs {data : List UInt8} {h : Handler} (hrun : c.call env data = .runs h) :
    c.bufferSize.any (· < data.length) = false := by
  rw [call] at hrun
  split at hrun
  · exact absurd hrun (by simp)
  · rename_i hbuf
    simpa using hbuf

theorem orFallback_runs {e : FrameworkError} {h : Handler} (hrun : c.orFallback env e = .runs h) :
    h = .fallback ∧ (c.fallbackIsPayable = true ∨ env.value = Word.zero) := by
  rw [orFallback] at hrun
  split at hrun
  · rename_i payable hfb
    split at hrun
    · exact absurd hrun (by simp)
    · rename_i hguard
      refine ⟨(Routed.runs.inj hrun).symm, ?_⟩
      cases payable with
      | true => exact Or.inl (by simp [fallbackIsPayable, hfb])
      | false =>
        refine Or.inr ?_
        rw [← valueTransferredIsNonzero_eq_false_iff]
        simpa using hguard
  · exact absurd hrun (by simp)

theorem orFallback_payable (h : c.fallbackIsPayable = true) (e : FrameworkError) :
    c.orFallback env e = .runs .fallback := by
  have hfb : c.fallback = some true := by simpa [fallbackIsPayable] using h
  rw [orFallback, hfb]
  rfl

/-- A handler of the contract that the lock does not keep out. -/
def Admits (c : ParsedContract) (env : Env) : Handler → Prop
  | .method m _ => m ∈ c.methods ∧ (m.isNonReentrant && m.mutability != .pure && env.locked) = false
  | .receive => c.hasReceive = true
  | .fallback => c.fallback.isSome = true

theorem enter_unlocked {m : MethodInfo} {args : Types.Fields (implOf m.paramTypes)} {h : Handler}
    (hrun : enter env m args = .runs h) : (m.isNonReentrant && m.mutability != .pure && env.locked) = false := by
  rw [enter] at hrun
  split at hrun
  · exact absurd hrun (by simp)
  · rename_i hlock
    exact Bool.eq_false_iff.mpr hlock

theorem arm_unlocked {hoisted : Bool} {m : MethodInfo} {h : Handler} (hrun : arm env hoisted m input = .runs h) :
    (m.isNonReentrant && m.mutability != .pure && env.locked) = false := by
  rw [arm] at hrun
  split at hrun
  · exact absurd hrun (by simp)
  · split at hrun
    · exact enter_unlocked hrun
    · exact absurd hrun (by simp)
    · exact absurd hrun (by simp)

theorem route_admits {h : Handler} (hrun : c.route env selector input = .runs h) : c.Admits env h := by
  rw [route] at hrun
  split at hrun
  · exact absurd hrun (by simp)
  · split at hrun
    · rename_i m hfind
      obtain ⟨⟨args, rfl⟩, -⟩ := arm_runs hrun
      exact ⟨List.mem_of_find?_eq_some hfind, arm_unlocked hrun⟩
    · exact absurd hrun (by simp)

theorem orFallback_admits {e : FrameworkError} {h : Handler} (hrun : c.orFallback env e = .runs h) :
    c.Admits env h := by
  obtain ⟨rfl, -⟩ := orFallback_runs hrun
  rw [orFallback] at hrun
  split at hrun
  · rename_i payable hfb
    exact congrArg Option.isSome hfb
  · exact absurd hrun (by simp)

/-- Whatever the calldata are, the body that is entered is one that is admitted. -/
theorem call_admits {data : List UInt8} {h : Handler} (hrun : c.call env data = .runs h) : c.Admits env h := by
  have hbuf := bufferSize_of_runs hrun
  by_cases hlen : 4 ≤ data.length
  · rw [call_of_selector hbuf hlen] at hrun
    split at hrun
    · exact orFallback_admits hrun
    · exact route_admits hrun
  · rw [call_of_short hbuf hlen] at hrun
    split at hrun
    · rename_i hrec
      obtain rfl := Routed.runs.inj hrun
      exact (Bool.and_eq_true _ _ ▸ hrec).1
    · exact orFallback_admits hrun

/-- A body is not entered with value, unless its handler is payable. -/
theorem call_guarded {data : List UInt8} {h : Handler} (hrun : c.call env data = .runs h)
    (hp : ¬ c.Payable h) : env.value = Word.zero := by
  have hbuf := bufferSize_of_runs hrun
  by_cases hlen : 4 ≤ data.length
  · rw [call_of_selector hbuf hlen] at hrun
    split at hrun
    · obtain ⟨rfl, hval⟩ := orFallback_runs hrun
      exact hval.resolve_left hp
    · obtain ⟨m, -, -, ⟨args, rfl⟩, hval⟩ := route_runs hrun
      exact hval.resolve_left hp
  · rw [call_of_short hbuf hlen] at hrun
    split at hrun
    · obtain rfl := Routed.runs.inj hrun
      exact absurd trivial hp
    · obtain ⟨rfl, hval⟩ := orFallback_runs hrun
      exact hval.resolve_left hp

/-- A payable handler that runs without value runs with it. -/
theorem call_accepting {data : List UInt8} {h : Handler} (hp : c.Payable h)
    (hrun : c.call (withoutValue env) data = .runs h) : c.call env data = .runs h := by
  have hbuf := bufferSize_of_runs hrun
  by_cases hlen : 4 ≤ data.length
  · rw [call_of_selector hbuf hlen] at hrun ⊢
    split at hrun
    · -- no method, and the fallback takes the value
      rename_i hroute
      obtain ⟨rfl, -⟩ := orFallback_runs hrun
      have hdecl : ¬ c.Declares (selectorOf data hlen) := fun hdecl => route_ne_unhandled hdecl hroute
      have hnot : c.allNonPayable = true → env.value = Word.zero := fun hall => by
        rw [allNonPayable_of_fallback hp] at hall
        exact absurd hall (by decide)
      rw [route_of_not_declares hdecl hnot]
      exact orFallback_payable hp _
    · -- a payable method, whose arm reads no value
      obtain ⟨m, hm, heq, ⟨args, rfl⟩, -⟩ := route_runs hrun
      have hpay : m.mutability = .payable := hp
      have hall := allNonPayable_of_payable hm hpay
      have hnot : c.allNonPayable = true → env.value = Word.zero := fun h => by
        rw [hall] at h
        exact absurd h (by decide)
      have hfree : c.allNonPayable = true → (withoutValue env).value = Word.zero := fun _ => rfl
      have hsame : c.route env (selectorOf data hlen) (data.drop 4) =
          c.route (withoutValue env) (selectorOf data hlen) (data.drop 4) := by
        rw [route_eq hnot, route_eq hfree]
        cases hfind : c.methods.find? (fun m => m.selector == selectorOf data hlen) with
        | none => rfl
        | some m' =>
          rw [route_eq hfree, hfind] at hrun
          obtain ⟨⟨args', hh⟩, -⟩ := arm_runs hrun
          obtain rfl := (Handler.method.inj hh).1
          simp only
          rw [arm_of_guard (Or.inr (Or.inl hpay)), arm_of_guard (Or.inr (Or.inl hpay))]
          rfl
      rw [hsame, hrun]
  · rw [call_of_short hbuf hlen] at hrun ⊢
    split at hrun
    · rename_i hrec
      rw [if_pos hrec]
      exact hrun
    · rename_i hrec
      rw [if_neg hrec]
      obtain ⟨rfl, -⟩ := orFallback_runs hrun
      exact orFallback_payable hp _

/-- Calldata with a declared selector enters that method only. -/
theorem call_exact (hd : (c.methods.map (·.selector)).Nodup) {data : List UInt8} (hlen : 4 ≤ data.length)
    {m : MethodInfo} (hm : m ∈ c.methods) (hsel : m.selector = selectorOf data hlen) {h : Handler}
    (hrun : c.call env data = .runs h) : ∃ args, h = .method m args := by
  have hbuf := bufferSize_of_runs hrun
  rw [call_of_selector hbuf hlen] at hrun
  split at hrun
  · rename_i hroute
    exact absurd hroute (route_ne_unhandled ⟨m, hm, hsel⟩)
  · obtain ⟨m', hm', heq, hargs, -⟩ := route_runs hrun
    obtain rfl : m' = m := List.inj_on_of_nodup_map hd hm' hm (heq.trans hsel.symm)
    exact hargs

/-- And it does enter it, with the arguments decoded, where nothing refuses the call:
the value, the calldata buffer, the decoder or the reentrancy guard. -/
theorem call_enters (hd : (c.methods.map (·.selector)).Nodup) {data : List UInt8} (hlen : 4 ≤ data.length)
    {m : MethodInfo} (hm : m ∈ c.methods) (hsel : m.selector = selectorOf data hlen)
    (hval : m.mutability = .payable ∨ env.value = Word.zero)
    (hbuf : c.bufferSize.any (· < data.length) = false) (hfree : env.locked = true → ¬ m.guard.Guarded)
    {args : Types.Fields (implOf m.paramTypes)} (hdec : (m.decode env.profile (data.drop 4)).Returns args) :
    c.call env data = .runs (.method m args) := by
  have hnot : c.allNonPayable = true → env.value = Word.zero := fun hall => by
    refine hval.resolve_left fun hpay => ?_
    rw [allNonPayable_of_payable hm hpay] at hall
    exact absurd hall (by decide)
  have henter : enter env m args = .runs (.method m args) := by
    rw [enter, if_neg]
    intro hcon
    simp only [Bool.and_eq_true, bne_iff_ne] at hcon
    exact hfree hcon.2 hcon.1
  have hroute : c.route env (selectorOf data hlen) (data.drop 4) = .runs (.method m args) := by
    rw [route_eq hnot, ← hsel, find_of_mem hd hm]
    simp only
    rw [arm_of_guard (Or.inr hval), show (m.decode env.profile (data.drop 4)).exit = .ok args from hdec]
    exact henter
  rw [call_of_selector hbuf hlen, hroute]

/-! ### What routing promises -/

/-- What a module promises for one call. -/
structure Proper (c : ParsedContract) (env : Env) (data : List UInt8) : Prop where
  /-- The body of a handler that is not payable is not entered with value. -/
  guarded : ∀ h, c.call env data = .runs h → ¬ c.Payable h → env.value = Word.zero
  /-- A payable handler is not rejected because of the value. -/
  accepting : ∀ h, c.Payable h → c.call (withoutValue env) data = .runs h → c.call env data = .runs h
  /-- A declared selector selects its method. -/
  exact : ∀ hlen : 4 ≤ data.length, ∀ m ∈ c.methods, m.selector = selectorOf data hlen →
    (∀ h, c.call env data = .runs h → ∃ args, h = .method m args) ∧
      ((m.mutability = .payable ∨ env.value = Word.zero) → c.bufferSize.any (· < data.length) = false →
        (env.locked = true → ¬ m.guard.Guarded) → ∀ args, (m.decode env.profile (data.drop 4)).Returns args →
          c.call env data = .runs (.method m args))
  /-- An undeclared one is left to others. -/
  routed : ∀ hlen : 4 ≤ data.length, ¬ c.Declares (selectorOf data hlen) →
    c.route env (selectorOf data hlen) (data.drop 4) = .unhandled ∧
      ∀ rest, chain env (selectorOf data hlen) (data.drop 4) (c :: rest) =
        chain env (selectorOf data hlen) (data.drop 4) rest

/-- **Routing.** A module with distinct selectors routes a call as promised exactly when it does
not make the hoisted value check on an undeclared selector: the value is zero, or the selector
is declared (or missing), or some method or the fallback is payable, or there is no method. -/
theorem proper_iff (hd : (c.methods.map (·.selector)).Nodup) (data : List UInt8) :
    c.Proper env data ↔
      ∀ hlen : 4 ≤ data.length, ¬ c.Declares (selectorOf data hlen) → c.allNonPayable = true →
        env.value = Word.zero := by
  constructor
  · intro h hlen hdecl hall
    by_contra hv
    have hroute := (h.routed hlen hdecl).1
    rw [route_hoisted hall hv] at hroute
    exact absurd hroute (by simp)
  · intro h
    constructor
    · intro _ hrun hp
      exact call_guarded hrun hp
    · intro _ hp hrun
      exact call_accepting hp hrun
    · intro hlen m hm hsel
      exact ⟨fun _ hrun => call_exact hd hlen hm hsel hrun,
        fun hval hbuf hfree _ hdec => call_enters hd hlen hm hsel hval hbuf hfree hdec⟩
    · intro hlen hdecl
      have hroute : c.route env (selectorOf data hlen) (data.drop 4) = .unhandled :=
        route_of_not_declares hdecl (h hlen hdecl)
      exact ⟨hroute, fun rest => by rw [chain, hroute]⟩

/-- A method without parameters or guard. -/
def nullary (selector : Selector) (mutability : StateMutability) : MethodInfo where
  selector := selector
  paramTypes := []
  mutability := mutability
  isNonReentrant := false
  decode p input := do
    let size ← minInputSize p []
    if input.length < size then fail else pure ()
  decode_eq := rfl

/-- A payable method, one that is not, and a fallback that is not payable either. -/
def mixed : ParsedContract :=
  ⟨[nullary ⟨[2, 4, 6, 8], rfl⟩ .payable, nullary ⟨[3, 5, 7, 9], rfl⟩ .view], false, some false, some 256⟩

/-- Calls with value: of each of the two methods, and of none. -/
theorem proper_mixed :
    mixed.Proper ⟨.checked, ⟨List.replicate 32 1, rfl⟩, false⟩ [2, 4, 6, 8] ∧
      mixed.Proper ⟨.checked, ⟨List.replicate 32 1, rfl⟩, false⟩ [3, 5, 7, 9] ∧
      mixed.Proper ⟨.checked, ⟨List.replicate 32 1, rfl⟩, false⟩ [9, 9, 9, 9] := by
  have hd : (mixed.methods.map (·.selector)).Nodup := by decide
  have hhoisted : ¬ mixed.allNonPayable = true := by decide
  exact ⟨(proper_iff hd _).mpr fun _ _ hall => absurd hall hhoisted,
    (proper_iff hd _).mpr fun _ _ hall => absurd hall hhoisted,
    (proper_iff hd _).mpr fun _ _ hall => absurd hall hhoisted⟩

/-- A module with one method and no other handler. -/
def single (m : MethodInfo) : ParsedContract := ⟨[m], false, none, none⟩

/-- Two routers, the first with a method that is not payable, the second with a payable
one: a call of the second with value is reverted by the first. -/
theorem payable_shadowed :
    let extension := single (nullary ⟨[1, 2, 3, 4], rfl⟩ .view)
    let base := single (nullary ⟨[5, 6, 7, 8], rfl⟩ .payable)
    let env : Env := ⟨.checked, ⟨List.replicate 32 1, rfl⟩, false⟩
    chain env ⟨[5, 6, 7, 8], rfl⟩ [] [extension, base] = .reverted .nonPayableValueReceived ∧
      chain env ⟨[5, 6, 7, 8], rfl⟩ [] [base] = .runs (.method (nullary ⟨[5, 6, 7, 8], rfl⟩ .payable) ()) ∧
      ¬ extension.Proper env [5, 6, 7, 8] := by
  refine ⟨rfl, rfl, fun h => ?_⟩
  have hroute := (h.routed (by decide) (by decide)).1
  exact absurd hroute (by rw [route_hoisted (by decide) (by decide)]; simp)

/-- A chain of routers that all leave an undeclared selector alone is the first router of it
that declares the selector. -/
theorem chain_eq {cs : List ParsedContract}
    (h : ∀ c ∈ cs, ¬ c.Declares selector → c.allNonPayable = true → env.value = Word.zero) :
    (∃ before c rest, cs = before ++ c :: rest ∧ (∀ b ∈ before, ¬ b.Declares selector) ∧
        c.Declares selector ∧ chain env selector input cs = c.route env selector input) ∨
      (∀ c ∈ cs, ¬ c.Declares selector) ∧ chain env selector input cs = .unhandled := by
  induction cs with
  | nil => exact Or.inr ⟨by simp, rfl⟩
  | cons c cs ih =>
    by_cases hdecl : c.Declares selector
    · refine Or.inl ⟨[], c, cs, rfl, by simp, hdecl, ?_⟩
      have hne : c.route env selector input ≠ .unhandled := route_ne_unhandled hdecl
      rw [chain]
      split
      · rename_i hroute
        exact absurd hroute hne
      · rfl
    · have hroute : c.route env selector input = .unhandled :=
        route_of_not_declares hdecl (h c List.mem_cons_self hdecl)
      have hchain : chain env selector input (c :: cs) = chain env selector input cs := by
        rw [chain, hroute]
      rw [hchain]
      rcases ih fun c' hc' => h c' (List.mem_cons_of_mem _ hc') with ⟨before, c', rest, rfl, hb, hc', heq⟩ | ⟨hnone, heq⟩
      · exact Or.inl ⟨c :: before, c', rest, rfl, List.forall_mem_cons.mpr ⟨hdecl, hb⟩, hc', heq⟩
      · exact Or.inr ⟨List.forall_mem_cons.mpr ⟨hdecl, hnone⟩, heq⟩

end ParsedContract

end PvmContract.Contract
