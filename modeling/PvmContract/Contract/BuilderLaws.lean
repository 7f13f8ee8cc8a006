import PvmContract.Contract.BuilderDsl

/-!
# What the builder DSL dispatches

`Registered` is what a chain of registrations is for: a table whose entries say
themselves whether they are payable, and the fallback and the receive handler that
were set last. A builder implements it with its mask of payable bits
(`build_implements`).

`dispatchImpl_agrees_iff` says that `dispatch_impl` makes the choice of
`Interface.choice` from that table, as the generated `call` does, but for one case:
the refusal of a fallback that is not payable is written into the output buffer
before it is handed to the host, and a buffer of fewer than four bytes has no room
for it.
-/

namespace PvmContract.Contract.BuilderDsl

open PvmContract.Data PvmContract.Macros ParsedContract

/-- What has been registered. -/
structure Registered where
  /-- The methods in order, and whether they are payable. -/
  methods : List (Selector × Bool × MethodHandler)
  /-- The last fallback, and whether it is payable. -/
  fallback : Option (Bool × MethodHandler)
  /-- The last receive handler. -/
  receive : Option MethodHandler

namespace Registered

/-- One registration more. -/
def add (r : Registered) : Registration → Registered
  | .method s h => { r with methods := r.methods ++ [(s, false, h)] }
  | .payableMethod s h => { r with methods := r.methods ++ [(s, true, h)] }
  | .fallback h => { r with fallback := some (false, h) }
  | .payableFallback h => { r with fallback := some (true, h) }
  | .receive h => { r with receive := some h }

/-- What the caller sees of it. -/
def interface (r : Registered) : Interface :=
  ⟨r.methods.map fun m => (m.1, m.2.1), r.fallback.map (·.1), r.receive.isSome⟩

/-- The handler that is registered for a target. -/
def handler (r : Registered) : Target → Option MethodHandler
  | .method i => r.methods[i]?.map (·.2.2)
  | .receive => r.receive
  | .fallback => r.fallback.map (·.2)

end Registered

/-- What a chain of registrations registers. -/
def registered (regs : List Registration) : Registered := regs.foldl Registered.add ⟨[], none, none⟩

/-! ### Registration -/

/-- The table of a builder, the bits beside the entries. -/
def ContractBuilder.table (b : ContractBuilder) : List (Selector × Bool × MethodHandler) :=
  b.methods.mapIdx fun i m => (m.1, b.payableBits.getLsbD i, m.2)

/-- A builder holds what has been registered. -/
def Implements (r : Registered) : Builder → Prop
  | .plain b => b.table = r.methods ∧ r.fallback = none ∧ r.receive = none
  | .withHandlers b =>
    b.inner.table = r.methods ∧ r.fallback = b.fallback.map (b.fallbackIsPayable, ·) ∧ r.receive = b.receive

section Registration

variable {b b' : ContractBuilder} {selector : Selector} {handler : MethodHandler}

theorem table_method (h : b.method selector handler = some b') :
    b'.table = b.table ++ [(selector, false, handler)] := by
  rw [ContractBuilder.method] at h
  split at h
  · obtain rfl := Option.some.inj h
    rw [ContractBuilder.table, ContractBuilder.table, List.mapIdx_append]
    simp only [List.mapIdx_cons, List.mapIdx_nil, Nat.zero_add]
    rw [b.unset _ le_rfl]
  · exact absurd h (by simp)

theorem table_payableMethod (h : b.payableMethod selector handler = some b') :
    b'.table = b.table ++ [(selector, true, handler)] := by
  rw [ContractBuilder.payableMethod] at h
  split at h
  · rename_i hlen
    obtain rfl := Option.some.inj h
    have hbit : b.methods.length < 64 := Nat.lt_trans hlen (by decide)
    rw [ContractBuilder.table, ContractBuilder.table, List.mapIdx_append]
    simp only [List.mapIdx_cons, List.mapIdx_nil, Nat.zero_add, getLsbD_setBit _ hbit, decide_true, Bool.or_true]
    congr 1
    -- the bits of the entries before are as they were
    refine List.ext_getElem (by simp) fun i hi _ => ?_
    have hlt : i < b.methods.length := by simpa using hi
    simp [Nat.ne_of_lt hlt]
  · exact absurd h (by simp)

end Registration

/-- One registration. -/
theorem register_implements {r : Registered} {b b' : Builder} {x : Registration} (hb : Implements r b)
    (h : b.register x = some b') : Implements (r.add x) b' := by
  cases b with
  | plain b =>
    obtain ⟨htable, hfb, hrec⟩ := hb
    cases x with
    | method s f =>
      obtain ⟨b₁, h₁, rfl⟩ := Option.map_eq_some_iff.mp h
      refine ⟨?_, hfb, hrec⟩
      rw [table_method h₁, htable]
      rfl
    | payableMethod s f =>
      obtain ⟨b₁, h₁, rfl⟩ := Option.map_eq_some_iff.mp h
      refine ⟨?_, hfb, hrec⟩
      rw [table_payableMethod h₁, htable]
      rfl
    | fallback f =>
      obtain rfl := Option.some.inj h
      exact ⟨htable, rfl, hrec⟩
    | payableFallback f =>
      obtain rfl := Option.some.inj h
      exact ⟨htable, rfl, hrec⟩
    | receive f =>
      obtain rfl := Option.some.inj h
      exact ⟨htable, hfb, rfl⟩
  | withHandlers b =>
    obtain ⟨htable, hfb, hrec⟩ := hb
    cases x with
    | method s f =>
      obtain ⟨b₁, h₁, rfl⟩ := Option.map_eq_some_iff.mp h
      obtain ⟨b₂, h₂, rfl⟩ := Option.map_eq_some_iff.mp h₁
      refine ⟨?_, hfb, hrec⟩
      rw [table_method h₂, htable]
      rfl
    | payableMethod s f =>
      obtain ⟨b₁, h₁, rfl⟩ := Option.map_eq_some_iff.mp h
      obtain ⟨b₂, h₂, rfl⟩ := Option.map_eq_some_iff.mp h₁
      refine ⟨?_, hfb, hrec⟩
      rw [table_payableMethod h₂, htable]
      rfl
    | fallback f =>
      obtain rfl := Option.some.inj h
      exact ⟨htable, rfl, hrec⟩
    | payableFallback f =>
      obtain rfl := Option.some.inj h
      exact ⟨htable, rfl, hrec⟩
    | receive f =>
      obtain rfl := Option.some.inj h
      exact ⟨htable, hfb, rfl⟩

theorem foldlM_implements {r : Registered} {b b' : Builder} {regs : List Registration} (hb : Implements r b)
    (h : regs.foldlM Builder.register b = some b') : Implements (regs.foldl Registered.add r) b' := by
  induction regs generalizing r b with
  | nil =>
    obtain rfl := Option.some.inj h
    exact hb
  | cons x regs ih =>
    rw [List.foldlM_cons] at h
    obtain ⟨b₁, h₁, hrest⟩ := Option.bind_eq_some_iff.mp h
    exact ih (register_implements hb h₁) hrest

theorem new_implements : Implements ⟨[], none, none⟩ (.plain .new) := ⟨rfl, rfl, rfl⟩

/-- A chain of registrations builds what it registers. -/
theorem build_implements {regs : List Registration} {b : Builder} (h : build regs = some b) :
    Implements (registered regs) b :=
  foldlM_implements new_implements h

/-! #### The size of the table -/

theorem exists_method {b : ContractBuilder} (h : b.table.length < maxMethods) (selector : Selector)
    (handler : MethodHandler) :
    (∃ b', b.method selector handler = some b') ∧ ∃ b', b.payableMethod selector handler = some b' := by
  have hlen : b.methods.length < maxMethods := by simpa [ContractBuilder.table] using h
  exact ⟨⟨_, dif_pos hlen⟩, ⟨_, dif_pos hlen⟩⟩

/-- A registration that leaves the table within its bounds does not panic. -/
theorem exists_register {r : Registered} {b : Builder} {x : Registration} (hb : Implements r b)
    (h : (r.add x).methods.length ≤ maxMethods) : ∃ b', b.register x = some b' := by
  have hroom : ∀ m, (r.methods ++ [m]).length ≤ maxMethods → r.methods.length < maxMethods := fun m hm => by
    rw [List.length_append, List.length_singleton] at hm
    exact hm
  cases b with
  | plain b =>
    obtain ⟨htable, -, -⟩ := hb
    cases x with
    | method s f =>
      obtain ⟨b', hb'⟩ := (exists_method (by rw [htable]; exact hroom _ h) s f).1
      exact ⟨_, congrArg (Option.map Builder.plain) hb'⟩
    | payableMethod s f =>
      obtain ⟨b', hb'⟩ := (exists_method (by rw [htable]; exact hroom _ h) s f).2
      exact ⟨_, congrArg (Option.map Builder.plain) hb'⟩
    | fallback f => exact ⟨_, rfl⟩
    | payableFallback f => exact ⟨_, rfl⟩
    | receive f => exact ⟨_, rfl⟩
  | withHandlers b =>
    obtain ⟨htable, -, -⟩ := hb
    cases x with
    | method s f =>
      obtain ⟨b', hb'⟩ := (exists_method (by rw [htable]; exact hroom _ h) s f).1
      have hinner : b.method s f = some { b with inner := b' } := congrArg (Option.map _) hb'
      exact ⟨_, congrArg (Option.map Builder.withHandlers) hinner⟩
    | payableMethod s f =>
      obtain ⟨b', hb'⟩ := (exists_method (by rw [htable]; exact hroom _ h) s f).2
      have hinner : b.payableMethod s f = some { b with inner := b' } := congrArg (Option.map _) hb'
      exact ⟨_, congrArg (Option.map Builder.withHandlers) hinner⟩
    | fallback f => exact ⟨_, rfl⟩
    | payableFallback f => exact ⟨_, rfl⟩
    | receive f => exact ⟨_, rfl⟩

theorem length_le_foldl (regs : List Registration) (r : Registered) :
    r.methods.length ≤ (regs.foldl Registered.add r).methods.length := by
  induction regs generalizing r with
  | nil => exact le_rfl
  | cons x regs ih =>
    refine Nat.le_trans ?_ (ih (r.add x))
    cases x <;> simp [Registered.add]

theorem exists_foldlM {r : Registered} {b : Builder} {regs : List Registration} (hb : Implements r b)
    (h : (regs.foldl Registered.add r).methods.length ≤ maxMethods) :
    ∃ b', regs.foldlM Builder.register b = some b' := by
  induction regs generalizing r b with
  | nil => exact ⟨b, rfl⟩
  | cons x regs ih =>
    obtain ⟨b₁, h₁⟩ := exists_register hb (Nat.le_trans (length_le_foldl regs (r.add x)) h)
    obtain ⟨b₂, h₂⟩ := ih (register_implements hb h₁) h
    refine ⟨b₂, ?_⟩
    rw [List.foldlM_cons, h₁]
    exact h₂

/-- Any chain of registrations with no more methods than the table takes builds. -/
theorem exists_build {regs : List Registration} (h : (registered regs).methods.length ≤ maxMethods) :
    ∃ b, build regs = some b :=
  exists_foldlM new_implements h

/-! ### Dispatch -/

/-- How the call of a contract ends after a handler. -/
def Ending.after : Option (HandlerResult × List UInt8) → Ending
  | some (.ok n, output) => .returned (output.take (min n output.length))
  | some (.revert n, output) => .reverted (output.take (min n output.length))
  | none => .byHandler

/-- The input of a target's handler. -/
def Target.input (data : List UInt8) : Target → List UInt8
  | .method _ => data.drop 4
  | .receive => []
  | .fallback => data

variable {errors : FrameworkError → Selector}

/-- A dispatch calls one handler, once and with its input, and ends as that says. -/
def Entered (bufSize : ℕ) (handler : MethodHandler) (input : List UInt8)
    (d : Except Ending Unit × List HandlerCall) : Prop :=
  d = (.error (.after (handler input (List.replicate bufSize 0))), [⟨handler, input⟩])

/-- A dispatch reverts, and calls no handler. -/
def Refused (errors : FrameworkError → Selector) (e : FrameworkError)
    (d : Except Ending Unit × List HandlerCall) : Prop :=
  d = (.error (.reverted (errors e).1), [])

/-- A dispatch goes as chosen. -/
def Registered.Follows (errors : FrameworkError → Selector) (r : Registered) (bufSize : ℕ) (data : List UInt8) :
    Choice → Except Ending Unit × List HandlerCall → Prop
  | .enters t, d => ∃ handler, r.handler t = some handler ∧ Entered bufSize handler (Target.input data t) d
  | .refused e, d => Refused errors e d

theorem outcome_revertWith (e : FrameworkError) : Refused errors e (outcome (revertWith errors e)) := rfl

theorem outcome_invoke (bufSize : ℕ) (handler : MethodHandler) (input : List UInt8) :
    Entered bufSize handler input (outcome do
      let (result, output) ← invoke handler input (List.replicate bufSize 0)
      finalizeResponse output result) := by
  unfold Entered
  cases h : handler input (List.replicate bufSize 0) with
  | none =>
    simp only [outcome, invoke, h]
    rfl
  | some r =>
    simp only [outcome, invoke, h]
    obtain ⟨result, output⟩ := r
    cases result with
    | ok n => rfl
    | revert n => rfl

theorem copySelector_of_room {bufSize : ℕ} (hsize : 4 ≤ bufSize) (e : FrameworkError) :
    copySelector errors e (List.replicate bufSize 0) =
      pure ((errors e).1 ++ (List.replicate bufSize 0).drop 4) := by
  rw [copySelector, if_neg]
  rw [List.length_replicate]
  omega

theorem take_selector (e : FrameworkError) (rest : List UInt8) : ((errors e).1 ++ rest).take 4 = (errors e).1 :=
  List.take_left' (errors e).2

section Route

variable {b : ContractBuilder} {value : Word} {selector : Selector} {input output : List UInt8}

theorem isPayable_eq (i : ℕ) : b.isPayable i = b.payableBits.getLsbD i := by
  rw [ContractBuilder.isPayable, BitVec.and_one_eq_setWidth_ofBool_getLsbD, BitVec.getLsbD_ushiftRight]
  cases b.payableBits.getLsbD (i + 0) <;> rfl

theorem tryFrom_of_none {rest : List (Selector × MethodHandler)}
    (h : rest.findIdx? (fun m => m.1 == selector) = none) (i : ℕ) :
    b.tryFrom errors value selector input output i rest = pure none := by
  induction rest generalizing i with
  | nil => rfl
  | cons m rest ih =>
    rw [List.findIdx?_cons] at h
    by_cases hm : (m.1 == selector) = true
    · rw [if_pos hm] at h
      exact absurd h (by simp)
    · rw [if_neg hm, Option.map_eq_none_iff] at h
      rw [ContractBuilder.tryFrom, if_neg hm]
      exact ih h (i + 1)

/-- The loop stops at the first entry with the selector. -/
theorem tryFrom_of_some {rest : List (Selector × MethodHandler)} {k : ℕ}
    (h : rest.findIdx? (fun m => m.1 == selector) = some k) {m : Selector × MethodHandler}
    (hm : rest[k]? = some m) (i : ℕ) :
    b.tryFrom errors value selector input output i rest =
      some <$> ContractBuilder.attempt errors (b.isPayable (i + k)) value m.2 input output := by
  induction rest generalizing i k with
  | nil => exact absurd h (by simp)
  | cons m' rest ih =>
    rw [List.findIdx?_cons] at h
    by_cases hm' : (m'.1 == selector) = true
    · rw [if_pos hm'] at h
      obtain rfl := Option.some.inj h
      obtain rfl := Option.some.inj hm
      rw [ContractBuilder.tryFrom, if_pos hm', Nat.add_zero]
    · rw [if_neg hm'] at h
      obtain ⟨k', hk', rfl⟩ := Option.map_eq_some_iff.mp h
      rw [ContractBuilder.tryFrom, if_neg hm', ih hk' (by simpa using hm) (i + 1)]
      rw [Nat.add_assoc, Nat.add_comm 1 k']

theorem attempt_of_accepts {isPayable : Bool} (h : isPayable = true ∨ value = Word.zero) (handler : MethodHandler) :
    ContractBuilder.attempt errors isPayable value handler input output = invoke handler input output := by
  rw [ContractBuilder.attempt, if_neg (guard_of_accepts h)]

theorem attempt_of_refuses {isPayable : Bool} (h : ¬ (isPayable = true ∨ value = Word.zero))
    (handler : MethodHandler) :
    ContractBuilder.attempt errors isPayable value handler input output = (do
      let output ← copySelector errors .nonPayableValueReceived output
      pure (.revert 4, output)) := by
  rw [ContractBuilder.attempt, if_pos (guard_of_refuses h)]

/-! #### The table and the interface -/

variable {r : Registered} {data : List UInt8}

theorem selected_eq (htable : b.table = r.methods) (h : 4 ≤ data.length) :
    r.interface.selected data = b.methods.findIdx? (fun m => m.1 == selectorOf data h) := by
  have hnames : r.methods.map (·.1) = b.methods.map (·.1) := by
    rw [← htable, ContractBuilder.table]
    refine List.ext_getElem? fun i => ?_
    rw [List.getElem?_map, List.getElem?_map, List.getElem?_mapIdx, Option.map_map]
    rfl
  have hscan : ∀ {α : Type} (l : List (Selector × α)), l.findIdx? (fun m => m.1 == selectorOf data h) =
      (l.map (·.1)).findIdx? (· == selectorOf data h) := fun l => by
    rw [List.findIdx?_map]
    rfl
  rw [Interface.selected_of_selector h, hscan, hscan, ← hnames, Registered.interface, List.map_map]
  rfl

/-- The entry of a selected method. -/
theorem exists_entry (htable : b.table = r.methods) {i : ℕ} (h : 4 ≤ data.length)
    (hsel : r.interface.selected data = some i) :
    ∃ m, b.methods[i]? = some m ∧ r.handler (.method i) = some m.2 ∧
      r.interface.payable (.method i) = b.isPayable i := by
  rw [selected_eq htable h] at hsel
  obtain ⟨hi, -⟩ := List.findIdx?_eq_some_iff_getElem.mp hsel
  have hm := List.getElem?_eq_getElem hi
  have hentry : r.methods[i]? = some (b.methods[i].1, b.payableBits.getLsbD i, b.methods[i].2) := by
    rw [← htable, ContractBuilder.table, List.getElem?_mapIdx, hm]
    rfl
  refine ⟨_, hm, ?_, ?_⟩
  · rw [Registered.handler, hentry]
    rfl
  · simp [Interface.payable, Registered.interface, hentry, isPayable_eq]

variable {bufSize : ℕ}

/-- What `try_route` leaves to the rest of the dispatch. -/
theorem tryRoute_of_not_selected (htable : b.table = r.methods) (h : 4 ≤ data.length)
    (hsel : r.interface.selected data = none) (missed : Dispatching Unit) :
    respondOr missed (b.tryRoute errors value (selectorOf data h) input output) = missed := by
  rw [selected_eq htable h] at hsel
  rw [ContractBuilder.tryRoute, tryFrom_of_none hsel]
  rfl

/-- And what it does itself: it goes as chosen. -/
theorem tryRoute_follows (htable : b.table = r.methods) (h : 4 ≤ data.length) (hsize : data.length ≤ bufSize)
    {i : ℕ} (hsel : r.interface.selected data = some i) (missed : Dispatching Unit) :
    r.Follows errors bufSize data (r.interface.choice value data)
      (outcome (respondOr missed (b.tryRoute errors value (selectorOf data h) (data.drop 4)
        (List.replicate bufSize 0)))) := by
  obtain ⟨m, hm, hhandler, hpay⟩ := exists_entry htable h hsel
  rw [Interface.choice_of_target (Interface.target_of_selected hsel), hpay]
  rw [selected_eq htable h] at hsel
  rw [ContractBuilder.tryRoute, tryFrom_of_some hsel hm, Nat.zero_add]
  by_cases hok : b.isPayable i = true ∨ value = Word.zero
  · rw [if_pos hok, attempt_of_accepts hok, respondOr, bind_map_left]
    exact ⟨m.2, hhandler, outcome_invoke bufSize m.2 (data.drop 4)⟩
  · rw [if_neg hok, attempt_of_refuses hok, copySelector_of_room (Nat.le_trans h hsize), respondOr, bind_map_left]
    have hmin : min 4 ((errors .nonPayableValueReceived).1 ++ (List.replicate bufSize 0).drop 4).length = 4 := by
      rw [List.length_append, (errors .nonPayableValueReceived).2]
      omega
    have hend : outcome (finalizeResponse ((errors .nonPayableValueReceived).1 ++
        (List.replicate bufSize 0).drop 4) (.revert 4)) = (.error (.reverted (errors .nonPayableValueReceived).1), []) := by
      rw [finalizeResponse, hmin, take_selector]
      rfl
    exact hend

end Route

/-! #### The two types of builder -/

section Dispatch

variable {r : Registered} {bufSize : ℕ} {value : Word} {data : List UInt8}

theorem plain_follows {b : ContractBuilder} (hb : Implements r (.plain b)) (hsize : data.length ≤ bufSize) :
    r.Follows errors bufSize data (r.interface.choice value data)
      (outcome (b.dispatchImpl errors bufSize value data)) := by
  obtain ⟨htable, hfb, hrec⟩ := hb
  have hnot : ¬ (data.length = 0 ∧ r.interface.hasReceive = true) := by simp [Registered.interface, hrec]
  have hnone : r.interface.fallback = none := by simp [Registered.interface, hfb]
  rw [ContractBuilder.dispatchImpl, if_neg (Nat.not_lt.mpr hsize)]
  by_cases hlen : 4 ≤ data.length
  · rw [dif_pos hlen]
    cases hsel : r.interface.selected data with
    | some i => exact tryRoute_follows htable hlen hsize hsel _
    | none =>
      have htarget := Interface.target_of_not_selected hnot hsel
      rw [hnone] at htarget
      rw [tryRoute_of_not_selected htable hlen hsel, Interface.choice_of_no_target htarget,
        Interface.missing_of_selector hlen]
      exact outcome_revertWith _
  · have htarget := Interface.target_of_not_selected hnot (Interface.selected_of_short hlen)
    rw [hnone] at htarget
    rw [dif_neg hlen, Interface.choice_of_no_target htarget, Interface.missing_of_short hlen]
    exact outcome_revertWith _

variable {b : ContractBuilderWithHandlers}

/-- The fallback or the revert in its place goes as chosen, if its refusal has room. -/
theorem orFallback_follows (hfb : r.fallback = b.fallback.map (b.fallbackIsPayable, ·))
    (htarget : r.interface.target data = r.interface.fallback.map fun _ => .fallback)
    (hroom : r.interface.fallback = some false → 4 ≤ bufSize ∨ value = Word.zero) :
    r.Follows errors bufSize data (r.interface.choice value data)
      (outcome (b.orFallback errors value data (List.replicate bufSize 0) (Interface.missing data))) := by
  cases hf : b.fallback with
  | none =>
    have hnone : r.interface.fallback = none := by simp [Registered.interface, hfb, hf]
    rw [hnone] at htarget
    rw [ContractBuilderWithHandlers.orFallback, hf, Interface.choice_of_no_target htarget]
    exact outcome_revertWith _
  | some handler =>
    have hsome : r.interface.fallback = some b.fallbackIsPayable := by simp [Registered.interface, hfb, hf]
    have hhandler : r.handler .fallback = some handler := by simp [Registered.handler, hfb, hf]
    have hpay : r.interface.payable .fallback = b.fallbackIsPayable := by simp [Interface.payable, hsome]
    have htarget' : r.interface.target data = some .fallback := by rw [htarget, hsome]; rfl
    rw [ContractBuilderWithHandlers.orFallback, hf, Interface.choice_of_target htarget', hpay]
    by_cases hok : b.fallbackIsPayable = true ∨ value = Word.zero
    · have hguard : ¬ ((!b.fallbackIsPayable && valueTransferredIsNonzero value) = true) := guard_of_accepts hok
      dsimp only
      rw [if_pos hok, if_neg hguard]
      exact ⟨handler, hhandler, outcome_invoke bufSize handler data⟩
    · have hguard : (!b.fallbackIsPayable && valueTransferredIsNonzero value) = true := guard_of_refuses hok
      push Not at hok
      have hsize : 4 ≤ bufSize :=
        (hroom (hsome.trans (congrArg some (Bool.eq_false_iff.mpr hok.1)))).resolve_right hok.2
      dsimp only
      rw [if_neg (by simpa using hok), if_pos hguard, copySelector_of_room hsize, pure_bind, take_selector]
      rfl

/-- Past the size check, `receive` or the rest. -/
theorem dispatchImpl_of_receive (hsize : data.length ≤ bufSize) (hzero : data.length = 0) {handler : MethodHandler}
    (hrec : b.receive = some handler) :
    Entered bufSize handler [] (outcome (b.dispatchImpl errors bufSize value data)) := by
  rw [ContractBuilderWithHandlers.dispatchImpl, if_neg (Nat.not_lt.mpr hsize), hzero, hrec]
  exact outcome_invoke bufSize handler []

theorem dispatchImpl_of_not_receive (hsize : data.length ≤ bufSize)
    (h : ¬ (data.length = 0 ∧ b.receive.isSome = true)) :
    b.dispatchImpl errors bufSize value data = b.dispatchRest errors value data (List.replicate bufSize 0) := by
  rw [ContractBuilderWithHandlers.dispatchImpl, if_neg (Nat.not_lt.mpr hsize)]
  split
  · rename_i hzero hrec
    exact absurd ⟨hzero, by rw [hrec]; rfl⟩ h
  · rfl

theorem hasReceive_eq (hrec : r.receive = b.receive) : r.interface.hasReceive = b.receive.isSome := by
  rw [← hrec]
  rfl

theorem withHandlers_follows (hb : Implements r (.withHandlers b)) (hsize : data.length ≤ bufSize)
    (hroom : bufSize < 4 → r.interface.fallback = some false →
      data.length = 0 ∧ r.interface.hasReceive = true ∨ value = Word.zero) :
    r.Follows errors bufSize data (r.interface.choice value data)
      (outcome (b.dispatchImpl errors bufSize value data)) := by
  obtain ⟨htable, hfb, hrec⟩ := hb
  have hhas := hasReceive_eq hrec
  by_cases hreceives : data.length = 0 ∧ b.receive.isSome = true
  · obtain ⟨handler, hhandler⟩ := Option.isSome_iff_exists.mp hreceives.2
    have hpay : r.interface.payable .receive = true := rfl
    rw [Interface.choice_of_target (Interface.target_of_receive hreceives.1 (hhas.trans hreceives.2)),
      if_pos (Or.inl hpay)]
    exact ⟨handler, hrec.trans hhandler, dispatchImpl_of_receive hsize hreceives.1 hhandler⟩
  · rw [dispatchImpl_of_not_receive hsize hreceives, ContractBuilderWithHandlers.dispatchRest]
    have hnot : ¬ (data.length = 0 ∧ r.interface.hasReceive = true) := by rwa [hhas]
    have hroom' : r.interface.fallback = some false → 4 ≤ bufSize ∨ value = Word.zero := fun hfb' => by
      by_cases h : bufSize < 4
      · exact Or.inr ((hroom h hfb').resolve_left hnot)
      · exact Or.inl (Nat.not_lt.mp h)
    by_cases hlen : 4 ≤ data.length
    · rw [dif_pos hlen]
      cases hsel : r.interface.selected data with
      | some i => exact tryRoute_follows htable hlen hsize hsel _
      | none =>
        rw [tryRoute_of_not_selected htable hlen hsel, ← Interface.missing_of_selector hlen]
        exact orFallback_follows hfb (Interface.target_of_not_selected hnot hsel) hroom'
    · rw [dif_neg hlen, ← Interface.missing_of_short hlen]
      exact orFallback_follows hfb
        (Interface.target_of_not_selected hnot (Interface.selected_of_short hlen)) hroom'

/-- Without the room the dispatcher panics. -/
theorem withHandlers_trapped (hb : Implements r (.withHandlers b)) (hsize : data.length ≤ bufSize)
    (hsmall : bufSize < 4) (hfallback : r.interface.fallback = some false)
    (hnot : ¬ (data.length = 0 ∧ r.interface.hasReceive = true)) (hv : value ≠ Word.zero) :
    outcome (b.dispatchImpl errors bufSize value data) = (.error .trapped, []) := by
  obtain ⟨-, hfb, hrec⟩ := hb
  rw [hasReceive_eq hrec] at hnot
  rw [dispatchImpl_of_not_receive hsize hnot, ContractBuilderWithHandlers.dispatchRest,
    dif_neg (Nat.not_le.mpr (Nat.lt_of_le_of_lt hsize hsmall)), ContractBuilderWithHandlers.orFallback]
  cases hf : b.fallback with
  | none => exact absurd hfallback (by simp [Registered.interface, hfb, hf])
  | some handler =>
    have hpay : b.fallbackIsPayable = false := by
      simpa [Registered.interface, hfb, hf] using hfallback
    have hguard : (!b.fallbackIsPayable && valueTransferredIsNonzero value) = true :=
      guard_of_refuses (by simp [hpay, hv])
    dsimp only
    rw [if_pos hguard, copySelector, if_pos (by rwa [List.length_replicate])]
    rfl

end Dispatch

/-! ### The choice -/

/-- A dispatch of the builder and the generated `call` of a contract both make the choice
that is prescribed for what is registered. -/
structure Agrees (errors : FrameworkError → Selector) (regs : List Registration) (b : Builder) (bufSize : ℕ)
    (c : ParsedContract) (env : Env) (data : List UInt8) : Prop where
  /-- One handler is called, or none and the call reverts. -/
  builder : (registered regs).Follows errors bufSize data ((registered regs).interface.choice env.value data)
    (outcome (b.dispatchImpl errors bufSize env.value data))
  /-- The generated `call` does the same. -/
  generated : c.Follows env data ((registered regs).interface.choice env.value data) (c.call env data)

theorem not_follows_trapped {r : Registered} {bufSize : ℕ} {data : List UInt8} (ch : Choice) :
    ¬ r.Follows errors bufSize data ch (.error .trapped, []) := by
  intro h
  cases ch with
  | enters t =>
    obtain ⟨handler, -, hentered⟩ := h
    exact absurd (congrArg Prod.snd hentered) (by simp)
  | refused e => exact absurd (congrArg Prod.fst h) (by simp)

/-- **Dispatch.** For calldata that fits the buffers, a builder makes the prescribed choice, and so
the choice of the generated `call` with the same methods and handlers, exactly when its buffer
has the room for a selector or no fallback has to refuse a value. -/
theorem dispatchImpl_agrees_iff {regs : List Registration} {b : Builder} (hb : build regs = some b)
    {c : ParsedContract} (hc : c.interface = (registered regs).interface) {bufSize : ℕ} (env : Env)
    {data : List UInt8} (hsize : data.length ≤ bufSize) (hbuf : c.bufferSize.any (· < data.length) = false) :
    Agrees errors regs b bufSize c env data ↔
      (bufSize < 4 → (registered regs).interface.fallback = some false →
        data.length = 0 ∧ (registered regs).interface.hasReceive = true ∨ env.value = Word.zero) := by
  have himpl := build_implements hb
  constructor
  · rintro ⟨hbuilder, -⟩ hsmall hfallback
    by_contra hcon
    rw [not_or] at hcon
    cases b with
    | plain b => exact absurd hfallback (by simp [Registered.interface, himpl.2.1])
    | withHandlers b =>
      rw [Builder.dispatchImpl, withHandlers_trapped himpl hsize hsmall hfallback hcon.1 hcon.2] at hbuilder
      exact not_follows_trapped _ hbuilder
  · intro hroom
    refine ⟨?_, hc ▸ call_follows hbuf⟩
    cases b with
    | plain b => exact plain_follows himpl hsize
    | withHandlers b => exact withHandlers_follows himpl hsize hroom

/-- A handler that answers with nothing. -/
def silent : MethodHandler := fun _ output => some (.ok 0, output)

/-- A method that is payable, one that is not, and a fallback. -/
def wallet : List Registration :=
  [.payableMethod ⟨[1, 2, 3, 4], rfl⟩ silent, .fallback silent, .method ⟨[5, 6, 7, 8], rfl⟩ silent]

/-- The contract module with the same handlers. -/
def walletModule : ParsedContract :=
  ⟨[nullary ⟨[1, 2, 3, 4], rfl⟩ .payable, nullary ⟨[5, 6, 7, 8], rfl⟩ .nonPayable], false, some false, none⟩

theorem wallet_agrees :
    ∃ b, build wallet = some b ∧ Agrees (fun _ => ⟨[0, 0, 0, 1], rfl⟩) wallet b 256 walletModule
      ⟨.checked, ⟨List.replicate 32 1, rfl⟩, false⟩ [5, 6, 7, 8] :=
  ⟨_, rfl, (dispatchImpl_agrees_iff rfl rfl _ (by decide) rfl).mpr fun h => absurd h (by decide)⟩

/-- One byte of calldata with a value, for a fallback that is not payable: the generated
`call` reverts, and the builder with a buffer of two bytes panics. -/
theorem refusal_traps :
    let env : Env := ⟨.checked, ⟨List.replicate 32 1, rfl⟩, false⟩
    let errors : FrameworkError → Selector := fun _ => ⟨[0, 0, 0, 1], rfl⟩
    let c : ParsedContract := ⟨[], false, some false, none⟩
    ∃ b, build [.fallback silent] = some b ∧ c.interface = (registered [.fallback silent]).interface ∧
      c.call env [0xAA] = .reverted .nonPayableValueReceived ∧
      outcome (b.dispatchImpl errors 2 env.value [0xAA]) = (.error .trapped, []) ∧
      ¬ Agrees errors [.fallback silent] b 2 c env [0xAA] := by
  intro env errors c
  have htrap : outcome (ContractBuilderWithHandlers.dispatchImpl errors (ContractBuilder.new.fallback silent) 2
      env.value [0xAA]) = (.error .trapped, []) := by
    have hb : Implements (registered [.fallback silent]) (.withHandlers (ContractBuilder.new.fallback silent)) :=
      ⟨rfl, rfl, rfl⟩
    exact withHandlers_trapped hb (by decide) (by decide) rfl (by decide) (by decide)
  have hcall : c.call env [0xAA] = .reverted .nonPayableValueReceived := by
    rw [call_of_short rfl (by decide)]
    have hfb : c.fallback = some false := rfl
    exact orFallback_refuses hfb (by decide) .noSelector
  refine ⟨_, rfl, rfl, hcall, htrap, fun h => ?_⟩
  have hbuilder := h.builder
  exact not_follows_trapped _ (htrap ▸ hbuilder)

end PvmContract.Contract.BuilderDsl
