import PvmContract.Contract.Interface
import Mathlib.Data.List.Basic

/-!
# The builder DSL

`ContractBuilder` and `ContractBuilderWithHandlers`: dispatch without generated code,
by a table of selectors and function pointers and a mask of payable bits. A
registration adds to the table; `fallback`, `payable_fallback` and `receive` turn the
one type into the other, and later replace what is there.

A handler is what it does to the output buffer. What it does to the host is not
modelled, nor what the dispatcher hands it of the host; `Dispatching` keeps the calls
of handlers in order and the way the call of the contract ends.
-/

namespace PvmContract.Contract.BuilderDsl

open PvmContract.Data PvmContract.Macros ParsedContract

/-- `HandlerResult`. -/
inductive HandlerResult where
  | ok (n : ℕ)
  | revert (n : ℕ)

/-- `MethodHandler`: what it makes of the input and the output buffer, unless it ends the call itself. -/
abbrev MethodHandler : Type := List UInt8 → List UInt8 → Option (HandlerResult × List UInt8)

/-- The call of a handler. -/
structure HandlerCall where
  handler : MethodHandler
  input : List UInt8

/-- How the call of a contract ends. -/
inductive Ending where
  | returned (data : List UInt8)
  | reverted (data : List UInt8)
  /-- A panic of the dispatcher. -/
  | trapped
  /-- A handler has ended it. -/
  | byHandler

/-- A piece of the dispatcher, with the calls of handlers so far. -/
abbrev Dispatching : Type → Type := ExceptT Ending (StateM (List HandlerCall))

/-- What a dispatch comes to: its end and the handlers it has called. -/
def outcome (d : Dispatching Unit) : Except Ending Unit × List HandlerCall := Id.run (StateT.run (ExceptT.run d) [])

/-- `MAX_METHODS`. -/
def maxMethods : ℕ := 16

/-! ### Registration -/

/-- `ContractBuilder`; of the array only the `len` entries in use. -/
structure ContractBuilder where
  methods : List (Selector × MethodHandler)
  payableBits : BitVec 64
  length_le : methods.length ≤ maxMethods
  unset : ∀ i, methods.length ≤ i → payableBits.getLsbD i = false

/-- `ContractBuilderWithHandlers`. -/
structure ContractBuilderWithHandlers where
  inner : ContractBuilder
  fallback : Option MethodHandler
  fallbackIsPayable : Bool
  receive : Option MethodHandler

theorem getLsbD_setBit (bits : BitVec 64) {n : ℕ} (hn : n < 64) (i : ℕ) :
    (bits ||| 1#64 <<< n).getLsbD i = (bits.getLsbD i || decide (i = n)) := by
  rw [BitVec.getLsbD_or, BitVec.getLsbD_shiftLeft, BitVec.getLsbD_one]
  congr 1
  by_cases h : i = n
  · subst h
    simp [hn]
  · by_cases hlt : i < n
    · simp [h, hlt]
    · simp [h, hlt]
      omega

namespace ContractBuilder

/-- `ContractBuilder::new`. -/
def new : ContractBuilder := ⟨[], 0#64, Nat.zero_le _, fun _ _ => BitVec.getLsbD_zero⟩

/-- `ContractBuilder::method`; it panics when the table is full. -/
def method (b : ContractBuilder) (selector : Selector) (handler : MethodHandler) : Option ContractBuilder :=
  if h : b.methods.length < maxMethods then
    some
      { methods := b.methods ++ [(selector, handler)]
        payableBits := b.payableBits
        length_le := by rw [List.length_append]; exact h
        unset := fun i hi => b.unset i (by rw [List.length_append] at hi; omega) }
  else none

/-- `ContractBuilder::payable_method`. -/
def payableMethod (b : ContractBuilder) (selector : Selector) (handler : MethodHandler) : Option ContractBuilder :=
  if h : b.methods.length < maxMethods then
    some
      { methods := b.methods ++ [(selector, handler)]
        payableBits := b.payableBits ||| 1#64 <<< b.methods.length
        length_le := by rw [List.length_append]; exact h
        unset := fun i hi => by
          rw [List.length_append, List.length_singleton] at hi
          rw [getLsbD_setBit _ (Nat.lt_trans h (by decide)), b.unset i (by omega), Bool.false_or,
            decide_eq_false (by omega)] }
  else none

/-- `ContractBuilder::fallback`. -/
def fallback (b : ContractBuilder) (handler : MethodHandler) : ContractBuilderWithHandlers :=
  ⟨b, some handler, false, none⟩

/-- `ContractBuilder::payable_fallback`. -/
def payableFallback (b : ContractBuilder) (handler : MethodHandler) : ContractBuilderWithHandlers :=
  ⟨b, some handler, true, none⟩

/-- `ContractBuilder::receive`. -/
def receive (b : ContractBuilder) (handler : MethodHandler) : ContractBuilderWithHandlers :=
  ⟨b, none, false, some handler⟩

end ContractBuilder

namespace ContractBuilderWithHandlers

/-- `ContractBuilderWithHandlers::method`. -/
def method (b : ContractBuilderWithHandlers) (selector : Selector) (handler : MethodHandler) :
    Option ContractBuilderWithHandlers :=
  (b.inner.method selector handler).map fun inner => { b with inner := inner }

/-- `ContractBuilderWithHandlers::payable_method`. -/
def payableMethod (b : ContractBuilderWithHandlers) (selector : Selector) (handler : MethodHandler) :
    Option ContractBuilderWithHandlers :=
  (b.inner.payableMethod selector handler).map fun inner => { b with inner := inner }

/-- `ContractBuilderWithHandlers::fallback`. -/
def setFallback (b : ContractBuilderWithHandlers) (handler : MethodHandler) : ContractBuilderWithHandlers :=
  { b with fallback := some handler, fallbackIsPayable := false }

/-- `ContractBuilderWithHandlers::payable_fallback`. -/
def setPayableFallback (b : ContractBuilderWithHandlers) (handler : MethodHandler) : ContractBuilderWithHandlers :=
  { b with fallback := some handler, fallbackIsPayable := true }

/-- `ContractBuilderWithHandlers::receive`. -/
def setReceive (b : ContractBuilderWithHandlers) (handler : MethodHandler) : ContractBuilderWithHandlers :=
  { b with receive := some handler }

end ContractBuilderWithHandlers

/-- A builder in either of its two types. -/
inductive Builder where
  | plain (b : ContractBuilder)
  | withHandlers (b : ContractBuilderWithHandlers)

/-- A link of the chain of registrations. -/
inductive Registration where
  | method (selector : Selector) (handler : MethodHandler)
  | payableMethod (selector : Selector) (handler : MethodHandler)
  | fallback (handler : MethodHandler)
  | payableFallback (handler : MethodHandler)
  | receive (handler : MethodHandler)

/-- One registration, on the builder's current type. -/
def Builder.register : Builder → Registration → Option Builder
  | .plain b, .method s h => (b.method s h).map .plain
  | .plain b, .payableMethod s h => (b.payableMethod s h).map .plain
  | .plain b, .fallback h => some (.withHandlers (b.fallback h))
  | .plain b, .payableFallback h => some (.withHandlers (b.payableFallback h))
  | .plain b, .receive h => some (.withHandlers (b.receive h))
  | .withHandlers b, .method s h => (b.method s h).map .withHandlers
  | .withHandlers b, .payableMethod s h => (b.payableMethod s h).map .withHandlers
  | .withHandlers b, .fallback h => some (.withHandlers (b.setFallback h))
  | .withHandlers b, .payableFallback h => some (.withHandlers (b.setPayableFallback h))
  | .withHandlers b, .receive h => some (.withHandlers (b.setReceive h))

/-- The builder of a chain of registrations, unless one of them panics. -/
def build (regs : List Registration) : Option Builder := regs.foldlM Builder.register (.plain .new)

/-! ### Dispatch -/

section Dispatch

variable (errors : FrameworkError → Selector)

/-- `HostApi::revert`, with a selector of `framework_errors`. -/
def revertWith {α : Type} (e : FrameworkError) : Dispatching α := throw (.reverted (errors e).1)

/-- `output[..4].copy_from_slice`, of a selector of `framework_errors`. -/
def copySelector (e : FrameworkError) (output : List UInt8) : Dispatching (List UInt8) :=
  if output.length < 4 then throw .trapped else pure ((errors e).1 ++ output.drop 4)

/-- The call of a handler. -/
def invoke (handler : MethodHandler) (input output : List UInt8) : Dispatching (HandlerResult × List UInt8) := do
  modify (· ++ [⟨handler, input⟩])
  match handler input output with
  | some r => pure r
  | none => throw .byHandler

/-- `finalize_response`. -/
def finalizeResponse (output : List UInt8) : HandlerResult → Dispatching Unit
  | .ok n => throw (.returned (output.take (min n output.length)))
  | .revert n => throw (.reverted (output.take (min n output.length)))

/-- `if let Some(result) = self.try_route(..)`, with what stands after it. -/
def respondOr (missed : Dispatching Unit) (tried : Dispatching (Option (HandlerResult × List UInt8))) :
    Dispatching Unit := do
  match ← tried with
  | some (result, output) => finalizeResponse output result
  | none => missed

namespace ContractBuilder

/-- The bit of a table entry. -/
def isPayable (b : ContractBuilder) (i : ℕ) : Bool := (b.payableBits >>> i) &&& 1#64 == 1#64

/-- What `try_route` does at the entry that matches. -/
def attempt (isPayable : Bool) (value : Word) (handler : MethodHandler) (input output : List UInt8) :
    Dispatching (HandlerResult × List UInt8) :=
  if !isPayable && valueTransferredIsNonzero value then do
    let output ← copySelector errors .nonPayableValueReceived output
    pure (.revert 4, output)
  else invoke handler input output

/-- The loop of `try_route`, with the entries left and the index of the first of them. -/
def tryFrom (b : ContractBuilder) (value : Word) (selector : Selector) (input output : List UInt8) :
    ℕ → List (Selector × MethodHandler) → Dispatching (Option (HandlerResult × List UInt8))
  | _, [] => pure none
  | i, (sel, handler) :: rest =>
    if sel == selector then some <$> attempt errors (b.isPayable i) value handler input output
    else tryFrom b value selector input output (i + 1) rest

/-- `try_route`; the output buffer comes back with the result. -/
def tryRoute (b : ContractBuilder) (value : Word) (selector : Selector) (input output : List UInt8) :
    Dispatching (Option (HandlerResult × List UInt8)) :=
  b.tryFrom errors value selector input output 0 b.methods

/-- `ContractBuilder::dispatch_impl`. -/
def dispatchImpl (b : ContractBuilder) (bufSize : ℕ) (value : Word) (data : List UInt8) : Dispatching Unit :=
  if bufSize < data.length then revertWith errors .calldataTooLarge
  else if h : 4 ≤ data.length then
    respondOr (revertWith errors .unknownSelector)
      (b.tryRoute errors value (selectorOf data h) (data.drop 4) (List.replicate bufSize 0))
  else revertWith errors .noSelector

end ContractBuilder

namespace ContractBuilderWithHandlers

/-- The end of `dispatch_impl`: the fallback, or the revert in its place. -/
def orFallback (b : ContractBuilderWithHandlers) (value : Word) (data output : List UInt8)
    (defaultErr : FrameworkError) : Dispatching Unit :=
  match b.fallback with
  | some handler =>
    if !b.fallbackIsPayable && valueTransferredIsNonzero value then do
      let output ← copySelector errors .nonPayableValueReceived output
      throw (.reverted (output.take 4))
    else do
      let (result, output) ← invoke handler data output
      finalizeResponse output result
  | none => revertWith errors defaultErr

/-- The part of `dispatch_impl` after `receive` has been considered. -/
def dispatchRest (b : ContractBuilderWithHandlers) (value : Word) (data output : List UInt8) : Dispatching Unit :=
  if h : 4 ≤ data.length then
    respondOr (b.orFallback errors value data output .unknownSelector)
      (b.inner.tryRoute errors value (selectorOf data h) (data.drop 4) output)
  else b.orFallback errors value data output .noSelector

/-- `ContractBuilderWithHandlers::dispatch_impl`. -/
def dispatchImpl (b : ContractBuilderWithHandlers) (bufSize : ℕ) (value : Word) (data : List UInt8) :
    Dispatching Unit :=
  if bufSize < data.length then revertWith errors .calldataTooLarge
  else
    match data.length, b.receive with
    | 0, some receive => do
      let (result, output) ← invoke receive [] (List.replicate bufSize 0)
      finalizeResponse output result
    | _, _ => b.dispatchRest errors value data (List.replicate bufSize 0)

end ContractBuilderWithHandlers

/-- `dispatch_impl`, of the builder's type. -/
def Builder.dispatchImpl (bufSize : ℕ) (value : Word) (data : List UInt8) : Builder → Dispatching Unit
  | .plain b => b.dispatchImpl errors bufSize value data
  | .withHandlers b => b.dispatchImpl errors bufSize value data

end Dispatch

end PvmContract.Contract.BuilderDsl
