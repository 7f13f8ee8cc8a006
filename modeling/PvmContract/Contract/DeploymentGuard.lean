import PvmContract.Contract.DeploymentLaws

/-!
# What the reentrancy guard is for

A deployed contract whose mutating methods are all `#[non_reentrant]` and whose handlers,
which cannot be, only read, among contracts that may call it and each other in any way,
at any depth, through stubs or with any calldata. While the body of a guarded method
runs, nothing that it calls changes the contract's storage, directly or through other
contracts (`remote_undisturbed`). So a method may call out while its invariant is
broken: if every body restores the invariant, with its calls leaving the storage alone,
then the invariant holds after every transaction (`transaction_invariant`).

Both are relations between the world before and the world after a call, which hold of
everything that leaves the contract alone and of its guarded bodies. `remote_keeps` says
that such a relation then holds of all calls.
-/

namespace PvmContract.Contract.Deployment

open PvmContract.Data PvmContract.Types PvmContract.Macros PvmContract.Contract.Output

variable {W σ : Type} {D : Deployment W} {a : ByteArr 20} {view : W → σ}

/-- The body comes back with a value, so that its frame is not rolled back. -/
def Outcome.Succeeds {m : MethodOutput} : Outcome m → Prop
  | .returns _ | .returnsRaw _ => True
  | .fails _ | .reverts _ | .traps => False

/-! ### What a frame can do -/

theorem handOver_world {c : Deployed} {g : Given c.outputs} {w w' : W} {data : List UInt8}
    (h : handOver c g w = .returned data w') : w' = w := by
  rw [handOver] at h
  split at h
  · exact (Ended.returned.inj h).2.symm
  · exact absurd h (by simp)
  · exact absurd h (by simp)

/-- An error is not returned. -/
theorem handOver_error {c : Deployed} {m : MethodInfo} (hm : m ∈ c.methods)
    (e : ((c.output m).errorType.impl true).Carrier) (w w' : W) (data : List UInt8) :
    handOver c (.error (c.output m) (Deployed.output_mem hm) e) w ≠ .returned data w' := by
  intro h
  rw [handOver] at h
  split at h
  · rename_i hsome
    obtain ⟨bs, -, hbs⟩ := Option.map_eq_some_iff.mp hsome
    exact absurd hbs (by simp)
  · exact absurd h (by simp)
  · exact absurd h (by simp)

/-- Only a body that succeeds leaves its state. -/
theorem finish_returned {c : Deployed} {m : MethodInfo} {hm : m ∈ c.methods} {out : Option (Outcome (c.output m) × W)}
    {data : List UInt8} {w' : W} (h : finish c m hm out = .returned data w') :
    ∃ o, out = some (o, w') ∧ o.Succeeds := by
  rcases out with - | ⟨out, w⟩
  · exact absurd h (by simp [finish])
  · cases out with
    | returns result => exact ⟨.returns result, by rw [handOver_world h], trivial⟩
    | fails e => exact absurd h (handOver_error hm e w w' data)
    | returnsRaw bs => exact ⟨.returnsRaw bs, by rw [(Ended.returned.inj h).2], trivial⟩
    | reverts bs => exact absurd h (by simp [finish])
    | traps => exact absurd h (by simp [finish])

theorem finishHandler_returned {c : Deployed} {out : Option (HandlerOutcome c × W)} {data : List UInt8} {w' : W}
    (h : finishHandler c out = .returned data w') : ∃ o, out = some (o, w') := by
  rcases out with - | ⟨out, w⟩
  · exact absurd h (by simp [finishHandler])
  · cases out with
    | returns => exact ⟨_, by rw [(Ended.returned.inj h).2]⟩
    | fails t ht e => exact ⟨_, by rw [handOver_world h]⟩
    | returnsRaw bs => exact ⟨_, by rw [(Ended.returned.inj h).2]⟩
    | reverts bs => exact absurd h (by simp [finishHandler])
    | traps => exact absurd h (by simp [finishHandler])

/-- The arm of a guarded method is not passed while the lock is taken. -/
theorem unlocked_of_admits {c : ParsedContract} {env : Env} {m : MethodInfo}
    {args : Types.Fields (implOf m.paramTypes)} (h : c.Admits env (.method m args)) (hfull : isFull m = true) :
    env.locked = false := by
  rw [isFull, Bool.and_eq_true] at hfull
  have hpure : (m.mutability != .pure) = true := by
    rcases (Bool.or_eq_true _ _).mp hfull.2 with hm | hm <;> rw [beq_iff_eq.mp hm] <;> decide
  have hlock := h.2
  rwa [hfull.1, hpure, Bool.true_and, Bool.true_and] at hlock

/-- A frame that leaves its state has run a method past its guard, or a handler. -/
theorem frame_returned {calls : D.Calls} {b : ByteArr 20} {value : Word} {input data : List UInt8} {w w' : W}
    (h : D.frame calls b value input w = .returned data w') :
    (∃ m ∈ (D.contracts b).methods, (isFull m = true → D.host.isLocked b w = false) ∧
        ∃ args out, D.execute calls b m args w = some (out, w') ∧ out.Succeeds) ∨
      ((D.contracts b).hasReceive = true ∧ ∃ out, (D.receive b).run (D.answer calls) w = some (out, w')) ∨
      ((D.contracts b).fallback.isSome = true ∧ ∃ out, (D.fallback b).run (D.answer calls) w = some (out, w')) := by
  rw [frame] at h
  split at h
  · exact absurd h (by simp)
  · exact absurd h (by simp)
  · rename_i m args hcall
    have hadmits := ParsedContract.call_admits hcall
    obtain ⟨out, hout, hs⟩ := finish_returned h
    exact .inl ⟨m, hadmits.1, fun hfull => unlocked_of_admits hadmits hfull, args, out, hout, hs⟩
  · rename_i hcall
    exact .inr (.inl ⟨ParsedContract.call_admits hcall, finishHandler_returned h⟩)
  · rename_i hcall
    exact .inr (.inr ⟨ParsedContract.call_admits hcall, finishHandler_returned h⟩)
  · exact absurd h (by simp)

/-! ### What a call can do -/

theorem reply_world {p : Profile} {m : MethodOutput} {w w' : W} {r : Reply m}
    {x : Except (ReturnErrorCode × List UInt8) (List UInt8 × W)} (h : reply p m w x = some (r, w')) :
    w' = w ∨ ∃ data, x = .ok (data, w') := by
  rcases x with ⟨code, data⟩ | ⟨data, w''⟩
  · obtain ⟨r', -, heq⟩ := Option.map_eq_some_iff.mp h
    exact Or.inl (Prod.mk.inj heq).2.symm
  · obtain ⟨buf, -, hbuf⟩ := Option.bind_eq_some_iff.mp h
    refine Or.inr ⟨data, ?_⟩
    split at hbuf
    · rw [(Prod.mk.inj (Option.some.inj hbuf)).2]
    · rw [(Prod.mk.inj (Option.some.inj hbuf)).2]
    · exact absurd hbuf (by simp)
    · exact absurd hbuf (by simp)

theorem rawReply_world (w : W) (x : Except (ReturnErrorCode × List UInt8) (List UInt8 × W)) :
    (rawReply w x).2 = w ∨ ∃ data, x = .ok (data, (rawReply w x).2) := by
  rcases x with e | ⟨data, w'⟩
  · exact Or.inl rfl
  · exact Or.inr ⟨data, rfl⟩

/-- A stub changes nothing, or what the host did for its request. -/
theorem callStub_world {host : CallRequest → List UInt8 → W → Except (ReturnErrorCode × List UInt8) (List UInt8 × W)}
    {caller : ByteArr 20} {c : RemoteCall D.contracts} {w w' : W} {r : Reply c.output}
    (h : D.callStub host caller c w = some (r, w')) :
    w' = w ∨ ∃ request input data, host request input w = .ok (data, w') := by
  obtain ⟨buf, -, h⟩ := Option.bind_eq_some_iff.mp h
  split at h
  · obtain ⟨⟨request, input⟩, -, h⟩ := Option.bind_eq_some_iff.mp h
    rcases reply_world h with hw | ⟨data, hdata⟩
    · exact Or.inl hw
    · exact Or.inr ⟨request, input, data, hdata⟩
  · exact Or.inl (Prod.mk.inj (Option.some.inj h)).2.symm
  · exact absurd h (by simp)
  · exact absurd h (by simp)

theorem serve_ok {calls : ByteArr 20 → D.Calls} {caller : ByteArr 20} {r : CallRequest} {input data : List UInt8}
    {w w' : W} (h : D.serve calls caller r input w = .ok (data, w')) :
    ∃ w₁ w₂ value, D.host.enter caller r w = .ok w₁ ∧
      D.frame (calls r.address) r.address value input w₁ = .returned data w₂ ∧ w' = D.host.leave w w₂ := by
  rw [serve] at h
  split at h
  · exact absurd h (by simp)
  · rename_i w₁ henter
    cases hframe : D.frame (calls r.address) r.address (valueWord (ofBe r.value.reverse)) input w₁ with
    | returned bs w₂ =>
      rw [hframe] at h
      obtain ⟨rfl, rfl⟩ := Prod.mk.inj (Except.ok.inj h)
      exact ⟨w₁, w₂, _, henter, hframe, rfl⟩
    | reverted bs =>
      rw [hframe] at h
      exact absurd h (by simp [settled])
    | trapped =>
      rw [hframe] at h
      exact absurd h (by simp [settled])

/-- A body in its guard. -/
theorem execute_cases {calls : D.Calls} {m : MethodInfo} {args : Types.Fields (implOf m.paramTypes)} {w w' : W}
    {out : Outcome ((D.contracts a).output m)} (h : D.execute calls a m args w = some (out, w')) :
    (isFull m = false ∧ (D.code a m args).run (D.answer calls) w = some (out, w')) ∨
      (isFull m = true ∧ ∃ w₁ w₂, D.host.setLocked a true w = some w₁ ∧
        (D.code a m args).run (D.answer calls) w₁ = some (out, w₂) ∧ D.release a out w₂ = some w') := by
  rw [execute] at h
  split at h
  · rename_i hfull
    obtain ⟨w₁, hlock, h⟩ := Option.bind_eq_some_iff.mp h
    obtain ⟨⟨out', w₂⟩, hrun, h⟩ := Option.bind_eq_some_iff.mp h
    obtain ⟨w₃, hrel, h⟩ := Option.bind_eq_some_iff.mp h
    obtain ⟨rfl, rfl⟩ := Prod.mk.inj (Option.some.inj h)
    exact Or.inr ⟨hfull, w₁, w₂, hlock, hrun, hrel⟩
  · rename_i hfull
    exact Or.inl ⟨Bool.eq_false_iff.mpr hfull, h⟩

theorem release_of_succeeds {m : MethodOutput} {out : Outcome m} (hs : out.Succeeds) (w : W) :
    D.release a out w = D.host.setLocked a false w := by
  cases out with
  | returns | returnsRaw => rfl
  | fails | reverts | traps => exact absurd hs id

/-! ### A guarded contract -/

/-- From one world to the other the contract's storage and its lock are the same. -/
def Same (D : Deployment W) (a : ByteArr 20) (view : W → σ) (w w' : W) : Prop :=
  view w' = view w ∧ D.host.isLocked a w' = D.host.isLocked a w

/-- A command leaves the storage of the contract and its lock alone. -/
def Leaves (D : Deployment W) (a : ByteArr 20) (view : W → σ) : Command D.contracts W → Prop
  | .act f => ∀ w w', f w = some w' → Same D a view w w'
  | .call _ | .raw _ _ => True

/-- The contract at `a`, whose storage is `view`, is guarded: only its own code changes the storage
and only its guard the lock, and what it does in a method without the full guard, or in a handler,
is to read. -/
structure Guarded (D : Deployment W) (a : ByteArr 20) (view : W → σ) : Prop where
  enter : ∀ caller r w w', D.host.enter caller r w = .ok w' → Same D a view w w'
  leave : ∀ w w', Same D a view w' (D.host.leave w w')
  locks : ∀ l w w', D.host.setLocked a l w = some w' → view w' = view w ∧ D.host.isLocked a w' = l
  apart : ∀ b ≠ a, ∀ l w w', D.host.setLocked b l w = some w' → Same D a view w w'
  foreign : ∀ b ≠ a, ∀ m ∈ (D.contracts b).methods, ∀ args, (D.code b m args).Asks (Leaves D a view)
  /-- `&self` methods have no way to write, and the others are `#[non_reentrant]`. -/
  reads : ∀ m ∈ (D.contracts a).methods, isFull m = false → ∀ args, (D.code a m args).Asks (Leaves D a view)
  /-- No handler writes to it. Its own have no guard, so that it has none, or they only read. -/
  receives : ∀ b, (D.contracts b).hasReceive = true → (D.receive b).Asks (Leaves D a view)
  falls : ∀ b, (D.contracts b).fallback.isSome = true → (D.fallback b).Asks (Leaves D a view)

/-- Every call that is made keeps a relation between worlds. -/
structure CallsKeep (D : Deployment W) (R : W → W → Prop) (calls : D.Calls) : Prop where
  stub : ∀ c w r w', calls.stub c w = some (r, w') → R w w'
  raw : ∀ r input w, R w (calls.raw r input w).2

theorem answer_act {calls : D.Calls} {f : W → Option W} {w w' : W} {r : W}
    (h : D.answer calls (.act f) w = some (r, w')) : f w = some w' := by
  obtain ⟨w₁, hf, heq⟩ := Option.map_eq_some_iff.mp h
  exact hf.trans (congrArg some (Prod.mk.inj heq).2)

theorem answer_raw {calls : D.Calls} {r : CallRequest} {input : List UInt8} {w w' : W} {x : RawReply}
    (h : D.answer calls (.raw r input) w = some (x, w')) : w' = (calls.raw r input w).2 :=
  (congrArg Prod.snd (Option.some.inj h)).symm

section

variable {R : W → W → Prop} (hsame : ∀ {w w'}, Same D a view w w' → R w w')
  (htrans : ∀ {w w' w''}, R w w' → R w' w'' → R w w'')

include hsame htrans

/-- Code that leaves the contract alone keeps the relation, if what it calls does. -/
theorem run_keeps {calls : D.Calls} (hcalls : CallsKeep D R calls) {α : Type} {p : Body D.contracts W α}
    (hp : p.Asks (Leaves D a view)) {w : W} {r : α × W} (h : p.run (D.answer calls) w = some r) : R w r.2 := by
  refine Prog.run_related (R := R) (P := Leaves D a view) (fun _ => hsame ⟨rfl, rfl⟩) htrans
    (fun c w r w' hc heq => ?_) hp h
  cases c with
  | act f => exact hsame (hc w w' (answer_act heq))
  | call c => exact hcalls.stub c w r w' heq
  | raw request input => exact answer_raw heq ▸ hcalls.raw request input w

/-- The step: a frame keeps the relation, if the guarded bodies and what is called do. -/
theorem frame_keeps (hG : Guarded D a view) {calls : D.Calls} (hcalls : CallsKeep D R calls)
    (hfull : ∀ m ∈ (D.contracts a).methods, isFull m = true → ∀ args w out w', D.host.isLocked a w = false →
      D.execute calls a m args w = some (out, w') → out.Succeeds → R w w')
    {b : ByteArr 20} {value : Word} {input data : List UInt8} {w w' : W}
    (h : D.frame calls b value input w = .returned data w') : R w w' := by
  rcases frame_returned h with ⟨m, hm, hfree, args, out, hexec, hs⟩ | ⟨hrec, out, hrun⟩ | ⟨hfall, out, hrun⟩
  · by_cases hb : b = a
    · subst hb
      by_cases hf : isFull m = true
      · exact hfull m hm hf args w out w' (hfree hf) hexec hs
      · rcases execute_cases hexec with ⟨-, hrun⟩ | ⟨hf', -⟩
        · exact run_keeps hsame htrans hcalls (hG.reads m hm (Bool.eq_false_iff.mpr hf) args) hrun
        · exact absurd hf' hf
    · have hforeign := hG.foreign b hb m hm args
      rcases execute_cases hexec with ⟨-, hrun⟩ | ⟨-, w₁, w₂, hlock, hrun, hrel⟩
      · exact run_keeps hsame htrans hcalls hforeign hrun
      · rw [release_of_succeeds hs] at hrel
        have hbody := run_keeps hsame htrans hcalls hforeign hrun
        exact htrans (hsame (hG.apart b hb true w w₁ hlock)) (htrans hbody (hsame (hG.apart b hb false w₂ w' hrel)))
  · exact run_keeps hsame htrans hcalls (hG.receives b hrec) hrun
  · exact run_keeps hsame htrans hcalls (hG.falls b hfall) hrun

/-- The run: so do all calls, by induction on the depth of the stack. -/
theorem remote_keeps (hG : Guarded D a view)
    (hfull : ∀ calls, CallsKeep D R calls → ∀ m ∈ (D.contracts a).methods, isFull m = true → ∀ args w out w',
      D.host.isLocked a w = false → D.execute calls a m args w = some (out, w') → out.Succeeds → R w w')
    (depth : ℕ) (caller : ByteArr 20) : CallsKeep D R (D.remote depth caller) := by
  have hrefl : ∀ {w}, R w w := hsame ⟨rfl, rfl⟩
  induction depth generalizing caller with
  | zero =>
    refine ⟨fun c w r w' h => ?_, fun r input w => hrefl⟩
    have hrefused : reply (D.contracts caller).profile c.output w (.error (D.host.tooDeep, [])) = some (r, w') := h
    rcases reply_world hrefused with rfl | ⟨data, hdata⟩
    · exact hrefl
    · exact absurd hdata (by simp)
  | succ depth ih =>
    have hserve : ∀ {r input w data w'}, D.serve (D.remote depth) caller r input w = .ok (data, w') → R w w' := by
      intro r input w data w' h
      obtain ⟨w₁, w₂, value, henter, hframe, rfl⟩ := serve_ok h
      have hbody := frame_keeps hsame htrans hG (ih r.address) (hfull _ (ih r.address)) hframe
      exact htrans (hsame (hG.enter caller r w w₁ henter)) (htrans hbody (hsame (hG.leave w w₂)))
    refine ⟨fun c w r w' h => ?_, fun r input w => ?_⟩
    · rcases callStub_world h with rfl | ⟨request, input, data, hdata⟩
      · exact hrefl
      · exact hserve hdata
    · rcases rawReply_world w (D.serve (D.remote depth) caller r input w) with hw | ⟨data, hdata⟩
      · exact hw.symm ▸ hrefl
      · exact hserve hdata

end

/-! ### Exclusion -/

/-- From one world to the other the lock is as it was, and so is the storage if the lock was taken. -/
def Undisturbed (D : Deployment W) (a : ByteArr 20) (view : W → σ) (w w' : W) : Prop :=
  D.host.isLocked a w' = D.host.isLocked a w ∧ (D.host.isLocked a w = true → view w' = view w)

theorem Undisturbed.of_same {w w' : W} (h : Same D a view w w') : Undisturbed D a view w w' := ⟨h.2, fun _ => h.1⟩

theorem Undisturbed.trans {w w' w'' : W} (h : Undisturbed D a view w w') (h' : Undisturbed D a view w' w'') :
    Undisturbed D a view w w'' := by
  refine ⟨h'.1.trans h.1, fun hl => ?_⟩
  rw [h'.2 (h.1.trans hl), h.2 hl]

/-- Every call that is made leaves the contract undisturbed. -/
abbrev CallsUndisturbed (D : Deployment W) (a : ByteArr 20) (view : W → σ) (calls : D.Calls) : Prop :=
  CallsKeep D (Undisturbed D a view) calls

/-- The guard found the lock free and frees it again. -/
theorem execute_undisturbed (hG : Guarded D a view) {calls : D.Calls} {m : MethodInfo} (hfull : isFull m = true)
    {args : Types.Fields (implOf m.paramTypes)} {w w' : W} {out : Outcome ((D.contracts a).output m)}
    (hfree : D.host.isLocked a w = false) (h : D.execute calls a m args w = some (out, w')) (hs : out.Succeeds) :
    Undisturbed D a view w w' := by
  rcases execute_cases h with ⟨hf, -⟩ | ⟨-, w₁, w₂, hlock, hrun, hrel⟩
  · exact absurd (hfull.symm.trans hf) Bool.noConfusion
  · rw [release_of_succeeds hs] at hrel
    refine ⟨(hG.locks false w₂ w' hrel).2.trans hfree.symm, fun hl => ?_⟩
    rw [hfree] at hl
    exact absurd hl Bool.false_ne_true

/-- **Exclusion.** No call disturbs a guarded contract: while its lock is taken its storage stays as it
is, and the lock stays taken. -/
theorem remote_undisturbed (hG : Guarded D a view) (depth : ℕ) (caller : ByteArr 20) :
    CallsUndisturbed D a view (D.remote depth caller) :=
  remote_keeps .of_same .trans hG
    (fun _ _ _ _ hfull _ _ _ _ hfree hexec hs => execute_undisturbed hG hfull hfree hexec hs) depth caller

/-! ### Invariants -/

/-- Every guarded body that succeeds restores the invariant of the storage, if its calls leave the
storage alone. -/
def RestoresInvariant (D : Deployment W) (a : ByteArr 20) (view : W → σ) (I : σ → Prop) : Prop :=
  ∀ m ∈ (D.contracts a).methods, isFull m = true → ∀ args calls, CallsUndisturbed D a view calls →
    ∀ w out w', D.host.isLocked a w = true → I (view w) →
      (D.code a m args).run (D.answer calls) w = some (out, w') → out.Succeeds → I (view w')

variable {I : σ → Prop}

/-- The contract is left undisturbed, and its invariant holds again whenever the lock is free. -/
def Restored (D : Deployment W) (a : ByteArr 20) (view : W → σ) (I : σ → Prop) (w w' : W) : Prop :=
  Undisturbed D a view w w' ∧
    ((D.host.isLocked a w = false → I (view w)) → D.host.isLocked a w' = false → I (view w'))

theorem Restored.of_same {w w' : W} (h : Same D a view w w') : Restored D a view I w w' := by
  refine ⟨.of_same h, fun hw hfree => ?_⟩
  rw [h.1]
  exact hw (h.2.symm.trans hfree)

theorem Restored.trans {w w' w'' : W} (h : Restored D a view I w w') (h' : Restored D a view I w' w'') :
    Restored D a view I w w'' :=
  ⟨h.1.trans h'.1, fun hw => h'.2 (h.2 hw)⟩

theorem execute_restored (hG : Guarded D a view) (hI : RestoresInvariant D a view I) {calls : D.Calls}
    (hcalls : CallsKeep D (Restored D a view I) calls) {m : MethodInfo} (hm : m ∈ (D.contracts a).methods)
    (hfull : isFull m = true) {args : Types.Fields (implOf m.paramTypes)} {w w' : W}
    {out : Outcome ((D.contracts a).output m)} (hfree : D.host.isLocked a w = false)
    (h : D.execute calls a m args w = some (out, w')) (hs : out.Succeeds) : Restored D a view I w w' := by
  refine ⟨execute_undisturbed hG hfull hfree h hs, fun hw _ => ?_⟩
  have hquiet : CallsUndisturbed D a view calls :=
    ⟨fun c w r w' h => (hcalls.stub c w r w' h).1, fun r input w => (hcalls.raw r input w).1⟩
  rcases execute_cases h with ⟨hf, -⟩ | ⟨-, w₁, w₂, hlock, hrun, hrel⟩
  · exact absurd (hfull.symm.trans hf) Bool.noConfusion
  · -- the body starts with the lock taken and the invariant intact
    obtain ⟨hview, hlocked⟩ := hG.locks true w w₁ hlock
    have hstart : I (view w₁) := by
      rw [hview]
      exact hw hfree
    have hend := hI m hm hfull args calls hquiet w₁ out w₂ hlocked hstart hrun hs
    rw [release_of_succeeds hs] at hrel
    rw [(hG.locks false w₂ w' hrel).1]
    exact hend

/-- **Guarded invariants.** Whatever a transaction does outside of the contract, and however its calls
nest and come back, the contract's invariant holds after it if it held before. -/
theorem transaction_invariant (hG : Guarded D a view) (hI : RestoresInvariant D a view I) (depth : ℕ)
    (caller : ByteArr 20) {α : Type} {p : Body D.contracts W α} (hp : p.Asks (Leaves D a view)) {w : W}
    (hfree : D.host.isLocked a w = false) (hw : I (view w)) {r : α × W}
    (h : p.run (D.answer (D.remote depth caller)) w = some r) :
    D.host.isLocked a r.2 = false ∧ I (view r.2) := by
  have hcalls : CallsKeep D (Restored D a view I) (D.remote depth caller) :=
    remote_keeps .of_same .trans hG
      (fun _ hcalls _ hm hfull _ _ _ _ hfree hexec hs => execute_restored hG hI hcalls hm hfull hfree hexec hs)
      depth caller
  obtain ⟨hundisturbed, hholds⟩ := run_keeps .of_same .trans hcalls hp h
  have hlock := hundisturbed.1.trans hfree
  exact ⟨hlock, hholds (fun _ => hw) hlock⟩

/-! ### A vault -/

/-- A world with the two halves of a vault's balance, and its lock. -/
structure VaultWorld where
  locked : Bool
  inside : ℕ
  outside : ℕ
  deriving DecidableEq, Repr

/-- `shift()`, which is `#[non_reentrant]`. -/
def shift : MethodInfo :=
  { ParsedContract.nullary ⟨beBytes 4 0x12fc41ca, length_beBytes 4 0x12fc41ca⟩ .nonPayable with isNonReentrant := true }

/-- The vault is at address zero, and every other address has a contract with the same method. All have
a receive and a fallback handler. -/
def vaultContracts : Contracts := fun _ => ⟨.checked, [shift], fun _ => ⟨[], .panic⟩, true, some false, []⟩

theorem shift_declared (a : ByteArr 20) : shift ∈ (vaultContracts a).methods := List.mem_singleton_self _

/-- A call of `shift()`. -/
def callShift (a : ByteArr 20) : RemoteCall vaultContracts :=
  ⟨a, shift, shift_declared a, (), .nonPayable, .gasLimit (2 ^ 64 - 1), true⟩

/-- A unit is taken from inside, if there is one. -/
def takeInside (w : VaultWorld) : Option VaultWorld :=
  if w.inside = 0 then none else some { w with inside := w.inside - 1 }

/-- A unit is put outside. -/
def putOutside (w : VaultWorld) : Option VaultWorld := some { w with outside := w.outside + 1 }

theorem takeInside_eq_some {w w' : VaultWorld} (h : takeInside w = some w') :
    w'.locked = w.locked ∧ w'.inside + 1 = w.inside ∧ w'.outside = w.outside := by
  rw [takeInside] at h
  split at h
  · exact absurd h (by simp)
  · rename_i hpos
    obtain rfl := Option.some.inj h
    exact ⟨rfl, Nat.succ_pred hpos, rfl⟩

/-- A call of the vault that no selector matches. -/
def callUnknown : Command vaultContracts VaultWorld :=
  .raw ⟨Witness.nonPayable.callFlags, zeroAddress, .gasLimit (2 ^ 64 - 1), toLeBytes 0⟩ [1, 2, 3, 4, 5]

/-- The vault moves a unit from one half to the other with a call in between, and the others try to
reenter it, by its method and by its fallback. -/
def vaultCode (a : ByteArr 20) : Body vaultContracts VaultWorld (Outcome ⟨[], .panic⟩) :=
  if a = zeroAddress then
    .ask (.act takeInside) fun _ =>
      .ask (.call (callShift otherAddress)) fun _ => .ask (.act putOutside) fun _ => .done (.returns ())
  else .ask (.call (callShift zeroAddress)) fun _ => .ask callUnknown fun _ => .done (.returns ())

/-- A handler that looks at the world. -/
def look (a : ByteArr 20) : Body vaultContracts VaultWorld (HandlerOutcome (vaultContracts a)) :=
  .ask (.act some) fun _ => .done .returns

/-- The vault among the others. -/
def vaults : Deployment VaultWorld where
  contracts := vaultContracts
  keccak := frameworkKeccak
  host :=
    { enter := fun _ _ w => .ok w
      leave := fun _ w => w
      isLocked := fun a w => if a = zeroAddress then w.locked else false
      setLocked := fun a l w => if a = zeroAddress then some { w with locked := l } else some w
      tooDeep := .outOfResources }
  code a _ _ := vaultCode a
  receive := look
  fallback := look

/-- The two halves. -/
def VaultWorld.halves (w : VaultWorld) : ℕ × ℕ := (w.inside, w.outside)

theorem look_leaves (b : ByteArr 20) : (look b).Asks (Leaves vaults zeroAddress VaultWorld.halves) := by
  refine ⟨fun w w' h => ?_, fun _ => trivial⟩
  obtain rfl := Option.some.inj h
  exact ⟨rfl, rfl⟩

theorem vaults_guarded : Guarded vaults zeroAddress VaultWorld.halves where
  enter _ _ w w' h := by
    obtain rfl := Except.ok.inj h
    exact ⟨rfl, rfl⟩
  leave _ _ := ⟨rfl, rfl⟩
  locks l w w' h := by
    obtain rfl := Option.some.inj h
    exact ⟨rfl, rfl⟩
  apart b hb l w w' h := by
    have h' : (if b = zeroAddress then some { w with locked := l } else some w) = some w' := h
    rw [if_neg hb] at h'
    obtain rfl := Option.some.inj h'
    exact ⟨rfl, rfl⟩
  foreign b hb _ _ _ := by
    have hcode : vaultCode b =
        .ask (.call (callShift zeroAddress)) fun _ => .ask callUnknown fun _ => .done (.returns ()) := if_neg hb
    change (vaultCode b).Asks _
    rw [hcode]
    exact ⟨trivial, fun _ => ⟨trivial, fun _ => trivial⟩⟩
  reads m hm h := by
    rw [List.mem_singleton.mp hm] at h
    exact absurd h (by decide)
  receives b _ := look_leaves b
  falls b _ := look_leaves b

/-- The two halves have ten units between them, though not while `shift()` calls out. -/
theorem vaults_restores : RestoresInvariant vaults zeroAddress VaultWorld.halves fun h => h.1 + h.2 = 10 := by
  intro m hm hfull args calls hcalls w out w' hlock hw hrun hs
  obtain ⟨_, w₁, htake, hrun⟩ := Prog.run_ask_eq_some hrun
  obtain ⟨_, w₂, hcall, hrun⟩ := Prog.run_ask_eq_some hrun
  obtain ⟨_, w₃, hput, hrun⟩ := Prog.run_ask_eq_some hrun
  obtain rfl : w₃ = w' := (Prod.mk.inj (Option.some.inj hrun)).2
  obtain ⟨hlocked, hinside, houtside⟩ := takeInside_eq_some (answer_act htake)
  -- nothing that is called reaches the vault
  have hsame : w₂.halves = w₁.halves := (hcalls.stub _ _ _ _ hcall).2 (hlocked.trans hlock)
  obtain ⟨hin, hout⟩ := Prod.mk.inj hsame
  have hput' : putOutside w₂ = some w₃ := answer_act hput
  obtain rfl := Option.some.inj hput'
  have hsum : w.inside + w.outside = 10 := hw
  change w₂.inside + (w₂.outside + 1) = 10
  omega

/-- A transaction that calls `shift()` on the vault. -/
def shiftOnce : Body vaultContracts VaultWorld Unit := .ask (.call (callShift zeroAddress)) fun _ => .done ()

theorem remote_undisturbed_vaults :
    CallsUndisturbed vaults zeroAddress VaultWorld.halves (vaults.remote 3 otherAddress) :=
  remote_undisturbed vaults_guarded 3 otherAddress

/-- One unit is moved, and the attempt to reenter in between is turned away. -/
theorem transaction_invariant_vaults : ∃ r,
    shiftOnce.run (vaults.answer (vaults.remote 3 otherAddress)) ⟨false, 6, 4⟩ = some r ∧
      vaults.host.isLocked zeroAddress r.2 = false ∧ r.2.halves.1 + r.2.halves.2 = 10 := by
  have hrun : shiftOnce.run (vaults.answer (vaults.remote 3 otherAddress)) ⟨false, 6, 4⟩ =
      some ((), ⟨false, 5, 5⟩) := by decide +kernel
  exact ⟨_, hrun, transaction_invariant vaults_guarded vaults_restores 3 otherAddress
    (p := shiftOnce) ⟨trivial, fun _ => trivial⟩ rfl (by decide) hrun⟩

end PvmContract.Contract.Deployment
