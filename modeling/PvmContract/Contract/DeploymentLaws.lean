import PvmContract.Contract.Deployment
import PvmContract.Macros.DispatchLaws

/-!
# A remote call is a call of the method

In a deployment whose contracts compile, and whose parameters the dispatcher takes back,
a call through a stub does what the call of the method does, whatever the callee's body
calls in turn and however it ends (`remote_eq_invoke`), and so does any code that makes
such calls (`transaction_eq`). The proof goes the way of the call, one lemma for each of
its stations: the request (`callRawInner_eq`), the callee's frame (`frame_of_declared`),
what its end means to the caller (`reply_finish`). What bodies call is the induction
hypothesis.
-/

namespace PvmContract.Contract

open PvmContract.Data PvmContract.Types PvmContract.Macros PvmContract.Contract.Output Run
open PvmContract.Abi PvmContract.Contract.Deployment

/-! ### The request -/

theorem ofBe_toLeBytes (value : ℕ) : ofBe (toLeBytes value).reverse = value % 256 ^ 32 := by
  rw [toLeBytes, List.reverse_reverse, ofBe_beBytes]

theorem toLeBytes_mod (value : ℕ) : toLeBytes (value % 256 ^ 32) = toLeBytes value := by
  simp only [toLeBytes, beBytes_mod]

/-- The callee is handed the value that the caller wrote. -/
theorem valueWord_request (value : ℕ) : valueWord (ofBe (toLeBytes value).reverse) = valueWord value := by
  simp only [valueWord, ofBe_toLeBytes, toLeBytes_mod]

/-- What a builder asks of the host, but for the input. -/
def CallBuilder.callRequest {I : SolCodec} (b : CallBuilder I) (address : ByteArr 20) : CallRequest :=
  ⟨if b.allowReentry then { b.witness.callFlags with allowReentry := true } else b.witness.callFlags, address,
    b.callLimits, toLeBytes b.witness.value⟩

/-- Through a buffer of the right size a builder asks for a call with the selector and the arguments
as its input. -/
theorem callRawInner_eq {t : Ty} (ht : IsPayload t) (b : CallBuilder t.impl) (address : ByteArr 20)
    {buf : List UInt8} (hs : IsSlice buf) (hlen : buf.length = 4 + t.impl.encodeLen b.payload) :
    ∃ req, b.callRawInner address buf = pure (.ok req) ∧
      Deployment.callRequest req = some (b.callRequest address, b.selector.1 ++ t.abiEncode b.payload) := by
  have hsel := b.selector.2
  have hroom : b.selector.1.length + t.impl.encodeLen b.payload ≤ buf.length := by omega
  have hfill := CallBuilder.fillInput_eq ht hs hroom
  rw [List.drop_of_length_le (by omega), List.append_nil] at hfill
  rw [CallBuilder.callRawInner, if_neg (by omega), hfill, ofAccess, pure_andThen]
  cases hl : b.callLimits with
  | gasLimit limit => exact ⟨_, rfl, by rw [CallBuilder.callRequest, hl]; rfl⟩
  | refTimeAndProofSize limits => exact ⟨_, rfl, by rw [CallBuilder.callRequest, hl]; rfl⟩

/-! ### Payloads -/

/-- The types of an argument list that a stub and the dispatcher agree on. -/
structure ArgTypes (ts : List Ty) : Prop where
  codable : ∀ t ∈ ts, t.Codable = true
  /-- No dynamic tuple, dynamic struct or array of dynamic elements. -/
  plain : ∀ t ∈ ts, t.bodyAt = false
  /-- Payloads are tuples of at most 12 components. -/
  length : ts.length ≤ 12

/-- A single argument that is not read in place is its own argument list. -/
theorem abiEncode_single {t : Ty} (hc : t.Codable = true) (hbody : t.bodyAt = false) (v : t.impl.Carrier) :
    t.abiEncode v = AbiType.abiEncode [t.abi] (t.toAbi v, ()) := by
  cases t with
  | tuple elems =>
    have hrep := Ty.represents hc
    have hd : (Ty.tuple elems).abi.isDynamic = false := by
      rw [← hrep.dynamic]
      exact hbody
    rw [← Ty.topLevel_eq_abiEncode, hrep.topLevel_eq, if_pos (by simp [hrep.dynamic, hd]), Panic.abiEncode_static hd]
  | _ => rfl

theorem codable_tuple {ts : List Ty} (h : ArgTypes ts) (hne : ts ≠ []) : (Ty.tuple ts).Codable = true := by
  have hpos : 1 ≤ ts.length := List.length_pos_iff.mpr hne
  have hall : Ty.allList (fun t => Ty.compilesHere t && Ty.notUnit t && Ty.notEmpty t) ts = true :=
    Ty.allList_iff.mpr h.codable
  change (_ && _) = true
  rw [hall, Bool.and_true]
  simp [Ty.compilesHere, Ty.notUnit, Ty.notEmpty, hpos, h.length]

/-- The request of a stub: the selector, and the arguments as the dispatcher wants them. -/
theorem payload_request {ts : List Ty} (h : ArgTypes ts) (vals : Types.Fields (Ty.impls ts)) {selector : Selector}
    {witness : Witness} {callLimits : CallLimits} {allowReentry : Bool} :
    let b : CallBuilder (payloadType (Ty.rusts ts)) :=
      ⟨selector, payload (Ty.rusts ts) vals, witness, callLimits, allowReentry⟩
    (payloadType (Ty.rusts ts)).encodeLen (payload (Ty.rusts ts) vals) =
        (AbiType.abiEncode (Ty.abis ts) (Ty.toAbis ts vals)).length ∧
      ∀ (address : ByteArr 20) (buf : List UInt8), IsSlice buf →
        buf.length = 4 + (payloadType (Ty.rusts ts)).encodeLen (payload (Ty.rusts ts) vals) →
        ∃ req, b.callRawInner address buf = pure (.ok req) ∧
          Deployment.callRequest req = some (b.callRequest address,
            selector.1 ++ AbiType.abiEncode (Ty.abis ts) (Ty.toAbis ts vals)) := by
  intro b
  cases ts with
  | nil =>
    exact ⟨rfl, fun address buf hs hlen => callRawInner_eq (t := .unit) (Or.inr rfl) b address hs hlen⟩
  | cons t ts =>
    cases ts with
    | nil =>
      obtain ⟨v, -⟩ := vals
      have hc := h.codable t List.mem_cons_self
      have hp : IsPayload t := Or.inl hc
      have hsingle := abiEncode_single hc (h.plain t List.mem_cons_self) v
      refine ⟨?_, fun address buf hs hlen => ?_⟩
      · exact (hp.writes v).2.trans (congrArg List.length hsingle)
      · obtain ⟨req, hreq, hcall⟩ := callRawInner_eq (t := t) hp b address hs hlen
        refine ⟨req, hreq, ?_⟩
        rw [hcall]
        exact congrArg (fun bs => some (b.callRequest address, selector.1 ++ bs)) hsingle
    | cons t' ts =>
      have hp : IsPayload (.tuple (t :: t' :: ts)) := Or.inl (codable_tuple h (by simp))
      exact ⟨(hp.writes vals).2, fun address buf hs hlen =>
        callRawInner_eq (t := .tuple (t :: t' :: ts)) hp b address hs hlen⟩

/-- What a stub sends, and that the dispatcher takes it back. -/
theorem sent {ts : List Ty} (h : ArgTypes ts) {m : MethodInfo} (hts : m.paramTypes = Ty.rusts ts)
    (args : Types.Fields (implOf m.paramTypes)) (witness : Witness) (callLimits : CallLimits) (allowReentry : Bool) :
    ∃ bytes : List UInt8,
      (payloadType m.paramTypes).encodeLen (payload m.paramTypes args) = bytes.length ∧
      (∀ (address : ByteArr 20) (buf : List UInt8), IsSlice buf → buf.length = 4 + bytes.length →
        let b : CallBuilder (payloadType m.paramTypes) :=
          ⟨m.selector, payload m.paramTypes args, witness, callLimits, allowReentry⟩
        ∃ req, b.callRawInner address buf = pure (.ok req) ∧
          Deployment.callRequest req = some (b.callRequest address, m.selector.1 ++ bytes)) ∧
      ∀ p, IsSlice bytes → (m.decode p bytes).Returns args := by
  obtain ⟨selector, paramTypes, mutability, isNonReentrant, decode, hdec⟩ := m
  obtain rfl : paramTypes = Ty.rusts ts := hts
  obtain ⟨decode', hdec', hret⟩ := Ty.decodesCall fun t ht => ⟨h.codable t ht, h.plain t ht⟩
  obtain rfl := Option.some.inj (hdec.symm.trans hdec')
  obtain ⟨hlen, hreq⟩ := @payload_request ts h args selector witness callLimits allowReentry
  refine ⟨_, hlen, fun address buf hs hbuf => hreq address buf hs ?_, fun p hs => hret p args hs⟩
  rw [hlen]
  exact hbuf

/-! ### The callee's frame -/

section

variable {c : ParsedContract} {env : Env} {m : MethodInfo} {bytes : List UInt8}
  {args : Types.Fields (implOf m.paramTypes)}

/-- An arm on arguments that decode: its two guards, and the body. -/
theorem arm_eq {hoisted : Bool} (hh : hoisted = true → m.mutability ≠ .payable ∧ env.value = Word.zero)
    (hdec : (m.decode env.profile bytes).Returns args) :
    ParsedContract.arm env hoisted m bytes =
      if env.value != Word.zero && m.mutability != .payable then .reverted .nonPayableValueReceived
      else ParsedContract.enter env m args := by
  by_cases hrej : env.value ≠ Word.zero ∧ m.mutability ≠ .payable
  · have hfalse : hoisted = false := by
      by_contra hcon
      exact hrej.1 (hh (by simpa using hcon)).2
    rw [if_pos (by simpa using hrej), ParsedContract.arm, if_pos]
    simp [hfalse, hrej.2, (ParsedContract.valueTransferredIsNonzero_iff _).mpr hrej.1]
  · have hguard : hoisted = true ∨ m.mutability = .payable ∨ env.value = Word.zero := by
      by_contra hcon
      simp only [not_or] at hcon
      exact hrej ⟨hcon.2.2, hcon.2.1⟩
    rw [if_neg (by simpa using hrej), ParsedContract.arm_of_guard hguard,
      show (m.decode env.profile bytes).exit = .ok args from hdec]

/-- The `call` entry on the selector of a method and arguments that decode. -/
theorem call_declared (hd : (c.methods.map (·.selector)).Nodup) (hbuf : c.bufferSize = none) (hm : m ∈ c.methods)
    (hdec : (m.decode env.profile bytes).Returns args) :
    c.call env (m.selector.1 ++ bytes) =
      if env.value != Word.zero && m.mutability != .payable then .reverted .nonPayableValueReceived
      else ParsedContract.enter env m args := by
  have hfour := m.selector.2
  have hlen : 4 ≤ (m.selector.1 ++ bytes).length := by rw [List.length_append]; omega
  have hsel : selectorOf (m.selector.1 ++ bytes) hlen = m.selector :=
    Subtype.ext (List.take_left' hfour)
  have hdrop : (m.selector.1 ++ bytes).drop 4 = bytes := List.drop_left' hfour
  have hroute : c.route env m.selector bytes =
      if env.value != Word.zero && m.mutability != .payable then .reverted .nonPayableValueReceived
      else ParsedContract.enter env m args := by
    by_cases hall : c.allNonPayable = true ∧ env.value ≠ Word.zero
    · -- the hoisted check
      have hpay : m.mutability ≠ .payable := fun hp => by
        rw [ParsedContract.allNonPayable_of_payable hm hp] at hall
        exact absurd hall.1 (by decide)
      rw [ParsedContract.route_hoisted hall.1 hall.2, if_pos (by simp [hall.2, hpay])]
    · have hnot : c.allNonPayable = true → env.value = Word.zero := fun h => by
        by_contra hv
        exact hall ⟨h, hv⟩
      rw [ParsedContract.route_eq hnot, ParsedContract.find_of_mem hd hm]
      refine arm_eq (fun h => ⟨fun hp => ?_, hnot h⟩) hdec
      rw [ParsedContract.allNonPayable_of_payable hm hp] at h
      exact absurd h (by decide)
  have hnone : c.bufferSize.any (· < (m.selector.1 ++ bytes).length) = false := by rw [hbuf]; rfl
  have hne : c.route env m.selector bytes ≠ .unhandled := ParsedContract.route_ne_unhandled ⟨m, hm, rfl⟩
  rw [ParsedContract.call_of_selector hnone hlen, hsel, hdrop]
  split
  · rename_i h
    exact absurd h hne
  · exact hroute

end

namespace Deployment

variable {W : Type} {D : Deployment W} {calls : D.Calls} {a : ByteArr 20} {value : Word} {data : List UInt8} {w : W}

theorem frame_reverted {e : FrameworkError}
    (h : (D.contracts a).parsed.call ⟨(D.contracts a).profile, value, D.host.isLocked a w⟩ data = .reverted e) :
    D.frame calls a value data w = .reverted (D.frameworkSelector e).1 := by
  rw [frame]
  split
  · rename_i e' h'
    obtain rfl := Routed.reverted.inj (h.symm.trans h')
    rfl
  all_goals
    rename_i h'
    exact absurd (h.symm.trans h') (by simp)

theorem frame_runs {m : MethodInfo} {args : Types.Fields (implOf m.paramTypes)} (hm : m ∈ (D.contracts a).methods)
    (h : (D.contracts a).parsed.call ⟨(D.contracts a).profile, value, D.host.isLocked a w⟩ data =
      .runs (.method m args)) :
    D.frame calls a value data w = finish (D.contracts a) m hm (D.execute calls a m args w) := by
  rw [frame]
  split
  case h_3 m' args' h' =>
    obtain ⟨rfl, hargs⟩ := Handler.method.inj (Routed.runs.inj (h.symm.trans h'))
    obtain rfl := eq_of_heq hargs
    rfl
  all_goals
    rename_i h'
    exact absurd (h.symm.trans h') (by simp)

/-- The frame of a declared method on what a stub sends. -/
theorem frame_of_declared (hd : ((D.contracts a).methods.map (·.selector)).Nodup) {m : MethodInfo}
    (hm : m ∈ (D.contracts a).methods) {bytes : List UInt8} {args : Types.Fields (implOf m.paramTypes)}
    (hdec : (m.decode (D.contracts a).profile bytes).Returns args) :
    D.frame calls a value (m.selector.1 ++ bytes) w =
      if value != Word.zero && m.mutability != .payable then
        .reverted (D.frameworkSelector .nonPayableValueReceived).1
      else if m.isNonReentrant && m.mutability != .pure && D.host.isLocked a w then
        .reverted (D.frameworkSelector .reentrancyGuardReentrantCall).1
      else finish (D.contracts a) m hm (D.execute calls a m args w) := by
  have hcall := @call_declared (D.contracts a).parsed ⟨(D.contracts a).profile, value, D.host.isLocked a w⟩ m bytes args
    hd rfl hm hdec
  by_cases hval : (value != Word.zero && m.mutability != .payable) = true
  · rw [if_pos hval] at hcall
    rw [if_pos hval, frame_reverted hcall]
  · rw [if_neg hval, ParsedContract.enter] at hcall
    rw [if_neg hval]
    by_cases hlock : (m.isNonReentrant && m.mutability != .pure && D.host.isLocked a w) = true
    · rw [if_pos hlock] at hcall
      rw [if_pos hlock, frame_reverted hcall]
    · rw [if_neg hlock] at hcall
      rw [if_neg hlock, frame_runs hm hcall]

/-! ### What the caller learns -/

/-- In a build with an allocator nothing is handed over that is too long for a vector. -/
theorem limit_of_handed {c : ContractOutput} (hc : Accepted c) (halloc : c.useAlloc = true) {p : Profile} {g : Given c}
    {answer : Answer} (h : handed p c g = some answer) : (Output.encoding c g).data.length < capacityLimit := by
  obtain ⟨len, hlen, hlimit⟩ := hc.stack
  have hstack : (List.replicate len (0 : UInt8)).length < capacityLimit := by rwa [List.length_replicate]
  obtain ⟨useAlloc, methods, handlerErrors⟩ := c
  obtain rfl : useAlloc = true := halloc
  cases g with
  | value m hm result =>
    obtain ⟨bs, hbs, -⟩ := Option.map_eq_some_iff.mp h
    rw [withOut_alloc rfl hlen] at hbs
    by_cases hne : m.returnTypes = []
    · obtain ⟨returnTypes, errorType⟩ := m
      obtain rfl : returnTypes = [] := hne
      exact Nat.two_pow_pos 63
    · have hcod := hc.returns m hm hne
      have hempty : m.returnTypes.isEmpty = false := by simpa using hne
      have hsize := length_returned hcod result
      rw [returnData, encodeAndReturn, hempty, if_neg Bool.false_ne_true, returnLen, if_pos rfl, hsize] at hbs
      simp only [Option.bind_eq_bind, Option.bind_some] at hbs
      obtain ⟨r, hr, -⟩ := Option.bind_eq_some_iff.mp hbs
      obtain ⟨r', hr', -⟩ := Option.bind_eq_some_iff.mp hr
      exact outBuf_limit hstack hr'
  | error m hm e =>
    obtain ⟨bs, hbs, -⟩ := Option.map_eq_some_iff.mp h
    rw [withOut_alloc rfl hlen, revertOut, revertCap, if_pos rfl, (encodesError true _ (hc.errors m hm)).size e] at hbs
    obtain ⟨r, hr, -⟩ := Option.bind_eq_some_iff.mp hbs
    exact outBuf_limit hstack hr
  | handlerError t ht e =>
    obtain ⟨bs, hbs, -⟩ := Option.map_eq_some_iff.mp h
    rw [revertLocal, localBuf, if_pos rfl, revertCap, if_pos rfl,
      (encodesError true _ (hc.handlerErrors t ht)).size e] at hbs
    obtain ⟨buf, hbuf, -⟩ := Option.bind_eq_some_iff.mp hbs
    exact (length_resize hbuf).1

/-- So the encoding is handed over, or it is too long for a vector. -/
theorem handed_alloc {c : ContractOutput} (hc : Accepted c) (halloc : c.useAlloc = true) (p : Profile) (g : Given c) :
    handed p c g = if (Output.encoding c g).data.length < capacityLimit then some (Output.encoding c g) else none := by
  have hiff := handed_iff_of_alloc hc halloc p g
  split_ifs with hlt
  · exact hiff.mpr hlt
  · cases hh : handed p c g with
    | none => rfl
    | some answer => exact absurd (limit_of_handed hc halloc hh) hlt

/-- The data of an error are read back as the error. -/
theorem caught_error {m : MethodOutput} (hm : m.errorType.WellFormed) (p : Profile)
    {e : (m.errorType.impl true).Carrier} (hs : (m.errorType.data true e).length < capacityLimit) :
    caught p m .calleeReverted (m.errorType.data true e) = some (.error (m.errorType.canonical true e)) := by
  have hcls := ErrTy.classifies true m.errorType hm
  obtain ⟨hvalid, hdata⟩ := ErrTy.canonical_spec true m.errorType e
  rw [← hdata] at hs ⊢
  have hread : (((m.errorType.impl true).decodeAt p (m.errorType.data true (m.errorType.canonical true e)) 0)).exit =
      .ok (some (m.errorType.canonical true e)) := by
    have hret := hcls.reads _ p hvalid hs
    rw [ErrTy.forget_eq true m.errorType (Or.inl rfl)] at hret
    exact hret
  rw [caught, if_pos rfl, tryDecodeError_eq, hread]

/-- A revert of the dispatcher is no error of the method's type. -/
theorem caught_framework {m : MethodOutput} (hm : m.errorType.WellFormed) (p : Profile) {s : Selector}
    (hs : s ∉ m.errorType.selectors) : caught p m .calleeReverted s.1 = some .unrecognised := by
  have hcls := ErrTy.classifies true m.errorType hm
  have hnone : (m.errorType.impl true).decodeAt p s.1 0 = pure none := by
    refine hcls.other p s.1 s.2.ge fun s' hs' hpre => hs ?_
    rw [selector_unique (List.prefix_refl s.1) hpre]
    exact hs'
  rw [caught, if_pos rfl, tryDecodeError_eq, hnone]
  rfl

/-- The encoding of a return value is read back as the stub's value. -/
theorem reply_value {c : ContractOutput} (hc : Accepted c) {m : MethodOutput} (hm : m ∈ c.methods) (p : Profile)
    (w w' : W) (result : (successTy m.returnTypes).impl.Carrier)
    (hs : (Output.encoding c (.value m hm result)).data.length < capacityLimit) :
    reply p m w (.ok ((Output.encoding c (.value m hm result)).data, w')) = some (.value (stubResult _ result), w') := by
  have hread : ((returnType m.returnTypes).decode p (Output.encoding c (.value m hm result)).data).exit =
      .ok (stubResult m.returnTypes result) := by
    obtain ⟨ts, errorType⟩ := m
    cases ts with
    | nil => rfl
    | cons t ts =>
      have hcod := hc.returns _ hm (List.cons_ne_nil t ts)
      have hdata : (Output.encoding c (.value ⟨t :: ts, errorType⟩ hm result)).data = (successTy (t :: ts)).abiEncode result :=
        Ty.topLevel_eq_abiEncode _ result
      rw [hdata] at hs ⊢
      exact decode_returns hcod result p hs
  have hmax : max (Output.encoding c (.value m hm result)).data.length 512 < capacityLimit := max_lt hs (by decide)
  obtain ⟨buf, hbuf, hlen⟩ := exists_resize [] hmax
  have hroom : (Output.encoding c (.value m hm result)).data.length ≤ buf.length := by
    rw [hlen]
    exact le_max_left _ _
  have hout := extractOutput_eq (returnType m.returnTypes) p hroom
  rw [reply, hbuf, Option.bind_eq_bind, Option.bind_some, hout, decodingResult, hread]

/-- What the end of a method's frame means to the caller. -/
theorem reply_finish {c : Deployed} (hc : Accepted c.outputs) {m : MethodInfo} (hm : m ∈ c.methods)
    (he : (c.output m).errorType.WellFormed) (p : Profile) (w : W) (leave : W → W)
    (out : Option (Outcome (c.output m) × W)) :
    reply p (c.output m) w (settled leave (finish c m hm out)) = delivered p c m hm w leave out := by
  rcases out with - | ⟨out, w'⟩
  · rfl
  · cases out with
    | returns result =>
      have hhanded := handed_alloc hc rfl c.profile (.value (c.output m) (Deployed.output_mem hm) result)
      simp only [finish, handOver, hhanded, delivered]
      split_ifs with hlt
      · exact reply_value hc (Deployed.output_mem hm) p w (leave w') result hlt
      · rfl
    | fails e =>
      have hhanded := handed_alloc hc rfl c.profile (.error (c.output m) (Deployed.output_mem hm) e)
      simp only [finish, handOver, hhanded, delivered]
      split_ifs with hlt
      · have hcaught := caught_error he p hlt
        exact congrArg (Option.map (·, w)) hcaught
      · rfl
    | returnsRaw data => rfl
    | reverts data => rfl
    | traps => rfl

/-! ### Every call -/

/-- The contracts compile, no two methods of one share a selector, the dispatcher takes the parameters
back, and no method's error has a selector of the framework. -/
structure Sound (D : Deployment W) : Prop where
  selectors : ∀ a, ((D.contracts a).methods.map (·.selector)).Nodup
  params : ∀ a, ∀ m ∈ (D.contracts a).methods, ∃ ts, ArgTypes ts ∧ m.paramTypes = Ty.rusts ts
  accepted : ∀ a, Accepted (D.contracts a).outputs
  errors : ∀ a, ∀ m ∈ (D.contracts a).methods, ((D.contracts a).output m).errorType.WellFormed
  distinct : ∀ a, ∀ m ∈ (D.contracts a).methods, ∀ e,
    D.frameworkSelector e ∉ ((D.contracts a).output m).errorType.selectors

/-- What the frame of a call means to the caller. -/
theorem reply_frame (hD : D.Sound) (calls : D.Calls) (c : RemoteCall D.contracts) (p : Profile) (w w' : W)
    {bytes : List UInt8} (hdec : (c.method.decode (D.contracts c.address).profile bytes).Returns c.args) :
    reply p c.output w (settled (D.host.leave w)
        (D.frame calls c.address (valueWord c.witness.value) (c.method.selector.1 ++ bytes) w')) =
      if D.rejects c w' then some (.unrecognised, w)
      else
        delivered p (D.contracts c.address) c.method c.declared w (D.host.leave w)
          (D.execute calls c.address c.method c.args w') := by
  have hwf := hD.errors c.address c.method c.declared
  have hreject : ∀ e, reply p c.output w (settled (D.host.leave w) (.reverted (D.frameworkSelector e).1)) =
      some (.unrecognised, w) := fun e =>
    congrArg (Option.map (·, w)) (caught_framework hwf p (hD.distinct c.address c.method c.declared e))
  rw [frame_of_declared (hD.selectors c.address) c.declared hdec]
  by_cases hval : (valueWord c.witness.value != Word.zero && c.method.mutability != .payable) = true
  · have hrej : D.rejects c w' = true := by rw [rejects, hval, Bool.true_or]
    rw [if_pos hval, if_pos hrej]
    exact hreject _
  · have hrej : D.rejects c w' =
        (c.method.isNonReentrant && c.method.mutability != .pure && D.host.isLocked c.address w') := by
      rw [rejects, Bool.eq_false_iff.mpr hval, Bool.false_or]
    rw [if_neg hval, hrej]
    split_ifs with hlock
    · exact hreject _
    · exact reply_finish (hD.accepted c.address) c.declared hwf p w (D.host.leave w) _

theorem requested_value (c : RemoteCall D.contracts) : (D.requested c).value = toLeBytes c.witness.value := by
  rw [requested]

/-- A call through a stub does what the call of the method does, if what the callee's body asks is
answered alike. -/
theorem callStub_eq (hD : D.Sound) (calls : ByteArr 20 → D.Calls) (caller : ByteArr 20)
    (c : RemoteCall D.contracts) (w : W) :
    D.callStub (D.serve calls caller) caller c w = D.callMethod calls caller c w := by
  obtain ⟨ts, hargs, hts⟩ := hD.params c.address c.method c.declared
  obtain ⟨bytes, hsize, hrequest, hdec⟩ := sent hargs hts c.args c.witness c.callLimits c.allowReentry
  have hinput : c.inputLen = 4 + bytes.length := congrArg (4 + ·) hsize
  rw [callStub, callMethod]
  by_cases hfit : c.inputLen < capacityLimit
  · obtain ⟨buf, hbuf, hlen⟩ := exists_resize [] hfit
    obtain ⟨req, hreq, hcall⟩ := hrequest c.address buf (by rw [IsSlice, hlen]; exact hfit) (hlen.trans hinput)
    have hslice : IsSlice bytes := by
      rw [hinput] at hfit
      exact Nat.lt_of_le_of_lt (Nat.le_add_left _ _) hfit
    have hbuilder : c.callBuilder.callRawInner c.address buf = pure (.ok req) := hreq
    have hrequested : Deployment.callRequest req = some (D.requested c, c.method.selector.1 ++ bytes) := hcall
    have hvalue : valueWord (ofBe (D.requested c).value.reverse) = valueWord c.witness.value := by
      rw [requested_value, valueWord_request]
    rw [if_pos hfit, hbuf, Option.bind_eq_bind, Option.bind_some, hbuilder]
    simp only [pure_def, hrequested, serve, Option.bind_eq_bind, Option.bind_some]
    cases D.host.enter caller (D.requested c) w with
    | error code => rfl
    | ok w' =>
      have hframe := reply_frame hD (calls c.address) c (D.contracts caller).profile w w'
        (hdec (D.contracts c.address).profile hslice)
      rw [← hvalue] at hframe
      exact hframe
  · rw [if_neg hfit, resize, if_neg hfit]
    rfl

/-- By induction on the depth of the stack, since the callee's body calls as well. -/
theorem remote_eq_invoke (hD : D.Sound) (depth : ℕ) : D.remote depth = D.invoke depth := by
  induction depth with
  | zero => rfl
  | succ depth ih =>
    funext caller
    rw [remote, invoke, ih]
    congr
    funext c w
    exact callStub_eq hD (D.invoke depth) caller c w

/-- **Remote calls.** Code that calls other contracts through their stubs, whatever they call in turn,
runs as if it called their methods: the same values and errors come back, and the same world is left. -/
theorem transaction_eq (hD : D.Sound) (depth : ℕ) (caller : ByteArr 20) {α : Type} (p : Body D.contracts W α) (w : W) :
    p.run (D.answer (D.remote depth caller)) w = p.run (D.answer (D.invoke depth caller)) w :=
  Prog.run_congr (P := fun _ => True) (fun c w _ => by rw [remote_eq_invoke hD]) (Prog.asks_of_forall (fun _ => trivial) p) w

/-! ### Two contracts that add -/

/-- The hashes of the framework's signatures. -/
def frameworkHash (bs : List UInt8) : List UInt8 :=
  if bs = asBytes "NoSelector()" then
    beBytes 32 0x686fe397d5679e89a597c1d495bc7225d04f34a38bda7a22873cd38411b1ed64
  else if bs = asBytes "UnknownSelector()" then
    beBytes 32 0xdc66f67306b994c24bd23f0ee4b6101ed96febd809232982e31305bdb7bbea01
  else if bs = asBytes "NonPayableValueReceived()" then
    beBytes 32 0xd4f48f8d162ffc7025fb223e9b53cdd9b1ae1108df53d53945f7d6951d941190
  else if bs = asBytes "InvalidCalldata()" then
    beBytes 32 0x8129bbcd90c0a8b0c351818eb9a3c02ff54bb79b87cf8737d4e5395eaf4ce2e4
  else if bs = asBytes "CalldataTooLarge()" then
    beBytes 32 0x9e077ae5557c6f08edc409ee4d16fac21922917669d58b27b442c5c782aaff91
  else if bs = asBytes "ReentrancyGuardReentrantCall()" then
    beBytes 32 0x3ee5aeb571de7fc460830b4d0017439a1ca56fb0bc39062227ade4fe4a24c1ca
  else beBytes 32 0

theorem length_frameworkHash (bs : List UInt8) : (frameworkHash bs).length = 32 := by
  rw [frameworkHash]
  split_ifs <;> exact length_beBytes 32 _

/-- The hash that they are of, as far as it matters here. -/
def frameworkKeccak (bs : List UInt8) : Word := ⟨frameworkHash bs, length_frameworkHash bs⟩

theorem decodeCall_add : (decodeCall (Ty.rusts [.prim .u8])).isSome = true := rfl

/-- The method `add(uint8)`. -/
def add : MethodInfo where
  selector := ⟨beBytes 4 0x02067e6a, length_beBytes 4 0x02067e6a⟩
  paramTypes := Ty.rusts [.prim .u8]
  mutability := .nonPayable
  isNonReentrant := false
  decode := (decodeCall (Ty.rusts [.prim .u8])).get decodeCall_add
  decode_eq := (Option.some_get decodeCall_add).symm

/-- What `add` gives back: the sum, or a panic. -/
def sumOrPanic : MethodOutput := ⟨[.prim .u8], .panic⟩

/-- Every address has a contract with this method. -/
def adders : Contracts := fun _ => ⟨.checked, [add], fun _ => sumOrPanic, false, none, []⟩

theorem add_declared (a : ByteArr 20) : add ∈ (adders a).methods := List.mem_singleton_self _

/-- A call of `add`. -/
def callAdd (a : ByteArr 20) (x : BitVec 8) : RemoteCall adders :=
  ⟨a, add, add_declared a, (x, ()), .nonPayable, .gasLimit (2 ^ 64 - 1), false⟩

theorem length_otherAddress : (List.replicate 20 (1 : UInt8)).length = 20 := rfl

/-- The address of another contract. -/
def otherAddress : ByteArr 20 := ⟨List.replicate 20 1, length_otherAddress⟩

/-- The number that is passed, as its bytes say. -/
def passed {fields : List Field} (args : Types.Fields (implOf fields)) : ℕ :=
  (((Types.tuple (implOf fields)).encodeTo args (List.replicate 32 0)).map fun buf => ofBe buf).getD 0

/-- At address zero the number is added to the sum, which may become too large. The others ask there, and
if that fails they panic, with the code of an overflow. -/
def addCode (a : ByteArr 20) (x : ℕ) : Body adders ℕ (Outcome sumOrPanic) :=
  if a = zeroAddress then
    .ask (.act fun sum => some (sum + x)) fun (sum : ℕ) =>
      .done (if sum < 256 then .returns (BitVec.ofNat 8 sum) else .fails Panic.overflow)
  else
    .ask (.call (callAdd zeroAddress (BitVec.ofNat 8 x))) fun
      | .value sum => .done (.returns sum)
      | _ => .done (.fails (Panic.unknown 0x11))

/-- The contracts, on a host that refuses no call. -/
def adding : Deployment ℕ where
  contracts := adders
  keccak := frameworkKeccak
  host := ⟨fun _ _ w => .ok w, fun _ w => w, fun _ _ => false, fun _ _ w => some w, .outOfResources⟩
  code a _ args := addCode a (passed args)
  receive _ := .done .returns
  fallback _ := .done .returns

theorem adding_distinct (e : FrameworkError) : adding.frameworkSelector e ∉ [Panic.selector] := by
  cases e <;> decide +kernel

theorem adding_sound : adding.Sound where
  selectors _ := List.nodup_singleton _
  params _ m hm := by
    rw [List.mem_singleton.mp hm]
    exact ⟨[.prim .u8], ⟨by decide, by decide, by decide⟩, rfl⟩
  accepted _ := by
    refine ⟨fun m hm _ => ?_, fun m hm => ?_, fun t ht => ?_, fun h => ?_, ⟨32, rfl, by decide⟩⟩
    · rw [List.mem_singleton.mp hm]
      rfl
    · rw [List.mem_singleton.mp hm]
      exact trivial
    · exact absurd ht List.not_mem_nil
    · exact Bool.noConfusion h
  errors _ m hm := by
    rw [List.mem_singleton.mp hm]
    exact trivial
  distinct _ m hm e := by
    rw [List.mem_singleton.mp hm]
    exact adding_distinct e

/-- The sum or the panic of a reply. -/
def summed : Reply sumOrPanic → Option (BitVec 8 ⊕ Panic)
  | .value sum => some (.inl sum)
  | .error e => some (.inr e)
  | .unrecognised | .malformed | .failed _ => none

/-- The refusal of a raw call. -/
def refusal : RawReply → Option (ReturnErrorCode × List UInt8)
  | .ok _ => none
  | .error e => some e

/-- What is observed of three calls, two of `add` and a raw one. -/
structure Observed where
  first : Option (BitVec 8 ⊕ Panic)
  second : Option (BitVec 8 ⊕ Panic)
  third : Option (ReturnErrorCode × List UInt8)
  deriving DecidableEq

/-- Two numbers are added through another contract, the second of which is too much, and then the first
contract is sent three bytes. -/
def addTwice : Body adders ℕ Observed :=
  .ask (.call (callAdd otherAddress 200#8)) fun first =>
    .ask (.call (callAdd otherAddress 100#8)) fun second =>
      .ask (.raw ⟨Witness.nonPayable.callFlags, zeroAddress, .gasLimit (2 ^ 64 - 1), toLeBytes 0⟩ [1, 2, 3]) fun third =>
        .done ⟨summed first, summed second, refusal third⟩

/-- The sum comes back, and then the panic, under the name of its code, with the sum as it was. The three
bytes are no selector. -/
theorem transaction_eq_adding :
    addTwice.run (adding.answer (adding.remote 3 zeroAddress)) 0 =
      some (⟨some (.inl 200#8), some (.inr .overflow), some (.calleeReverted, [0x68, 0x6f, 0xe3, 0x97])⟩, 200) :=
  (transaction_eq adding_sound 3 zeroAddress addTwice 0).trans (by decide +kernel)

end Deployment

end PvmContract.Contract
