import PvmContract.Data.Prog
import PvmContract.Contract.OutputLaws

/-!
# Deployed contracts that call each other

The whole way of a call between two contracts that are built with an allocator:
the `call` of an `abi_import!` stub, the call builder and its buffers, the host, the
`call` entry of the callee with its router, the arm with its guards, the body, the
encoding of what it gives back, and the decoding of the return data or of the
revert data on the caller's side. `remote` is that way; every step of it is the
definition of the module in which the step is verified.

Bodies are programs (`Prog`): between the calls of other contracts a body may change
the world in any way, or trap. A call is made through a stub, or past the stubs with
any input: such a raw call reaches whatever the callee's router finds for the bytes,
the receive and the fallback handler included. The host is a parameter. What a call
relies on is written into `remote`: the callee is handed the input as its calldata and
the value of the request as the value transferred, in little-endian bytes; a frame that
reverts or traps leaves nothing behind; and a call that succeeds leaves the state its
frame ended in. Whether the host lets a frame begin, with its value, its limits and the
stack of calls, is `Host.enter`.

`invoke` is the call of a stub without any bytes: the method's body, run on the arguments
themselves, and its result. The two guards of the arm are in it, and memory that is
too short.

Delegated calls and instantiations, events and gas are not modelled here.
-/

namespace PvmContract.Contract.Deployment

open PvmContract.Data PvmContract.Types PvmContract.Macros PvmContract.Contract.Output Run

/-! ### Contracts and their stubs -/

/-- A contract in a build with an allocator. -/
structure Deployed where
  profile : Profile
  methods : List MethodInfo
  /-- What the methods give back. -/
  output : MethodInfo → MethodOutput
  hasReceive : Bool
  /-- Whether there is a fallback, and whether it is payable. -/
  fallback : Option Bool
  /-- The error types of the receive and the fallback handler. -/
  handlerErrors : List ErrTy

namespace Deployed

/-- What the router is generated from. -/
def parsed (c : Deployed) : ParsedContract := ⟨c.methods, c.hasReceive, c.fallback, none⟩

/-- What the outputs are generated from. -/
def outputs (c : Deployed) : ContractOutput := ⟨true, c.methods.map c.output, c.handlerErrors⟩

theorem output_mem {c : Deployed} {m : MethodInfo} (hm : m ∈ c.methods) : c.output m ∈ c.outputs.methods :=
  List.mem_map_of_mem hm

end Deployed

/-- The contract at each address. -/
abbrev Contracts : Type 1 := ByteArr 20 → Deployed

/-- `( #(#param_types),* )`: the type of a stub's payload. -/
def payloadType : List Field → SolCodec
  | [] => Types.unit
  | [f] => f.impl
  | fields => Types.tuple (implOf fields)

/-- `( #(#names),* )`. -/
def payload : (fields : List Field) → Types.Fields (implOf fields) → (payloadType fields).Carrier
  | [], _ => ()
  | [_], (v, _) => v
  | _ :: _ :: _, vs => vs

/-- The return type of a stub. -/
def returnType : List Ty → SolCodec
  | [] => Types.unit
  | ts => (successTy ts).impl

/-- What a method returns, as a value of the stub's return type. -/
def stubResult : (ts : List Ty) → (successTy ts).impl.Carrier → (returnType ts).Carrier
  | [], _ => ()
  | _ :: _, v => v

/-- A call of a method of a deployed contract, made through a stub. -/
structure RemoteCall (D : Contracts) where
  address : ByteArr 20
  method : MethodInfo
  declared : method ∈ (D address).methods
  args : Types.Fields (implOf method.paramTypes)
  witness : Witness
  callLimits : CallLimits
  allowReentry : Bool

namespace RemoteCall

variable {D : Contracts}

/-- What the callee's method gives back. -/
abbrev output (c : RemoteCall D) : MethodOutput := (D c.address).output c.method

/-- The builder that the stub fills in. -/
def callBuilder (c : RemoteCall D) : CallBuilder (payloadType c.method.paramTypes) where
  selector := c.method.selector
  payload := payload c.method.paramTypes c.args
  witness := c.witness
  callLimits := c.callLimits
  allowReentry := c.allowReentry

/-- The size of the input buffer: `4 + self.call_builder.payload.encode_len()`. -/
def inputLen (c : RemoteCall D) : ℕ :=
  4 + (payloadType c.method.paramTypes).encodeLen (payload c.method.paramTypes c.args)

end RemoteCall

/-- What a call gives its caller: the stub's value, or the error that `try_decode_error` finds in a
revert, or that it finds none, or fails to read one, or the error of the call itself. -/
inductive Reply (m : MethodOutput) where
  | value (result : (returnType m.returnTypes).Carrier)
  | error (e : (m.errorType.impl true).Carrier)
  | unrecognised
  | malformed
  | failed (e : CallError)

/-- How a method's body ends. -/
inductive Outcome (m : MethodOutput) where
  | returns (result : (successTy m.returnTypes).impl.Carrier)
  | fails (e : (m.errorType.impl true).Carrier)
  /-- It calls `return_value` itself. -/
  | returnsRaw (data : List UInt8)
  /-- It calls `revert` itself. -/
  | reverts (data : List UInt8)
  | traps

/-- How a receive or fallback handler ends. -/
inductive HandlerOutcome (c : Deployed) where
  | returns
  | fails (t : ErrTy) (ht : t ∈ c.handlerErrors) (e : (t.impl true).Carrier)
  /-- It calls `return_value` itself. -/
  | returnsRaw (data : List UInt8)
  | reverts (data : List UInt8)
  | traps

/-! ### The host and the code -/

/-- The codes with which a host call fails. -/
inductive ReturnErrorCode where
  | calleeTrapped
  | calleeReverted
  | transferFailed
  | outOfResources
  | duplicateContractAddress
  | other (code : ℕ)
  deriving DecidableEq, Repr

/-- `convert_error`. -/
def convertError : ReturnErrorCode → CallError
  | .calleeTrapped => .calleeTrapped
  | .calleeReverted => .calleeReverted
  | .transferFailed => .transferFailed
  | .outOfResources => .outOfResources
  | .duplicateContractAddress => .duplicateContractAddress
  | .other _ => .unknown

/-- What a call asks of the host, but for its input. -/
structure CallRequest where
  flags : CallFlags
  address : ByteArr 20
  limits : CallLimits
  value : List UInt8
  deriving DecidableEq, Repr

/-- A request to call, and its input. -/
def callRequest : HostCall → Option (CallRequest × List UInt8)
  | .callEvm flags address limit value input => some (⟨flags, address, .gasLimit limit, value⟩, input)
  | .call flags address limits value input =>
    some (⟨flags, address, .refTimeAndProofSize limits, value⟩, input)
  | _ => none

/-- The host, as far as calls use it. -/
structure Host (W : Type) where
  /-- A frame begins, with the value transferred, or the call is refused. -/
  enter : ByteArr 20 → CallRequest → W → Except ReturnErrorCode W
  /-- A frame has ended well: what the world before the call becomes with the one in which the frame ended. -/
  leave : W → W → W
  /-- `__reentrancy_is_locked`. -/
  isLocked : ByteArr 20 → W → Bool
  /-- `__reentrancy_lock` and `__reentrancy_unlock`. In a read-only frame they trap. -/
  setLocked : ByteArr 20 → Bool → W → Option W
  /-- The refusal of a call that nests too deeply. -/
  tooDeep : ReturnErrorCode

/-- What a body asks: a change of the world, which may trap, a call through a stub, or a call with any
input. -/
inductive Command (D : Contracts) (W : Type) where
  | act (f : W → Option W)
  | call (c : RemoteCall D)
  | raw (r : CallRequest) (input : List UInt8)

/-- The return data of a call, or the code with which it fails and the data of the revert. -/
abbrev RawReply : Type := Except (ReturnErrorCode × List UInt8) (List UInt8)

/-- The answers: the world as it is then, or the reply. -/
def Command.Answer {D : Contracts} {W : Type} : Command D W → Type
  | .act _ => W
  | .call c => Reply c.output
  | .raw _ _ => RawReply

/-- The code of a body. -/
abbrev Body (D : Contracts) (W : Type) (α : Type) : Type 1 := Prog (Command D W) Command.Answer α

end PvmContract.Contract.Deployment

namespace PvmContract.Contract

open PvmContract.Data PvmContract.Types PvmContract.Macros PvmContract.Contract.Output Run
open PvmContract.Contract.Deployment

/-- Contracts at their addresses, with their code, and the host they run on. -/
structure Deployment (W : Type) where
  contracts : Contracts
  /-- The hash that the framework's selectors are taken from. -/
  keccak : List UInt8 → Word
  host : Host W
  code : (a : ByteArr 20) → (m : MethodInfo) → Types.Fields (implOf m.paramTypes) →
    Body contracts W (Outcome ((contracts a).output m))
  receive : (a : ByteArr 20) → Body contracts W (HandlerOutcome (contracts a))
  fallback : (a : ByteArr 20) → Body contracts W (HandlerOutcome (contracts a))

namespace Deployment

variable {W : Type} (D : Deployment W)

/-- How calls are answered. -/
structure Calls : Type 1 where
  stub : (c : RemoteCall D.contracts) → W → Option (Reply c.output × W)
  raw : CallRequest → List UInt8 → W → RawReply × W

/-- The answers to what a body asks, given those to its calls. -/
def answer (calls : D.Calls) : Responder (Command D.contracts W) Command.Answer W
  | .act f, w => (f w).map fun w => (w, w)
  | .call c, w => calls.stub c w
  | .raw r input, w => some (calls.raw r input w)

/-! ### The callee -/

/-- How a call frame ends: with data and the state it leaves, with the data of a revert, or by
trapping. -/
inductive Ended (W : Type) where
  | returned (data : List UInt8) (w : W)
  | reverted (data : List UInt8)
  | trapped

/-- The signature that a revert of the dispatcher is the selector of. -/
def errorSignature : FrameworkError → String
  | .noSelector => "NoSelector()"
  | .unknownSelector => "UnknownSelector()"
  | .nonPayableValueReceived => "NonPayableValueReceived()"
  | .invalidCalldata => "InvalidCalldata()"
  | .calldataTooLarge => "CalldataTooLarge()"
  | .reentrancyGuardReentrantCall => "ReentrancyGuardReentrantCall()"

/-- The selector of a revert of the dispatcher. -/
def frameworkSelector (e : FrameworkError) : Selector := constSelector D.keccak (errorSignature e)

/-- `nonPayable` and `payable` methods are guarded in full. -/
def isFull (m : MethodInfo) : Bool :=
  m.isNonReentrant && (m.mutability == .nonPayable || m.mutability == .payable)

/-- The unlock behind a body, or in the `return_value` that it calls itself. A body that reverts
or traps comes to neither. -/
def release {m : MethodOutput} (a : ByteArr 20) : Outcome m → W → Option W
  | .returns _, w | .fails _, w | .returnsRaw _, w => D.host.setLocked a false w
  | .reverts _, w | .traps, w => some w

/-- A method's body, in its guard. -/
def execute (calls : D.Calls) (a : ByteArr 20) (m : MethodInfo) (args : Types.Fields (implOf m.paramTypes)) (w : W) :
    Option (Outcome ((D.contracts a).output m) × W) :=
  if isFull m then do
    let w ← D.host.setLocked a true w
    let (out, w) ← (D.code a m args).run (D.answer calls) w
    let w ← D.release a out w
    pure (out, w)
  else (D.code a m args).run (D.answer calls) w

/-- What the host is handed for a value or an error. -/
def handOver (c : Deployed) (g : Given c.outputs) (w : W) : Ended W :=
  match handed c.profile c.outputs g with
  | some (.returned data) => .returned data w
  | some (.reverted data) => .reverted data
  | none => .trapped

/-- The end of a method's arm. -/
def finish (c : Deployed) (m : MethodInfo) (hm : m ∈ c.methods) : Option (Outcome (c.output m) × W) → Ended W
  | some (.returns result, w) => handOver c (.value (c.output m) (Deployed.output_mem hm) result) w
  | some (.fails e, w) => handOver c (.error (c.output m) (Deployed.output_mem hm) e) w
  | some (.returnsRaw data, w) => .returned data w
  | some (.reverts data, _) => .reverted data
  | some (.traps, _) | none => .trapped

/-- The end of a receive or fallback handler: success is a bare `return`. -/
def finishHandler (c : Deployed) : Option (HandlerOutcome c × W) → Ended W
  | some (.returns, w) => .returned [] w
  | some (.fails t ht e, w) => handOver c (.handlerError t ht e) w
  | some (.returnsRaw data, w) => .returned data w
  | some (.reverts data, _) => .reverted data
  | some (.traps, _) | none => .trapped

/-- A body that is entered is that of a method of the contract. -/
theorem mem_of_call {c : ParsedContract} {env : Env} {data : List UInt8} {m : MethodInfo}
    {args : Types.Fields (implOf m.paramTypes)} (h : c.call env data = .runs (.method m args)) : m ∈ c.methods :=
  (ParsedContract.call_admits h).1

/-- The call frame of a contract: its `call` entry, on the calldata and the value transferred. -/
def frame (calls : D.Calls) (a : ByteArr 20) (value : Word) (data : List UInt8) (w : W) : Ended W :=
  match h : (D.contracts a).parsed.call ⟨(D.contracts a).profile, value, D.host.isLocked a w⟩ data with
  | .reverted e => .reverted (D.frameworkSelector e).1
  | .aborted => .trapped
  | .runs (.method m args) => finish (D.contracts a) m (mem_of_call h) (D.execute calls a m args w)
  | .runs .receive => finishHandler (D.contracts a) ((D.receive a).run (D.answer calls) w)
  | .runs .fallback => finishHandler (D.contracts a) ((D.fallback a).run (D.answer calls) w)
  -- `call` hands what no selector matches to the fallback
  | .unhandled => .trapped

/-! ### The host's part -/

theorem length_toLeBytes (value : ℕ) : (toLeBytes value).length = 32 := by
  rw [toLeBytes, List.length_reverse, length_beBytes]

/-- A number in the bytes of `value_transferred`. -/
def valueWord (value : ℕ) : Word := ⟨toLeBytes value, length_toLeBytes value⟩

/-- The result of a call, from the end of its frame. -/
def settled (leave : W → W) : Ended W → Except (ReturnErrorCode × List UInt8) (List UInt8 × W)
  | .returned data w => .ok (data, leave w)
  | .reverted data => .error (.calleeReverted, data)
  | .trapped => .error (.calleeTrapped, [])

/-- A call, on the host: the callee's frame, between `enter` and `leave`. -/
def serve (calls : ByteArr 20 → D.Calls) (caller : ByteArr 20) (r : CallRequest) (input : List UInt8) (w : W) :
    Except (ReturnErrorCode × List UInt8) (List UInt8 × W) :=
  match D.host.enter caller r w with
  | .error code => .error (code, [])
  | .ok w' =>
    settled (D.host.leave w) (D.frame (calls r.address) r.address (valueWord (ofBe r.value.reverse)) input w')

/-- A raw call, from the host's answer on. -/
def rawReply (w : W) : Except (ReturnErrorCode × List UInt8) (List UInt8 × W) → RawReply × W
  | .ok (data, w') => (.ok data, w')
  | .error e => (.error e, w)

/-! ### The caller -/

/-- What the caller learns from a failed call, by `try_decode_error`. -/
def caught (p : Profile) (m : MethodOutput) (e : CallError) (data : List UInt8) : Option (Reply m) :=
  if e = .calleeReverted then
    match (tryDecodeError (m.errorType.impl true) p e data).exit with
    | .ok (some e) => some (.error e)
    | .ok none => some .unrecognised
    | .err => some .malformed
    | .panic => none
  else some (.failed e)

/-- The stub's `call`, from the host's answer on. The output buffer is
`vec![0; self.call_builder.output_size(..).max(512)]`. -/
def reply (p : Profile) (m : MethodOutput) (w : W) :
    Except (ReturnErrorCode × List UInt8) (List UInt8 × W) → Option (Reply m × W)
  | .ok (data, w') => do
    let outputBuf ← resize [] (max data.length 512)
    match (extractOutput (returnType m.returnTypes) p data outputBuf).exit with
    | .ok (.ok result) => some (.value result, w')
    | .ok (.error e) => some (.failed e, w')
    | .err | .panic => none
  | .error (code, data) => (caught p m (convertError code) data).map (·, w)

/-- The stub's `call`: its request, and the reply. -/
def callStub (host : CallRequest → List UInt8 → W → Except (ReturnErrorCode × List UInt8) (List UInt8 × W))
    (caller : ByteArr 20) (c : RemoteCall D.contracts) (w : W) : Option (Reply c.output × W) := do
  let inputBuf ← resize [] c.inputLen
  match (c.callBuilder.callRawInner c.address inputBuf).exit with
  | .ok (.ok request) =>
    let (r, input) ← callRequest request
    reply (D.contracts caller).profile c.output w (host r input w)
  | .ok (.error e) => some (.failed e, w)
  | .err | .panic => none

/-- Calls with no room for a further frame. -/
def refused (caller : ByteArr 20) : D.Calls where
  stub c w := reply (D.contracts caller).profile c.output w (.error (D.host.tooDeep, []))
  raw _ _ w := (.error (D.host.tooDeep, []), w)

/-- Calls, with at most `depth` frames on the stack. -/
def remote : (depth : ℕ) → (caller : ByteArr 20) → D.Calls
  | 0, caller => D.refused caller
  | depth + 1, caller =>
    { stub := D.callStub (D.serve (remote depth) caller) caller
      raw := fun r input w => rawReply w (D.serve (remote depth) caller r input w) }

/-! ### The call without bytes -/

/-- The flags of a call. -/
def callFlags (c : RemoteCall D.contracts) : CallFlags :=
  if c.allowReentry then { c.witness.callFlags with allowReentry := true } else c.witness.callFlags

/-- What the call asks of the host. -/
def requested (c : RemoteCall D.contracts) : CallRequest :=
  ⟨D.callFlags c, c.address, c.callLimits, toLeBytes c.witness.value⟩

/-- The arm turns the call away, because of its value or the lock. -/
def rejects (c : RemoteCall D.contracts) (w : W) : Bool :=
  (valueWord c.witness.value != Word.zero && c.method.mutability != .payable) ||
    (c.method.isNonReentrant && c.method.mutability != .pure && D.host.isLocked c.address w)

/-- What the caller learns of how the body ended. -/
def delivered (p : Profile) (c : Deployed) (m : MethodInfo) (hm : m ∈ c.methods) (w : W) (leave : W → W) :
    Option (Outcome (c.output m) × W) → Option (Reply (c.output m) × W)
  | some (.returns result, w') =>
    if (Output.encoding c.outputs (.value (c.output m) (Deployed.output_mem hm) result)).data.length < capacityLimit then
      some (.value (stubResult _ result), leave w')
    else some (.failed .calleeTrapped, w)
  | some (.fails e, _) =>
    if (Output.encoding c.outputs (.error (c.output m) (Deployed.output_mem hm) e)).data.length < capacityLimit then
      some (.error ((c.output m).errorType.canonical true e), w)
    else some (.failed .calleeTrapped, w)
  | some (.returnsRaw data, w') => reply p (c.output m) w (.ok (data, leave w'))
  | some (.reverts data, _) => reply p (c.output m) w (.error (.calleeReverted, data))
  | some (.traps, _) | none => some (.failed .calleeTrapped, w)

/-- The call as a call of the method itself. -/
def callMethod (calls : ByteArr 20 → D.Calls) (caller : ByteArr 20) (c : RemoteCall D.contracts) (w : W) :
    Option (Reply c.output × W) :=
  if c.inputLen < capacityLimit then
    match D.host.enter caller (D.requested c) w with
    | .error code => reply (D.contracts caller).profile c.output w (.error (code, []))
    | .ok w' =>
      if D.rejects c w' then some (.unrecognised, w)
      else
        delivered (D.contracts caller).profile (D.contracts c.address) c.method c.declared w (D.host.leave w)
          (D.execute (calls c.address) c.address c.method c.args w')
  else none

/-- Calls of methods. A raw call is still about bytes. -/
def invoke : (depth : ℕ) → (caller : ByteArr 20) → D.Calls
  | 0, caller => D.refused caller
  | depth + 1, caller =>
    { stub := D.callMethod (invoke depth) caller
      raw := fun r input w => rawReply w (D.serve (invoke depth) caller r input w) }

end Deployment

end PvmContract.Contract
