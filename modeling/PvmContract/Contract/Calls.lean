import PvmContract.Contract.Routing
import PvmContract.Macros.RoundTrip

/-!
# Cross-contract calls

The call builder: what it writes into the caller's input buffer, what it hands to
the host, and how it decodes the return data. A call is cut at the host: the first
half (`callRawInner` and its siblings) ends with the request, which is an error if
the buffer is too small, and the second (`extractOutput`) starts with the data the
host reports.

The builders write the selector, or the code hash, and the encoding of the
arguments at the front of the buffer, and hand the whole buffer to the host. So
the bytes sent are the encoding exactly when the buffer has no byte more
(`exactCall_iff`), as the buffers that `abi_import!` allocates have not
(`exactCall_alloc`). The output side is right for every buffer: the slice is cut to
the bytes copied before it is decoded.
-/

namespace PvmContract.Contract

open PvmContract.Data PvmContract.Types PvmContract.Macros Run

/-- The bits of `CallFlags` in use. -/
structure CallFlags where
  readOnly : Bool
  allowReentry : Bool
  deriving DecidableEq, Repr

/-- The mutability witness of a builder, with the value set on a payable one. -/
inductive Witness where
  | payable (value : Option ℕ)
  | nonPayable
  | view
  | pure
  deriving DecidableEq, Repr

namespace Witness

/-- `call_flags`. -/
def callFlags : Witness → CallFlags
  | payable _ | nonPayable => ⟨false, false⟩
  | view | pure => ⟨true, false⟩

/-- `value`. -/
def value : Witness → ℕ
  | payable v => v.getD 0
  | _ => 0

end Witness

/-- `RefTimeAndProofSizeLimits`. -/
structure RefTimeAndProofSizeLimits where
  refTimeLimit : ℕ
  proofSizeLimit : ℕ
  depositLimit : Word
  deriving DecidableEq, Repr

/-- `CallLimits`. -/
inductive CallLimits where
  | gasLimit (limit : ℕ)
  | refTimeAndProofSize (limits : RefTimeAndProofSizeLimits)
  deriving DecidableEq, Repr

/-- `CallError`, as far as a call gives it. -/
inductive CallError where
  | calleeTrapped
  | transferFailed
  | outOfResources
  | duplicateContractAddress
  | inputBufTooSmall
  | outputBufTooSmall
  | calleeReverted
  | decodingError
  | unknown
  deriving DecidableEq, Repr

/-- A request to the host. -/
inductive HostCall where
  | callEvm (flags : CallFlags) (address : ByteArr 20) (limit : ℕ) (value : List UInt8) (input : List UInt8)
  | call (flags : CallFlags) (address : ByteArr 20) (limits : RefTimeAndProofSizeLimits)
      (value : List UInt8) (input : List UInt8)
  | delegateCallEvm (flags : CallFlags) (address : ByteArr 20) (limit : ℕ) (input : List UInt8)
  | delegateCall (flags : CallFlags) (address : ByteArr 20) (limits : RefTimeAndProofSizeLimits)
      (input : List UInt8)
  | instantiate (limits : RefTimeAndProofSizeLimits) (value : List UInt8) (input : List UInt8) (salt : Option Word)

/-- The bytes handed to the host. -/
def HostCall.input : HostCall → List UInt8
  | callEvm _ _ _ _ input | call _ _ _ _ input | delegateCallEvm _ _ _ input | delegateCall _ _ _ input
  | instantiate _ _ input _ => input

/-- `CallBuilder`, for payloads of one type. -/
structure CallBuilder (I : SolCodec) where
  selector : Selector
  payload : I.Carrier
  witness : Witness
  callLimits : CallLimits
  allowReentry : Bool

/-- `U256::from(value).to_le_bytes()`. -/
def toLeBytes (value : ℕ) : List UInt8 := (beBytes 32 value).reverse

namespace CallBuilder

variable {I : SolCodec}

/-- The head and the payload written into a buffer: `input_buf[..n].copy_from_slice(head)`, and
`encode_to` on the rest. -/
def fillInput (b : CallBuilder I) (head inputBuf : List UInt8) : Option (List UInt8) := do
  let inputBuf ← onSlice inputBuf 0 head.length (copyFromSlice head)
  onSlice inputBuf head.length inputBuf.length (I.encodeTo b.payload)

/-- `call_raw_inner`, up to the host. -/
def callRawInner (b : CallBuilder I) (address : ByteArr 20) (inputBuf : List UInt8) :
    Run (Except CallError HostCall) :=
  if inputBuf.length < 4 + I.encodeLen b.payload then pure (.error .inputBufTooSmall)
  else do
    let callFlags :=
      if b.allowReentry then { b.witness.callFlags with allowReentry := true } else b.witness.callFlags
    let value := toLeBytes b.witness.value
    let input ← ofAccess (b.fillInput b.selector.1 inputBuf)
    pure (.ok (match b.callLimits with
      | .gasLimit limit => .callEvm callFlags address limit value input
      | .refTimeAndProofSize limits => .call callFlags address limits value input))

/-- `delegate_call_raw_inner`, up to the host. -/
def delegateCallRawInner (b : CallBuilder I) (address : ByteArr 20) (inputBuf : List UInt8) :
    Run (Except CallError HostCall) :=
  if inputBuf.length < 4 + I.encodeLen b.payload then pure (.error .inputBufTooSmall)
  else do
    let input ← ofAccess (b.fillInput b.selector.1 inputBuf)
    pure (.ok (match b.callLimits with
      | .gasLimit limit => .delegateCallEvm ⟨false, false⟩ address limit input
      | .refTimeAndProofSize limits => .delegateCall ⟨false, false⟩ address limits input))

/-- `instantiate_raw_inner`, up to the host. -/
def instantiateRawInner (b : CallBuilder I) (limits : RefTimeAndProofSizeLimits) (value : ℕ)
    (codeHash : Word) (salt : Option Word) (inputBuf : List UInt8) : Run (Except CallError HostCall) :=
  if inputBuf.length < 32 + I.encodeLen b.payload then pure (.error .inputBufTooSmall)
  else do
    let input ← ofAccess (b.fillInput codeHash.1 inputBuf)
    pure (.ok (.instantiate limits (toLeBytes value) input salt))

/-- The three ways to reach another contract. -/
inductive Target where
  | call (address : ByteArr 20)
  | delegateCall (address : ByteArr 20)
  | instantiate (limits : RefTimeAndProofSizeLimits) (value : ℕ) (codeHash : Word) (salt : Option Word)

/-- What stands in front of the arguments: the selector, or the code hash. -/
def head (b : CallBuilder I) : Target → List UInt8
  | .call _ | .delegateCall _ => b.selector.1
  | .instantiate _ _ codeHash _ => codeHash.1

/-- The request made through a buffer. -/
def request (b : CallBuilder I) (inputBuf : List UInt8) : Target → Run (Except CallError HostCall)
  | .call address => b.callRawInner address inputBuf
  | .delegateCall address => b.delegateCallRawInner address inputBuf
  | .instantiate limits value codeHash salt => b.instantiateRawInner limits value codeHash salt inputBuf

end CallBuilder

/-- `return_data_copy`: the slice that is left of `output`, cut to the bytes copied. -/
def returnDataCopy (data output : List UInt8) (offset : ℕ) : List UInt8 :=
  let start := min offset data.length
  let len := min output.length (data.length - start)
  (data.drop start).take len

/-- The result of a decoder as a value, for `map_err`. -/
def decodingResult {α : Type} (x : Run α) : Run (Except CallError α) :=
  match x.exit with
  | .ok a => ⟨x.allocs, .ok (.ok a)⟩
  | .err => ⟨x.allocs, .ok (.error .decodingError)⟩
  | .panic => ⟨x.allocs, .panic⟩

/-- `extract_output`, with the data the host reports. -/
def extractOutput (R : SolCodec) (p : Profile) (data outputBuf : List UInt8) : Run (Except CallError R.Carrier) :=
  if data.length > outputBuf.length then pure (.error .outputBufTooSmall)
  else decodingResult (R.decode p (returnDataCopy data outputBuf 0))

/-! ### The input side -/

/-- The types of argument lists: the codable types, and `()` where there are no arguments. -/
def IsPayload (t : Ty) : Prop := t.Codable = true ∨ t = .unit

theorem IsPayload.writes {t : Ty} (h : IsPayload t) (v : t.impl.Carrier) :
    Writes (t.impl.encodeTo v) (t.abiEncode v) ∧ t.impl.encodeLen v = (t.abiEncode v).length := by
  rcases h with h | rfl
  · have hrep := Ty.represents h
    rw [← Ty.topLevel_eq_abiEncode]
    exact ⟨hrep.encodeTo_writes v, hrep.encodeLen_eq v⟩
  · exact ⟨fun _ _ _ => rfl, rfl⟩

namespace CallBuilder

variable {t : Ty} {b : CallBuilder t.impl} {inputBuf : List UInt8}

/-- A buffer that is large enough ends up with the head, the arguments, and what was behind them. -/
theorem fillInput_eq (ht : IsPayload t) {head : List UInt8} (hs : IsSlice inputBuf)
    (hlen : head.length + t.impl.encodeLen b.payload ≤ inputBuf.length) :
    b.fillInput head inputBuf =
      some (head ++ t.abiEncode b.payload ++ inputBuf.drop (head.length + t.impl.encodeLen b.payload)) := by
  obtain ⟨hwrites, henc⟩ := ht.writes b.payload
  unfold IsSlice at hs
  rw [henc] at hlen ⊢
  have hover : (overwrite inputBuf 0 head).length = inputBuf.length := length_overwrite (by omega)
  have hcopy : onSlice inputBuf 0 head.length (copyFromSlice head) = some (overwrite inputBuf 0 head) :=
    copy_eq (by rw [Nat.zero_add]) (by omega)
  have hstart : overwrite (overwrite inputBuf 0 head) head.length (t.abiEncode b.payload) =
      overwrite inputBuf 0 (head ++ t.abiEncode b.payload) := by
    rw [overwrite_append (by rw [List.length_append]; omega), Nat.zero_add]
  rw [fillInput, hcopy, Option.bind_eq_bind, Option.bind_some,
    onSlice_writes hwrites (by omega) (le_refl _) (by omega), hstart, overwrite_zero, List.length_append]

/-- What is handed to the host: the head, the arguments, and the rest of the buffer. -/
theorem request_eq (ht : IsPayload t) (hs : IsSlice inputBuf) (target : Target)
    (hlen : (b.head target).length + t.impl.encodeLen b.payload ≤ inputBuf.length) :
    ∃ req, b.request inputBuf target = pure (.ok req) ∧
      req.input = b.head target ++ t.abiEncode b.payload ++
        inputBuf.drop ((b.head target).length + t.impl.encodeLen b.payload) := by
  have hfill := fillInput_eq (b := b) ht hs hlen
  cases target with
  | call address =>
    have h4 : ¬ inputBuf.length < 4 + t.impl.encodeLen b.payload := by
      rw [head, b.selector.2] at hlen
      omega
    simp only [head] at hfill ⊢
    rw [request, callRawInner, if_neg h4, hfill, ofAccess, pure_andThen]
    cases b.callLimits with
    | gasLimit limit => exact ⟨_, rfl, rfl⟩
    | refTimeAndProofSize limits => exact ⟨_, rfl, rfl⟩
  | delegateCall address =>
    have h4 : ¬ inputBuf.length < 4 + t.impl.encodeLen b.payload := by
      rw [head, b.selector.2] at hlen
      omega
    simp only [head] at hfill ⊢
    rw [request, delegateCallRawInner, if_neg h4, hfill, ofAccess, pure_andThen]
    cases b.callLimits with
    | gasLimit limit => exact ⟨_, rfl, rfl⟩
    | refTimeAndProofSize limits => exact ⟨_, rfl, rfl⟩
  | instantiate limits value codeHash salt =>
    have h32 : ¬ inputBuf.length < 32 + t.impl.encodeLen b.payload := by
      rw [head, codeHash.2] at hlen
      omega
    simp only [head] at hfill ⊢
    rw [request, instantiateRawInner, if_neg h32, hfill, ofAccess, pure_andThen]
    exact ⟨_, rfl, rfl⟩

end CallBuilder

/-! ### The output side -/

theorem returnDataCopy_eq {data output : List UInt8} (h : data.length ≤ output.length) :
    returnDataCopy data output 0 = data := by
  simp only [returnDataCopy, Nat.zero_min, Nat.sub_zero, List.drop_zero]
  rw [Nat.min_eq_right h, List.take_length]

/-- Any buffer with room for the return data decodes it, and nothing else. -/
theorem extractOutput_eq (R : SolCodec) (p : Profile) {data outputBuf : List UInt8}
    (h : data.length ≤ outputBuf.length) : extractOutput R p data outputBuf = decodingResult (R.decode p data) := by
  rw [extractOutput, if_neg (by omega), returnDataCopy_eq h]

/-! ### What a call promises -/

/-- What a call promises: the host gets the head and the encoding of the arguments, and the
result is that of the return data. -/
structure ExactCall {t : Ty} (b : CallBuilder t.impl) (target : CallBuilder.Target) (inputBuf : List UInt8)
    (R : SolCodec) : Prop where
  sent : ∃ req, b.request inputBuf target = pure (.ok req) ∧ req.input = b.head target ++ t.abiEncode b.payload
  decoded : ∀ p data outputBuf, data.length ≤ outputBuf.length →
    extractOutput R p data outputBuf = decodingResult (R.decode p data)

/-- A buffer of the size of the input is sent as it is meant. -/
theorem exactCall_of_length {t : Ty} (ht : IsPayload t) (b : CallBuilder t.impl) (target : CallBuilder.Target)
    {inputBuf : List UInt8} (hs : IsSlice inputBuf) (R : SolCodec)
    (hlen : inputBuf.length = (b.head target).length + t.impl.encodeLen b.payload) :
    ExactCall b target inputBuf R := by
  obtain ⟨req, hreq, hinput⟩ := CallBuilder.request_eq (b := b) ht hs target hlen.ge
  refine ⟨⟨req, hreq, ?_⟩, fun p _ _ h => extractOutput_eq R p h⟩
  rw [hinput, ← hlen, List.drop_length, List.append_nil]

/-- **Calls.** Through a buffer that is large enough, a call is exact when the buffer is not
larger than it has to be. -/
theorem exactCall_iff {t : Ty} (ht : IsPayload t) (b : CallBuilder t.impl) (target : CallBuilder.Target)
    {inputBuf : List UInt8} (hs : IsSlice inputBuf)
    (hlen : (b.head target).length + t.impl.encodeLen b.payload ≤ inputBuf.length) (R : SolCodec) :
    ExactCall b target inputBuf R ↔
      inputBuf.length = (b.head target).length + t.impl.encodeLen b.payload := by
  obtain ⟨req, hreq, hinput⟩ := CallBuilder.request_eq (b := b) ht hs target hlen
  constructor
  · rintro ⟨⟨req', hreq', hinput'⟩, -⟩
    obtain rfl : req = req' := by
      have hok := congrArg Run.exit (hreq.symm.trans hreq')
      exact Except.ok.inj (Exit.ok.inj hok)
    rw [hinput] at hinput'
    have hnil := List.append_right_eq_self.mp hinput'
    have hzero := congrArg List.length hnil
    rw [List.length_drop, List.length_nil] at hzero
    omega
  · exact exactCall_of_length ht b target hs R

/-- The calls that `abi_import!` generates for contracts with an allocator:
`vec![0; n + self.call_builder.payload.encode_len()]`. -/
theorem exactCall_alloc {t : Ty} (ht : IsPayload t) (b : CallBuilder t.impl) (target : CallBuilder.Target)
    (hs : (b.head target).length + t.impl.encodeLen b.payload < 2 ^ 63) (R : SolCodec) :
    ExactCall b target (List.replicate ((b.head target).length + t.impl.encodeLen b.payload) 0) R :=
  exactCall_of_length ht b target (by rw [IsSlice, List.length_replicate]; exact hs) R List.length_replicate

theorem length_sampleSelector : ([1, 2, 3, 4] : List UInt8).length = 4 := rfl

/-- A call of a method of one `uint8`, with the argument 7. -/
def sevenCall : CallBuilder (Ty.tuple [.prim .u8]).impl where
  selector := ⟨[1, 2, 3, 4], length_sampleSelector⟩
  payload := ((7#8, ()) : BitVec 8 × Unit)
  witness := .nonPayable
  callLimits := .gasLimit (2 ^ 64 - 1)
  allowReentry := false

/-- The address `0x00…00`. -/
def zeroAddress : ByteArr 20 := ⟨List.replicate 20 0, rfl⟩

theorem exactCall_seven : ExactCall sevenCall (.call zeroAddress) (List.replicate 36 0xff) Types.unit :=
  (exactCall_iff (t := .tuple [.prim .u8]) (Or.inl (by decide)) sevenCall (.call zeroAddress)
    (by rw [IsSlice, List.length_replicate]; decide) (by decide) Types.unit).mpr (by decide)

/-- A reused buffer of 38 bytes: its last two are sent as well. -/
theorem stale_bytes_sent :
    (∃ req, sevenCall.request (List.replicate 38 0xff) (.call zeroAddress) = pure (.ok req) ∧
        req.input = [1, 2, 3, 4] ++ word 7 ++ [0xff, 0xff]) ∧
      ¬ ExactCall sevenCall (.call zeroAddress) (List.replicate 38 0xff) Types.unit := by
  have hreq : ∃ req, sevenCall.request (List.replicate 38 0xff) (.call zeroAddress) = pure (.ok req) ∧
      req.input = [1, 2, 3, 4] ++ word 7 ++ [0xff, 0xff] :=
    CallBuilder.request_eq (t := .tuple [.prim .u8]) (Or.inl (by decide))
      (by rw [IsSlice, List.length_replicate]; decide) (.call zeroAddress) (by decide)
  refine ⟨hreq, ?_⟩
  rintro ⟨⟨req', hreq', hinput'⟩, -⟩
  obtain ⟨req, hreq, hinput⟩ := hreq
  obtain rfl : req = req' := Except.ok.inj (Exit.ok.inj (congrArg Run.exit (hreq.symm.trans hreq')))
  rw [hinput] at hinput'
  exact absurd (congrArg List.length hinput') (by decide)

end PvmContract.Contract
