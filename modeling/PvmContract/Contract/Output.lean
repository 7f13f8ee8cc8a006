import PvmContract.Contract.Errors

/-!
# What a contract hands to the host

The generated code behind a method, a constructor, a receive or a fallback handler
that has come back: the return value is encoded into the output buffer of the
call, an error value into that buffer or into a local one, and the bytes are handed to
the host. The buffer is an `OutSink`: without an allocator a stack array of
`MAX_RETURN_LEN` bytes, with one such an array and a vector for what is longer.

How many bytes are reserved is computed in four ways (`HEAD_SIZE` or
`ENCODED_SIZE` folded over the methods, `encode_len`, `ENCODED_SIZE`, `encoded_size`
or 256), and how many are handed over in two more. A panic is `none`: a slice out of
range, a failed `debug_assert`, or a vector longer than Rust allows. That the memory
may run out before that is not modelled.
-/

namespace PvmContract.Contract.Output

open PvmContract.Data PvmContract.Types PvmContract.Macros Run

/-! ### Output buffers -/

/-- `OutSink`. A writer is run on the reserved slice, and may return something. -/
structure OutSink (S : Type) where
  reserve : {α : Type} → S → ℕ → (List UInt8 → Option (List UInt8 × α)) → Option (S × α)
  view : S → ℕ → Option (List UInt8)

/-- A writer on `&mut buf[..len]`. -/
def onFront {α : Type} (buf : List UInt8) (len : ℕ) (f : List UInt8 → Option (List UInt8 × α)) :
    Option (List UInt8 × α) :=
  if len ≤ buf.length then (f (buf.take len)).map fun out => (out.1 ++ buf.drop len, out.2) else none

/-- `OutSink for &mut [u8]`. -/
def slice : OutSink (List UInt8) where
  reserve := onFront
  view buf len := getRange buf 0 len

/-- The length that no vector exceeds: `isize::MAX`, and one more. -/
def capacityLimit : ℕ := 2 ^ 63

/-- `Vec::resize(len, 0)`. -/
def resize (v : List UInt8) (len : ℕ) : Option (List UInt8) :=
  if len < capacityLimit then some (v.take len ++ List.replicate (len - v.length) 0) else none

/-- `__OutBuf`. -/
structure OutBuf where
  stack : List UInt8
  spill : List UInt8

/-- `OutSink for __OutBuf`. -/
def outBuf : OutSink OutBuf where
  reserve out len f :=
    if len ≤ out.stack.length then
      (onFront out.stack len f).map fun written => ({ out with stack := written.1 }, written.2)
    else do
      let spill ← resize out.spill len
      (onFront spill len f).map fun written => ({ out with spill := written.1 }, written.2)
  view out len := if len ≤ out.stack.length then getRange out.stack 0 len else getRange out.spill 0 len

/-! ### The contract -/

/-- What the dispatcher reads of what a method returns. -/
structure MethodOutput where
  /-- The types of the success value, none for `()`. -/
  returnTypes : List Ty
  /-- The type of the error value; a method that returns no `Result` has no value of it. -/
  errorType : ErrTy

/-- The outputs of a contract module. -/
structure ContractOutput where
  /-- Whether the build has an allocator. -/
  useAlloc : Bool
  methods : List MethodOutput
  /-- The error types of the constructor, the receive and the fallback handler. -/
  handlerErrors : List ErrTy

/-- The type that is encoded for the return types: one of them as it is, several as a tuple. -/
def successTy : List Ty → Ty
  | [t] => t
  | ts => .tuple ts

/-- The size of a method's return value in `MAX_RETURN_LEN`. -/
def returnSize (useAlloc : Bool) (m : MethodOutput) : Option ℕ :=
  if useAlloc then some (successTy m.returnTypes).impl.headSize else (successTy m.returnTypes).impl.encodedSize

/-- `MAX_RETURN_LEN`, where its sizes are implemented. -/
def maxReturnLen (c : ContractOutput) : Option ℕ := do
  let sizes ← (c.methods.filter fun m => !m.returnTypes.isEmpty).mapM (returnSize c.useAlloc)
  pure (sizes.foldl (fun m s => if s > m then s else m) (if c.useAlloc then 0 else 256))

/-! ### Return values -/

section

variable {S : Type} (sink : OutSink S) (useAlloc : Bool)

/-- The length that `generate_encode_and_return` reserves and returns. -/
def returnLen (ty : SolCodec) (result : ty.Carrier) : Option ℕ :=
  if useAlloc then some (ty.encodeLen result) else ty.encodedSize

/-- `generate_encode_and_return`, with the length of the `Outcome`. -/
def encodeAndReturn (outputs : List Ty) (result : (successTy outputs).impl.Carrier) (out : S) : Option (S × ℕ) :=
  if outputs.isEmpty then some (out, 0)
  else do
    let len ← returnLen useAlloc (successTy outputs).impl result
    let (out, _) ← sink.reserve out len fun buf => ((successTy outputs).impl.encodeTo result buf).map (·, ())
    pure (out, len)

/-- `encode_and_return`, and `finalize_outcome` on its result. -/
def returnData (outputs : List Ty) (result : (successTy outputs).impl.Carrier) (out : S) : Option (List UInt8) := do
  let (out, len) ← encodeAndReturn sink useAlloc outputs result out
  sink.view out len

/-! ### Error values -/

/-- The capacity that `generate_revert` reserves. -/
def revertCap (E : SolError) (e : E.Carrier) : ℕ := if useAlloc then E.encodedSize e else 256

/-- The `debug_assert!` of `generate_revert`. -/
def assertLen (p : Profile) (len size : ℕ) : Option Unit :=
  if useAlloc && p == .checked && len != size then none else some ()

/-- `generate_revert` into the output buffer. -/
def revertOut (p : Profile) (E : SolError) (e : E.Carrier) (out : S) : Option (List UInt8) := do
  let (out, len) ← sink.reserve out (revertCap useAlloc E e) (E.encodeTo e)
  assertLen useAlloc p len (E.encodedSize e)
  sink.view out len

/-- The local buffer of `generate_revert`. -/
def localBuf (E : SolError) (e : E.Carrier) : Option (List UInt8) :=
  if useAlloc then resize [] (revertCap useAlloc E e) else some (List.replicate (revertCap useAlloc E e) 0)

/-- `generate_revert` into a local buffer. -/
def revertLocal (p : Profile) (E : SolError) (e : E.Carrier) : Option (List UInt8) := do
  let buf ← localBuf useAlloc E e
  let (buf, len) ← E.encodeTo e buf
  assertLen useAlloc p len (E.encodedSize e)
  getRange buf 0 len

end

/-! ### The host -/

/-- What the host is handed. -/
inductive Answer where
  | returned (data : List UInt8)
  | reverted (data : List UInt8)
  deriving DecidableEq, Repr

/-- The bytes of an answer. -/
def Answer.data : Answer → List UInt8
  | .returned data => data
  | .reverted data => data

/-- What user code gives back to the generated code. -/
inductive Given (c : ContractOutput) where
  /-- A method returns, with `Ok` or without a `Result`. -/
  | value (m : MethodOutput) (hm : m ∈ c.methods) (result : (successTy m.returnTypes).impl.Carrier)
  /-- A method returns `Err`. -/
  | error (m : MethodOutput) (hm : m ∈ c.methods) (e : (m.errorType.impl c.useAlloc).Carrier)
  /-- The constructor, the receive or the fallback handler returns `Err`. -/
  | handlerError (t : ErrTy) (ht : t ∈ c.handlerErrors) (e : (t.impl c.useAlloc).Carrier)

/-- The output buffer that `call` makes: the type of its sink, the sink and the buffer. -/
def withOut {α : Type} (c : ContractOutput) (k : {S : Type} → OutSink S → S → Option α) : Option α := do
  let len ← maxReturnLen c
  if c.useAlloc then k outBuf ⟨List.replicate len 0, []⟩ else k slice (List.replicate len 0)

/-- What the generated code hands to the host. -/
def handed (p : Profile) (c : ContractOutput) : Given c → Option Answer
  | .value m _ result =>
    (withOut c fun sink out => returnData sink c.useAlloc m.returnTypes result out).map .returned
  | .error m _ e =>
    (withOut c fun sink out => revertOut sink c.useAlloc p (m.errorType.impl c.useAlloc) e out).map .reverted
  | .handlerError t _ e => (revertLocal c.useAlloc p (t.impl c.useAlloc) e).map .reverted

/-! ### What is to be handed over -/

/-- The encoding of what is given back. -/
def encoding (c : ContractOutput) : Given c → Answer
  | .value m _ result =>
    .returned (Represents.topLevel (successTy m.returnTypes).impl (successTy m.returnTypes).abi
      (successTy m.returnTypes).toAbi result)
  | .error m _ e => .reverted (m.errorType.data c.useAlloc e)
  | .handlerError t _ e => .reverted (t.data c.useAlloc e)

mutual

/-- The fields of the error type are types of the ABI. -/
def Encodable : ErrTy → Prop
  | .struct _ fields => ∀ t ∈ fields, t.Codable = true
  | .enum variants => EncodableList variants
  | .revertString | .panic => True

/-- `Encodable` of every type of a list. -/
def EncodableList : List ErrTy → Prop
  | [] => True
  | t :: ts => Encodable t ∧ EncodableList ts

end

/-- The contract compiles, and its values are values of the ABI. -/
structure Accepted (c : ContractOutput) : Prop where
  returns : ∀ m ∈ c.methods, m.returnTypes ≠ [] → (successTy m.returnTypes).Codable = true
  errors : ∀ m ∈ c.methods, Encodable m.errorType
  handlerErrors : ∀ t ∈ c.handlerErrors, Encodable t
  /-- The `const` assertion of a build without an allocator. -/
  static : c.useAlloc = false → ∀ m ∈ c.methods, (successTy m.returnTypes).impl.isDynamic = false
  /-- The output buffer is an array that can be written down. -/
  stack : ∃ len, maxReturnLen c = some len ∧ len < capacityLimit

/-- The encoding is short enough for its buffer: in a build with an allocator for a vector, else, if
it is that of an error, for 256 bytes. -/
def Fits (c : ContractOutput) (g : Given c) : Prop :=
  if c.useAlloc then (encoding c g).data.length < capacityLimit
  else
    match g with
    | .value .. => True
    | .error .. | .handlerError .. => (encoding c g).data.length ≤ 256

end PvmContract.Contract.Output
