import PvmContract.Contract.Errors

/-!
# `#[derive(SolEvent)]`

What the derive writes for a struct: the topics, which are the hash of the
signature and one topic for each indexed field, and the data, which is the tuple
of the other fields.

The data is laid out by code of its own, not by the tuple codec: one field is
handed to `encode_to`, and several are written to heads and tails in a loop that
looks like the one of tuples (`tupleWrite`).

The topic of an array or a tuple is computed in place. That of any other type is
the trait method `indexed_topic`, whose provided body right-aligns the value in a
word; `Bytes`, `String` and the static expansion of a derived struct override it.
The derive goes by the syntax of the field's type. A name that is none of the
built-in types is a custom type to it: a derived type, or an alias of any type
(`EventField.aliased`).
-/

namespace PvmContract.Contract

open PvmContract.Data PvmContract.Types PvmContract.Macros PvmContract.Abi AbiType Run

/-- A field of an event. -/
structure EventField where
  ty : Ty
  /-- The type is written as an alias of it. -/
  aliased : Bool
  /-- `#[indexed]`. -/
  indexed : Bool

/-- The field as the derive reads it. -/
def EventField.field (f : EventField) : Field :=
  if f.aliased then ⟨.custom f.ty.impl, f.ty.impl⟩ else f.ty.rust

/-- A struct with `#[derive(SolEvent)]`. -/
structure EventDecl where
  name : String
  /-- `#[anonymous]`. -/
  anonymous : Bool
  fields : List EventField

namespace EventDecl

/-- The types of the fields. -/
def types (d : EventDecl) : List Ty := d.fields.map EventField.ty

/-- A value of the struct. -/
def Value (d : EventDecl) : Type := Types.Fields (Ty.impls d.types)

end EventDecl

/-! ### The data -/

/-- The types of the fields without `#[indexed]`. -/
def nonIndexed : List EventField → List Ty
  | [] => []
  | ⟨_, _, true⟩ :: fields => nonIndexed fields
  | ⟨t, _, false⟩ :: fields => t :: nonIndexed fields

/-- The values of the fields without `#[indexed]`. -/
def nonIndexedVals : (fields : List EventField) → Types.Fields (Ty.impls (fields.map EventField.ty)) →
    Types.Fields (Ty.impls (nonIndexed fields))
  | [], _ => ()
  | ⟨_, _, true⟩ :: fields, (_, vals) => nonIndexedVals fields vals
  | ⟨_, _, false⟩ :: fields, (val, vals) => (val, nonIndexedVals fields vals)

/-- The `data_len` of `generate_data_bodies`. -/
def dataBodyLen : (Ts : List SolCodec) → Types.Fields Ts → ℕ
  | [], _ => 0
  | [T], (val, _) => T.encodeLen val
  | T :: U :: Ts, vals => tupleHeadSize (T :: U :: Ts) + tupleTailLen (T :: U :: Ts) vals

namespace EventDecl

/-- `data_len`. -/
def dataLen (d : EventDecl) (v : d.Value) : ℕ :=
  dataBodyLen (Ty.impls (nonIndexed d.fields)) (nonIndexedVals d.fields v)

end EventDecl

/-! ### The topics -/

section

variable (keccak : List UInt8 → Word)

/-- `EventTopics::push`. -/
def EventTopics.push (topics : List (List UInt8)) (topic : List UInt8) : Option (List (List UInt8)) :=
  if topics.length < 4 then some (topics ++ [topic]) else none

/-- The provided `indexed_topic`. -/
def defaultTopic (c : SolCodec) (v : c.Carrier) : Option (List UInt8) := c.encodeBodyTo v (List.replicate 32 0)

/-- `keccak256` of what `encode_to` writes to a zeroed buffer of `size` bytes. -/
def encodedTopic (c : SolCodec) (size : ℕ) (v : c.Carrier) : Option (List UInt8) := do
  let buf ← c.encodeTo v (List.replicate size 0)
  pure (keccak buf).1

/-- `indexed_topic` of each type. -/
def indexedTopic : (t : Ty) → t.impl.Carrier → Option (List UInt8)
  | .bytes, (v : List UInt8) => some (keccak v).1
  | .string, (v : String) => some (keccak (asBytes v)).1
  | .struct idents fields, v =>
    if needsDynamic (Ty.rusts fields) then defaultTopic (Ty.struct idents fields).impl v
    else encodedTopic keccak (Ty.struct idents fields).impl (buildTotalSize (Ty.rusts fields)) v
  | t, v => defaultTopic t.impl v

/-- The test `needs_abi_encode_hash`. -/
def needsAbiEncodeHash : SolType SolCodec → Bool
  | .array _ | .fixedArray _ _ | .tuple _ => true
  | _ => false

/-- `generate_indexed_topic_pack`. -/
def indexedTopicPack (f : EventField) (v : f.ty.impl.Carrier) : Option (List UInt8) :=
  if needsAbiEncodeHash f.field.sol then encodedTopic keccak f.ty.impl f.ty.impl.headSize v
  else indexedTopic keccak f.ty v

/-- The pushes for the indexed fields. -/
def pushIndexed : (fields : List EventField) → Types.Fields (Ty.impls (fields.map EventField.ty)) →
    List (List UInt8) → Option (List (List UInt8))
  | [], _, topics => some topics
  | ⟨_, _, false⟩ :: fields, (_, vals), topics => pushIndexed fields vals topics
  | ⟨t, aliased, true⟩ :: fields, (val, vals), topics => do
    let topic ← indexedTopicPack keccak ⟨t, aliased, true⟩ val
    let topics ← EventTopics.push topics topic
    pushIndexed fields vals topics

namespace EventDecl

/-- `Self::TOPIC`, if the signature can be evaluated. -/
def topic (d : EventDecl) : Option Word :=
  (buildSignature d.name (d.fields.map EventField.field)).map fun signature => keccak (asBytes signature)

/-- `topics`. -/
def topics (d : EventDecl) (topic : Word) (v : d.Value) : Option (List (List UInt8)) := do
  let topics ← if d.anonymous then some [] else EventTopics.push [] topic.1
  pushIndexed keccak d.fields v topics

end EventDecl

end

/-! ### What the derive accepts -/

/-- The indexed fields. -/
def EventDecl.indexedFields (d : EventDecl) : List EventField := d.fields.filter EventField.indexed

/-- The error of the derive for too many indexed fields. -/
def tooManyIndexed (maxIndexed : ℕ) (anonymous : Bool) : String :=
  "SolEvent supports at most " ++ toString maxIndexed ++ " #[indexed] fields" ++
    (if anonymous then " for anonymous events" else "")

/-- The error of the derive for an indexed vector. -/
def indexedVec : String :=
  "#[indexed] does not support dynamic arrays (Vec<T>); use a fixed-size array instead"

/-- The checks of `expand_sol_event`. -/
def EventDecl.expand (d : EventDecl) : Except String Unit :=
  let maxIndexed := if d.anonymous then 4 else 3
  if d.indexedFields.length > maxIndexed then .error (tooManyIndexed maxIndexed d.anonymous)
  else if d.indexedFields.any (fun f => match f.field.sol with | .array _ => true | _ => false) then
    .error indexedVec
  else .ok ()

/-- The assertion that the code for an indexed field carries, and its text. -/
def EventField.indexedAssert (f : EventField) : Bool × String :=
  if needsAbiEncodeHash f.field.sol then
    (!f.ty.impl.isDynamic, "SolEvent: #[indexed] composites (tuples, fixed arrays) must be fully static. Dynamic " ++
      "composites require runtime-sized buffers which are not supported in no-alloc mode.")
  else match f.field.sol with
    | .custom _ => (!f.ty.impl.isDynamic, "SolEvent: #[indexed] custom types must be static. Dynamic composites are " ++
      "not supported.")
    | _ => (f.ty.impl.isDynamic || f.ty.impl.headSize ≤ 32, "SolEvent: #[indexed] static fields must fit in 32 bytes. " ++
      "Use the underlying primitive, or remove #[indexed].")

/-- The derive and the compiler accept the event. -/
structure EventDecl.Accepted (d : EventDecl) : Prop where
  expands : d.expand = .ok ()
  asserts : ∀ f ∈ d.indexedFields, f.indexedAssert.1 = true
  /-- The types of the fields implement the codec traits. -/
  codable : ∀ f ∈ d.fields, f.ty.Codable = true
  /-- A buffer on the stack is no larger than any object may be. -/
  sized : ∀ f ∈ d.indexedFields, f.ty.impl.headSize < 2 ^ 63

end PvmContract.Contract
