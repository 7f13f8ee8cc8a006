import PvmContract.Macros.DeriveLaws

/-!
# The types of the codec

`Ty` is the syntax of the Rust types that the codec is implemented for: the
primitives, `bytesN`, `Bytes`, `String`, and what `Vec`, arrays, tuples and the
derive make of them, nested in any order. `Ty.rust` is what the crate makes of
a type: how the macros read it, and its implementation. `Ty.abi` and `Ty.toAbi`
are what it means, the ABI type and the ABI value of each value.

The macros go by the text of a type, and `Ty` has the types whose text they read
rightly. A user's type with the name of a built-in one, an alias of an array or of
a tuple, an alias inside of another type, and an array whose length is no literal
are read as something else, and are not among them.

`Compiles`, `Proper` and `Codable` are the types that compile, those of them
without the unit type, and those of them without empty arrays. They are
conditions on every type inside a type, and `induction_of_all` is the induction
over the types that satisfy one.
-/

namespace PvmContract.Macros

open Data Run PvmContract.Types Abi AbiType

/-- The types that fill one word, except `bytesN`. -/
inductive Prim where
  | u8 | u16 | u32 | u64 | u128 | U256
  | i8 | i16 | i32 | i64 | i128 | I256
  | bool | address
  deriving DecidableEq, Repr

namespace Prim

/-- The implementation of the codec traits. -/
def impl : Prim → SolCodec
  | u8 => Types.u8
  | u16 => Types.u16
  | u32 => Types.u32
  | u64 => Types.u64
  | u128 => Types.u128
  | U256 => Types.U256
  | i8 => Types.i8
  | i16 => Types.i16
  | i32 => Types.i32
  | i64 => Types.i64
  | i128 => Types.i128
  | I256 => Types.I256
  | bool => Types.bool
  | address => Types.Address

/-- The type as the macros read it. -/
def sol : Prim → SolType SolCodec
  | u8 => .uint 8
  | u16 => .uint 16
  | u32 => .uint 32
  | u64 => .uint 64
  | u128 => .uint 128
  | U256 => .uint 256
  | i8 => .int 8
  | i16 => .int 16
  | i32 => .int 32
  | i64 => .int 64
  | i128 => .int 128
  | I256 => .int 256
  | bool => .bool
  | address => .address

/-- The ABI type. -/
def abi : Prim → AbiType
  | u8 => .uint 8
  | u16 => .uint 16
  | u32 => .uint 32
  | u64 => .uint 64
  | u128 => .uint 128
  | U256 => .uint 256
  | i8 => .int 8
  | i16 => .int 16
  | i32 => .int 32
  | i64 => .int 64
  | i128 => .int 128
  | I256 => .int 256
  | bool => .bool
  | address => .address

/-- The ABI value of a value: the same number, truth value or bytes. -/
def toAbi : (p : Prim) → p.impl.Carrier → p.abi.Val
  | u8, (v : BitVec 8) => v
  | u16, (v : BitVec 16) => v
  | u32, (v : BitVec 32) => v
  | u64, (v : BitVec 64) => v
  | u128, (v : BitVec 128) => v
  | U256, (v : BitVec 256) => v
  | i8, (v : BitVec 8) => v
  | i16, (v : BitVec 16) => v
  | i32, (v : BitVec 32) => v
  | i64, (v : BitVec 64) => v
  | i128, (v : BitVec 128) => v
  | I256, (v : BitVec 256) => v
  | bool, (v : Bool) => v
  | address, (v : ByteArr 20) => v

end Prim

/-- The Rust types of the codec. -/
inductive Ty where
  | prim (p : Prim)
  | unit
  | bytesN (n : ℕ)
  | bytes
  | string
  | vec (elem : Ty)
  | array (elem : Ty) (n : ℕ)
  | tuple (elems : List Ty)
  | struct (idents : List (Option String)) (fields : List Ty)
  | enum (variants : ℕ)

/-- The fields of a derived struct as a tuple: both expansions store the same values. -/
theorem expandSolType_carrier (idents : List (Option String)) (fields : List Field) :
    (expandSolType idents fields).Carrier = Types.Fields (implOf fields) := by
  rw [expandSolType]
  split <;> rfl

namespace Ty

mutual

/-- How the macros read a type, and its implementation. A derived type is a custom type to
the macros. -/
def rust : Ty → Field
  | prim p => ⟨p.sol, p.impl⟩
  | unit => ⟨.tuple [], Types.unit⟩
  | bytesN n => ⟨.bytes n, Types.bytesN n⟩
  | bytes => ⟨.dynBytes, Types.Bytes⟩
  | string => ⟨.string, Types.string⟩
  | vec elem => ⟨.array elem.rust.sol, Types.Vec elem.rust.impl⟩
  | array elem n => ⟨.fixedArray elem.rust.sol n, Types.array elem.rust.impl n⟩
  | tuple elems => ⟨.tuple ((rusts elems).map Field.sol), Types.tuple (implOf (rusts elems))⟩
  | struct idents fields =>
    ⟨.custom (expandSolType idents (rusts fields)), expandSolType idents (rusts fields)⟩
  | enum variants => ⟨.custom (expandEnum variants), expandEnum variants⟩

/-- `rust` of each type of a list. -/
def rusts : List Ty → List Field
  | [] => []
  | t :: ts => t.rust :: rusts ts

end

/-- The implementation of a type. -/
abbrev impl (t : Ty) : SolCodec := t.rust.impl

/-- The implementations of a list of types. -/
abbrev impls (ts : List Ty) : List SolCodec := implOf (rusts ts)

mutual

/-- The ABI type of a Rust type. -/
def abi : Ty → AbiType
  | prim p => p.abi
  | unit => .tuple []
  | bytesN n => .fixedBytes n
  | bytes => .bytes
  | string => .string
  | vec elem => .array elem.abi
  | array elem n => .fixed elem.abi n
  | tuple elems => .tuple (abis elems)
  | struct _ fields => .tuple (abis fields)
  | enum _ => .uint 8

/-- The ABI types of a list of types. -/
def abis : List Ty → List AbiType
  | [] => []
  | t :: ts => t.abi :: abis ts

end

mutual

/-- The ABI value of a value. -/
def toAbi : (t : Ty) → t.impl.Carrier → t.abi.Val
  | prim p, v => p.toAbi v
  | unit, _ => ()
  | bytesN _, (v : ByteArr _) => v
  | bytes, (v : List UInt8) => v
  | string, (v : String) => v
  | vec elem, v => vecToAbi elem.toAbi v
  | array elem _, v => arrayToAbi elem.toAbi _ v
  | tuple elems, v => toAbis elems v
  | struct idents fields, v => toAbis fields (cast (expandSolType_carrier idents (rusts fields)) v)
  | enum _, (v : Fin _) => BitVec.ofNat 8 v

/-- The ABI values of a list of values. -/
def toAbis : (ts : List Ty) → Types.Fields (impls ts) → Vals (abis ts)
  | [], _ => ()
  | t :: ts, (v, vs) => (t.toAbi v, toAbis ts vs)

end

/-! ### Well-formed types -/

mutual

/-- A condition holds of a type and of every type in it. -/
def all (p : Ty → Bool) : Ty → Bool
  | vec elem => p (vec elem) && all p elem
  | array elem n => p (array elem n) && all p elem
  | tuple elems => p (tuple elems) && allList p elems
  | struct idents fields => p (struct idents fields) && allList p fields
  | t => p t

/-- A condition holds throughout every type of a list. -/
def allList (p : Ty → Bool) : List Ty → Bool
  | [] => true
  | t :: ts => all p t && allList p ts

end

/-- `SolArrayElement` is implemented: not for `u8`, since `[u8; N]` is `bytesN`, nor for `()`. -/
def isArrayElement : Ty → Bool
  | prim .u8 | unit => false
  | _ => true

/-- What the compiler and the derive ask of a type itself: `bytesN` has 1 to 32 bytes, array
elements implement `SolArrayElement`, tuples have 1 to 12 components, structs a field, enums 1 to 256
variants. -/
def compilesHere : Ty → Bool
  | bytesN n => 1 ≤ n && n ≤ 32
  | array elem _ => elem.isArrayElement
  | tuple elems => 1 ≤ elems.length && elems.length ≤ 12
  | struct _ fields => 1 ≤ fields.length
  | enum variants => 1 ≤ variants && variants ≤ 256
  | _ => true

/-- Not the unit type. -/
def notUnit : Ty → Bool
  | unit => false
  | _ => true

/-- Not an array without elements. -/
def notEmpty : Ty → Bool
  | array _ n => 0 < n
  | _ => true

/-- The types that compile. -/
def Compiles (t : Ty) : Bool := t.all compilesHere

/-- The types that compile and have no unit type in them. -/
def Proper (t : Ty) : Bool := t.all fun t => compilesHere t && notUnit t

/-- The types of the ABI: proper, and without empty arrays. -/
def Codable (t : Ty) : Bool := t.all fun t => compilesHere t && notUnit t && notEmpty t

/-- Not a vector of elements that take no bytes. -/
def notCrowded : Ty → Bool
  | vec elem => 32 ≤ elem.impl.slotSize
  | _ => true

/-- The proper types that implement an ABI type: an empty array is one, a vector of them is not,
since its length is not bounded by its bytes. -/
def Roomy (t : Ty) : Bool := t.all fun t => compilesHere t && notUnit t && notCrowded t

theorem allList_iff {p : Ty → Bool} {ts : List Ty} : allList p ts = true ↔ ∀ t ∈ ts, t.all p = true := by
  induction ts with
  | nil => simp [allList]
  | cons t ts ih => simp [allList, ih]

/-- A weaker condition holds as well. -/
theorem all_mono {p q : Ty → Bool} (hpq : ∀ t, p t = true → q t = true) {t : Ty} (h : t.all p = true) :
    t.all q = true := by
  refine @Ty.rec (fun t => t.all p = true → t.all q = true) (fun ts => allList p ts = true → allList q ts = true)
    ?_ ?_ ?_ ?_ ?_ ?_ ?_ ?_ ?_ ?_ ?_ ?_ t h
  all_goals simp_all [all, allList]

section

variable {p : Ty → Bool}

/-- The condition holds of the type itself. -/
theorem all_self {t : Ty} (h : t.all p = true) : p t = true := by
  cases t <;> simp_all [all]

theorem all_vec {elem : Ty} (h : (vec elem).all p = true) : elem.all p = true :=
  ((Bool.and_eq_true _ _).mp h).2

theorem all_array {elem : Ty} {n : ℕ} (h : (array elem n).all p = true) : elem.all p = true :=
  ((Bool.and_eq_true _ _).mp h).2

theorem all_tuple {elems : List Ty} (h : (tuple elems).all p = true) : ∀ t ∈ elems, t.all p = true :=
  allList_iff.mp ((Bool.and_eq_true _ _).mp h).2

theorem all_struct {idents : List (Option String)} {fields : List Ty}
    (h : (struct idents fields).all p = true) : ∀ t ∈ fields, t.all p = true :=
  allList_iff.mp ((Bool.and_eq_true _ _).mp h).2

end

section

variable {p : Ty → Bool} {motive : Ty → Prop} (prim : ∀ k, motive (.prim k))
  (unit : p .unit = true → motive .unit) (bytesN : ∀ n, p (.bytesN n) = true → motive (.bytesN n))
  (bytes : motive .bytes) (string : motive .string) (vec : ∀ elem, motive elem → motive (.vec elem))
  (array : ∀ elem n, p (.array elem n) = true → motive elem → motive (.array elem n))
  (tuple : ∀ elems, p (.tuple elems) = true → (∀ t ∈ elems, motive t) → motive (.tuple elems))
  (struct : ∀ idents fields, p (.struct idents fields) = true → (∀ t ∈ fields, motive t) →
    motive (.struct idents fields))
  (enum : ∀ variants, p (.enum variants) = true → motive (.enum variants))

include prim unit bytesN bytes string vec array tuple struct enum

/-- Induction over the types that satisfy a condition throughout. -/
theorem induction_of_all (t : Ty) : t.all p = true → motive t := by
  refine @Ty.rec (fun t => t.all p = true → motive t)
    (fun ts => (∀ t ∈ ts, t.all p = true) → ∀ t ∈ ts, motive t) ?_ ?_ ?_ ?_ ?_ ?_ ?_ ?_ ?_ ?_ ?_ ?_ t
  · exact fun k _ => prim k
  · exact unit
  · exact bytesN
  · exact fun _ => bytes
  · exact fun _ => string
  · exact fun elem ih h => vec elem (ih (all_vec h))
  · exact fun elem n ih h => array elem n (all_self h) (ih (all_array h))
  · exact fun elems ih h => tuple elems (all_self h) (ih (all_tuple h))
  · exact fun idents fields ih h => struct idents fields (all_self h) (ih (all_struct h))
  · exact enum
  · exact fun _ t ht => absurd ht List.not_mem_nil
  · intro t ts iht ihts h t' ht'
    rcases List.mem_cons.mp ht' with rfl | ht'
    · exact iht (h _ (by simp))
    · exact ihts (fun t ht => h t (by simp [ht])) t' ht'

end

end Ty

end PvmContract.Macros
