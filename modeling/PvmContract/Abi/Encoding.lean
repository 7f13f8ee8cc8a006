import PvmContract.Data.HeadTail

/-!
# The Solidity contract ABI

The types of the ABI, their values, and the reference encoding `abi.encode`: a
recursive definition with no code of the crate in it. A sequence (an argument
list, a tuple, the elements of an array) is laid out by `Data.layout`: static
components in place, dynamic ones behind an offset word that counts from the
start of the sequence.

Values are typed by the ABI type they belong to, so that an array of the wrong
length or an integer out of range cannot be written down.
-/

namespace PvmContract.Abi

open Data

/-- The types of the contract ABI. -/
inductive AbiType where
  | uint (bits : ℕ)
  | int (bits : ℕ)
  | address
  | bool
  | fixedBytes (n : ℕ)
  | bytes
  | string
  | array (elem : AbiType)
  | fixed (elem : AbiType) (n : ℕ)
  | tuple (comps : List AbiType)

namespace AbiType

mutual

/-- The values of a type. -/
def Val : AbiType → Type
  | uint bits => BitVec bits
  | int bits => BitVec bits
  | address => ByteArr 20
  | bool => Bool
  | fixedBytes n => ByteArr n
  | bytes => List UInt8
  | string => String
  | array elem => List elem.Val
  | fixed elem n => {vs : List elem.Val // vs.length = n}
  | tuple comps => Vals comps

/-- The values of a list of types, one of each. -/
def Vals : List AbiType → Type
  | [] => Unit
  | τ :: τs => τ.Val × Vals τs

end

mutual

/-- Whether the encoding goes to the tail of the sequence it is part of. -/
def isDynamic : AbiType → Bool
  | bytes | string | array _ => true
  | fixed elem _ => elem.isDynamic
  | tuple comps => anyDynamic comps
  | _ => false

/-- Whether a component is dynamic. -/
def anyDynamic : List AbiType → Bool
  | [] => false
  | τ :: τs => τ.isDynamic || anyDynamic τs

end

/-- The bytes of a string. -/
def utf8 (s : String) : List UInt8 := s.toUTF8.data.toList

/-- The zeros that fill a byte string up to a multiple of 32. -/
def padding (n : ℕ) : List UInt8 := List.replicate ((32 - n % 32) % 32) 0

/-- `enc` of a byte string: its length in a word, its bytes, and padding. -/
def encBytes (bs : List UInt8) : List UInt8 := word bs.length ++ bs ++ padding bs.length

mutual

/-- `enc(X)` of the ABI specification. -/
def enc : (τ : AbiType) → τ.Val → List UInt8
  | uint _, (v : BitVec _) => word v.toNat
  | int _, (v : BitVec _) => word (v.signExtend 256).toNat
  | address, v => List.replicate 12 0 ++ v.1
  | bool, (v : Bool) => word v.toNat
  | fixedBytes n, v => v.1 ++ List.replicate (32 - n) 0
  | bytes, v => encBytes v
  | string, v => encBytes (utf8 v)
  | array elem, (vs : List elem.Val) =>
    word vs.length ++ layout (vs.map fun v => ⟨elem.isDynamic, enc elem v⟩)
  | fixed elem _, vs => layout (vs.1.map fun v => ⟨elem.isDynamic, enc elem v⟩)
  | tuple comps, vs => layout (encParts comps vs)

/-- The parts of a sequence of values. -/
def encParts : (τs : List AbiType) → Vals τs → List Part
  | [], _ => []
  | τ :: τs, (v, vs) => ⟨τ.isDynamic, enc τ v⟩ :: encParts τs vs

end

/-- `abi.encode` of an argument list. -/
def abiEncode (τs : List AbiType) (vs : Vals τs) : List UInt8 := layout (encParts τs vs)

mutual

/-- The canonical name of a type. -/
def name : AbiType → String
  | uint bits => "uint" ++ toString bits
  | int bits => "int" ++ toString bits
  | address => "address"
  | bool => "bool"
  | fixedBytes n => "bytes" ++ toString n
  | bytes => "bytes"
  | string => "string"
  | array elem => elem.name ++ "[]"
  | fixed elem n => elem.name ++ "[" ++ toString n ++ "]"
  | tuple comps => "(" ++ ",".intercalate (names comps) ++ ")"

/-- The canonical names of a list of types. -/
def names : List AbiType → List String
  | [] => []
  | τ :: τs => τ.name :: names τs

end

end AbiType

end PvmContract.Abi
