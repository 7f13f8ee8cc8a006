import PvmContract.Cli.Descriptor

/-!
# Descriptors as types of the encoder

`abi_to_dyn_sol_type` turns a parameter of an ABI JSON file into a `DynSolType` of the
encoder. It takes the array dimensions off from the right: the text behind the last
bracket without its last byte is the size. What is left is an elementary type or a tuple of
the components. A text behind the bracket that is empty, or that ends in a character of
several bytes, makes the slice panic.
-/

namespace PvmContract.Cli

open Data

/-- `DynSolType`, as far as the tool builds it. -/
inductive DynSolType where
  | bool
  | address
  | string
  | bytes
  | uint (bits : ℕ)
  | int (bits : ℕ)
  | fixedBytes (size : ℕ)
  | array (inner : DynSolType)
  | fixedArray (inner : DynSolType) (size : ℕ)
  | tuple (inner : List DynSolType)

mutual

/-- The canonical name of the type. -/
def DynSolType.name : DynSolType → Text
  | .bool => "bool".toList
  | .address => "address".toList
  | .string => "string".toList
  | .bytes => "bytes".toList
  | .uint bits => "uint".toList ++ Nat.toDigits 10 bits
  | .int bits => "int".toList ++ Nat.toDigits 10 bits
  | .fixedBytes size => "bytes".toList ++ Nat.toDigits 10 size
  | .array inner => inner.name ++ "[]".toList
  | .fixedArray inner size => inner.name ++ '[' :: (Nat.toDigits 10 size ++ [']'])
  | .tuple inner => parens (DynSolType.names inner)

/-- The canonical names of a list of types. -/
def DynSolType.names : List DynSolType → List Text
  | [] => []
  | ty :: types => ty.name :: DynSolType.names types

end

/-- `str::parse::<usize>`. -/
def parseUsize (t : Text) : Option ℕ := parseUnsigned (2 ^ 64) t

/-- A slice up to the last byte, from behind the bracket: the text behind it has to have a last character,
of one byte. -/
def innerPart (behind : Text) : Outcome Text :=
  match behind.getLast? with
  | none => .error .panic
  | some c => if c.utf8Size = 1 then .ok behind.dropLast else .error .panic

/-- The arm of `abi_to_dyn_sol_type` for a text without brackets, with the types of the components. -/
def dynBase (inner : Option (Outcome (List DynSolType))) (solType : Text) : Outcome DynSolType :=
  if solType = "bool".toList then .ok .bool
  else if solType = "address".toList then .ok .address
  else if solType = "string".toList then .ok .string
  else if solType = "bytes".toList then .ok .bytes
  else if solType = "tuple".toList then (componentsOr "Tuple type missing 'components'" inner).map .tuple
  else if "uint".toList <+: solType then .ok (.uint ((parseUsize (solType.drop 4)).getD 256))
  else if "int".toList <+: solType then .ok (.int ((parseUsize (solType.drop 3)).getD 256))
  else if "bytes".toList <+: solType then
    match parseUsize (solType.drop 5) with
    | some size => .ok (.fixedBytes size)
    | none => .error (.error ("Invalid fixed bytes size in '" ++ String.ofList solType ++ "'"))
  else .error (.error ("Unsupported ABI type: " ++ String.ofList solType))

/-- One dimension of an array. -/
def dynArray (solType : Text) (innerPart : Text) (inner : DynSolType) : Outcome DynSolType :=
  if innerPart = [] then .ok (.array inner)
  else
    match parseUsize innerPart with
    | some size => .ok (.fixedArray inner size)
    | none => .error (.error ("Invalid array size in '" ++ String.ofList solType ++ "'"))

/-- `abi_to_dyn_sol_type` of a text, with the types of the components. -/
def dynText (inner : Option (Outcome (List DynSolType))) (solType : Text) : Outcome DynSolType :=
  match _ : splitLast '[' solType with
  | some (base, behind) => do
    let part ← innerPart behind
    let elem ← dynText inner base
    dynArray solType part elem
  | none => dynBase inner solType
termination_by solType.length
decreasing_by
  rename_i h
  rw [(splitLast_eq_some.mp h).1, List.length_append, List.length_cons]
  omega

/-- `abi_to_dyn_sol_type`, with the types of the components. -/
def dynFrom (solType : Option Text) (inner : Option (Outcome (List DynSolType))) : Outcome DynSolType :=
  match solType with
  | none => .error (.error "Input missing 'type'")
  | some solType => dynText inner solType

mutual

/-- `abi_to_dyn_sol_type`. -/
def abiToDynSolType : AbiInput → Outcome DynSolType
  | .bare solType => dynFrom solType none
  | .composite solType components => dynFrom solType (some (abiToDynSolTypes components))

/-- `components.iter().map(abi_to_dyn_sol_type).collect()`. -/
def abiToDynSolTypes : List AbiInput → Outcome (List DynSolType)
  | [] => .ok []
  | input :: inputs => do
    let ty ← abiToDynSolType input
    let types ← abiToDynSolTypes inputs
    .ok (ty :: types)

end

end PvmContract.Cli
