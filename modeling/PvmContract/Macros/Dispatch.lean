import PvmContract.Macros.Derive

/-!
# The dispatcher's parameters

The code that `#[contract]` generates for the arguments of a method: the check of
the input's size, and one read for each parameter at `__decode_offset`, which then
moves on by the parameter's `SLOT_SIZE`. Which read is generated is decided by
syntax: `decode_unchecked` where no custom type occurs and the type is static, and
`decode_at` otherwise.

The input is the calldata behind the selector. A run that fails reverts with
`INVALID_CALLDATA`; code that does not compile is `none`.
-/

namespace PvmContract.Macros

open Data Run PvmContract.Types

/-- What an unchecked access gives: outside the bounds it is undefined, or a panic. -/
def ofAccess {α : Type} (o : Option α) : Run α :=
  match o with
  | some a => pure a
  | none => .abort

/-- The read that `generate_decode_params` generates for a parameter. -/
def decodeParam (f : Field) : Option (Profile → List UInt8 → ℕ → Run f.impl.Carrier) :=
  if f.sol.hasCustomTypes || f.sol.isDynamic == some true then some f.impl.decodeAt
  else f.impl.decodeUnchecked.map fun decode _ input offset => ofAccess (decode input offset)

/-- `generate_decode_params`: the parameters in order, with the variable `__decode_offset`. -/
def decodeParams : (params : List Field) →
    Option (Profile → List UInt8 → ℕ → Run (Types.Fields (implOf params)))
  | [] => some fun _ _ _ => pure ()
  | f :: params => do
    let decode ← decodeParam f
    let rest ← decodeParams params
    pure fun p input offset => do
      let value ← decode p input offset
      let offset ← uadd p offset f.impl.slotSize
      let values ← rest p input offset
      pure (value, values)

/-- `calculate_min_input_size`. -/
def minInputSize (p : Profile) (params : List Field) : Run ℕ :=
  params.foldlM (fun size f => uadd p size f.impl.slotSize) 0

/-- `size_check` and the statements of `generate_param_decoding`. -/
def decodeCall (params : List Field) : Option (Profile → List UInt8 → Run (Types.Fields (implOf params))) := do
  let decode ← decodeParams params
  pure fun p input => do
    let size ← minInputSize p params
    if input.length < size then fail else decode p input 0

end PvmContract.Macros
