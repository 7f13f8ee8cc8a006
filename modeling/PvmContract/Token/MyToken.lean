import Mathlib.Data.Fin.VecNotation
import Mathlib.Data.Fintype.Basic
import Mathlib.Tactic.FinCases
import PvmContract.Num.Ruint
import PvmContract.Storage.Cells
import PvmContract.Contract.DeploymentGuard

/-!
# The token contract

`example-mytoken-macro-storage.rs`, from calldata to the bytes of its storage. The router
of the contract decodes a message, and the method's body is code on two kinds of cells:
the total supply in slot 0, and the balances in the mapping at slot 1. A message that
reverts or traps leaves the storage as it was.

Arithmetic is that of the crate `ruint`, whose `+` and `-` wrap. The encoding of what is
returned is left to the output modules, and events are kept as
they are emitted, not as topics and data.
-/

namespace PvmContract.Token

open PvmContract.Data PvmContract.Num PvmContract.Types PvmContract.Macros PvmContract.Contract PvmContract.Storage

abbrev Address : Type := ByteArr 20

/-! ### Storage -/

/-- `U256`, which has a slot to itself. -/
abbrev u256 : LeafType := .full Scalar.U256.packable.static.codec

/-- The storage of `MyToken`. -/
def storage : Schema := .struct 1 ![.leaf u256, .mapping (.single (.prim .address)) (.leaf u256)]

theorem storage_fits : storage.Fits := by
  constructor
  · decide
  · intro i
    fin_cases i
    · exact trivial
    · exact trivial

theorem root_lt : 0 < 2 ^ 64 := Nat.two_pow_pos 64

/-- The slot from which the fields are numbered. -/
def root : Fin (2 ^ 64) := ⟨0, root_lt⟩

/-- The field `total_supply`. -/
def totalSupplyCell : Cell storage storage_fits u256 := ⟨.whole, .field (StructDef.index _ _ 0) .self⟩

/-- An entry of `balances`. -/
def balanceCell (account : Address) : Cell storage storage_fits u256 := ⟨.entry (.field 1 (.here account)), .self⟩

/-! ### Methods -/

/-- `InsufficientBalance`, the one error that the bodies return. -/
inductive TokenError where
  | insufficientBalance
  deriving DecidableEq, Repr

/-- The event `Transfer`, with its fields `from`, `to` and `value`. -/
structure Transfer where
  sender : Address
  recipient : Address
  value : U256
  deriving DecidableEq

/-- What a method returns. -/
inductive Returned where
  | unit
  | amount (v : U256)
  deriving DecidableEq

/-- The end of a body, with the events it has emitted. -/
structure Ending where
  result : Except TokenError Returned
  events : List Transfer

/-- The body of a method. -/
abbrev Body : Type 1 := Code storage storage_fits Ending

def totalSupply : Body := totalSupplyCell.get fun supply => .done (.ok ⟨.ok (.amount supply), []⟩)

def balanceOf (account : Address) : Body :=
  (balanceCell account).peek fun balance => .done (.ok ⟨.ok (.amount balance), []⟩)

def transfer (R : Ruint) (caller recipient : Address) (amount : U256) : Body :=
  (balanceCell caller).get fun (senderBalance : U256) =>
    if R.cmp senderBalance amount == .lt then .done (.ok ⟨.error .insufficientBalance, []⟩)
    else
      (balanceCell caller).set ⟨R.wrappingSub senderBalance amount, trivial⟩ <|
        (balanceCell recipient).get fun (recipientBalance : U256) =>
          (balanceCell recipient).set ⟨R.wrappingAdd recipientBalance amount, trivial⟩ <|
            .done (.ok ⟨.ok .unit, [⟨caller, recipient, amount⟩]⟩)

/-- `Address([0u8; 20])`. -/
def noAddress : Address := zeroBytes 20

def mint (R : Ruint) (recipient : Address) (amount : U256) : Body :=
  (balanceCell recipient).get fun (recipientBalance : U256) =>
    (balanceCell recipient).set ⟨R.saturatingAdd recipientBalance amount, trivial⟩ <|
      totalSupplyCell.get fun (supply : U256) =>
        totalSupplyCell.set ⟨R.saturatingAdd supply amount, trivial⟩ <|
          .done (.ok ⟨.ok .unit, [⟨noAddress, recipient, amount⟩]⟩)

def fallback : Body := .done (.ok ⟨.ok .unit, []⟩)

/-- A call, with its arguments. -/
inductive Call where
  | totalSupply
  | balanceOf (account : Address)
  | transfer (recipient : Address) (amount : U256)
  | mint (recipient : Address) (amount : U256)
  | fallback

def Call.body (R : Ruint) (caller : Address) : Call → Body
  | .totalSupply => Token.totalSupply
  | .balanceOf account => Token.balanceOf account
  | .transfer recipient amount => Token.transfer R caller recipient amount
  | .mint recipient amount => Token.mint R recipient amount
  | .fallback => Token.fallback

/-! ### The router -/

/-- A method of the interface. -/
def method (selector : ℕ) (ts : List Ty) (mutability : StateMutability)
    (h : (decodeCall (Ty.rusts ts)).isSome = true) : MethodInfo where
  selector := ⟨beBytes 4 selector, length_beBytes 4 selector⟩
  paramTypes := Ty.rusts ts
  mutability := mutability
  isNonReentrant := false
  decode := (decodeCall (Ty.rusts ts)).get h
  decode_eq := (Option.some_get h).symm

/-- `totalSupply()`. -/
def totalSupplyMethod : MethodInfo := method 0x18160ddd [] .view rfl

/-- `balanceOf(address)`. -/
def balanceOfMethod : MethodInfo := method 0x70a08231 [.prim .address] .view rfl

/-- `transfer(address,uint256)`. -/
def transferMethod : MethodInfo := method 0xa9059cbb [.prim .address, .prim .U256] .nonPayable rfl

/-- `mint(address,uint256)`. -/
def mintMethod : MethodInfo := method 0x40c10f19 [.prim .address, .prim .U256] .nonPayable rfl

/-- The contract, with a fallback that is not payable and a calldata buffer of 256 bytes. -/
def myToken : ParsedContract :=
  ⟨[totalSupplyMethod, balanceOfMethod, transferMethod, mintMethod], false, some false, some 256⟩

theorem selectors_nodup : (myToken.methods.map (·.selector)).Nodup := by decide

theorem eq_of_selector {m m' : MethodInfo} (hm : m ∈ myToken.methods) (hm' : m' ∈ myToken.methods)
    (h : m.selector = m'.selector) : m = m' :=
  List.inj_on_of_nodup_map selectors_nodup hm hm' h

theorem args_eq {m m' : MethodInfo} (hm : m ∈ myToken.methods) (hm' : m' ∈ myToken.methods)
    (h : m.selector = m'.selector) : Types.Fields (implOf m.paramTypes) = Types.Fields (implOf m'.paramTypes) := by
  rw [eq_of_selector hm hm' h]

theorem balanceOf_mem : balanceOfMethod ∈ myToken.methods := .tail _ (.head _)

theorem transfer_mem : transferMethod ∈ myToken.methods := .tail _ (.tail _ (.head _))

theorem mint_mem : mintMethod ∈ myToken.methods := .tail _ (.tail _ (.tail _ (.head _)))

/-- The body that an arm enters. -/
def Call.of (m : MethodInfo) (hm : m ∈ myToken.methods) (args : Types.Fields (implOf m.paramTypes)) : Call :=
  if hb : m.selector = balanceOfMethod.selector then
    let (account, ()) : Address × Unit := cast (args_eq hm balanceOf_mem hb) args
    .balanceOf account
  else if ht : m.selector = transferMethod.selector then
    let (recipient, amount, ()) : Address × U256 × Unit := cast (args_eq hm transfer_mem ht) args
    .transfer recipient amount
  else if hi : m.selector = mintMethod.selector then
    let (recipient, amount, ()) : Address × U256 × Unit := cast (args_eq hm mint_mem hi) args
    .mint recipient amount
  else .totalSupply

/-- A message to the contract. -/
structure Message where
  caller : Address
  /-- `value_transferred`. -/
  value : Word
  calldata : List UInt8

/-- How a message ends, if not with a result. -/
inductive Refusal where
  | insufficientBalance
  | framework (e : FrameworkError)
  | trapped
  deriving DecidableEq

/-- The call that a message is routed to. No method of the contract is guarded, so the lock is never taken. -/
def Message.call (p : Profile) (msg : Message) : Except Refusal Call :=
  match h : myToken.call ⟨p, msg.value, false⟩ msg.calldata with
  | .runs (.method m args) => .ok (Call.of m (Deployment.mem_of_call h) args)
  | .runs .fallback => .ok .fallback
  | .reverted e => .error (.framework e)
  | .runs .receive | .aborted | .unhandled => .error .trapped

/-- A call, on the storage. Where it does not return, nothing is left of what it did. -/
def serve (R : Ruint) (keccak : Hash) (caller : Address) (c : Call) (s : Store) :
    Except Refusal (Returned × List Transfer) × Store :=
  match (c.body R caller).run (perform keccak (fromSlot root)) s with
  | some (.ok ⟨.ok r, events⟩, t) => (.ok (r, events), t)
  | some (.ok ⟨.error .insufficientBalance, _⟩, _) => (.error .insufficientBalance, s)
  | some (.error _, _) | none => (.error .trapped, s)

/-- A message, on the storage. -/
def handle (R : Ruint) (p : Profile) (keccak : Hash) (msg : Message) (s : Store) :
    Except Refusal (Returned × List Transfer) × Store :=
  match msg.call p with
  | .ok c => serve R keccak msg.caller c s
  | .error e => (.error e, s)

/-- One message after the other: the events of all of them, and the storage. -/
def handleAll (R : Ruint) (p : Profile) (keccak : Hash) : List Message → Store → List Transfer × Store
  | [], s => ([], s)
  | msg :: rest, s =>
    let (result, s) := handle R p keccak msg s
    let (events, s) := handleAll R p keccak rest s
    (result.toOption.elim [] (·.2) ++ events, s)

end PvmContract.Token
