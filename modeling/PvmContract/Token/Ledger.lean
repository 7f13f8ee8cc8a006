import Mathlib.Algebra.Order.BigOperators.Group.Finset
import PvmContract.Token.MyToken

/-!
# The books of the token

`Ledger` is what the token is for: a supply and a balance for every address. A call is a
step of the ledger, and `Ledger.Balanced` is what holds of the books after any number of
steps. The supply is the amount that was minted, up to the largest number. As long as
that number has not been passed, the balances add up to the amount minted, the balance
of an address is what the events say, all that it received less what it sent, and no
addition wraps or is cut off (`Ledger.NoWrap`).

Past the largest number a mint is cut off on both sides, at different times, and the
balances need not add up to the supply any more. Nothing is claimed about them then.
-/

namespace PvmContract.Token

open PvmContract.Data PvmContract.Num PvmContract.Storage

/-- The supply and the balances. -/
structure Ledger where
  supply : U256
  balance : Address → U256

namespace Ledger

/-- The ledger of storage that was never written. -/
def empty : Ledger := ⟨0, fun _ => 0⟩

/-- One address has another balance. -/
def write (l : Ledger) (account : Address) (balance : U256) : Ledger :=
  { l with balance := Function.update l.balance account balance }

/-- A transfer, from an address that can pay it. -/
def move (l : Ledger) (sender recipient : Address) (amount : U256) : Ledger :=
  let paid := l.write sender (l.balance sender - amount)
  paid.write recipient (paid.balance recipient + amount)

/-- A mint. -/
def issue (l : Ledger) (recipient : Address) (amount : U256) : Ledger :=
  { l.write recipient (saturated (l.balance recipient) amount) with supply := saturated l.supply amount }

/-- A call. -/
def step (l : Ledger) (caller : Address) : Call → Ending × Ledger
  | .totalSupply => (⟨.ok (.amount l.supply), []⟩, l)
  | .balanceOf account => (⟨.ok (.amount (l.balance account)), []⟩, l)
  | .transfer recipient amount =>
    if l.balance caller < amount then (⟨.error .insufficientBalance, []⟩, l)
    else (⟨.ok .unit, [⟨caller, recipient, amount⟩]⟩, l.move caller recipient amount)
  | .mint recipient amount => (⟨.ok .unit, [⟨noAddress, recipient, amount⟩]⟩, l.issue recipient amount)
  | .fallback => (⟨.ok .unit, []⟩, l)

/-- One call after the other, with their events. -/
def run (l : Ledger) : List (Address × Call) → List Transfer × Ledger
  | [] => ([], l)
  | (caller, c) :: rest =>
    let next := l.step caller c
    let after := next.2.run rest
    (next.1.events ++ after.1, after.2)

end Ledger

/-! ### What is counted -/

namespace Ledger

/-- The additions of a call stay below `2 ^ 256`, so that none wraps and none is cut off. -/
def Fits (l : Ledger) (caller : Address) : Call → Prop
  | .transfer recipient amount => ¬ l.balance caller < amount →
    ((l.write caller (l.balance caller - amount)).balance recipient).toNat + amount.toNat < 2 ^ 256
  | .mint recipient amount =>
    (l.balance recipient).toNat + amount.toNat < 2 ^ 256 ∧ l.supply.toNat + amount.toNat < 2 ^ 256
  | .totalSupply | .balanceOf _ | .fallback => True

/-- So do those of all calls, one after the other. -/
def NoWrap (l : Ledger) : List (Address × Call) → Prop
  | [] => True
  | (caller, c) :: rest => l.Fits caller c ∧ (l.step caller c).2.NoWrap rest

end Ledger

/-- The addresses whose balances a call looks at. -/
def Call.accounts (caller : Address) : Call → List Address
  | .balanceOf account => [account]
  | .transfer recipient _ => [caller, recipient]
  | .mint recipient _ => [recipient]
  | .totalSupply | .fallback => []

/-- What a call mints. -/
def Call.minted : Call → ℕ
  | .mint _ amount => amount.toNat
  | .totalSupply | .balanceOf _ | .transfer _ _ | .fallback => 0

/-- What a number of calls mint. -/
def mintedBy (calls : List (Address × Call)) : ℕ := (calls.map fun c => c.2.minted).sum

/-- All that an address sent, by the events. -/
def sentBy (account : Address) (events : List Transfer) : ℕ :=
  (events.map fun e => if e.sender = account then e.value.toNat else 0).sum

/-- All that an address received. -/
def receivedBy (account : Address) (events : List Transfer) : ℕ :=
  (events.map fun e => if e.recipient = account then e.value.toNat else 0).sum

theorem mintedBy_cons (caller : Address) (c : Call) (rest : List (Address × Call)) :
    mintedBy ((caller, c) :: rest) = c.minted + mintedBy rest := by
  rw [mintedBy, List.map_cons, List.sum_cons]
  rfl

theorem sentBy_append (account : Address) (xs ys : List Transfer) :
    sentBy account (xs ++ ys) = sentBy account xs + sentBy account ys := by
  rw [sentBy, List.map_append, List.sum_append]
  rfl

theorem receivedBy_append (account : Address) (xs ys : List Transfer) :
    receivedBy account (xs ++ ys) = receivedBy account xs + receivedBy account ys := by
  rw [receivedBy, List.map_append, List.sum_append]
  rfl

theorem sentBy_single (account : Address) (e : Transfer) :
    sentBy account [e] = if e.sender = account then e.value.toNat else 0 := by
  rw [sentBy, List.map_singleton, List.sum_singleton]

theorem receivedBy_single (account : Address) (e : Transfer) :
    receivedBy account [e] = if e.recipient = account then e.value.toNat else 0 := by
  rw [receivedBy, List.map_singleton, List.sum_singleton]

namespace Ledger

/-- The sum of the balances of some addresses. -/
def total (l : Ledger) (accounts : Finset Address) : ℕ := ∑ a ∈ accounts, (l.balance a).toNat

/-- The books, after so much was minted and these events were emitted. -/
structure Balanced (l : Ledger) (accounts : Finset Address) (minted : ℕ) (events : List Transfer) : Prop where
  supply : l.supply.toNat = min minted (2 ^ 256 - 1)
  total : minted < 2 ^ 256 → l.total accounts = minted
  history : minted < 2 ^ 256 → ∀ a ∈ accounts, a ≠ noAddress →
    (l.balance a).toNat + sentBy a events = receivedBy a events

theorem balanced_empty (accounts : Finset Address) : empty.Balanced accounts 0 [] where
  supply := rfl
  total _ := Finset.sum_const_zero
  history _ _ _ _ := rfl

variable {l : Ledger} {accounts : Finset Address} {a sender recipient : Address} {b amount : U256} {minted : ℕ}
  {events : List Transfer}

/-! ### Sums -/

theorem write_self (l : Ledger) (a : Address) (b : U256) : (l.write a b).balance a = b :=
  Function.update_self (β := fun _ => U256) a b l.balance

theorem write_of_ne {a' : Address} (h : a' ≠ a) : (l.write a b).balance a' = l.balance a' :=
  Function.update_of_ne (β := fun _ => U256) h b l.balance

theorem balance_le_total (ha : a ∈ accounts) : (l.balance a).toNat ≤ l.total accounts :=
  Finset.single_le_sum (f := fun a => (l.balance a).toNat) (fun _ _ => Nat.zero_le _) ha

/-- A balance that is written replaces the old one in the sum. -/
theorem total_write (ha : a ∈ accounts) :
    (l.write a b).total accounts + (l.balance a).toNat = l.total accounts + b.toNat := by
  have hold := Finset.add_sum_erase accounts (fun x => (l.balance x).toNat) ha
  have hnew := Finset.add_sum_erase accounts (fun x => ((l.write a b).balance x).toNat) ha
  have hrest : ∑ x ∈ accounts.erase a, ((l.write a b).balance x).toNat =
      ∑ x ∈ accounts.erase a, (l.balance x).toNat := by
    refine Finset.sum_congr rfl fun x hx => ?_
    rw [write_of_ne (Finset.ne_of_mem_erase hx)]
  rw [hrest, write_self] at hnew
  rw [total, total]
  omega

/-! ### A transfer -/

section

variable (hpay : ¬ l.balance sender < amount) (hs : sender ∈ accounts) (hr : recipient ∈ accounts)
  (hfit : l.total accounts < 2 ^ 256)

include hpay

theorem toNat_paid : (l.balance sender - amount).toNat + amount.toNat = (l.balance sender).toNat := by
  have hle : amount.toNat ≤ (l.balance sender).toNat := Nat.le_of_not_lt hpay
  rw [BitVec.toNat_sub_of_le hle]
  exact Nat.sub_add_cancel hle

include hs

theorem total_paid :
    (l.write sender (l.balance sender - amount)).total accounts + amount.toNat = l.total accounts := by
  have hpaid := toNat_paid hpay
  have hwrite := total_write (l := l) (b := l.balance sender - amount) hs
  omega

include hr hfit

theorem received_lt :
    ((l.write sender (l.balance sender - amount)).balance recipient).toNat + amount.toNat < 2 ^ 256 := by
  have hpaid := total_paid hpay hs
  have hle := balance_le_total (l := l.write sender (l.balance sender - amount)) hr
  omega

/-- The addition does not wrap. -/
theorem toNat_received :
    ((l.write sender (l.balance sender - amount)).balance recipient + amount).toNat =
      ((l.write sender (l.balance sender - amount)).balance recipient).toNat + amount.toNat := by
  rw [BitVec.toNat_add, Nat.mod_eq_of_lt (received_lt hpay hs hr hfit)]

theorem total_move : (l.move sender recipient amount).total accounts = l.total accounts := by
  have hpaid := total_paid hpay hs
  have hreceived := toNat_received hpay hs hr hfit
  have hwrite := total_write (l := l.write sender (l.balance sender - amount))
    (b := (l.write sender (l.balance sender - amount)).balance recipient + amount) hr
  rw [move]
  omega

/-- What an address has and sends is what it had and receives. -/
theorem balance_move (a : Address) :
    ((l.move sender recipient amount).balance a).toNat + sentBy a [⟨sender, recipient, amount⟩] =
      (l.balance a).toNat + receivedBy a [⟨sender, recipient, amount⟩] := by
  have hpaid := toNat_paid hpay
  have hreceived := toNat_received hpay hs hr hfit
  rw [sentBy_single, receivedBy_single, move]
  by_cases hra : recipient = a
  · subst hra
    rw [write_self, hreceived, if_pos rfl]
    by_cases hsa : sender = recipient
    · subst hsa
      rw [write_self, if_pos rfl]
      omega
    · rw [write_of_ne (fun h => hsa h.symm), if_neg hsa]
      rfl
  · rw [write_of_ne (fun h => hra h.symm), if_neg hra]
    by_cases hsa : sender = a
    · subst hsa
      rw [write_self, if_pos rfl]
      exact hpaid
    · rw [write_of_ne (fun h => hsa h.symm), if_neg hsa]

end

/-! ### A mint -/

section

variable (hr : recipient ∈ accounts) (hfit : l.total accounts + amount.toNat < 2 ^ 256)

include hr hfit

theorem toNat_issued :
    (saturated (l.balance recipient) amount).toNat = (l.balance recipient).toNat + amount.toNat := by
  have hle := balance_le_total (l := l) hr
  rw [toNat_saturated]
  omega

theorem total_issue : (l.issue recipient amount).total accounts = l.total accounts + amount.toNat := by
  have hissued := toNat_issued hr hfit
  have hwrite := total_write (l := l) (b := saturated (l.balance recipient) amount) hr
  have hsame : (l.issue recipient amount).total accounts =
      (l.write recipient (saturated (l.balance recipient) amount)).total accounts := rfl
  omega

theorem balance_issue {a : Address} (hne : a ≠ noAddress) :
    ((l.issue recipient amount).balance a).toNat + sentBy a [⟨noAddress, recipient, amount⟩] =
      (l.balance a).toNat + receivedBy a [⟨noAddress, recipient, amount⟩] := by
  have hissued := toNat_issued hr hfit
  have hsame : (l.issue recipient amount).balance a =
      (l.write recipient (saturated (l.balance recipient) amount)).balance a := rfl
  rw [sentBy_single, receivedBy_single, hsame, if_neg fun h => hne h.symm]
  by_cases hra : recipient = a
  · subst hra
    rw [write_self, if_pos rfl]
    exact hissued
  · rw [write_of_ne (fun h => hra h.symm), if_neg hra]

end

/-! ### Runs -/

namespace Balanced

theorem append_history (h : l.Balanced accounts minted events) {l' : Ledger} {more : List Transfer}
    (hold : minted < 2 ^ 256) (hnew : ∀ a, a ≠ noAddress →
      (l'.balance a).toNat + sentBy a more = (l.balance a).toNat + receivedBy a more) {a : Address} (ha : a ∈ accounts)
    (hne : a ≠ noAddress) : (l'.balance a).toNat + sentBy a (events ++ more) = receivedBy a (events ++ more) := by
  have hbefore := h.history hold a ha hne
  have hafter := hnew a hne
  rw [sentBy_append, receivedBy_append]
  omega

/-- One call. -/
theorem step (h : l.Balanced accounts minted events) {caller : Address} {c : Call}
    (hc : ∀ a ∈ c.accounts caller, a ∈ accounts) :
    (l.step caller c).2.Balanced accounts (minted + c.minted) (events ++ (l.step caller c).1.events) := by
  have hsame : l.Balanced accounts (minted + 0) (events ++ []) := by
    rw [List.append_nil]
    exact h
  cases c with
  | totalSupply => exact hsame
  | balanceOf account => exact hsame
  | fallback => exact hsame
  | transfer recipient amount =>
    have hs : caller ∈ accounts := hc _ (.head _)
    have hr : recipient ∈ accounts := hc _ (.tail _ (.head _))
    rw [Ledger.step]
    by_cases hpay : l.balance caller < amount
    · rw [if_pos hpay]
      exact hsame
    · rw [if_neg hpay]
      refine ⟨h.supply, fun hfit => ?_, fun hfit a ha hne => ?_⟩
      · have htotal := h.total hfit
        exact (total_move hpay hs hr (by omega)).trans htotal
      · have htotal := h.total hfit
        exact h.append_history hfit (fun a _ => balance_move hpay hs hr (by omega) a) ha hne
  | mint recipient amount =>
    have hr : recipient ∈ accounts := hc _ (.head _)
    have hminted : minted + (Call.mint recipient amount).minted = minted + amount.toNat := rfl
    rw [hminted]
    refine ⟨?_, fun hfit => ?_, fun hfit a ha hne => ?_⟩
    · have hsupply := h.supply
      have hadd := toNat_saturated l.supply amount
      change (saturated l.supply amount).toNat = _
      omega
    · have htotal := h.total (by omega)
      have hissue : (l.issue recipient amount).total accounts = l.total accounts + amount.toNat :=
        total_issue hr (by omega)
      exact hissue.trans (congrArg (· + amount.toNat) htotal)
    · have htotal := h.total (by omega)
      exact h.append_history (by omega) (fun a hne => balance_issue hr (by omega) hne) ha hne

/-- Any number of calls. -/
theorem run (h : l.Balanced accounts minted events) {calls : List (Address × Call)}
    (hc : ∀ c ∈ calls, ∀ a ∈ c.2.accounts c.1, a ∈ accounts) :
    (l.run calls).2.Balanced accounts (minted + mintedBy calls) (events ++ (l.run calls).1) := by
  induction calls generalizing l minted events with
  | nil =>
    rw [Ledger.run, List.append_nil]
    exact h
  | cons c rest ih =>
    obtain ⟨caller, c⟩ := c
    have hnext := h.step (hc _ List.mem_cons_self)
    have hrest := ih hnext fun c hmem => hc c (List.mem_cons_of_mem _ hmem)
    rw [mintedBy_cons, Ledger.run, ← Nat.add_assoc, ← List.append_assoc]
    exact hrest

/-- As long as what is minted fits, no addition of a call exceeds the largest number. -/
theorem fits (h : l.Balanced accounts minted events) {caller : Address} {c : Call}
    (hc : ∀ a ∈ c.accounts caller, a ∈ accounts) (hfit : minted + c.minted < 2 ^ 256) : l.Fits caller c := by
  have htotal := h.total (by omega)
  cases c with
  | totalSupply => exact trivial
  | balanceOf account => exact trivial
  | fallback => exact trivial
  | transfer recipient amount =>
    intro hpay
    exact received_lt hpay (hc _ (.head _)) (hc _ (.tail _ (.head _))) (by omega)
  | mint recipient amount =>
    have hle := balance_le_total (l := l) (hc recipient (.head _))
    have hsupply := h.supply
    have hminted : minted + amount.toNat < 2 ^ 256 := hfit
    exact ⟨by omega, by omega⟩

/-- Nor does one of any number of calls. -/
theorem noWrap (h : l.Balanced accounts minted events) {calls : List (Address × Call)}
    (hc : ∀ c ∈ calls, ∀ a ∈ c.2.accounts c.1, a ∈ accounts) (hfit : minted + mintedBy calls < 2 ^ 256) :
    l.NoWrap calls := by
  induction calls generalizing l minted events with
  | nil => exact trivial
  | cons c rest ih =>
    obtain ⟨caller, c⟩ := c
    rw [mintedBy_cons] at hfit
    have hfirst := hc _ List.mem_cons_self
    exact ⟨h.fits hfirst (by omega),
      ih (h.step hfirst) (fun c hmem => hc c (List.mem_cons_of_mem _ hmem)) (by omega)⟩

end Balanced

end Ledger

end PvmContract.Token
