import Mathlib.Tactic.IntervalCases
import PvmContract.Token.Ledger

/-!
# The contract keeps the books

The bodies of the contract, on the cells of its storage, are the steps of the ledger, and
by the refinement of contract storage so is the contract on the bytes that it is given.
`accounts_balance` puts this together with what is known of ledgers: it is about any
calldata, sent by anyone, and about the storage that the contract leaves. The operations
of `ruint` come in by their documented equations alone.
-/

namespace PvmContract.Token

open PvmContract.Data PvmContract.Num PvmContract.Macros PvmContract.Contract PvmContract.Storage

/-! ### Operations of the crate -/

section

variable (R : Ruint) (x y : U256)

theorem cmp_lt_iff : (R.cmp x y == .lt) = true ↔ x < y := by
  rw [beq_iff_eq, R.cmp_eq, Nat.compare_eq_lt]
  rfl

theorem wrappingAdd_eq : R.wrappingAdd x y = x + y := by
  apply BitVec.eq_of_toNat_eq
  rw [R.wrappingAdd_eq, BitVec.toNat_add]

theorem wrappingSub_eq : R.wrappingSub x y = x - y := by
  have hsub := R.wrappingSub_eq x y
  have hx := x.isLt
  have hy := y.isLt
  apply BitVec.eq_of_toNat_eq
  rw [BitVec.toNat_sub]
  omega

theorem saturatingAdd_eq : R.saturatingAdd x y = saturated x y := by
  apply BitVec.eq_of_toNat_eq
  rw [R.saturatingAdd_eq, toNat_saturated]

end

/-! ### Bodies on cells -/

/-- The ledger that a state is. -/
def ledger (v : StorageState storage storage_fits) : Ledger :=
  ⟨totalSupplyCell.value v, fun a => (balanceCell a).value v⟩

/-- The fields, and the balances of some addresses. -/
def sites (accounts : Finset Address) : Set (Site storage) :=
  {x | x = .whole ∨ ∃ a ∈ accounts, x = (balanceCell a).site}

/-- They are all that is in use. -/
def usage (accounts : Finset Address) : StorageUsage storage storage_fits :=
  ⟨sites accounts, fun x => (x.component storage_fits).all⟩

variable {R : Ruint} {accounts : Finset Address} {v w : StorageState storage storage_fits} {a : Address}

theorem whole_mem : totalSupplyCell.site ∈ (usage accounts).sites := .inl rfl

theorem balance_mem (ha : a ∈ accounts) : (balanceCell a).site ∈ (usage accounts).sites := .inr ⟨a, ha, rfl⟩

theorem balance_ne {a' : Address} (h : a' ≠ a) : (balanceCell a').site ≠ (balanceCell a).site := by
  intro heq
  have hfield := (Entry.field.inj (Site.entry.inj heq)).2
  exact h (Entry.here.inj (eq_of_heq hfield))

theorem whole_ne : totalSupplyCell.site ≠ (balanceCell a).site := by
  intro heq
  cases heq

theorem ledger_initial : ledger (.initial storage storage_fits) = .empty := by
  have hbalance : (fun a => (balanceCell a).value (.initial storage storage_fits)) = fun _ => u256.zero :=
    funext fun a => Cell.value_initial (c := balanceCell a)
  have hsupply : totalSupplyCell.value (.initial storage storage_fits) = u256.zero :=
    Cell.value_initial (c := totalSupplyCell)
  rw [ledger, hbalance, hsupply]
  rfl

theorem ledger_put_supply (x : U256) : ledger (totalSupplyCell.put x v) = { ledger v with supply := x } := by
  have hbalance : (fun a => (balanceCell a).value (totalSupplyCell.put x v)) = (ledger v).balance :=
    funext fun a => Cell.value_put_of_ne (c := totalSupplyCell) (fun h => whole_ne h.symm) x v
  have hsupply : totalSupplyCell.value (totalSupplyCell.put x v) = x := Cell.value_put (c := totalSupplyCell) x v
  rw [ledger, hbalance, hsupply]

theorem ledger_put_balance (a : Address) (x : U256) : ledger ((balanceCell a).put x v) = (ledger v).write a x := by
  have hbalance : (fun a' => (balanceCell a').value ((balanceCell a).put x v)) = ((ledger v).write a x).balance := by
    funext a'
    by_cases h : a' = a
    · subst h
      rw [Ledger.write_self]
      exact Cell.value_put (c := balanceCell a') x v
    · rw [Ledger.write_of_ne h]
      exact Cell.value_put_of_ne (c := balanceCell a) (balance_ne h) x v
  have hsupply : totalSupplyCell.value ((balanceCell a).put x v) = totalSupplyCell.value v :=
    Cell.value_put_of_ne (c := balanceCell a) whole_ne x v
  rw [ledger, hbalance, hsupply]
  rfl

/-- A transfer that is paid. -/
theorem transfer_runs {caller recipient : Address} {amount : U256} (hs : caller ∈ accounts) (hr : recipient ∈ accounts)
    (hpay : ¬ (ledger v).balance caller < amount) :
    ∃ w, Cell.Runs (usage accounts) (transfer R caller recipient amount) v
        (.ok ⟨.ok .unit, [⟨caller, recipient, amount⟩]⟩) w ∧
      ledger w = (ledger v).move caller recipient amount := by
  have hpaid := ledger_put_balance (v := v) caller (R.wrappingSub ((ledger v).balance caller) amount)
  have hbalance : ¬ (R.cmp ((balanceCell caller).value v) amount == .lt) = true := fun h =>
    hpay ((cmp_lt_iff R _ _).mp h)
  generalize hput : (balanceCell caller).put (R.wrappingSub ((ledger v).balance caller) amount) v = paid at hpaid
  have hrest : Cell.Runs (usage accounts) ((balanceCell recipient).get fun (recipientBalance : U256) =>
      (balanceCell recipient).set ⟨R.wrappingAdd recipientBalance amount, trivial⟩ <|
        .done (.ok ⟨.ok .unit, [⟨caller, recipient, amount⟩]⟩)) paid
      (.ok (Ending.mk (.ok .unit) [⟨caller, recipient, amount⟩]))
      ((balanceCell recipient).put (R.wrappingAdd ((ledger paid).balance recipient) amount) paid) :=
    Cell.runs_get (balance_mem hr) rfl (Cell.runs_set (balance_mem hr) (.done _ _))
  refine ⟨(balanceCell recipient).put (R.wrappingAdd ((ledger paid).balance recipient) amount) paid,
    Cell.runs_get (balance_mem hs) rfl ?_, ?_⟩
  · rw [if_neg hbalance]
    rw [← hput] at hrest ⊢
    exact Cell.runs_set (balance_mem hs) hrest
  · rw [ledger_put_balance, wrappingAdd_eq, hpaid, wrappingSub_eq, Ledger.move]

theorem mint_runs {recipient : Address} (amount : U256) (hr : recipient ∈ accounts) :
    ∃ w, Cell.Runs (usage accounts) (mint R recipient amount) v (.ok ⟨.ok .unit, [⟨noAddress, recipient, amount⟩]⟩) w ∧
      ledger w = (ledger v).issue recipient amount := by
  have hsupply : ∀ x, totalSupplyCell.value ((balanceCell recipient).put x v) = (ledger v).supply := fun x =>
    Cell.value_put_of_ne (c := balanceCell recipient) whole_ne x v
  refine ⟨_, Cell.runs_get (balance_mem hr) rfl (Cell.runs_set (balance_mem hr)
    (Cell.runs_get whole_mem rfl (Cell.runs_set whole_mem (.done _ _)))), ?_⟩
  rw [ledger_put_supply, hsupply, ledger_put_balance, Ledger.issue, ← saturatingAdd_eq R, ← saturatingAdd_eq R]
  rfl

/-- The body of a call is a step of the ledger. -/
theorem body_runs {caller : Address} {c : Call} (hc : ∀ a ∈ c.accounts caller, a ∈ accounts) :
    ∃ w, Cell.Runs (usage accounts) (c.body R caller) v (.ok ((ledger v).step caller c).1) w ∧
      ledger w = ((ledger v).step caller c).2 := by
  cases c with
  | totalSupply => exact ⟨v, Cell.runs_get whole_mem rfl (.done _ _), rfl⟩
  | balanceOf account => exact ⟨v, Cell.runs_peek (balance_mem (hc _ (.head _))) rfl (.done _ _), rfl⟩
  | fallback => exact ⟨v, .done _ _, rfl⟩
  | transfer recipient amount =>
    have hs : caller ∈ accounts := hc _ (.head _)
    rw [Ledger.step]
    by_cases hpay : (ledger v).balance caller < amount
    · have hbalance : (R.cmp ((balanceCell caller).value v) amount == .lt) = true := (cmp_lt_iff R _ _).mpr hpay
      rw [if_pos hpay]
      refine ⟨v, Cell.runs_get (balance_mem hs) rfl ?_, rfl⟩
      rw [if_pos hbalance]
      exact .done _ _
    · rw [if_neg hpay]
      exact transfer_runs hs (hc _ (.tail _ (.head _))) hpay
  | mint recipient amount => exact mint_runs amount (hc _ (.head _))

/-! ### The sites in use -/

/-- What is hashed for the balances of some addresses: the padded address, and slot 1. -/
def balancePreimages (accounts : Finset Address) : Set (List UInt8) :=
  {b | ∃ a ∈ accounts, b = SingleKey.image (.prim .address) a ++ (Key.ofNum 1).1}

theorem points_u256 {key : Key} {p : Key} : p ∉ u256.points key := by
  rintro ⟨n, hn, -⟩
  exact Set.notMem_empty _ hn

theorem points_whole {keccak : Hash} {key p : Key} :
    p ∉ (totalSupplyCell.site.component storage_fits).points keccak ((usage accounts).parts totalSupplyCell.site)
      key := by
  rintro ⟨⟨i, hi⟩, hp⟩
  have hi : i < 2 := hi
  interval_cases i
  · exact points_u256 hp
  · exact Set.notMem_empty _ hp

theorem preimages_balance (keccak : Hash) (a : Address) :
    ((balanceCell a).site.derive (.slot root)).preimages keccak =
      {SingleKey.image (.prim .address) a ++ (Key.ofNum 1).1} := by
  have hderive : (balanceCell a).site.derive (.slot root) =
      .hashed (SingleKey.image (.prim .address) a) (.slot 1) 0 := rfl
  rw [hderive, Data.Address.preimages, Data.Address.preimages, insert_empty_eq]
  rfl

theorem usable {keccak : Hash} (hspread : Spread keccak span (balancePreimages accounts)) :
    Usable keccak root (usage accounts) where
  whole := .inl rfl
  prefixes := by
    rintro e (he | ⟨a, -, he⟩) e' he'
    · cases he
    · obtain rfl := Site.entry.inj he
      cases he'
  spread := by
    refine hspread.mono ?_
    rintro b ⟨x, rfl | ⟨a, ha, rfl⟩, hb | ⟨p, hp, -⟩⟩
    · exact absurd hb (Set.notMem_empty _)
    · exact absurd hp points_whole
    · exact ⟨a, ha, (preimages_balance keccak a).subset hb⟩
    · exact absurd hp points_u256

/-! ### Messages -/

/-- What a body's ending is for the caller. -/
def Ending.outcome : Ending → Except Refusal (Returned × List Transfer)
  | ⟨.ok r, events⟩ => .ok (r, events)
  | ⟨.error .insufficientBalance, _⟩ => .error .insufficientBalance

/-- The calls that messages are routed to. -/
def admitted (p : Profile) (msgs : List Message) : List (Address × Call) :=
  msgs.filterMap fun msg => (msg.call p).toOption.map (Prod.mk msg.caller)

/-- What the contract answers on a storage is what a ledger says. -/
structure Answers (R : Ruint) (keccak : Hash) (accounts : Finset Address) (s : Store) (l : Ledger) : Prop where
  supply : ∀ caller, (serve R keccak caller .totalSupply s).1 = .ok (.amount l.supply, [])
  balance : ∀ caller, ∀ a ∈ accounts, (serve R keccak caller (.balanceOf a) s).1 = .ok (.amount (l.balance a), [])

/-- A call that fails changes nothing and emits nothing. -/
theorem Ledger.step_of_error {l : Ledger} {caller : Address} {c : Call} {e : TokenError}
    (h : (l.step caller c).1.result = .error e) : (l.step caller c).2 = l ∧ (l.step caller c).1.events = [] := by
  cases c with
  | totalSupply => exact ⟨rfl, rfl⟩
  | balanceOf account => exact ⟨rfl, rfl⟩
  | fallback => exact ⟨rfl, rfl⟩
  | mint recipient amount => cases h
  | transfer recipient amount =>
    rw [Ledger.step] at h ⊢
    by_cases hpay : l.balance caller < amount
    · rw [if_pos hpay]
      exact ⟨rfl, rfl⟩
    · rw [if_neg hpay] at h
      cases h

/-- The events that are kept are those of the step. -/
theorem Ledger.events_outcome (l : Ledger) (caller : Address) (c : Call) :
    (l.step caller c).1.outcome.toOption.elim [] (·.2) = (l.step caller c).1.events := by
  cases hend : (l.step caller c).1 with
  | mk result events =>
    cases result with
    | ok r => rfl
    | error e =>
      have hnone := (step_of_error (congrArg Ending.result hend)).2
      rw [hend] at hnone
      cases e
      exact hnone.symm

section

variable {keccak : Hash} {s₀ s : Store} (hu : Usable keccak root (usage accounts))
  (hr : Represents keccak root (usage accounts) s₀ s v)

include hu hr

/-- A call on the storage is a step of the ledger. -/
theorem serve_eq {caller : Address} {c : Call} (hc : ∀ a ∈ c.accounts caller, a ∈ accounts) :
    ∃ t w, serve R keccak caller c s = (((ledger v).step caller c).1.outcome, t) ∧
      Represents keccak root (usage accounts) s₀ t w ∧ ledger w = ((ledger v).step caller c).2 := by
  obtain ⟨w, hruns, hledger⟩ := body_runs (v := v) hc
  obtain ⟨t, hrun, hrep⟩ := hruns.simulates (fun c _ _ hr hc => perform_simulates hu c hr hc) hr
  cases hend : ((ledger v).step caller c).1 with
  | mk result events =>
    rw [hend] at hrun
    cases result with
    | ok r =>
      refine ⟨t, w, ?_, hrep, hledger⟩
      rw [serve, hrun]
      rfl
    | error e =>
      have herror := Ledger.step_of_error (congrArg Ending.result hend)
      refine ⟨s, v, ?_, hr, herror.1.symm⟩
      rw [serve, hrun]
      cases e
      rfl

/-- A run of messages on the storage is a run of the ledger. -/
theorem handleAll_eq {p : Profile} {msgs : List Message}
    (hc : ∀ c ∈ admitted p msgs, ∀ a ∈ c.2.accounts c.1, a ∈ accounts) :
    ∃ t w, handleAll R p keccak msgs s = (((ledger v).run (admitted p msgs)).1, t) ∧
      Represents keccak root (usage accounts) s₀ t w ∧
        ledger w = ((ledger v).run (admitted p msgs)).2 := by
  induction msgs generalizing s v with
  | nil => exact ⟨s, v, rfl, hr, rfl⟩
  | cons msg rest ih =>
    cases hcall : msg.call p with
    | error e =>
      have hskip : admitted p (msg :: rest) = admitted p rest := by
        rw [admitted, List.filterMap_cons, hcall]
        rfl
      rw [hskip] at hc ⊢
      obtain ⟨t, w, hrest, hrep, hledger⟩ := ih hr hc
      refine ⟨t, w, ?_, hrep, hledger⟩
      rw [handleAll, handle, hcall]
      exact hrest
    | ok c =>
      have htake : admitted p (msg :: rest) = (msg.caller, c) :: admitted p rest := by
        rw [admitted, List.filterMap_cons, hcall]
        rfl
      rw [htake] at hc ⊢
      obtain ⟨t, w, hserve, hrep, hledger⟩ := serve_eq hu hr (hc _ List.mem_cons_self)
      obtain ⟨t', w', hrest, hrep', hledger'⟩ := ih hrep fun c hmem => hc c (List.mem_cons_of_mem _ hmem)
      rw [hledger] at hrest hledger'
      refine ⟨t', w', ?_, hrep', hledger'⟩
      rw [handleAll, handle, hcall]
      dsimp only
      rw [hserve]
      dsimp only
      rw [hrest, Ledger.events_outcome]
      rfl

/-- What is answered about the storage is what the ledger says. -/
theorem answers : Answers R keccak accounts s (ledger v) where
  supply caller := by
    have hnone : ∀ a ∈ Call.totalSupply.accounts caller, a ∈ accounts := fun a ha => by cases ha
    obtain ⟨t, w, hserve, -, -⟩ := serve_eq hu hr hnone
    rw [hserve]
    rfl
  balance caller a ha := by
    have hone : ∀ a' ∈ (Call.balanceOf a).accounts caller, a' ∈ accounts := fun a' ha' =>
      List.mem_singleton.mp ha' ▸ ha
    obtain ⟨t, w, hserve, -, -⟩ := serve_eq hu hr hone
    rw [hserve]
    rfl

end

/-- **The books of the token balance.** Whatever messages are sent to the contract, by anyone and with any
calldata, the supply that it answers afterwards is the amount minted, up to the largest number. While that was
not passed, the balances that it answers for the addresses in use add up to the supply, each is what the events
say, and no addition on the way wraps. -/
theorem accounts_balance {R : Ruint} {p : Profile} {keccak : Hash} {accounts : Finset Address} {msgs : List Message}
    (hspread : Spread keccak span (balancePreimages accounts))
    (haccounts : ∀ c ∈ admitted p msgs, ∀ a ∈ c.2.accounts c.1, a ∈ accounts) :
    ∃ books : Ledger,
      books.Balanced accounts (mintedBy (admitted p msgs)) (handleAll R p keccak msgs Store.empty).1 ∧
        Answers R keccak accounts (handleAll R p keccak msgs Store.empty).2 books ∧
          books = (Ledger.empty.run (admitted p msgs)).2 ∧
            (mintedBy (admitted p msgs) < 2 ^ 256 → Ledger.empty.NoWrap (admitted p msgs)) := by
  have hu := usable hspread
  have hempty : Represents keccak root (usage accounts) Store.empty Store.empty
      (.initial storage storage_fits) := represents_initial fun _ _ c _ => Word.getD_zero c.2
  obtain ⟨t, w, hrun, hrep, hledger⟩ := handleAll_eq hu hempty haccounts
  have hbalanced := (Ledger.balanced_empty accounts).run haccounts
  have hnowrap := (Ledger.balanced_empty accounts).noWrap haccounts
  rw [Nat.zero_add, List.nil_append] at hbalanced
  rw [Nat.zero_add] at hnowrap
  rw [ledger_initial] at hrun hledger
  refine ⟨ledger w, ?_, ?_, hledger, hnowrap⟩
  · rw [hrun, hledger]
    exact hbalanced
  · rw [hrun]
    exact answers hu hrep

/-! ### A mint and a transfer -/

def alice : Address := ⟨List.replicate 20 0xaa, List.length_replicate⟩

def bob : Address := ⟨List.replicate 20 0xbb, List.length_replicate⟩

/-- The hashes for the two addresses. -/
def balanceHashes (preimage : List UInt8) : Key :=
  if preimage = SingleKey.image (.prim .address) alice ++ (Key.ofNum 1).1 then
    .ofNum 0xf043793b38eda5c51d465f1125f49da5bc0aa0c6d8a90f40e1d84f43afd33c7f
  else .ofNum 0x8f22848572deaf321ecb41095a0a57d3f19eda24b92a3f4a8e554a2e56f45bc4

theorem balanceHashes_spread : Spread balanceHashes span (balancePreimages {alice, bob}) := by
  have hbob : SingleKey.image (.prim .address) bob ++ (Key.ofNum 1).1 ≠
      SingleKey.image (.prim .address) alice ++ (Key.ofNum 1).1 := by
    intro heq
    exact absurd (SingleKey.image_injective (List.append_cancel_right heq)) (by decide : bob ≠ alice)
  have hnum : (balanceHashes (SingleKey.image (.prim .address) alice ++ (Key.ofNum 1).1)).num =
      0xf043793b38eda5c51d465f1125f49da5bc0aa0c6d8a90f40e1d84f43afd33c7f := by
    rw [balanceHashes, if_pos rfl]
    exact Key.num_ofNum (by decide)
  have hnum' : (balanceHashes (SingleKey.image (.prim .address) bob ++ (Key.ofNum 1).1)).num =
      0x8f22848572deaf321ecb41095a0a57d3f19eda24b92a3f4a8e554a2e56f45bc4 := by
    rw [balanceHashes, if_neg hbob]
    exact Key.num_ofNum (by decide)
  have hspan := Path.span_eq
  have hcases : ∀ x ∈ balancePreimages {alice, bob}, x = SingleKey.image (.prim .address) alice ++ (Key.ofNum 1).1 ∨
      x = SingleKey.image (.prim .address) bob ++ (Key.ofNum 1).1 := by
    rintro x ⟨a, ha, rfl⟩
    rcases Finset.mem_insert.mp ha with rfl | ha
    · exact .inl rfl
    · exact .inr (by rw [Finset.mem_singleton.mp ha])
  apply Spread.of_nums
  · intro x hx
    rcases hcases x hx with rfl | rfl
    · omega
    · omega
  · intro x hx y hy hne
    rcases hcases x hx with rfl | rfl <;> rcases hcases y hy with rfl | rfl
    · exact absurd rfl hne
    · omega
    · omega
    · exact absurd rfl hne

/-- Five units are minted for one, who sends two of them to the other. -/
def mintAndSend : List Message :=
  [⟨alice, Word.zero, beBytes 4 0x40c10f19 ++ List.replicate 12 0 ++ alice.1 ++ beBytes 32 5⟩,
    ⟨alice, Word.zero, beBytes 4 0xa9059cbb ++ List.replicate 12 0 ++ bob.1 ++ beBytes 32 2⟩]

/-- Both are admitted, five is what was minted, and nothing wraps. -/
theorem accounts_balance_mintAndSend : ∃ books : Ledger,
    books.Balanced {alice, bob} 5 (handleAll .reference .checked balanceHashes mintAndSend Store.empty).1 ∧
      Answers .reference balanceHashes {alice, bob}
        (handleAll .reference .checked balanceHashes mintAndSend Store.empty).2 books ∧
        books = (Ledger.empty.run [(alice, .mint alice 5), (alice, .transfer bob 2)]).2 ∧
          Ledger.empty.NoWrap [(alice, .mint alice 5), (alice, .transfer bob 2)] := by
  have hadmitted : admitted .checked mintAndSend = [(alice, .mint alice 5), (alice, .transfer bob 2)] := by
    rfl
  have hminted : mintedBy (admitted .checked mintAndSend) = 5 := by
    rw [hadmitted]
    rfl
  have haccounts : ∀ c ∈ admitted .checked mintAndSend, ∀ a ∈ c.2.accounts c.1,
      a ∈ ({alice, bob} : Finset Address) := by
    rw [hadmitted]
    decide
  have hbooks := accounts_balance (R := .reference) balanceHashes_spread haccounts
  rw [hminted, hadmitted] at hbooks
  obtain ⟨books, hbalanced, hanswers, hrun, hnowrap⟩ := hbooks
  exact ⟨books, hbalanced, hanswers, hrun, hnowrap (by decide)⟩

end PvmContract.Token
