import PvmContract.Data.Slot
import Mathlib.Data.Set.Insert
import Mathlib.Order.CompletePartialOrder
import Mathlib.Data.Set.Lattice

/-!
# Derived keys

Keys that are derived from slot numbers by hashing. An `Address` is how a key was
derived: it is a slot number, or a number of slots behind the hash of a front and the
key of another address. `Address.key` computes the key.

A hash is *spread* on a set of preimages if their hashes are further apart than any
number of slots within reach, and as far from the numbers within reach
(`Spread`). Then an address is known from its key (`Address.key_injective`), so
whether keys can meet is a question about addresses, with no hash in it.

`Under a n` are the addresses of what belongs to the `n` slots from `a` on: these
slots, and whatever is derived from what belongs to them. Two stretches of slots that
do not meet have nothing in common as long as neither is derived from the other
(`Under.disjoint`).
-/

namespace PvmContract.Data

/-- How a key was derived. -/
inductive Address where
  /-- A slot number. -/
  | slot (n : ℕ)
  /-- `n` slots behind the hash of `front` and the key of `root`. -/
  | hashed (front : List UInt8) (root : Address) (n : ℕ)

/-- Hashes of the preimages are more than `reach` apart, and no slot number within reach is near one. -/
structure Spread (hash : List UInt8 → Key) (reach : ℕ) (preimages : Set (List UInt8)) : Prop where
  apart : ∀ x ∈ preimages, ∀ y ∈ preimages, ∀ i < reach, ∀ j < reach, (hash x).add i = (hash y).add j → x = y
  high : ∀ x ∈ preimages, ∀ i < reach, reach ≤ ((hash x).add i).num

theorem Spread.mono {hash : List UInt8 → Key} {reach : ℕ} {P Q : Set (List UInt8)} (h : Spread hash reach Q)
    (hsub : P ⊆ Q) : Spread hash reach P :=
  ⟨fun x hx y hy => h.apart x (hsub hx) y (hsub hy), fun x hx => h.high x (hsub hx)⟩

/-- Hashes are spread if their numbers are, and none of them is near the last number. -/
theorem Spread.of_nums {hash : List UInt8 → Key} {reach : ℕ} {P : Set (List UInt8)}
    (hfit : ∀ x ∈ P, reach ≤ (hash x).num ∧ (hash x).num + reach ≤ 2 ^ 256)
    (hapart : ∀ x ∈ P, ∀ y ∈ P, x ≠ y →
      (hash x).num + reach ≤ (hash y).num ∨ (hash y).num + reach ≤ (hash x).num) : Spread hash reach P := by
  have hnum : ∀ x ∈ P, ∀ i < reach, ((hash x).add i).num = (hash x).num + i := by
    intro x hx i hi
    have hx := (hfit x hx).2
    rw [Key.num_add, Nat.mod_eq_of_lt (by omega)]
  constructor
  · intro x hx y hy i hi j hj h
    by_contra hne
    have hnums := congrArg Key.num h
    rw [hnum x hx i hi, hnum y hy j hj] at hnums
    rcases hapart x hx y hy hne with hlt | hlt
    · omega
    · omega
  · intro x hx i hi
    rw [hnum x hx i hi]
    exact Nat.le_add_right_of_le (hfit x hx).1

namespace Address

/-- A number of slots further on. -/
def add : Address → ℕ → Address
  | slot n, m => slot (n + m)
  | hashed front root n, m => hashed front root (n + m)

/-- The key of an address. -/
def key (hash : List UInt8 → Key) : Address → Key
  | slot n => .ofNum n
  | hashed front root n => (hash (front ++ (root.key hash).1)).add n

/-- What is hashed to derive an address. -/
def preimages (hash : List UInt8 → Key) : Address → Set (List UInt8)
  | slot _ => ∅
  | hashed front root _ => insert (front ++ (root.key hash).1) (root.preimages hash)

/-- No number of slots is out of reach. -/
def Within (reach : ℕ) : Address → Prop
  | slot n => n < reach
  | hashed _ root n => n < reach ∧ root.Within reach

/-- How often was hashed. -/
def depth : Address → ℕ
  | slot _ => 0
  | hashed _ root _ => root.depth + 1

/-- The slots behind the last hash. -/
def index : Address → ℕ
  | slot n => n
  | hashed _ _ n => n

variable {hash : List UInt8 → Key} {reach : ℕ} {a b : Address}

@[simp] theorem depth_add (a : Address) (n : ℕ) : (a.add n).depth = a.depth := by
  cases a with
  | slot m => rfl
  | hashed front root m => rfl

@[simp] theorem index_add (a : Address) (n : ℕ) : (a.add n).index = a.index + n := by
  cases a with
  | slot m => rfl
  | hashed front root m => rfl

@[simp] theorem preimages_add (a : Address) (n : ℕ) : (a.add n).preimages hash = a.preimages hash := by
  cases a with
  | slot m => rfl
  | hashed front root m => rfl

@[simp] theorem add_zero (a : Address) : a.add 0 = a := by
  cases a with
  | slot m => rfl
  | hashed front root m => rfl

theorem add_add (a : Address) (m n : ℕ) : (a.add m).add n = a.add (m + n) := by
  cases a with
  | slot k => exact congrArg slot (Nat.add_assoc k m n)
  | hashed front root k => exact congrArg (hashed front root) (Nat.add_assoc k m n)

theorem add_inj {m n : ℕ} (h : a.add m = a.add n) : m = n := by
  have hindex := congrArg index h
  rw [index_add, index_add] at hindex
  exact Nat.add_left_cancel hindex

theorem key_add (a : Address) (n : ℕ) : (a.add n).key hash = (a.key hash).add n := by
  cases a with
  | slot m =>
    apply Key.num_inj
    have hnum : ∀ k, (Key.ofNum k).num = k % 2 ^ 256 := fun k => by
      have hpow : 256 ^ 32 = 2 ^ 256 := by norm_num
      exact (ofBe_beBytes 32 k).trans (congrArg (k % ·) hpow)
    change (Key.ofNum (m + n)).num = ((Key.ofNum m).add n).num
    rw [Key.num_add, hnum, hnum, Nat.mod_add_mod]
  | hashed front root m => exact (Key.add_add _ m n).symm

/-- An address further on is within reach if its number of slots is. -/
theorem Within.add {n : ℕ} (h : a.Within reach) (hn : a.index + n < reach) : (a.add n).Within reach := by
  cases a with
  | slot m => exact hn
  | hashed front root m => exact ⟨hn, h.2⟩

/-- **An address is known from its key.** -/
theorem key_injective {P : Set (List UInt8)} (hspread : Spread hash reach P) (hreach : reach ≤ 2 ^ 256)
    (ha : a.Within reach) (hb : b.Within reach) (hPa : a.preimages hash ⊆ P) (hPb : b.preimages hash ⊆ P)
    (h : a.key hash = b.key hash) : a = b := by
  induction a generalizing b with
  | slot m =>
    cases b with
    | slot n =>
      have hnum := congrArg Key.num h
      change (Key.ofNum m).num = (Key.ofNum n).num at hnum
      rw [Key.num_ofNum (lt_of_lt_of_le ha hreach), Key.num_ofNum (lt_of_lt_of_le hb hreach)] at hnum
      rw [hnum]
    | hashed front root n =>
      have hhigh := hspread.high _ (hPb (Set.mem_insert _ _)) n hb.1
      have hnum := congrArg Key.num h
      change (Key.ofNum m).num = ((hash _).add n).num at hnum
      rw [Key.num_ofNum (lt_of_lt_of_le ha hreach)] at hnum
      rw [← hnum] at hhigh
      exact absurd ha (Nat.not_lt.mpr hhigh)
  | hashed front root m ih =>
    cases b with
    | slot n =>
      have hhigh := hspread.high _ (hPa (Set.mem_insert _ _)) m ha.1
      have hnum := congrArg Key.num h
      change ((hash _).add m).num = (Key.ofNum n).num at hnum
      rw [Key.num_ofNum (lt_of_lt_of_le hb hreach)] at hnum
      rw [hnum] at hhigh
      exact absurd hb (Nat.not_lt.mpr hhigh)
    | hashed front' root' n =>
      have hpre := hspread.apart _ (hPa (Set.mem_insert _ _)) _ (hPb (Set.mem_insert _ _)) m ha.1 n hb.1 h
      -- The keys are the last 32 bytes of both preimages.
      obtain ⟨hfront, hroot⟩ := List.append_inj' hpre ((root.key hash).2.trans (root'.key hash).2.symm)
      have hrootEq := ih ha.2 hb.2 ((Set.subset_insert _ _).trans hPa) ((Set.subset_insert _ _).trans hPb)
        (Subtype.ext hroot)
      subst hfront hrootEq
      have hindex := Key.add_inj (lt_of_lt_of_le ha.1 hreach) (lt_of_lt_of_le hb.1 hreach) h
      rw [hindex]

/-! ### What belongs to a stretch of slots -/

/-- The addresses of what belongs to `n` slots from `a` on. -/
inductive Under (a : Address) (n : ℕ) : Address → Prop where
  | here {i} : i < n → Under a n (a.add i)
  | behind {front root i} : Under a n root → Under a n (hashed front root i)

namespace Under

variable {c : Address} {m n : ℕ}

theorem depth_le (h : Under a n b) : a.depth ≤ b.depth := by
  induction h with
  | here hi => rw [depth_add]
  | behind _ ih => exact Nat.le_succ_of_le ih

/-- What belongs to a part belongs to the whole. -/
theorem inside {s : ℕ} (hfit : s + m ≤ n) (h : Under (a.add s) m b) : Under a n b := by
  induction h with
  | here hi =>
    rw [add_add]
    exact .here (by omega)
  | behind _ ih => exact .behind ih

/-- What belongs to slots that are derived from another slot belongs to that one. -/
theorem of_hashed {front : List UInt8} {i : ℕ} (hroot : Under a n c) (h : Under (hashed front c i) m b) : Under a n b := by
  induction h with
  | here hi => exact .behind hroot
  | behind _ ih => exact .behind ih

/-- **Stretches of equal depth that do not meet have nothing in common.** -/
theorem disjoint (hdepth : a.depth = c.depth) (hslots : ∀ i < n, ∀ j < m, a.add i ≠ c.add j) (h : Under a n b) :
    ¬ Under c m b := by
  induction h with
  | @here i hi =>
    intro h'
    generalize hb : a.add i = b at h'
    cases h' with
    | here hj => exact hslots i hi _ hj hb
    | behind hroot =>
      have hle := hroot.depth_le
      have hdeep := congrArg depth hb
      rw [depth_add, depth] at hdeep
      omega
  | @behind front root i hroot ih =>
    intro h'
    generalize hb : hashed front root i = b at h'
    cases h' with
    | @here j hj =>
      have hle := hroot.depth_le
      have hdeep := congrArg depth hb
      rw [depth_add, depth] at hdeep
      omega
    | behind hroot' =>
      obtain ⟨-, rfl, -⟩ := hashed.inj hb
      exact ih hroot'

end Under

/-! ### Hashing one front after the other -/

/-- Fronts hashed one after the other, each with the key of the last hash. -/
def chain (a : Address) (fronts : List (List UInt8)) : Address := fronts.foldl (fun a front => hashed front a 0) a

theorem chain_cons (a : Address) (front : List UInt8) (fronts : List (List UInt8)) :
    a.chain (front :: fronts) = (hashed front a 0).chain fronts := rfl

theorem chain_append (a : Address) (l l' : List (List UInt8)) : a.chain (l ++ l') = (a.chain l).chain l' :=
  List.foldl_append

theorem chain_snoc (a : Address) (l : List (List UInt8)) (front : List UInt8) :
    a.chain (l ++ [front]) = hashed front (a.chain l) 0 := chain_append a l [front]

@[simp] theorem depth_chain (a : Address) (l : List (List UInt8)) : (a.chain l).depth = a.depth + l.length := by
  induction l using List.reverseRecOn with
  | nil => rfl
  | append_singleton l front ih =>
    rw [chain_snoc, depth, ih, List.length_append]
    rfl

/-- Chains of one length have their fronts from the address. -/
theorem chain_inj {l l' : List (List UInt8)} (hlen : l.length = l'.length) (h : a.chain l = a.chain l') : l = l' := by
  induction l using List.reverseRecOn generalizing l' with
  | nil => exact (List.length_eq_zero_iff.mp hlen.symm).symm
  | append_singleton l front ih =>
    obtain rfl | ⟨k, last, rfl⟩ := List.eq_nil_or_concat l'
    · rw [List.length_append] at hlen
      exact absurd hlen (Nat.succ_ne_zero _)
    · rw [List.concat_eq_append, chain_snoc, chain_snoc] at h
      obtain ⟨hfront, hchain, -⟩ := hashed.inj h
      rw [List.concat_eq_append, List.length_append, List.length_append] at hlen
      rw [List.concat_eq_append, hfront, ih (Nat.add_right_cancel hlen) hchain]

/-- Slots behind different chains of one length are different. -/
theorem chain_add_ne {l l' : List (List UInt8)} (hne : l ≠ l') (hlen : l.length = l'.length) (i j : ℕ) :
    (a.chain l).add i ≠ (a.chain l').add j := by
  intro h
  obtain rfl | ⟨k, front, rfl⟩ := List.eq_nil_or_concat l
  · exact hne (List.length_eq_zero_iff.mp hlen.symm).symm
  · obtain rfl | ⟨k', front', rfl⟩ := List.eq_nil_or_concat l'
    · rw [List.concat_eq_append, List.length_append] at hlen
      exact absurd hlen (Nat.succ_ne_zero _)
    · rw [List.concat_eq_append, List.concat_eq_append, chain_snoc, chain_snoc] at h
      rw [List.concat_eq_append, List.concat_eq_append, List.length_append, List.length_append] at hlen
      obtain ⟨hfront, hchain, -⟩ := hashed.inj h
      rw [hfront, chain_inj (Nat.add_right_cancel hlen) hchain] at hne
      exact hne rfl

/-- The address behind a chain of fronts belongs to the slot that it begins with. -/
theorem under_chain {n : ℕ} {l : List (List UInt8)} (h : Under a n b) : Under a n (b.chain l) := by
  induction l using List.reverseRecOn with
  | nil => exact h
  | append_singleton l front ih =>
    rw [chain_snoc]
    exact .behind ih

end Address

end PvmContract.Data
