import PvmContract.Data.Store

/-!
# Arithmetic on storage keys

A storage key is a 256-bit number in big-endian bytes, and consecutive words of a
value are kept at consecutive keys. The two loops that move a key forward, by one
(`inc_be_32`) and by a number of slots (`inc_slot_by`), go through the bytes from
the last one with a carry. Both are addition modulo `2 ^ 256` (`num_add`), so the
keys `k.add 0, k.add 1, …` are distinct up to the last one (`Key.add_inj`), and
an offset in front of another offset is their sum (`Key.add_add`).

`setRange` and `getRange` are the loops over consecutive keys, with what they write
and what they leave alone.
-/

namespace PvmContract.Data

/-! ### Bytes, least significant first -/

/-- The number that bytes spell in little-endian order. -/
def ofLe (bs : List UInt8) : ℕ := ofBe bs.reverse

@[simp] theorem ofLe_nil : ofLe [] = 0 := rfl

theorem ofLe_cons (b : UInt8) (bs : List UInt8) : ofLe (b :: bs) = ofLe bs * 256 + b.toNat := by
  rw [ofLe, List.reverse_cons, ofBe_snoc, ofLe]

theorem ofLe_lt (bs : List UInt8) : ofLe bs < 256 ^ bs.length := by
  have h := ofBe_lt bs.reverse
  rwa [List.length_reverse] at h

/-- The loop of `inc_be_32`, from the last byte. -/
def incLoop : List UInt8 → List UInt8
  | [] => []
  | byte :: rest =>
    let next := byte + 1
    let carry := byte == 255
    if !carry then next :: rest else next :: incLoop rest

/-- The loop of `inc_slot_by`, from the last byte. -/
def addLoop : ℕ → List UInt8 → List UInt8
  | _, [] => []
  | carry, byte :: rest =>
    if carry = 0 then byte :: rest
    else
      let sum := byte.toNat + carry % 256
      UInt8.ofNat sum :: addLoop (carry / 256 + sum / 256) rest

@[simp] theorem length_incLoop (bs : List UInt8) : (incLoop bs).length = bs.length := by
  induction bs with
  | nil => rfl
  | cons b bs ih =>
    rw [incLoop]
    split
    · rfl
    · rw [List.length_cons, ih, List.length_cons]

@[simp] theorem length_addLoop (carry : ℕ) (bs : List UInt8) : (addLoop carry bs).length = bs.length := by
  induction bs generalizing carry with
  | nil => rfl
  | cons b bs ih =>
    rw [addLoop]
    split
    · rfl
    · rw [List.length_cons, ih, List.length_cons]

theorem ofLe_addLoop (carry : ℕ) (bs : List UInt8) :
    ofLe (addLoop carry bs) = (ofLe bs + carry) % 256 ^ bs.length := by
  induction bs generalizing carry with
  | nil => rw [addLoop, ofLe_nil, List.length_nil, pow_zero, Nat.mod_one]
  | cons b bs ih =>
    rw [addLoop]
    by_cases hc : carry = 0
    · rw [if_pos hc, hc, Nat.add_zero, Nat.mod_eq_of_lt (ofLe_lt _)]
    · have hb := b.toNat_lt
      have hmod := Nat.div_add_mod carry 256
      have hsum : (ofLe bs * 256 + b.toNat + carry) / 256 =
          ofLe bs + (carry / 256 + (b.toNat + carry % 256) / 256) := by omega
      have hlow : (ofLe bs * 256 + b.toNat + carry) % 256 = (b.toNat + carry % 256) % 256 := by omega
      rw [if_neg hc, ofLe_cons, ih, ofLe_cons, List.length_cons, pow_succ, Nat.mul_comm (256 ^ bs.length) 256,
        Nat.mod_mul, hsum, hlow, UInt8.toNat_ofNat']
      omega

theorem addLoop_zero (bs : List UInt8) : addLoop 0 bs = bs := by
  cases bs with
  | nil => rfl
  | cons b bs => rfl

/-- One more is a carry of one. -/
theorem incLoop_eq_addLoop (bs : List UInt8) : incLoop bs = addLoop 1 bs := by
  induction bs with
  | nil => rfl
  | cons b bs ih =>
    have hb := b.toNat_lt
    have hnext : b + 1 = UInt8.ofNat (b.toNat + 1 % 256) := by
      apply UInt8.toNat_inj.mp
      rw [UInt8.toNat_add, UInt8.toNat_ofNat']
      rfl
    by_cases h : b = 255
    · have hcarry : 1 / 256 + (b.toNat + 1 % 256) / 256 = 1 := by
        rw [h]
        rfl
      have hset : ¬ (!(b == 255)) = true := by simp [h]
      rw [incLoop, addLoop, if_neg hset, if_neg (by decide)]
      simp only [hcarry, ih, hnext]
    · have hlt : b.toNat ≠ 255 := fun heq => h (UInt8.toNat_inj.mp heq)
      have hcarry : 1 / 256 + (b.toNat + 1 % 256) / 256 = 0 := by omega
      have hset : (!(b == 255)) = true := by simp [h]
      rw [incLoop, addLoop, if_pos hset, if_neg (by decide)]
      simp only [hcarry, addLoop_zero, hnext]

/-! ### Keys -/

namespace Key

/-- The number of a key. -/
def num (k : Key) : ℕ := ofBe k.1

/-- The key of a number. -/
def ofNum (n : ℕ) : Key := ⟨beBytes 32 n, length_beBytes 32 n⟩

/-- `StorageKey::add`: `inc_slot_by` on a copy of the key. -/
def add (k : Key) (n : ℕ) : Key := ⟨(addLoop n k.1.reverse).reverse, by
  rw [List.length_reverse, length_addLoop, List.length_reverse, k.2]⟩

/-- `inc_be_32`. -/
def inc (k : Key) : Key := ⟨(incLoop k.1.reverse).reverse, by
  rw [List.length_reverse, length_incLoop, List.length_reverse, k.2]⟩

theorem num_lt (k : Key) : k.num < 2 ^ 256 := by
  have h := ofBe_lt k.1
  rw [k.2] at h
  exact lt_of_lt_of_eq h (by norm_num)

theorem num_ofNum {n : ℕ} (h : n < 2 ^ 256) : (ofNum n).num = n :=
  ofBe_beBytes_of_lt (lt_of_lt_of_eq h (by norm_num))

theorem num_inj {k j : Key} (h : k.num = j.num) : k = j := by
  apply Subtype.ext
  have hk := beBytes_ofBe k.1
  have hj := beBytes_ofBe j.1
  rw [k.2] at hk
  rw [j.2] at hj
  rw [← hk, ← hj]
  exact congrArg (beBytes 32) h

theorem num_add (k : Key) (n : ℕ) : (k.add n).num = (k.num + n) % 2 ^ 256 := by
  have h := ofLe_addLoop n k.1.reverse
  have hpow : 256 ^ 32 = 2 ^ 256 := by norm_num
  rw [List.length_reverse, k.2, hpow, ofLe, ofLe, List.reverse_reverse] at h
  exact h

theorem inc_eq_add (k : Key) : k.inc = k.add 1 := by
  apply Subtype.ext
  change (incLoop k.1.reverse).reverse = (addLoop 1 k.1.reverse).reverse
  rw [incLoop_eq_addLoop]

@[simp] theorem add_zero (k : Key) : k.add 0 = k := by
  apply num_inj
  rw [num_add, Nat.add_zero, Nat.mod_eq_of_lt k.num_lt]

@[simp] theorem add_add (k : Key) (m n : ℕ) : (k.add m).add n = k.add (m + n) := by
  apply num_inj
  rw [num_add, num_add, num_add, Nat.mod_add_mod, Nat.add_assoc]

theorem add_inc (k : Key) (n : ℕ) : (k.add n).inc = k.add (n + 1) := by
  rw [inc_eq_add, add_add]

/-- Steps of less than the whole key space lead to different keys. -/
theorem add_inj {k : Key} {m n : ℕ} (hm : m < 2 ^ 256) (hn : n < 2 ^ 256) (h : k.add m = k.add n) : m = n := by
  have hnum := congrArg num h
  rw [num_add, num_add] at hnum
  have hk := k.num_lt
  omega

/-! ### Consecutive keys -/

/-- The `n` keys from a key on. -/
def range (k : Key) (n : ℕ) : Set Key := {j | ∃ i < n, j = k.add i}

theorem mem_range_add {k : Key} {n i : ℕ} (h : i < n) : k.add i ∈ k.range n := ⟨i, h, rfl⟩

theorem mem_range_self {k : Key} {n : ℕ} (h : 0 < n) : k ∈ k.range n := ⟨0, h, (add_zero k).symm⟩

/-- The keys behind the first one. -/
theorem mem_range_inc {k j : Key} {n : ℕ} (h : j ∈ k.inc.range n) : j ∈ k.range (n + 1) := by
  obtain ⟨i, hi, rfl⟩ := h
  refine ⟨i + 1, by omega, ?_⟩
  rw [inc_eq_add, add_add, Nat.add_comm]

/-- The first key is not met again. -/
theorem not_mem_range_inc {k : Key} {n : ℕ} (h : n < 2 ^ 256) : k ∉ k.inc.range n := by
  rintro ⟨i, hi, heq⟩
  rw [inc_eq_add, add_add] at heq
  have h0 := add_inj (by omega : 0 < 2 ^ 256) (by omega : 1 + i < 2 ^ 256) ((add_zero k).trans heq)
  omega

/-- The numbers of consecutive keys, where they do not wrap around. -/
theorem num_of_mem_range {k j : Key} {n : ℕ} (hfit : k.num + n ≤ 2 ^ 256) (h : j ∈ k.range n) :
    k.num ≤ j.num ∧ j.num < k.num + n := by
  obtain ⟨i, hi, rfl⟩ := h
  rw [num_add, Nat.mod_eq_of_lt (by omega)]
  omega

end Key

/-! ### Words at consecutive keys -/

namespace Store

/-- Words written at consecutive keys, one after the other. -/
def setRange (s : Store) (k : Key) : List Word → Store
  | [] => s
  | w :: ws => (s.setStorageOrClear k w).setRange k.inc ws

/-- The words read at consecutive keys. -/
def getRange (s : Store) (k : Key) : ℕ → List Word
  | 0 => []
  | n + 1 => s.getStorageOrZero k :: s.getRange k.inc n

@[simp] theorem length_getRange (s : Store) (k : Key) (n : ℕ) : (s.getRange k n).length = n := by
  induction n generalizing k with
  | zero => rfl
  | succ n ih => rw [getRange, List.length_cons, ih]

theorem getElem?_getRange (s : Store) (k : Key) {n i : ℕ} (h : i < n) :
    (s.getRange k n)[i]? = some (s.getStorageOrZero (k.add i)) := by
  induction n generalizing k i with
  | zero => omega
  | succ n ih =>
    cases i with
    | zero => rw [getRange, List.getElem?_cons_zero, Key.add_zero]
    | succ i =>
      rw [getRange, List.getElem?_cons_succ, ih k.inc (by omega), Key.inc_eq_add, Key.add_add, Nat.add_comm]

/-- Other keys keep their words. -/
theorem get_setRange_of_not_mem (s : Store) {k j : Key} {ws : List Word} (h : j ∉ k.range ws.length) :
    (s.setRange k ws).getStorageOrZero j = s.getStorageOrZero j := by
  induction ws generalizing s k with
  | nil => rfl
  | cons w ws ih =>
    have hne : j ≠ k := by
      rintro rfl
      exact h (Key.mem_range_self (Nat.succ_pos _))
    rw [setRange, ih _ fun hj => h (Key.mem_range_inc hj), get_set_of_ne s w hne]

/-- The words written are read back. -/
theorem get_setRange_add (s : Store) {k : Key} {ws : List Word} (hfit : ws.length < 2 ^ 256) {i : ℕ}
    (h : i < ws.length) : some ((s.setRange k ws).getStorageOrZero (k.add i)) = ws[i]? := by
  induction ws generalizing s k i with
  | nil => exact absurd h (Nat.not_lt_zero i)
  | cons w ws ih =>
    rw [List.length_cons] at hfit h
    cases i with
    | zero =>
      have hnot : k ∉ k.inc.range ws.length := Key.not_mem_range_inc (by omega)
      rw [Key.add_zero, setRange, get_setRange_of_not_mem _ hnot, get_set_self, List.getElem?_cons_zero]
    | succ i =>
      have hadd : k.add (i + 1) = k.inc.add i := by rw [Key.inc_eq_add, Key.add_add, Nat.add_comm]
      rw [hadd, setRange, ih _ (by omega) (by omega), List.getElem?_cons_succ]

end Store

end PvmContract.Data
