import PvmContract.Data.Slot
import Mathlib.Logic.Function.Iterate

/-!
# Slot arithmetic of the storage crates

Three pieces of code step from one storage slot to a later one. `inc_be_32` adds
one, byte by byte until a byte does not overflow. `inc_slot_by` adds a 64-bit
count with a 64-bit carry, and `StorageKey::add` calls it on a copy of the key.
The carry is kept here in the machine's own words, with the mask and the shifts
of the source, and `incSlotBy_eq_add` shows that nothing is lost in it: the carry
left over after a byte is far below `2 ^ 64`. All three are then addition modulo
`2 ^ 256` on the number of the key.
-/

namespace PvmContract.Storage

open Data Function

/-- The loop of `inc_slot_by` over the bytes from the last one. -/
def incSlotLoop : UInt64 → List UInt8 → List UInt8
  | _, [] => []
  | carry, byte :: rest =>
    if carry = 0 then byte :: rest
    else
      let sum := byte.toUInt64 + (carry &&& 0xff)
      sum.toUInt8 :: incSlotLoop ((carry >>> 8) + (sum >>> 8)) rest

@[simp] theorem length_incSlotLoop (carry : UInt64) (bs : List UInt8) :
    (incSlotLoop carry bs).length = bs.length := by
  induction bs generalizing carry with
  | nil => rfl
  | cons byte rest ih =>
    rw [incSlotLoop]
    by_cases hc : carry = 0
    · rw [if_pos hc]
    · simp [if_neg hc, ih]

/-- `inc_slot_by`. -/
def incSlotBy (slot : Key) (n : UInt64) : Key := ⟨(incSlotLoop n slot.1.reverse).reverse, by
  rw [List.length_reverse, length_incSlotLoop, List.length_reverse, slot.2]⟩

/-- `StorageKey`: the bytes of a slot. -/
structure StorageKey where
  /-- The 32 bytes. -/
  bytes : Key
  deriving DecidableEq

namespace StorageKey

/-- `StorageKey::add`. -/
def add (self : StorageKey) (n : UInt64) : StorageKey := ⟨incSlotBy self.bytes n⟩

end StorageKey

/-! ### The carry -/

theorem toNat_low (carry : UInt64) : (carry &&& 0xff).toNat = carry.toNat % 256 := by
  rw [UInt64.toNat_and]
  exact Nat.and_two_pow_sub_one_eq_mod carry.toNat 8

theorem toNat_high (carry : UInt64) : (carry >>> 8).toNat = carry.toNat / 256 := by
  rw [UInt64.toNat_shiftRight, Nat.shiftRight_eq_div_pow]
  rfl

/-- A byte and the low byte of a carry do not overflow the machine word. -/
theorem toNat_sum (byte : UInt8) (carry : UInt64) :
    (byte.toUInt64 + (carry &&& 0xff)).toNat = byte.toNat + carry.toNat % 256 := by
  have hb := byte.toNat_lt
  rw [UInt64.toNat_add, toNat_low, UInt8.toNat_toUInt64, Nat.mod_eq_of_lt (by omega)]

/-- Neither does what is carried on. -/
theorem toNat_carry (byte : UInt8) (carry : UInt64) :
    ((carry >>> 8) + ((byte.toUInt64 + (carry &&& 0xff)) >>> 8)).toNat =
      carry.toNat / 256 + (byte.toNat + carry.toNat % 256) / 256 := by
  have hb := byte.toNat_lt
  have hc := carry.toNat_lt
  rw [UInt64.toNat_add, toNat_high, toNat_high, toNat_sum, Nat.mod_eq_of_lt (by omega)]

/-- The loop on machine words is the loop on numbers. -/
theorem incSlotLoop_eq_addLoop (carry : UInt64) (bs : List UInt8) :
    incSlotLoop carry bs = addLoop carry.toNat bs := by
  induction bs generalizing carry with
  | nil => rfl
  | cons byte rest ih =>
    rw [incSlotLoop, addLoop]
    by_cases hc : carry = 0
    · have hn : carry.toNat = 0 := by simp [hc]
      rw [if_pos hc, if_pos hn]
    · have hn : ¬ carry.toNat = 0 := fun h => hc (UInt64.toNat_inj.mp h)
      have hbyte : (byte.toUInt64 + (carry &&& 0xff)).toUInt8 = UInt8.ofNat (byte.toNat + carry.toNat % 256) := by
        apply UInt8.toNat_inj.mp
        rw [UInt64.toNat_toUInt8, toNat_sum, UInt8.toNat_ofNat']
      rw [if_neg hc, if_neg hn]
      simp only [hbyte, ih, toNat_carry]

theorem incSlotBy_eq_add (slot : Key) (n : UInt64) : incSlotBy slot n = slot.add n.toNat := by
  apply Subtype.ext
  change (incSlotLoop n slot.1.reverse).reverse = (addLoop n.toNat slot.1.reverse).reverse
  rw [incSlotLoop_eq_addLoop]

/-! ### The numbers of the keys -/

/-- A key is the big-endian form of its number. -/
theorem eq_ofNum_of_num {k : Key} {m : ℕ} (h : k.num = m % 2 ^ 256) : k = Key.ofNum (m % 2 ^ 256) := by
  apply Key.num_inj
  rw [h, Key.num_ofNum (Nat.mod_lt _ (by norm_num))]

/-- Single steps add up. -/
theorem iterate_inc (slot : Key) (n : ℕ) : Key.inc^[n] slot = slot.add n := by
  induction n with
  | zero => rw [iterate_zero_apply, Key.add_zero]
  | succ n ih => rw [iterate_succ_apply', ih, Key.add_inc]

/-- **Slot arithmetic.** The sum of a slot's number and a count, modulo `2 ^ 256`, in big-endian
bytes: that is what `inc_slot_by`, `StorageKey::add` and so many runs of `inc_be_32` all give. -/
theorem slot_arithmetic (s : Key) (n : UInt64) :
    incSlotBy s n = Key.ofNum ((s.num + n.toNat) % 2 ^ 256) ∧
      StorageKey.add ⟨s⟩ n = ⟨Key.ofNum ((s.num + n.toNat) % 2 ^ 256)⟩ ∧
      Key.inc^[n.toNat] s = Key.ofNum ((s.num + n.toNat) % 2 ^ 256) := by
  have hadd : s.add n.toNat = Key.ofNum ((s.num + n.toNat) % 2 ^ 256) :=
    eq_ofNum_of_num (Key.num_add s n.toNat)
  refine ⟨?_, ?_, ?_⟩
  · rw [incSlotBy_eq_add, hadd]
  · rw [StorageKey.add, incSlotBy_eq_add, hadd]
  · rw [iterate_inc, hadd]

/-! ### Slots of contract fields -/

/-- A carry through every byte: the last slot is followed by the first. -/
example : incSlotBy ⟨List.replicate 32 255, by simp⟩ 1 = Key.ofNum 0 := by decide +kernel

end PvmContract.Storage
