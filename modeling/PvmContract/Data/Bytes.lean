import Mathlib.Data.List.Induction
import Mathlib.Data.Nat.Notation
import Mathlib.Tactic.Ring

/-!
# Big-endian numbers in byte strings

A number written in a fixed count of bytes, most significant byte first, and
the number that a byte string spells. The width is a parameter, so one set of
laws serves every integer width of a wire format, and `beBytes_add` is how a
short integer sits inside a longer word.
-/

namespace PvmContract.Data

/-- A byte string of a given length. -/
abbrev ByteArr (n : ℕ) : Type := {bs : List UInt8 // bs.length = n}

/-- The `k` low bytes of `n`, most significant first. -/
def beBytes : ℕ → ℕ → List UInt8
  | 0, _ => []
  | k + 1, n => beBytes k (n / 256) ++ [UInt8.ofNat n]

/-- The number that a byte string spells in big-endian order. -/
def ofBe (bs : List UInt8) : ℕ := bs.foldl (fun n b => n * 256 + b.toNat) 0

@[simp] theorem length_beBytes (k n : ℕ) : (beBytes k n).length = k := by
  induction k generalizing n with
  | zero => rfl
  | succ k ih => simp [beBytes, ih]

@[simp] theorem ofBe_nil : ofBe [] = 0 := rfl

theorem ofBe_snoc (bs : List UInt8) (b : UInt8) : ofBe (bs ++ [b]) = ofBe bs * 256 + b.toNat := by
  simp [ofBe, List.foldl_append]

/-- Reading back what was written keeps the low bytes. -/
theorem ofBe_beBytes (k n : ℕ) : ofBe (beBytes k n) = n % 256 ^ k := by
  induction k generalizing n with
  | zero => simp [beBytes, Nat.mod_one]
  | succ k ih =>
    rw [beBytes, ofBe_snoc, ih, pow_succ, Nat.mul_comm (256 ^ k) 256, Nat.mod_mul,
      UInt8.toNat_ofNat']
    omega

theorem ofBe_beBytes_of_lt {k n : ℕ} (h : n < 256 ^ k) : ofBe (beBytes k n) = n := by
  rw [ofBe_beBytes, Nat.mod_eq_of_lt h]

theorem ofBe_lt (bs : List UInt8) : ofBe bs < 256 ^ bs.length := by
  induction bs using List.reverseRecOn with
  | nil => simp
  | append_singleton bs b ih =>
    rw [ofBe_snoc, List.length_append, List.length_singleton, pow_succ]
    have hb : b.toNat < 256 := b.toNat_lt
    omega

/-- A byte string is the big-endian form of the number it spells. -/
theorem beBytes_ofBe (bs : List UInt8) : beBytes bs.length (ofBe bs) = bs := by
  induction bs using List.reverseRecOn with
  | nil => rfl
  | append_singleton bs b ih =>
    have hb : b.toNat < 256 := b.toNat_lt
    have hdiv : (ofBe bs * 256 + b.toNat) / 256 = ofBe bs := by omega
    have hlow : UInt8.ofNat (ofBe bs * 256 + b.toNat) = b := by
      apply UInt8.toNat_inj.mp
      rw [UInt8.toNat_ofNat']
      omega
    rw [ofBe_snoc, List.length_append, List.length_singleton, beBytes, hdiv, hlow, ih]

/-- A number written in `j + k` bytes: its high part in `j` bytes, then its low `k` bytes. -/
theorem beBytes_add (j k n : ℕ) : beBytes (j + k) n = beBytes j (n / 256 ^ k) ++ beBytes k n := by
  induction k generalizing n with
  | zero => simp [beBytes]
  | succ k ih =>
    rw [← Nat.add_assoc, beBytes, ih, Nat.div_div_eq_div_mul, beBytes, List.append_assoc,
      pow_succ, Nat.mul_comm 256]

theorem beBytes_zero (k : ℕ) : beBytes k 0 = List.replicate k 0 := by
  induction k with
  | zero => rfl
  | succ k ih => rw [beBytes, Nat.zero_div, ih, List.replicate_succ']; rfl

theorem beBytes_mod (k n : ℕ) : beBytes k (n % 256 ^ k) = beBytes k n := by
  have h := beBytes_ofBe (beBytes k n)
  rwa [length_beBytes, ofBe_beBytes] at h

/-- All bytes set: the largest number of a width. -/
theorem beBytes_pred_pow (k : ℕ) : beBytes k (256 ^ k - 1) = List.replicate k 255 := by
  induction k with
  | zero => rfl
  | succ k ih =>
    have hpos : 0 < 256 ^ k := Nat.pow_pos (by decide)
    have hdiv : (256 ^ (k + 1) - 1) / 256 = 256 ^ k - 1 := by rw [pow_succ]; omega
    have hlow : UInt8.ofNat (256 ^ (k + 1) - 1) = 255 := by
      apply UInt8.toNat_inj.mp
      rw [UInt8.toNat_ofNat', pow_succ]
      change _ = 255
      omega
    rw [beBytes, hdiv, hlow, ih, List.replicate_succ']

/-- A number that fits in `k` bytes, written in `j + k`: zeros in front. -/
theorem beBytes_add_of_lt {j k n : ℕ} (h : n < 256 ^ k) :
    beBytes (j + k) n = List.replicate j 0 ++ beBytes k n := by
  rw [beBytes_add, Nat.div_eq_of_lt h, beBytes_zero]

/-- Two numbers of a width are equal when their bytes are. -/
theorem beBytes_inj {k m n : ℕ} (hm : m < 256 ^ k) (hn : n < 256 ^ k)
    (h : beBytes k m = beBytes k n) : m = n := by
  rw [← ofBe_beBytes_of_lt hm, h, ofBe_beBytes_of_lt hn]

end PvmContract.Data
