import PvmContract.Data.Window
import PvmContract.Storage.Layout
import PvmContract.Types.Primitives

/-!
# Values that pack into a slot

`Packable` is one implementation of the trait `StoragePackable`: how many bytes a
value takes, and the value as that many bytes. `pack_into` copies the bytes to a
window of a slot buffer and `unpack_from` reads them back, both at an offset that
the caller chooses. The members are the integers, `bool`, `Address` and `[u8; N]`
(`bytesN`), and `Scalar` enumerates them.
-/

namespace PvmContract.Storage

open PvmContract.Data PvmContract.Types

theorem length_zeros (n : ℕ) : (List.replicate n (0 : UInt8)).length = n := List.length_replicate

/-- `n` zero bytes. -/
def zeroBytes (n : ℕ) : ByteArr n := ⟨List.replicate n 0, length_zeros n⟩

theorem getD_zeroBytes (n j : ℕ) : (zeroBytes n).1.getD j 0 = 0 := by
  change (List.replicate n (0 : UInt8)).getD j 0 = 0
  rw [List.getD_eq_getElem?_getD, List.getElem?_replicate]
  split_ifs
  · rfl
  · rfl

/-- One implementation of `StoragePackable`. -/
structure Packable where
  Carrier : Type
  /-- `PACKED_BYTES`. -/
  packedBytes : ℕ
  toBytes : Carrier → ByteArr packedBytes
  ofBytes : ByteArr packedBytes → Carrier
  packedBytes_pos : 0 < packedBytes
  packedBytes_le : packedBytes ≤ 32
  ofBytes_toBytes : ∀ v, ofBytes (toBytes v) = v
  /-- What is read from zero bytes is written as zero bytes. -/
  toBytes_zero : toBytes (ofBytes (zeroBytes packedBytes)) = zeroBytes packedBytes

namespace Packable

/-- The value of bytes that were never written. -/
def zero (p : Packable) : p.Carrier := p.ofBytes (zeroBytes p.packedBytes)

/-- `pack_into`. -/
def packInto (p : Packable) (v : p.Carrier) (buf : Word) (offset : ℕ) : Word := buf.copyAt offset (p.toBytes v).1

/-- `unpack_from`. -/
def unpackFrom (p : Packable) (buf : Word) (offset : ℕ) : p.Carrier := p.ofBytes (buf.window offset p.packedBytes)

/-- What the layout walker reads of a packable type. -/
def shape (p : Packable) : Shape where
  packedBytes := p.packedBytes
  slots := 1
  packedBytes_pos := p.packedBytes_pos
  packedBytes_le := p.packedBytes_le
  slots_pos := Nat.one_pos
  slots_eq_one _ := rfl

variable (p : Packable)

theorem getD_packInto (v : p.Carrier) (buf : Word) {offset : ℕ} (h : offset + p.packedBytes ≤ 32) (q : ℕ) :
    (p.packInto v buf offset).1.getD q 0 =
      if offset ≤ q ∧ q < offset + p.packedBytes then (p.toBytes v).1.getD (q - offset) 0 else buf.1.getD q 0 := by
  have hlen := (p.toBytes v).2
  rw [packInto, Word.getD_copyAt buf (by omega), hlen]

/-- A packed value is unpacked again. -/
theorem unpackFrom_packInto (v : p.Carrier) (buf : Word) {offset : ℕ} (h : offset + p.packedBytes ≤ 32) :
    p.unpackFrom (p.packInto v buf offset) offset = v := by
  rw [unpackFrom, packInto, Word.window_copyAt _ _ h, p.ofBytes_toBytes]

/-- Unpacking looks at the window only. -/
theorem unpackFrom_eq {buf : Word} {offset : ℕ} {bs : ByteArr p.packedBytes}
    (h : ∀ j < p.packedBytes, buf.1.getD (offset + j) 0 = bs.1.getD j 0) : p.unpackFrom buf offset = p.ofBytes bs := by
  have hwindow : buf.window offset p.packedBytes = bs := by
    apply Word.byteArr_ext
    intro j hj
    rw [Word.getD_window _ _ hj, h j hj]
  rw [unpackFrom, hwindow]

theorem toBytes_zeroValue : p.toBytes p.zero = zeroBytes p.packedBytes := p.toBytes_zero

/-! ### The place of a packed value -/

variable {p} {key : Key} {offset : ℕ}

/-- The window of a value, or of none. -/
def place (p : Packable) (key : Key) (offset : ℕ) : Place Cell UInt8 (Option p.Carrier) :=
  (Store.window key offset p.packedBytes).comap fun o => o.elim (zeroBytes p.packedBytes) p.toBytes

/-- No value is all zeros. -/
theorem place_none_iff {x : Cell → UInt8} :
    (p.place key offset).Holds x none ↔ ∀ c ∈ (p.place key offset).cells, x c = 0 := by
  constructor
  · rintro h ⟨j, q⟩ ⟨rfl, hlow, hhigh⟩
    obtain ⟨i, rfl⟩ := Nat.exists_eq_add_of_le hlow
    exact (h i (Nat.lt_of_add_lt_add_left hhigh)).trans (getD_zeroBytes _ i)
  · intro h j hj
    exact (h _ ⟨rfl, Nat.le_add_right _ _, Nat.add_lt_add_left hj _⟩).trans (getD_zeroBytes _ _).symm

/-- Unpacking what is held. -/
theorem unpackFrom_of_holds {s : Store} {o : Option p.Carrier} (h : (p.place key offset).Holds s.bytes o) :
    p.unpackFrom (s.getStorageOrZero key) offset = o.getD p.zero := by
  have hread : p.unpackFrom (s.getStorageOrZero key) offset = p.ofBytes (o.elim (zeroBytes _) p.toBytes) :=
    p.unpackFrom_eq h
  rw [hread]
  cases o with
  | none => rfl
  | some v => exact p.ofBytes_toBytes v

end Packable

/-! ### The members -/

/-- `to_be_bytes`. -/
def toBeBytes (k : ℕ) (val : BitVec (8 * k)) : ByteArr k := ⟨beBytes k val.toNat, length_beBytes k _⟩

theorem ofBe_zeroBytes (k : ℕ) : ofBe (zeroBytes k).1 = 0 :=
  (ofBe_eq_zero_iff _).mpr fun _ hb => List.eq_of_mem_replicate hb

theorem beBytes_zero (k : ℕ) : beBytes k 0 = (zeroBytes k).1 := by
  have h := beBytes_ofBe (zeroBytes k).1
  rwa [ofBe_zeroBytes, (zeroBytes k).2] at h

/-- `impl_uint!`, for the integers of `k` bytes, signed or not: the bytes are those of the two's
complement. The types of 32 bytes, `U256` and `I256`, do the same. -/
def packInt (k : ℕ) (hpos : 0 < k) (hle : k ≤ 32) : Packable where
  Carrier := BitVec (8 * k)
  packedBytes := k
  toBytes := toBeBytes k
  ofBytes bs := fromBeBytes (8 * k) bs.1
  packedBytes_pos := hpos
  packedBytes_le := hle
  ofBytes_toBytes v := by
    have hlt : v.toNat < 256 ^ k := by
      have h := v.isLt
      rwa [pow_mul] at h
    change BitVec.ofNat (8 * k) (ofBe (beBytes k v.toNat)) = v
    rw [ofBe_beBytes_of_lt hlt, BitVec.ofNat_toNat, BitVec.setWidth_eq]
  toBytes_zero := by
    apply Subtype.ext
    change beBytes k (BitVec.ofNat (8 * k) (ofBe (zeroBytes k).1)).toNat = (zeroBytes k).1
    rw [ofBe_zeroBytes, BitVec.toNat_ofNat, Nat.zero_mod, beBytes_zero]

/-- `bool`: any byte but zero is read as true. -/
def packBool : Packable where
  Carrier := Bool
  packedBytes := 1
  toBytes v := ⟨[if v then 1 else 0], rfl⟩
  ofBytes bs := bs.1.getD 0 0 != 0
  packedBytes_pos := Nat.one_pos
  packedBytes_le := by decide
  ofBytes_toBytes v := by
    cases v with
    | true => rfl
    | false => rfl
  toBytes_zero := rfl

/-- `[u8; N]` for `N` from 1 to 32, and `Address` for 20. -/
def packBytes (n : ℕ) (hpos : 0 < n) (hle : n ≤ 32) : Packable where
  Carrier := ByteArr n
  packedBytes := n
  toBytes := id
  ofBytes := id
  packedBytes_pos := hpos
  packedBytes_le := hle
  ofBytes_toBytes _ := rfl
  toBytes_zero := rfl

/-- The types that implement `StoragePackable`. -/
inductive Scalar where
  | u8 | u16 | u32 | u64 | u128 | U256
  | i8 | i16 | i32 | i64 | i128 | I256
  | bool
  | address
  | bytes (n : ℕ) (hpos : 0 < n) (hle : n ≤ 32)

/-- The implementation of each. -/
def Scalar.packable : Scalar → Packable
  | u8 | i8 => packInt 1 (by decide) (by decide)
  | u16 | i16 => packInt 2 (by decide) (by decide)
  | u32 | i32 => packInt 4 (by decide) (by decide)
  | u64 | i64 => packInt 8 (by decide) (by decide)
  | u128 | i128 => packInt 16 (by decide) (by decide)
  | U256 | I256 => packInt 32 (by decide) (by decide)
  | bool => packBool
  | address => packBytes 20 (by decide) (by decide)
  | bytes n hpos hle => packBytes n hpos hle

/-- A `u64` is narrower than a slot. -/
theorem Scalar.u64_narrow : Scalar.u64.packable.packedBytes < 32 := by decide

end PvmContract.Storage
