import PvmContract.Types.Represents
import PvmContract.Types.Primitives

/-!
# The static primitives implement their ABI types

Every primitive is a word made of a few value bytes with padding on one side.
`Reads` says where a read of the input finds the value bytes, when it is free of
overflow, and that the unchecked read looks at the same place; it is proved once
for each of the four kinds of read. With it, `represents_staticType` reduces a
primitive to the layout of its word.
-/

namespace PvmContract.Types

open Data Run Abi AbiType

/-! ### Reads -/

/-- A read of the `k` bytes that start `skip` bytes behind the offset. The largest number it
adds to the offset is `top`. -/
structure Reads (get : Profile → List UInt8 → ℕ → Run (List UInt8))
    (getUnchecked : List UInt8 → ℕ → Option (List UInt8)) (skip k top : ℕ) : Prop where
  returns : ∀ input off bs, Returns (get .checked input off) bs ↔
    off + top < 2 ^ 64 ∧ getRange input (off + skip) (off + (skip + k)) = some bs
  safe : ∀ lim input off, Safe lim (get .checked input off) ↔ off + top < 2 ^ 64
  agrees : ∀ input off, Agrees (get .checked input off) (get .wrapping input off)
  unchecked : ∀ input off, getUnchecked input off = getRange input (off + skip) (off + (skip + k))
  top_le : top ≤ 32

theorem returns_uadd {a b c : ℕ} : Returns (uadd .checked a b) c ↔ a + b < 2 ^ 64 ∧ c = a + b :=
  returns_usize_checked

theorem safe_uadd {lim a b : ℕ} : Safe lim (uadd .checked a b) ↔ a + b < 2 ^ 64 := safe_usize_checked

theorem reads_getRangeAt {n : ℕ} (h : n ≤ 32) : Reads (getRangeAt n) (uncheckedRange 0 n) 0 n n where
  returns input off bs := by
    simp only [getRangeAt, returns_bind, returns_uadd, returns_ofOption, Nat.add_zero, Nat.zero_add]
    constructor
    · rintro ⟨_, ⟨hlt, rfl⟩, hget⟩
      exact ⟨hlt, hget⟩
    · rintro ⟨hlt, hget⟩
      exact ⟨_, ⟨hlt, rfl⟩, hget⟩
  safe lim input off := by
    simp only [getRangeAt, safe_bind, safe_uadd, safe_ofOption, implies_true, and_true]
  agrees input off := .bind (.uadd _ _) fun _ _ => .refl _
  unchecked _ _ := rfl
  top_le := h

theorem reads_getLow {k : ℕ} (h : k ≤ 32) :
    Reads (getLow k) (uncheckedRange (32 - k) k) (32 - k) k 32 where
  returns input off bs := by
    simp only [getLow, returns_bind, returns_uadd, returns_ofOption, Nat.sub_add_cancel h]
    constructor
    · rintro ⟨_, ⟨-, rfl⟩, _, ⟨hlt, rfl⟩, hget⟩
      exact ⟨hlt, hget⟩
    · rintro ⟨hlt, hget⟩
      exact ⟨_, ⟨by omega, rfl⟩, _, ⟨hlt, rfl⟩, hget⟩
  safe lim input off := by
    simp only [getLow, safe_bind, safe_uadd, safe_ofOption, returns_uadd, implies_true, and_true]
    constructor
    · rintro ⟨hlt, h2⟩
      exact h2 _ ⟨hlt, rfl⟩
    · intro hlt
      exact ⟨by omega, fun _ _ => hlt⟩
  agrees input off := .bind (.uadd _ _) fun _ _ => .bind (.uadd _ _) fun _ _ => .refl _
  unchecked _ _ := rfl
  top_le := le_refl _

/-- A range of one byte is that byte. -/
theorem getRange_one (input : List UInt8) (i : ℕ) :
    getRange input i (i + 1) = input[i]?.map ([·]) := by
  unfold getRange
  split_ifs with h
  · rw [Nat.add_sub_cancel_left, List.getElem?_eq_getElem (by omega), Option.map_some,
      List.drop_eq_getElem_cons (by omega)]
    rfl
  · rw [List.getElem?_eq_none (by omega), Option.map_none]

/-- A range of two bytes is those two bytes. -/
theorem getRange_two (input : List UInt8) (i : ℕ) :
    getRange input i (i + 2) = (do
      let x ← input[i]?
      let y ← input[i + 1]?
      pure [x, y]) := by
  unfold getRange
  split_ifs with h
  · rw [Nat.add_sub_cancel_left, List.getElem?_eq_getElem (by omega),
      List.getElem?_eq_getElem (by omega), List.drop_eq_getElem_cons (by omega),
      List.drop_eq_getElem_cons (by omega)]
    rfl
  · rw [List.getElem?_eq_none (i := i + 1) (by omega)]
    cases input[i]? <;> rfl

theorem reads_getByte : Reads getByte uncheckedByte 31 1 31 where
  returns input off bs := by
    simp only [getByte, returns_bind, returns_uadd, returns_ofOption]
    rw [show off + (31 + 1) = off + 31 + 1 by omega, getRange_one]
    constructor
    · rintro ⟨_, ⟨hlt, rfl⟩, hget⟩
      exact ⟨hlt, hget⟩
    · rintro ⟨hlt, hget⟩
      exact ⟨_, ⟨hlt, rfl⟩, hget⟩
  safe lim input off := by
    simp only [getByte, safe_bind, safe_uadd, safe_ofOption, implies_true, and_true]
  agrees input off := .bind (.uadd _ _) fun _ _ => .refl _
  unchecked input off := by
    rw [show off + (31 + 1) = off + 31 + 1 by omega, getRange_one]; rfl
  top_le := by omega

theorem reads_getPair : Reads getPair uncheckedPair 30 2 31 where
  returns input off bs := by
    simp only [getPair, returns_bind, returns_uadd, returns_ofOption]
    rw [show off + (30 + 2) = off + 30 + 2 by omega, getRange_two, Nat.add_assoc off 30 1]
    constructor
    · rintro ⟨_, ⟨-, rfl⟩, _, ⟨hlt, rfl⟩, hget⟩
      exact ⟨hlt, hget⟩
    · rintro ⟨hlt, hget⟩
      exact ⟨_, ⟨by omega, rfl⟩, _, ⟨hlt, rfl⟩, hget⟩
  safe lim input off := by
    simp only [getPair, safe_bind, safe_uadd, safe_ofOption, returns_uadd, implies_true, and_true]
    constructor
    · rintro ⟨hlt, h2⟩
      exact h2 _ ⟨hlt, rfl⟩
    · intro hlt
      exact ⟨by omega, fun _ _ => hlt⟩
  agrees input off := .bind (.uadd _ _) fun _ _ => .bind (.uadd _ _) fun _ _ => .refl _
  unchecked input off := by
    rw [show off + (30 + 2) = off + 30 + 2 by omega, getRange_two, Nat.add_assoc off 30 1]; rfl
  top_le := by omega

/-! ### Writers of a word -/

theorem padLeft_writes (x : UInt8) {bs : List UInt8} (h : bs.length ≤ 32) :
    Writes (padLeft x bs) (List.replicate (32 - bs.length) x ++ bs) := by
  intro buf hlen hfit
  have hsum : 32 - bs.length + bs.length = 32 := by omega
  rw [List.length_append, List.length_replicate, hsum] at hlen
  have hover : (overwrite buf 0 (List.replicate (32 - bs.length) x)).length = buf.length :=
    length_overwrite (by rw [List.length_replicate]; omega)
  rw [padLeft, fill_eq x (by omega) (by omega), Nat.sub_zero, Option.bind_eq_bind, Option.bind_some,
    copy_eq hsum (by rw [hover]; exact hlen), ← overwrite_zero,
    overwrite_append (by rw [List.length_append, List.length_replicate]; omega), List.length_replicate,
    Nat.zero_add]

theorem copyWord_writes {bs : List UInt8} (h : bs.length = 32) : Writes (copyWord bs) bs := by
  intro buf hlen hfit
  rw [copyWord, copy_eq (by omega) (by omega), overwrite_zero]

theorem padRight_writes {bs : List UInt8} (h : bs.length ≤ 32) :
    Writes (padRight bs) (bs ++ List.replicate (32 - bs.length) 0) := by
  intro buf hlen hfit
  have hsum : bs.length + (32 - bs.length) = 32 := by omega
  rw [List.length_append, List.length_replicate, hsum] at hlen
  have hover : (overwrite buf 0 bs).length = buf.length := length_overwrite (by omega)
  rw [padRight, copy_eq (by omega) (by omega), Option.bind_eq_bind, Option.bind_some,
    fill_eq 0 h (by omega), ← overwrite_zero,
    overwrite_append (by rw [List.length_append, List.length_replicate]; omega), Nat.zero_add]

/-! ### From words to types -/

/-- **A type that fills one word** implements an ABI type when its words are right, its
writer writes them, and the bytes that are read spell the value. -/
theorem represents_staticType {C : Type} {name : String} {encodeFn : C → List UInt8 → Option (List UInt8)}
    {get : Profile → List UInt8 → ℕ → Run (List UInt8)}
    {getUnchecked : List UInt8 → ℕ → Option (List UInt8)} {convert : List UInt8 → C} {skip k top : ℕ}
    {τ : AbiType} {toAbi : C → τ.Val} (bytes : C → List UInt8)
    (hget : Reads get getUnchecked skip k top) (hstatic : τ.isDynamic = false)
    (hlen : ∀ v, (enc τ (toAbi v)).length = 32) (hwrite : ∀ v, Writes (encodeFn v) (enc τ (toAbi v)))
    (hsplit : ∀ v, ∃ pre post, enc τ (toAbi v) = pre ++ bytes v ++ post ∧ pre.length = skip ∧
      (bytes v).length = k) (hconv : ∀ v, convert (bytes v) = v) :
    Represents (staticType C name encodeFn get getUnchecked convert) τ toAbi where
  dynamic := hstatic.symm
  len v := (hlen v).symm
  slot v _ := (hlen v).symm
  writes := hwrite
  reads (v : C) input off hs hat := by
    have hbound := hat.bound
    rw [hlen] at hbound
    obtain ⟨pre, post, heq, rfl, hk⟩ := hsplit v
    rw [heq] at hat
    have hread := hat.left.right.getRange
    rw [hk, Nat.add_assoc] at hread
    have htop := hget.top_le
    unfold IsSlice at hs
    refine Returns.bind ((hget.returns input off _).mpr ⟨by omega, hread⟩) ?_
    exact returns_pure.mpr (hconv v)
  at_eq_tail _ := rfl

theorem profileFree_staticType {C : Type} {name : String}
    {encodeFn : C → List UInt8 → Option (List UInt8)}
    {get : Profile → List UInt8 → ℕ → Run (List UInt8)}
    {getUnchecked : List UInt8 → ℕ → Option (List UInt8)} (convert : List UInt8 → C) {skip k top : ℕ}
    (hget : Reads get getUnchecked skip k top) :
    ProfileFree (staticType C name encodeFn get getUnchecked convert) where
  decodeAt input off := .bind (hget.agrees input off) fun _ _ => .refl _
  decodeTail input off := .bind (hget.agrees input off) fun _ _ => .refl _

/-! ### The words of the ABI -/

theorem pow_bytes (k : ℕ) : 2 ^ (8 * k) = 256 ^ k := by rw [Nat.pow_mul]

theorem enc_uint {k : ℕ} (h : k ≤ 32) (v : BitVec (8 * k)) :
    enc (.uint (8 * k)) v = List.replicate (32 - k) 0 ++ beBytes k v.toNat := by
  have hlt : v.toNat < 256 ^ k := by rw [← pow_bytes]; exact v.isLt
  have hword := beBytes_add_of_lt (j := 32 - k) hlt
  rw [Nat.sub_add_cancel h] at hword
  rw [enc, word, hword]

/-- A signed integer is extended with its sign. -/
theorem enc_int {k : ℕ} (h : k ≤ 32) (v : BitVec (8 * k)) :
    enc (.int (8 * k)) v = List.replicate (32 - k) (signFill v) ++ beBytes k v.toNat := by
  have hlt : v.toNat < 256 ^ k := by rw [← pow_bytes]; exact v.isLt
  have hsplit : (256 : ℕ) ^ 32 = 256 ^ (32 - k) * 256 ^ k := by
    rw [← pow_add, Nat.sub_add_cancel h]
  have hpos : 0 < 256 ^ (32 - k) := Nat.pow_pos (by omega)
  have hext : (v.signExtend 256).toNat = v.toNat + if v.msb then 256 ^ 32 - 256 ^ k else 0 := by
    rw [BitVec.toNat_signExtend, BitVec.toNat_setWidth_of_le (by omega), pow_bytes,
      show (2 : ℕ) ^ 256 = 256 ^ 32 from pow_bytes 32]
  have hword := beBytes_add (32 - k) k (v.signExtend 256).toNat
  rw [Nat.sub_add_cancel h] at hword
  rw [enc, word, hword, hext, signFill]
  cases v.msb with
  | false =>
    rw [if_neg (by simp), if_neg (by simp), Nat.add_zero, Nat.div_eq_of_lt hlt, beBytes_zero]
  | true =>
    have hsum : v.toNat + (256 ^ 32 - 256 ^ k) = v.toNat + 256 ^ k * (256 ^ (32 - k) - 1) := by
      rw [hsplit, Nat.mul_sub, Nat.mul_one, Nat.mul_comm (256 ^ (32 - k))]
    rw [if_pos rfl, if_pos rfl, hsum, Nat.add_mul_div_left _ _ (Nat.pow_pos (by omega)),
      Nat.div_eq_of_lt hlt, Nat.zero_add, beBytes_pred_pow, ← beBytes_mod k (_ + _),
      Nat.add_mul_mod_self_left, beBytes_mod]

theorem enc_address (v : ByteArr 20) : enc .address v = List.replicate 12 0 ++ v.1 := rfl

theorem enc_fixedBytes {n : ℕ} (v : ByteArr n) :
    enc (.fixedBytes n) v = v.1 ++ List.replicate (32 - n) 0 := rfl

theorem fromBeBytes_beBytes {k : ℕ} (v : BitVec (8 * k)) :
    fromBeBytes (8 * k) (beBytes k v.toNat) = v := by
  rw [fromBeBytes, ofBe_beBytes, ← pow_bytes, Nat.mod_eq_of_lt v.isLt, BitVec.ofNat_toNat,
    BitVec.setWidth_eq]

theorem toByteArr_val {n : ℕ} (v : ByteArr n) : toByteArr n v.1 = v := by
  rw [toByteArr, dif_pos v.2]

/-! ### The members of the family -/

section Integers

variable {k : ℕ} {name : String} {get : Profile → List UInt8 → ℕ → Run (List UInt8)}
  {getUnchecked : List UInt8 → ℕ → Option (List UInt8)} {top : ℕ}

/-- The unsigned integers, however they are read. -/
theorem represents_uint (hk : k ≤ 32) (hget : Reads get getUnchecked (32 - k) k top) :
    Represents (staticType (BitVec (8 * k)) name (fun val => padLeft 0 (beBytes k val.toNat)) get
      getUnchecked (fromBeBytes (8 * k))) (.uint (8 * k)) (fun v => v) := by
  refine represents_staticType (fun v => beBytes k v.toNat) hget rfl (fun v => ?_) (fun v => ?_)
    (fun v => ⟨_, [], by rw [enc_uint hk, List.append_nil], List.length_replicate, length_beBytes _ _⟩)
    fromBeBytes_beBytes
  · rw [enc, length_word]
  · have hw := padLeft_writes 0 (show (beBytes k v.toNat).length ≤ 32 by rw [length_beBytes]; exact hk)
    rwa [length_beBytes, ← enc_uint hk] at hw

/-- The signed integers, however they are read. -/
theorem represents_int (hk : k ≤ 32) (hget : Reads get getUnchecked (32 - k) k top) :
    Represents (staticType (BitVec (8 * k)) name (fun val => padLeft (signFill val) (beBytes k val.toNat))
      get getUnchecked (fromBeBytes (8 * k))) (.int (8 * k)) (fun v => v) := by
  refine represents_staticType (fun v => beBytes k v.toNat) hget rfl (fun v => ?_) (fun v => ?_)
    (fun v => ⟨_, [], by rw [enc_int hk, List.append_nil], List.length_replicate, length_beBytes _ _⟩)
    fromBeBytes_beBytes
  · rw [enc, length_word]
  · have hw := padLeft_writes (signFill v) (show (beBytes k v.toNat).length ≤ 32 by
      rw [length_beBytes]
      exact hk)
    rwa [length_beBytes, ← enc_int hk] at hw

end Integers

theorem represents_U256 : Represents U256 (.uint (8 * 32)) (fun v => v) := by
  refine represents_staticType (fun v => beBytes 32 v.toNat) (reads_getRangeAt (le_refl _)) rfl
    (fun v => ?_) (fun v => ?_)
    (fun v => ⟨[], [], by rw [enc_uint (le_refl _)]; simp, rfl, length_beBytes _ _⟩)
    fromBeBytes_beBytes
  · rw [enc, length_word]
  · exact copyWord_writes (length_beBytes _ _)

theorem represents_I256 : Represents I256 (.int (8 * 32)) (fun v => v) := by
  refine represents_staticType (fun v => beBytes 32 v.toNat) (reads_getRangeAt (le_refl _)) rfl
    (fun v => ?_) (fun v => ?_)
    (fun v => ⟨[], [], by rw [enc_int (le_refl _)]; simp, rfl, length_beBytes _ _⟩)
    fromBeBytes_beBytes
  · rw [enc, length_word]
  · have hw := copyWord_writes (length_beBytes 32 v.toNat)
    rw [enc_int (le_refl _), Nat.sub_self, List.replicate_zero, List.nil_append]
    exact hw

theorem represents_bool : Represents bool .bool (fun v => v) := by
  refine represents_staticType (fun v => [if v then 1 else 0]) reads_getByte rfl (fun v => ?_)
    (fun v => ?_) (fun v => ?_) (fun v => by cases v <;> rfl)
  · rw [enc, length_word]
  · have hw := padLeft_writes 0 (show [if v then 1 else 0].length ≤ 32 by simp)
    cases v <;> exact hw
  · exact ⟨List.replicate 31 0, [], by cases v <;> rfl, rfl, rfl⟩

theorem represents_Address : Represents Address .address (fun v => v) := by
  refine represents_staticType (fun v => v.1) (reads_getLow (by omega)) rfl (fun v => ?_) (fun v => ?_)
    (fun v => ⟨_, [], by rw [enc_address, List.append_nil], List.length_replicate, v.2⟩) toByteArr_val
  · rw [enc_address, List.length_append, List.length_replicate, v.2]
  · have hw := padLeft_writes 0 (show v.1.length ≤ 32 by rw [v.2]; omega)
    rwa [v.2] at hw

theorem represents_bytesN {n : ℕ} (h : n ≤ 32) : Represents (bytesN n) (.fixedBytes n) (fun v => v) := by
  have h' : Represents (staticType (ByteArr n) "" (fun val => padRight val.1) (getRangeAt n)
      (uncheckedRange 0 n) (toByteArr n)) (.fixedBytes n) (fun v => v) := by
    refine represents_staticType (fun v => v.1) (reads_getRangeAt h) rfl (fun v => ?_) (fun v => ?_)
      (fun v => ⟨[], _, by rw [enc_fixedBytes, List.nil_append], rfl, v.2⟩) toByteArr_val
    · rw [enc_fixedBytes, List.length_append, List.length_replicate, v.2]
      omega
    · have hw := padRight_writes (show v.1.length ≤ 32 by rw [v.2]; exact h)
      rwa [v.2] at hw
  exact ⟨h'.dynamic, h'.len, h'.slot, h'.writes, h'.reads, h'.at_eq_tail⟩

end PvmContract.Types
