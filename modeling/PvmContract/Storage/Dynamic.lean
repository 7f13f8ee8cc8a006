import PvmContract.Data.Slot
import PvmContract.Types.Represents
import Mathlib.Data.Set.Disjoint
import Mathlib.Order.CompletePartialOrder
import Mathlib.Data.Set.Lattice

/-!
# Dynamic storage values

`String` and `Bytes` in storage: a header in the value's own slot, and, for a
value of 32 bytes or more, its chunks of 32 bytes at `keccak256(slot) + i`. The
header of a short value holds the value itself and twice its length in the last
byte, the header of a long one twice its length plus one. An empty value sets a
sentinel bit, so that its header is not deleted.

Hashing is a parameter, and what the addresses need of it is `BodiesApart`: the
bodies of distinct header slots do not meet, nor do they meet a header slot.

`Holds` is the storage image of a value, or of no value: the header, and every
chunk that the body of any value could have, the unused ones zero. Writing and
clearing lead from image to image and leave other keys alone (`write_holds`,
`clear_holds`), reading an image gives the value (`read_holds`), and
`dynamic_run` is what that means for a run over many slots.
-/

namespace PvmContract.Storage

open PvmContract.Data PvmContract.Types

/-! ### The header -/

/-- `EMPTY_INLINE_SENTINEL`. -/
def emptyInlineSentinel : UInt8 := 0x01

/-- `DynHeader`. -/
inductive DynHeader where
  | inline (len : ℕ)
  | spilled (len : ℕ)
  deriving DecidableEq, Repr

/-- `decode_dyn_header`. -/
def decodeDynHeader (slotBytes : Word) : DynHeader :=
  let last := slotBytes.1.getD 31 0
  if last &&& 1 = 0 then .inline (min (last >>> 1).toNat 31)
  else
    let highZero := (slotBytes.1.take 16).all (· == 0)
    if !highZero then .spilled 0
    else
      let rawLen := ofBe (slotBytes.1.drop 16) / 2
      if 2 ^ 64 - 1 < rawLen then .spilled 0 else .spilled rawLen

/-- `encode_long_header`. -/
def encodeLongHeader (len : ℕ) : Word :=
  ⟨List.replicate 16 0 ++ beBytes 16 (len * 2 + 1), by
    rw [List.length_append, List.length_replicate, length_beBytes]⟩

/-- A zero word with bytes copied over its front, at most 32 of them. -/
def frontWord (bs : List UInt8) : Word :=
  ⟨bs.take 32 ++ List.replicate (32 - bs.length) 0, by
    rw [List.length_append, List.length_take, List.length_replicate]; omega⟩

/-- The header that `write_dynamic_bytes` writes for a value of less than 32 bytes. -/
def packInline (data : List UInt8) : Word :=
  let newLen := data.length
  let packed := (frontWord data).1.set 31 (UInt8.ofNat newLen <<< 1)
  ⟨if newLen = 0 then packed.set 30 emptyInlineSentinel else packed, by
    have h := (frontWord data).2
    split <;> simp [packed, h]⟩

/-! ### The body -/

/-- `dyn_body_root`. -/
def dynBodyRoot (keccak : List UInt8 → Word) (slot : Key) : Key := keccak slot.1

/-- The loop of `read_dyn_body`. -/
def readBody (s : Store) (bodySlot : Key) (remaining : ℕ) : List UInt8 :=
  if remaining = 0 then []
  else
    let chunk := s.getStorageOrZero bodySlot
    let take := if remaining ≥ 32 then 32 else remaining
    chunk.1.take take ++ readBody s bodySlot.inc (remaining - take)
termination_by remaining
decreasing_by
  split <;> omega

/-- The loop of `write_dynamic_bytes`, with the data that are left. -/
def writeBody (s : Store) (bodySlot : Key) (data : List UInt8) : Store :=
  if data.length = 0 then s
  else
    let take := if data.length ≥ 32 then 32 else data.length
    let chunk := frontWord (data.take take)
    writeBody (s.setStorageOrClear bodySlot chunk) bodySlot.inc (data.drop take)
termination_by data.length
decreasing_by
  rw [List.length_drop]
  split <;> omega

/-- A key moved forward one by one. -/
def incTimes (k : Key) : ℕ → Key
  | 0 => k
  | n + 1 => incTimes k.inc n

/-- The second loop of `clear_dyn_body_range`. -/
def clearSlots (s : Store) (k : Key) : ℕ → Store
  | 0 => s
  | n + 1 => clearSlots (s.setStorageOrClear k Word.zero) k.inc n

/-- `clear_dyn_body_range`. -/
def clearDynBodyRange (keccak : List UInt8 → Word) (s : Store) (slot : Key) (startChunk count : ℕ) : Store :=
  if count = 0 then s else clearSlots s (incTimes (dynBodyRoot keccak slot) startChunk) count

/-- `n.div_ceil(32)`. -/
def chunkCount (n : ℕ) : ℕ := (n + 31) / 32

/-! ### The values -/

/-- `write_dynamic_bytes`. -/
def writeDynamicBytes (keccak : List UInt8 → Word) (s : Store) (slot : Key) (data : List UInt8) : Store :=
  let newLen := data.length
  let newChunks := if newLen < 32 then 0 else chunkCount newLen
  let s :=
    match decodeDynHeader (s.getStorageOrZero slot) with
    | .spilled oldLen =>
      let oldChunks := chunkCount oldLen
      if oldChunks > newChunks then clearDynBodyRange keccak s slot newChunks (oldChunks - newChunks) else s
    | .inline _ => s
  if newLen < 32 then s.setStorageOrClear slot (packInline data)
  else writeBody (s.setStorageOrClear slot (encodeLongHeader newLen)) (dynBodyRoot keccak slot) data

/-- `read_dynamic_bytes_from_header`. -/
def readDynamicBytesFromHeader (keccak : List UInt8 → Word) (s : Store) (slot : Key) (header : Word) : List UInt8 :=
  match decodeDynHeader header with
  | .inline len => header.1.take len
  | .spilled len => readBody s (dynBodyRoot keccak slot) len

/-- `read_dynamic_bytes`. -/
def readDynamicBytes (keccak : List UInt8 → Word) (s : Store) (slot : Key) : List UInt8 :=
  readDynamicBytesFromHeader keccak s slot (s.getStorageOrZero slot)

/-- `try_read_from_storage` of `Bytes`. -/
def tryReadDynamicBytes (keccak : List UInt8 → Word) (s : Store) (slot : Key) : Option (List UInt8) :=
  let header := s.getStorageOrZero slot
  if header = Word.zero then none else some (readDynamicBytesFromHeader keccak s slot header)

/-- `clear_dynamic_bytes`. -/
def clearDynamicBytes (keccak : List UInt8 → Word) (s : Store) (slot : Key) : Store :=
  let s :=
    match decodeDynHeader (s.getStorageOrZero slot) with
    | .spilled len => clearDynBodyRange keccak s slot 0 (chunkCount len)
    | .inline _ => s
  s.setStorageOrClear slot Word.zero

/-! ### The storage image of a value -/

/-- The most chunks a value in memory can have. -/
def maxChunks : ℕ := 2 ^ 58

/-- Chunk `i` of a value, padded with zeros. -/
def chunkWord (data : List UInt8) (i : ℕ) : Word := frontWord ((data.drop (32 * i)).take 32)

/-- solc's header of a nonempty byte string: up to 31 bytes are kept in it from the front on, with
twice the length in the last byte, and of a longer string twice the length plus one. -/
def solcHeader (data : List UInt8) : Word :=
  if h : data.length < 32 then
    ⟨data ++ List.replicate (31 - data.length) 0 ++ [UInt8.ofNat (2 * data.length)], by
      simp only [List.length_append, List.length_replicate, List.length_singleton]; omega⟩
  else Key.ofNum (2 * data.length + 1)

/-- Word `i` of the area at `keccak256(slot)` in solc's layout: a short string does not use it. -/
def solcBody (data : List UInt8) (i : ℕ) : Word :=
  if data.length < 32 then Word.zero else chunkWord data i

/-- The header of an empty value that was written. -/
def sentinelHeader : Word := ⟨List.replicate 30 0 ++ [emptyInlineSentinel, 0], rfl⟩

/-- The header of a value, or of none. -/
def headerWord : Option (List UInt8) → Word
  | none => Word.zero
  | some [] => sentinelHeader
  | some data => solcHeader data

/-- The words of the body of a value, or of none. -/
def bodyWord : Option (List UInt8) → ℕ → Word
  | none, _ => Word.zero
  | some data, i => solcBody data i

/-- **The storage image** of a value at a slot, or of no value. -/
structure Holds (keccak : List UInt8 → Word) (s : Store) (slot : Key) (o : Option (List UInt8)) : Prop where
  header : s.getStorageOrZero slot = headerWord o
  body : ∀ i < maxChunks, s.getStorageOrZero ((dynBodyRoot keccak slot).add i) = bodyWord o i

/-- The keys that belong to a dynamic value. -/
def dynKeys (keccak : List UInt8 → Word) (slot : Key) : Set Key :=
  insert slot ((dynBodyRoot keccak slot).range maxChunks)

/-- What the layout asks of the hash, for a set of header slots. -/
structure BodiesApart (keccak : List UInt8 → Word) (headers : Set Key) : Prop where
  /-- The bodies of distinct slots do not meet. -/
  bodies : ∀ slot ∈ headers, ∀ slot' ∈ headers, slot ≠ slot' →
    Disjoint ((dynBodyRoot keccak slot).range maxChunks) ((dynBodyRoot keccak slot').range maxChunks)
  /-- No body meets a header. -/
  headers : ∀ slot ∈ headers, ∀ slot' ∈ headers, slot' ∉ (dynBodyRoot keccak slot).range maxChunks

/-- A value that fits in memory. -/
def Fits (o : Option (List UInt8)) : Prop := ∀ data ∈ o, IsSlice data

/-! ### The loops -/

theorem incTimes_eq (k : Key) (n : ℕ) : incTimes k n = k.add n := by
  induction n generalizing k with
  | zero => rw [incTimes, Key.add_zero]
  | succ n ih => rw [incTimes, ih, Key.inc_eq_add, Key.add_add, Nat.add_comm]

theorem clearSlots_eq (s : Store) (k : Key) (n : ℕ) : clearSlots s k n = s.setRange k (List.replicate n Word.zero) := by
  induction n generalizing s k with
  | zero => rfl
  | succ n ih => rw [clearSlots, ih, List.replicate_succ, Store.setRange]

theorem clearDynBodyRange_eq (keccak : List UInt8 → Word) (s : Store) (slot : Key) (start count : ℕ) :
    clearDynBodyRange keccak s slot start count =
      s.setRange ((dynBodyRoot keccak slot).add start) (List.replicate count Word.zero) := by
  rw [clearDynBodyRange, clearSlots_eq, incTimes_eq]
  split_ifs with h
  · rw [h]
    rfl
  · rfl

/-- The chunks of a value. -/
def chunks (data : List UInt8) : List Word := (List.range (chunkCount data.length)).map (chunkWord data)

@[simp] theorem length_chunks (data : List UInt8) : (chunks data).length = chunkCount data.length := by
  rw [chunks, List.length_map, List.length_range]

theorem getElem?_chunks {data : List UInt8} {i : ℕ} (h : i < chunkCount data.length) :
    (chunks data)[i]? = some (chunkWord data i) := by
  rw [chunks, List.getElem?_map, List.getElem?_range h, Option.map_some]

theorem chunks_nil {data : List UInt8} (h : data.length = 0) : chunks data = [] := by
  rw [chunks, h]
  rfl

/-- The first chunk, and those of the rest. -/
theorem chunks_cons {data : List UInt8} (h : data.length ≠ 0) :
    chunks data = frontWord (data.take 32) :: chunks (data.drop 32) := by
  have hcount : chunkCount data.length = chunkCount (data.drop 32).length + 1 := by
    rw [chunkCount, chunkCount, List.length_drop]
    omega
  rw [chunks, hcount, List.range_succ_eq_map, List.map_cons, List.map_map, chunks, chunkWord, Nat.mul_zero,
    List.drop_zero]
  congr 1
  refine List.map_congr_left fun i _ => ?_
  rw [Function.comp_apply, chunkWord, chunkWord, List.drop_drop, Nat.mul_succ, Nat.add_comm]

/-- The part of a value that the loops take at a time. -/
theorem take_stride (data : List UInt8) : data.take (if data.length ≥ 32 then 32 else data.length) = data.take 32 := by
  split_ifs with h
  · rfl
  · rw [List.take_length, List.take_of_length_le (by omega)]

theorem drop_stride (data : List UInt8) : data.drop (if data.length ≥ 32 then 32 else data.length) = data.drop 32 := by
  split_ifs with h
  · rfl
  · rw [List.drop_length, List.drop_of_length_le (by omega)]

theorem writeBody_eq (s : Store) (k : Key) (data : List UInt8) : writeBody s k data = s.setRange k (chunks data) := by
  induction s, k, data using writeBody.induct with
  | case1 s k data h => rw [writeBody, if_pos h, chunks_nil h, Store.setRange]
  | case2 s k data h take chunk ih =>
    rw [writeBody, if_neg h, chunks_cons h, Store.setRange]
    simp only [take, chunk, dite_eq_ite, take_stride, drop_stride] at ih ⊢
    exact ih

/-- The bytes of a chunk that belong to the value. -/
theorem take_frontWord {bs : List UInt8} (h : bs.length ≤ 32) : (frontWord bs).1.take bs.length = bs := by
  change (bs.take 32 ++ List.replicate (32 - bs.length) 0).take bs.length = bs
  rw [List.take_of_length_le h, List.take_left]

theorem readBody_eq {s : Store} {k : Key} {data : List UInt8}
    (h : s.getRange k (chunkCount data.length) = chunks data) : readBody s k data.length = data := by
  induction hn : data.length using Nat.strong_induction_on generalizing k data with
  | _ n ih =>
    subst hn
    rw [readBody]
    by_cases hzero : data.length = 0
    · rw [if_pos hzero, List.eq_nil_of_length_eq_zero hzero]
    · have hcount : chunkCount data.length = chunkCount (data.drop 32).length + 1 := by
        rw [chunkCount, chunkCount, List.length_drop]
        omega
      rw [hcount, Store.getRange, chunks_cons hzero, List.cons.injEq] at h
      have hrest : data.length - (if data.length ≥ 32 then 32 else data.length) = (data.drop 32).length := by
        rw [List.length_drop]
        split_ifs <;> omega
      have htake : (if data.length ≥ 32 then 32 else data.length) = (data.take 32).length := by
        rw [List.length_take]
        split_ifs <;> omega
      rw [if_neg hzero]
      simp only [h.1]
      rw [hrest, htake, take_frontWord (List.length_take_le 32 data),
        ih _ (by rw [List.length_drop]; omega) h.2 rfl, List.take_append_drop]

/-! ### Headers -/

/-- The last byte of a header that the code and solc agree on: twice the length. -/
theorem shift_toNat (n : ℕ) : UInt8.ofNat n <<< 1 = UInt8.ofNat (2 * n) := by
  apply UInt8.toNat_inj.mp
  rw [UInt8.toNat_shiftLeft, UInt8.toNat_ofNat', UInt8.toNat_ofNat', Nat.shiftLeft_eq]
  change n % 256 * 2 % 256 = 2 * n % 256
  omega

/-- A short value is packed as solc packs it. -/
theorem packInline_eq {data : List UInt8} (h : data.length < 32) (hne : data ≠ []) :
    packInline data = solcHeader data := by
  apply Subtype.ext
  have hpos : data.length ≠ 0 := by simpa using hne
  have htake : data.take 32 = data := List.take_of_length_le (by omega)
  have hsplit : List.replicate (32 - data.length) (0 : UInt8) = List.replicate (31 - data.length) 0 ++ [0] := by
    rw [← List.replicate_succ', show 31 - data.length + 1 = 32 - data.length by omega]
  have hlen : (data ++ List.replicate (31 - data.length) (0 : UInt8)).length = 31 := by
    rw [List.length_append, List.length_replicate]
    omega
  rw [packInline, solcHeader, dif_pos h]
  simp only [if_neg hpos, frontWord, htake, hsplit, ← List.append_assoc]
  rw [List.set_append_right _ _ (by omega), hlen, Nat.sub_self, shift_toNat]
  rfl

theorem encodeLongHeader_eq {data : List UInt8} (h : ¬ data.length < 32) (hfit : IsSlice data) :
    encodeLongHeader data.length = solcHeader data := by
  apply Subtype.ext
  unfold IsSlice at hfit
  rw [solcHeader, dif_neg h, Nat.mul_comm 2]
  exact (beBytes_add_of_lt (j := 16) (k := 16) (by norm_num; omega)).symm

/-- The number of chunks in use. -/
def spill : Option (List UInt8) → ℕ
  | none => 0
  | some data => if data.length < 32 then 0 else chunkCount data.length

/-- The parity of the last byte tells short from long. -/
theorem decode_even {w : Word} {n : ℕ} (hlast : w.1.getD 31 0 = UInt8.ofNat (2 * n)) (h : n < 32) :
    decodeDynHeader w = .inline n := by
  have hand : UInt8.ofNat (2 * n) &&& 1 = 0 := by
    apply UInt8.toNat_inj.mp
    rw [UInt8.toNat_and, UInt8.toNat_ofNat']
    change 2 * n % 256 &&& 1 = 0
    rw [Nat.and_one_is_mod]
    omega
  have hshift : (UInt8.ofNat (2 * n) >>> 1).toNat = n := by
    rw [UInt8.toNat_shiftRight, UInt8.toNat_ofNat', Nat.shiftRight_eq_div_pow]
    change 2 * n % 256 / 2 = n
    omega
  simp only [decodeDynHeader, hlast]
  rw [if_pos hand, hshift, Nat.min_eq_left (by omega)]

/-- A short value's header says its length. -/
theorem decode_inline {data : List UInt8} (h : data.length < 32) :
    decodeDynHeader (headerWord (some data)) = .inline data.length := by
  cases data with
  | nil => rfl
  | cons b bs =>
    refine decode_even ?_ h
    have hlen : (b :: bs ++ List.replicate (31 - (b :: bs).length) (0 : UInt8)).length = 31 := by
      rw [List.length_append, List.length_replicate]
      omega
    rw [headerWord, solcHeader, dif_pos h]
    · change List.getD (_ ++ [_]) 31 0 = _
      rw [List.getD_eq_getElem?_getD, List.getElem?_append_right (by omega), hlen]
      rfl
    · simp

/-- A long value's header says its length. -/
theorem decode_spilled {data : List UInt8} (h : ¬ data.length < 32) (hfit : IsSlice data) :
    decodeDynHeader (headerWord (some data)) = .spilled data.length := by
  have hne : data ≠ [] := by
    rintro rfl
    exact h (by decide)
  have hheader : headerWord (some data) = encodeLongHeader data.length := by
    rw [encodeLongHeader_eq h hfit]
    cases data with
    | nil => exact absurd rfl hne
    | cons b bs => rfl
  unfold IsSlice at hfit
  have hword : (encodeLongHeader data.length).1 = List.replicate 16 0 ++ beBytes 16 (data.length * 2 + 1) := rfl
  have hlast : (encodeLongHeader data.length).1.getD 31 0 = UInt8.ofNat (data.length * 2 + 1) := by
    rw [hword, beBytes, ← List.append_assoc, List.getD_eq_getElem?_getD,
      List.getElem?_append_right (by rw [List.length_append, List.length_replicate, length_beBytes]),
      List.length_append, List.length_replicate, length_beBytes]
    rfl
  have hand : ¬ (UInt8.ofNat (data.length * 2 + 1) &&& 1 = 0) := by
    intro heq
    have hnat := congrArg UInt8.toNat heq
    rw [UInt8.toNat_and, UInt8.toNat_ofNat'] at hnat
    change (data.length * 2 + 1) % 256 &&& 1 = 0 at hnat
    rw [Nat.and_one_is_mod] at hnat
    omega
  have hhigh : ((encodeLongHeader data.length).1.take 16).all (· == 0) = true := by
    rw [hword, List.take_left' List.length_replicate]
    rfl
  have hraw : ofBe ((encodeLongHeader data.length).1.drop 16) / 2 = data.length := by
    rw [hword, List.drop_left' List.length_replicate, ofBe_beBytes_of_lt (by norm_num; omega)]
    omega
  rw [hheader]
  simp only [decodeDynHeader, hlast, hhigh, hraw]
  rw [if_neg hand, if_neg (by simp), if_neg (by omega)]

theorem decode_zero : decodeDynHeader Word.zero = .inline 0 := rfl

/-- Only the header of no value is zero. -/
theorem headerWord_eq_zero {o : Option (List UInt8)} (hfit : Fits o) : headerWord o = Word.zero ↔ o = none := by
  constructor
  · intro h
    cases o with
    | none => rfl
    | some data =>
      by_cases hlen : data.length < 32
      · have hdec := decode_inline hlen
        rw [h, decode_zero, DynHeader.inline.injEq] at hdec
        rw [List.eq_nil_of_length_eq_zero hdec.symm] at h
        exact absurd h (by decide)
      · have hdec := decode_spilled hlen (hfit data rfl)
        rw [h, decode_zero] at hdec
        exact absurd hdec (by simp)
  · rintro rfl
    rfl

/-! ### From image to image -/

section

variable {keccak : List UInt8 → Word} {s : Store} {slot : Key} {o : Option (List UInt8)}

theorem chunkCount_le {data : List UInt8} (h : IsSlice data) : chunkCount data.length ≤ maxChunks := by
  unfold IsSlice at h
  rw [chunkCount, maxChunks]
  omega

theorem spill_le (h : Fits o) : spill o ≤ maxChunks := by
  cases o with
  | none => exact Nat.zero_le _
  | some data =>
    rw [spill]
    split_ifs
    · exact Nat.zero_le _
    · exact chunkCount_le (h data rfl)

theorem chunkWord_of_le {data : List UInt8} {i : ℕ} (h : chunkCount data.length ≤ i) : chunkWord data i = Word.zero := by
  rw [chunkCount] at h
  rw [chunkWord, List.drop_of_length_le (by omega)]
  rfl

/-- No chunk is in use behind the last one. -/
theorem bodyWord_of_le {i : ℕ} (h : spill o ≤ i) : bodyWord o i = Word.zero := by
  cases o with
  | none => rfl
  | some data =>
    rw [spill] at h
    rw [bodyWord, solcBody]
    split_ifs at h ⊢
    · rfl
    · exact chunkWord_of_le h

/-- Clearing a range of the body. -/
theorem get_clearRange (s : Store) {k : Key} {start count i : ℕ} (hi : i < 2 ^ 256) (hfit : start + count < 2 ^ 256) :
    (s.setRange (k.add start) (List.replicate count Word.zero)).getStorageOrZero (k.add i) =
      if start ≤ i ∧ i < start + count then Word.zero else s.getStorageOrZero (k.add i) := by
  by_cases h : start ≤ i ∧ i < start + count
  · obtain ⟨j, rfl⟩ := Nat.exists_eq_add_of_le h.1
    have hj : j < (List.replicate count Word.zero).length := by
      rw [List.length_replicate]
      omega
    have hget := Store.get_setRange_add s (k := k.add start) (by rw [List.length_replicate]; omega) hj
    rw [List.getElem?_replicate, if_pos (by omega), Option.some.injEq, Key.add_add] at hget
    rw [if_pos h, hget]
  · rw [if_neg h, Store.get_setRange_of_not_mem]
    rintro ⟨j, hj, heq⟩
    rw [List.length_replicate] at hj
    rw [Key.add_add] at heq
    have := Key.add_inj hi (by omega) heq
    omega

/-- What the first half of `write_dynamic_bytes` and `clear_dynamic_bytes` do: the chunks that are in
use and not among the first `keep` are cleared. -/
def clearOld (keccak : List UInt8 → Word) (s : Store) (slot : Key) (keep : ℕ) : Store :=
  match decodeDynHeader (s.getStorageOrZero slot) with
  | .spilled oldLen =>
    if chunkCount oldLen > keep then clearDynBodyRange keccak s slot keep (chunkCount oldLen - keep) else s
  | .inline _ => s

theorem clearOld_eq (h : Holds keccak s slot o) (hfit : Fits o) (keep : ℕ) :
    clearOld keccak s slot keep =
      s.setRange ((dynBodyRoot keccak slot).add keep) (List.replicate (spill o - keep) Word.zero) := by
  rw [clearOld, h.header]
  cases o with
  | none =>
    rw [spill, Nat.zero_sub]
    rfl
  | some data =>
    by_cases hlen : data.length < 32
    · rw [decode_inline hlen, spill, if_pos hlen, Nat.zero_sub]
      rfl
    · rw [decode_spilled hlen (hfit data rfl), spill, if_neg hlen]
      simp only [clearDynBodyRange_eq]
      split_ifs with hkeep
      · rfl
      · rw [Nat.sub_eq_zero_of_le (by omega)]
        rfl

/-- The body after that: the first chunks, and nothing else. -/
theorem get_clearOld_add (h : Holds keccak s slot o) (hfit : Fits o) {keep i : ℕ} (hi : i < maxChunks) :
    (clearOld keccak s slot keep).getStorageOrZero ((dynBodyRoot keccak slot).add i) =
      if i < keep then bodyWord o i else Word.zero := by
  have hspill := spill_le hfit
  rw [maxChunks] at hi hspill
  by_cases hkeep : spill o ≤ keep
  · rw [clearOld_eq h hfit, Nat.sub_eq_zero_of_le hkeep, List.replicate_zero, Store.setRange, h.body i hi]
    split_ifs with hlt
    · rfl
    · exact bodyWord_of_le (by omega)
  · rw [clearOld_eq h hfit, get_clearRange s (by omega) (by omega), h.body i hi]
    by_cases hlt : i < keep
    · rw [if_pos hlt, if_neg (by omega)]
    · rw [if_neg hlt]
      split_ifs with hin
      · rfl
      · exact bodyWord_of_le (by omega)

theorem get_clearOld_of_not_mem (h : Holds keccak s slot o) (hfit : Fits o) (keep : ℕ) {k : Key}
    (hk : k ∉ (dynBodyRoot keccak slot).range maxChunks) :
    (clearOld keccak s slot keep).getStorageOrZero k = s.getStorageOrZero k := by
  have hspill := spill_le hfit
  rw [clearOld_eq h hfit, Store.get_setRange_of_not_mem]
  rintro ⟨j, hj, rfl⟩
  rw [List.length_replicate] at hj
  rw [Key.add_add] at hk
  exact hk (Key.mem_range_add (by omega))

theorem writeDynamicBytes_eq (keccak : List UInt8 → Word) (s : Store) (slot : Key) (data : List UInt8) :
    writeDynamicBytes keccak s slot data =
      if data.length < 32 then (clearOld keccak s slot 0).setStorageOrClear slot (packInline data)
      else writeBody ((clearOld keccak s slot (chunkCount data.length)).setStorageOrClear slot
        (encodeLongHeader data.length)) (dynBodyRoot keccak slot) data := by
  by_cases h : data.length < 32
  · simp only [writeDynamicBytes, if_pos h]
    rfl
  · simp only [writeDynamicBytes, if_neg h]
    rfl

theorem clearDynamicBytes_eq (keccak : List UInt8 → Word) (s : Store) (slot : Key) :
    clearDynamicBytes keccak s slot = (clearOld keccak s slot 0).setStorageOrClear slot Word.zero := by
  rw [clearDynamicBytes, clearOld]
  cases decodeDynHeader (s.getStorageOrZero slot) with
  | inline len => rfl
  | spilled len =>
    by_cases h : chunkCount len > 0
    · simp only [if_pos h, Nat.sub_zero]
    · simp only [Nat.eq_zero_of_not_pos h]
      rfl

/-- The body of a slot does not contain it. -/
theorem add_ne_slot (hself : slot ∉ (dynBodyRoot keccak slot).range maxChunks) {i : ℕ} (hi : i < maxChunks) :
    (dynBodyRoot keccak slot).add i ≠ slot := by
  intro heq
  exact hself ⟨i, hi, heq.symm⟩

/-- Writing the header leaves the body alone. -/
theorem get_header_add (hself : slot ∉ (dynBodyRoot keccak slot).range maxChunks) (s : Store) (w : Word) {i : ℕ}
    (hi : i < maxChunks) : (s.setStorageOrClear slot w).getStorageOrZero ((dynBodyRoot keccak slot).add i) =
      s.getStorageOrZero ((dynBodyRoot keccak slot).add i) :=
  Store.get_set_of_ne s w (add_ne_slot hself hi)

/-- **Writing** leads to the image of the value. -/
theorem write_holds (h : Holds keccak s slot o) (hself : slot ∉ (dynBodyRoot keccak slot).range maxChunks)
    (hfit : Fits o) {data : List UInt8} (hdata : IsSlice data) :
    Holds keccak (writeDynamicBytes keccak s slot data) slot (some data) := by
  have hmax : maxChunks < 2 ^ 256 := by decide
  rw [writeDynamicBytes_eq]
  by_cases hlen : data.length < 32
  · rw [if_pos hlen]
    constructor
    · rw [Store.get_set_self]
      cases data with
      | nil => rfl
      | cons b bs => exact packInline_eq hlen (by simp)
    · intro i hi
      rw [get_header_add hself _ _ hi, get_clearOld_add h hfit hi, if_neg (Nat.not_lt_zero i), bodyWord, solcBody,
        if_pos hlen]
  · rw [if_neg hlen, writeBody_eq]
    have hcount := chunkCount_le hdata
    have hroot : slot ∉ (dynBodyRoot keccak slot).range (chunks data).length := by
      rw [length_chunks]
      rintro ⟨i, hi, heq⟩
      exact hself ⟨i, by omega, heq⟩
    constructor
    · rw [Store.get_setRange_of_not_mem _ hroot, Store.get_set_self, encodeLongHeader_eq hlen hdata]
      cases data with
      | nil => exact absurd (by decide) hlen
      | cons b bs => rfl
    · intro i hi
      rw [bodyWord, solcBody, if_neg hlen]
      by_cases hin : i < chunkCount data.length
      · have hget := Store.get_setRange_add
          ((clearOld keccak s slot (chunkCount data.length)).setStorageOrClear slot (encodeLongHeader data.length))
          (k := dynBodyRoot keccak slot) (by rw [length_chunks]; omega) ((length_chunks data).symm ▸ hin)
        rw [getElem?_chunks hin, Option.some.injEq] at hget
        exact hget
      · have hnot : (dynBodyRoot keccak slot).add i ∉ (dynBodyRoot keccak slot).range (chunks data).length := by
          rw [length_chunks]
          rintro ⟨j, hj, heq⟩
          have := Key.add_inj (by omega) (by omega) heq
          omega
        rw [Store.get_setRange_of_not_mem _ hnot, get_header_add hself _ _ hi, get_clearOld_add h hfit hi, if_neg hin,
          chunkWord_of_le (by omega)]

/-- **Clearing** leads to the image of no value. -/
theorem clear_holds (h : Holds keccak s slot o) (hself : slot ∉ (dynBodyRoot keccak slot).range maxChunks)
    (hfit : Fits o) : Holds keccak (clearDynamicBytes keccak s slot) slot none := by
  rw [clearDynamicBytes_eq]
  constructor
  · rw [Store.get_set_self]
    rfl
  · intro i hi
    rw [get_header_add hself _ _ hi, get_clearOld_add h hfit hi, if_neg (Nat.not_lt_zero i)]
    rfl

/-- Writing touches no other key. -/
theorem get_write_of_not_mem (h : Holds keccak s slot o) (hfit : Fits o) {data : List UInt8} (hdata : IsSlice data)
    {k : Key} (hk : k ∉ dynKeys keccak slot) :
    (writeDynamicBytes keccak s slot data).getStorageOrZero k = s.getStorageOrZero k := by
  rw [dynKeys, Set.mem_insert_iff, not_or] at hk
  have hcount := chunkCount_le hdata
  rw [writeDynamicBytes_eq]
  split_ifs
  · rw [Store.get_set_of_ne _ _ hk.1, get_clearOld_of_not_mem h hfit 0 hk.2]
  · rw [writeBody_eq, Store.get_setRange_of_not_mem, Store.get_set_of_ne _ _ hk.1,
      get_clearOld_of_not_mem h hfit _ hk.2]
    rw [length_chunks]
    rintro ⟨i, hi, rfl⟩
    exact hk.2 (Key.mem_range_add (by omega))

/-- Clearing touches no other key. -/
theorem get_clear_of_not_mem (h : Holds keccak s slot o) (hfit : Fits o) {k : Key} (hk : k ∉ dynKeys keccak slot) :
    (clearDynamicBytes keccak s slot).getStorageOrZero k = s.getStorageOrZero k := by
  rw [dynKeys, Set.mem_insert_iff, not_or] at hk
  rw [clearDynamicBytes_eq, Store.get_set_of_ne _ _ hk.1, get_clearOld_of_not_mem h hfit 0 hk.2]

/-- **Reading** an image gives the value, or the empty one. -/
theorem read_holds (h : Holds keccak s slot o) (hfit : Fits o) : readDynamicBytes keccak s slot = o.getD [] := by
  rw [readDynamicBytes, h.header, readDynamicBytesFromHeader]
  cases o with
  | none => rfl
  | some data =>
    rw [Option.getD_some]
    by_cases hlen : data.length < 32
    · rw [decode_inline hlen]
      cases data with
      | nil => rfl
      | cons b bs =>
        change (solcHeader (b :: bs)).1.take (b :: bs).length = b :: bs
        rw [solcHeader, dif_pos hlen]
        change List.take _ (_ ++ _ ++ _) = _
        rw [List.append_assoc, List.take_left]
    · rw [decode_spilled hlen (hfit data rfl)]
      have hcount := chunkCount_le (hfit data rfl)
      refine readBody_eq (List.ext_getElem? fun i => ?_)
      by_cases hin : i < chunkCount data.length
      · rw [Store.getElem?_getRange _ _ hin, getElem?_chunks hin, h.body i (by omega), bodyWord, solcBody, if_neg hlen]
      · rw [List.getElem?_eq_none (by rw [Store.length_getRange]; omega),
          List.getElem?_eq_none (by rw [length_chunks]; omega)]

theorem tryRead_holds (h : Holds keccak s slot o) (hfit : Fits o) : tryReadDynamicBytes keccak s slot = o := by
  have hread := read_holds h hfit
  rw [readDynamicBytes, h.header] at hread
  simp only [tryReadDynamicBytes, h.header, headerWord_eq_zero hfit, hread]
  cases o with
  | none => rfl
  | some data => rfl

/-- Another value is where it was, if none of its keys has changed. -/
theorem holds_congr {s t : Store} (h : Holds keccak s slot o)
    (heq : ∀ k ∈ dynKeys keccak slot, t.getStorageOrZero k = s.getStorageOrZero k) : Holds keccak t slot o where
  header := (heq slot (Set.mem_insert _ _)).trans h.header
  body i hi := (heq _ (Set.mem_insert_of_mem _ (Key.mem_range_add hi))).trans (h.body i hi)

end

/-! ### Runs -/

/-- The operations on dynamic values. -/
inductive DynOp where
  | write (slot : Key) (data : List UInt8)
  | clear (slot : Key)

namespace DynOp

/-- The header slot of an operation. -/
def slot : DynOp → Key
  | write slot _ | clear slot => slot

/-- The value an operation leaves behind. -/
def value : DynOp → Option (List UInt8)
  | write _ data => some data
  | clear _ => none

/-- An operation on storage. -/
def exec (keccak : List UInt8 → Word) (s : Store) : DynOp → Store
  | write slot data => writeDynamicBytes keccak s slot data
  | clear slot => clearDynamicBytes keccak s slot

end DynOp

/-- The value last written at a slot and not cleared since. -/
def lastValue (ops : List DynOp) (slot : Key) : Option (List UInt8) :=
  ops.foldl (fun o op => if op.slot = slot then op.value else o) none

/-- A run from empty storage. -/
def dynRun (keccak : List UInt8 → Word) (ops : List DynOp) : Store := ops.foldl (DynOp.exec keccak) Store.empty

section

variable {keccak : List UInt8 → Word} {headers : Set Key}

/-- Two slots of a layout have no key in common. -/
theorem BodiesApart.disjoint (h : BodiesApart keccak headers) {slot slot' : Key} (hs : slot ∈ headers)
    (hs' : slot' ∈ headers) (hne : slot ≠ slot') : Disjoint (dynKeys keccak slot) (dynKeys keccak slot') := by
  rw [Set.disjoint_left]
  intro k hk hk'
  rw [dynKeys, Set.mem_insert_iff] at hk hk'
  rcases hk with rfl | hk
  · rcases hk' with heq | hk'
    · exact hne heq
    · exact h.headers slot' hs' k hs hk'
  · rcases hk' with rfl | hk'
    · exact h.headers slot hs k hs' hk
    · exact Set.disjoint_left.mp (h.bodies slot hs slot' hs' hne) hk hk'

/-- One operation leads from image to image. -/
theorem DynOp.exec_holds (h : BodiesApart keccak headers) {s : Store} {op : DynOp} {o : Option (List UInt8)}
    (hslot : op.slot ∈ headers) (hvalue : Fits op.value) (hs : Holds keccak s op.slot o) (hfit : Fits o) :
    Holds keccak (op.exec keccak s) op.slot op.value := by
  have hself := h.headers op.slot hslot op.slot hslot
  cases op with
  | write slot data => exact write_holds hs hself hfit (hvalue data rfl)
  | clear slot => exact clear_holds hs hself hfit

/-- One operation touches only the keys of its slot. -/
theorem DynOp.get_exec_of_not_mem {s : Store} {op : DynOp} {o : Option (List UInt8)} (hvalue : Fits op.value)
    (hs : Holds keccak s op.slot o) (hfit : Fits o) {k : Key} (hk : k ∉ dynKeys keccak op.slot) :
    (op.exec keccak s).getStorageOrZero k = s.getStorageOrZero k := by
  cases op with
  | write slot data => exact get_write_of_not_mem hs hfit (hvalue data rfl) hk
  | clear slot => exact get_clear_of_not_mem hs hfit hk

/-- What holds throughout a run: every slot has the image of its last value, and no other key has
a word. -/
structure RunInv (keccak : List UInt8 → Word) (headers : Set Key) (s : Store) (m : Key → Option (List UInt8)) :
    Prop where
  holds : ∀ slot ∈ headers, Holds keccak s slot (m slot)
  fits : ∀ slot, Fits (m slot)
  absent : ∀ k, (∀ slot ∈ headers, k ∉ dynKeys keccak slot) → s.entry k = none

theorem RunInv.empty : RunInv keccak headers Store.empty fun _ => none where
  holds _ _ := ⟨rfl, fun _ _ => rfl⟩
  fits _ _ h := absurd h (by simp)
  absent _ _ := rfl

/-- One step of a run. -/
theorem RunInv.step (h : BodiesApart keccak headers) {s : Store} {m : Key → Option (List UInt8)}
    (hinv : RunInv keccak headers s m) {op : DynOp} (hslot : op.slot ∈ headers) (hvalue : Fits op.value) :
    RunInv keccak headers (op.exec keccak s) fun slot => if op.slot = slot then op.value else m slot := by
  have hs := hinv.holds op.slot hslot
  have hfit := hinv.fits op.slot
  constructor
  · intro slot hmem
    by_cases heq : op.slot = slot
    · subst heq
      rw [if_pos rfl]
      exact op.exec_holds h hslot hvalue hs hfit
    · rw [if_neg heq]
      refine holds_congr (hinv.holds slot hmem) fun k hk => DynOp.get_exec_of_not_mem hvalue hs hfit fun hk' => ?_
      exact Set.disjoint_left.mp (h.disjoint hslot hmem heq) hk' hk
  · intro slot
    by_cases heq : op.slot = slot
    · rw [if_pos heq]
      exact hvalue
    · rw [if_neg heq]
      exact hinv.fits slot
  · intro k hk
    rw [Store.entry_eq_none_iff, DynOp.get_exec_of_not_mem hvalue hs hfit (hk op.slot hslot),
      ← Store.entry_eq_none_iff]
    exact hinv.absent k hk

/-- A whole run. -/
theorem RunInv.run (h : BodiesApart keccak headers) {ops : List DynOp}
    (hops : ∀ op ∈ ops, op.slot ∈ headers ∧ Fits op.value) :
    RunInv keccak headers (dynRun keccak ops) (lastValue ops) := by
  suffices hgen : ∀ (s : Store) (m : Key → Option (List UInt8)), RunInv keccak headers s m →
      RunInv keccak headers (ops.foldl (DynOp.exec keccak) s)
        fun slot => ops.foldl (fun o op => if op.slot = slot then op.value else o) (m slot) from
    hgen Store.empty (fun _ => none) .empty
  induction ops with
  | nil => exact fun s m hinv => hinv
  | cons op ops ih =>
    intro s m hinv
    obtain ⟨hslot, hvalue⟩ := hops op List.mem_cons_self
    exact ih (fun op' hop' => hops op' (List.mem_cons_of_mem _ hop')) _ _ (hinv.step h hslot hvalue)

/-- **Dynamic values.** After any run of writes and clears at header slots, each slot has the storage
image of the value last written there and not cleared since, and reading gives that value; no other
key has a word; and one more operation changes only the keys of its own slot. -/
theorem dynamic_run (h : BodiesApart keccak headers) {ops : List DynOp}
    (hops : ∀ op ∈ ops, op.slot ∈ headers ∧ Fits op.value) :
    (∀ slot ∈ headers, Holds keccak (dynRun keccak ops) slot (lastValue ops slot) ∧
      readDynamicBytes keccak (dynRun keccak ops) slot = (lastValue ops slot).getD [] ∧
      tryReadDynamicBytes keccak (dynRun keccak ops) slot = lastValue ops slot) ∧
    (∀ k, (∀ slot ∈ headers, k ∉ dynKeys keccak slot) → (dynRun keccak ops).entry k = none) ∧
    ∀ op : DynOp, op.slot ∈ headers → Fits op.value → ∀ k ∉ dynKeys keccak op.slot,
      (dynRun keccak (ops ++ [op])).getStorageOrZero k = (dynRun keccak ops).getStorageOrZero k := by
  have hinv := RunInv.run h hops
  refine ⟨fun slot hs => ?_, hinv.absent, fun op hslot hvalue k hk => ?_⟩
  · have hholds := hinv.holds slot hs
    exact ⟨hholds, read_holds hholds (hinv.fits slot), tryRead_holds hholds (hinv.fits slot)⟩
  · rw [dynRun, List.foldl_append]
    exact DynOp.get_exec_of_not_mem hvalue (hinv.holds op.slot hslot) (hinv.fits op.slot) hk

end

/-- The hashes of the first two slots. -/
def slotHashes (preimage : List UInt8) : Word :=
  if preimage = (Key.ofNum 0).1 then
    Key.ofNum 0x290decd9548b62a8d60345a988386fc84ba6bc95484008f6362f93160ef3e563
  else Key.ofNum 0xb10e2d527612073b26eecdfd717e6a320cf44b4afac2b0732d9fcbe2b7fa0cf6

theorem slotHashes_zero {n : ℕ} (hn : n ≤ 2 ^ 65) {k : Key} (h : k ∈ (dynBodyRoot slotHashes (.ofNum 0)).range n) :
    2 ^ 64 ≤ k.num ∧ k.num < 2 ^ 255 := by
  rw [dynBodyRoot, slotHashes, if_pos rfl] at h
  have hnum := Key.num_of_mem_range (by rw [Key.num_ofNum (by decide)]; omega) h
  rw [Key.num_ofNum (by decide)] at hnum
  omega

theorem slotHashes_one {n : ℕ} (hn : n ≤ 2 ^ 65) {k : Key} (h : k ∈ (dynBodyRoot slotHashes (.ofNum 1)).range n) :
    2 ^ 255 ≤ k.num := by
  rw [dynBodyRoot, slotHashes, if_neg (by decide)] at h
  have hnum := Key.num_of_mem_range (by rw [Key.num_ofNum (by decide)]; omega) h
  rw [Key.num_ofNum (by decide)] at hnum
  omega

theorem slotHashes_disjoint {n : ℕ} (hn : n ≤ 2 ^ 65) : Disjoint ((dynBodyRoot slotHashes (.ofNum 0)).range n)
    ((dynBodyRoot slotHashes (.ofNum 1)).range n) := by
  rw [Set.disjoint_left]
  intro k hk hk'
  have h0 := slotHashes_zero hn hk
  have h1 := slotHashes_one hn hk'
  omega

theorem slotHashes_apart : BodiesApart slotHashes {.ofNum 0, .ofNum 1} := by
  have hmax : maxChunks ≤ 2 ^ 65 := by decide
  have hnum0 : (Key.ofNum 0).num = 0 := Key.num_ofNum (by decide)
  have hnum1 : (Key.ofNum 1).num = 1 := Key.num_ofNum (by decide)
  constructor
  · rintro slot (rfl | rfl) slot' (rfl | rfl) hne
    · exact absurd rfl hne
    · exact slotHashes_disjoint hmax
    · exact (slotHashes_disjoint hmax).symm
    · exact absurd rfl hne
  · rintro slot (rfl | rfl) slot' (rfl | rfl) hmem
    · have := slotHashes_zero hmax hmem
      omega
    · have := slotHashes_zero hmax hmem
      omega
    · have := slotHashes_one hmax hmem
      omega
    · have := slotHashes_one hmax hmem
      omega

/-- A long value in slot 0 is replaced by a short one, and slot 1 is left with an empty one. -/
theorem dynamic_run_two :
    let ops := [.write (.ofNum 0) (List.replicate 40 7), .write (.ofNum 1) [], .write (.ofNum 0) [7]]
    (∀ slot ∈ ({.ofNum 0, .ofNum 1} : Set Key), Holds slotHashes (dynRun slotHashes ops) slot (lastValue ops slot) ∧
      readDynamicBytes slotHashes (dynRun slotHashes ops) slot = (lastValue ops slot).getD [] ∧
      tryReadDynamicBytes slotHashes (dynRun slotHashes ops) slot = lastValue ops slot) ∧
    (∀ k, (∀ slot ∈ ({.ofNum 0, .ofNum 1} : Set Key), k ∉ dynKeys slotHashes slot) →
      (dynRun slotHashes ops).entry k = none) ∧
    ∀ op : DynOp, op.slot ∈ ({.ofNum 0, .ofNum 1} : Set Key) → Fits op.value → ∀ k ∉ dynKeys slotHashes op.slot,
      (dynRun slotHashes (ops ++ [op])).getStorageOrZero k = (dynRun slotHashes ops).getStorageOrZero k := by
  intro ops
  apply dynamic_run slotHashes_apart
  have hlong : IsSlice (List.replicate 40 (7 : UInt8)) := by
    rw [IsSlice, List.length_replicate]
    decide
  intro op hop
  simp only [ops, List.mem_cons, List.not_mem_nil, or_false] at hop
  rcases hop with rfl | rfl | rfl
  · exact ⟨.inl rfl, fun data hdata => Option.some.inj hdata ▸ hlong⟩
  · exact ⟨.inr rfl, fun data hdata => Option.some.inj hdata ▸ (by decide : IsSlice ([] : List UInt8))⟩
  · exact ⟨.inl rfl, fun data hdata => Option.some.inj hdata ▸ (by decide : IsSlice ([7] : List UInt8))⟩

end PvmContract.Storage
