import PvmContract.Types.Represents
import PvmContract.Types.Sequences

/-!
# Byte strings, vectors, arrays and tuples implement their ABI types

For each of the generic implementations: if the components implement their ABI
types, so does the whole. A loop that writes is followed with `Data.place_cons`,
a loop that reads with `At.heads_cons` and `At.tails_cons`; both go along the
list of parts of the value. The bound on the input is what a slice has, so the
offsets of an encoding that is in memory fit in the words they are read from.
-/

namespace PvmContract.Types

open Data Run Abi AbiType

/-! ### `Bytes` and `String` -/

theorem length_encBytes (bs : List UInt8) : (encBytes bs).length = bytesBodyLen bs.length := by
  rw [encBytes, List.length_append, List.length_append, length_word, padding, List.length_replicate,
    bytesBodyLen]

theorem bytesBodyTo_writes (bs : List UInt8) : Writes (bytesBodyTo bs) (encBytes bs) := by
  intro buf hlen hfit
  rw [length_encBytes, bytesBodyLen] at hlen
  have h1 : (overwrite buf 0 (word bs.length)).length = buf.length :=
    length_overwrite (by rw [length_word]; omega)
  have h2 : (overwrite (overwrite buf 0 (word bs.length)) 32 bs).length = buf.length := by
    rw [length_overwrite (by omega), h1]
  rw [bytesBodyTo, writeWord_eq (by omega) (by omega), Option.bind_eq_bind, Option.bind_some,
    copy_eq rfl (by omega), Option.bind_some, fill_eq 0 (by omega) (by omega),
    Nat.add_sub_cancel_left, ← overwrite_zero, encBytes,
    overwrite_append (by simp only [List.length_append, length_word, padding, List.length_replicate]; omega),
    overwrite_append (by rw [List.length_append, length_word]; omega), List.length_append, length_word,
    Nat.zero_add, Nat.zero_add, padding]

theorem bytesTail_returns {input bs : List UInt8} {off : ℕ} (hs : IsSlice input)
    (h : At input off (encBytes bs)) : Returns (bytesTail input off) bs := by
  have hbound := h.bound
  rw [length_encBytes, bytesBodyLen] at hbound
  rw [encBytes, List.append_assoc, At.append_iff, At.append_iff, length_word] at h
  obtain ⟨hlen, hdata, -⟩ := h
  unfold IsSlice at hs
  refine Returns.bind (readWordOffset_word hs hlen (by omega)) ?_
  rw [checkedSum_pair, checkedAdd_of_lt (by omega), pure_andThen, checkedSum_pair,
    checkedAdd_of_lt (by omega), pure_andThen]
  exact returns_ofOption.mpr hdata.getRange

theorem represents_Bytes : Represents Bytes .bytes (fun v => v) where
  dynamic := rfl
  len v := (length_encBytes v).symm
  slot _ h := absurd h (by simp [Bytes])
  writes v := bytesBodyTo_writes v
  reads _ _ _ hs hat := bytesTail_returns hs hat
  at_eq_tail h := absurd h (by simp [Bytes])

theorem fromUtf8_asBytes (s : String) : fromUtf8 (asBytes s) = some s := by
  have hba : (⟨(asBytes s).toArray⟩ : ByteArray) = s.toUTF8 := rfl
  rw [fromUtf8, hba, String.fromUTF8?, String.toUTF8_eq_toByteArray, dif_pos s.isValidUTF8]
  rfl

theorem represents_string : Represents string .string (fun v => v) where
  dynamic := rfl
  len v := (length_encBytes _).symm
  slot _ h := absurd h (by simp [string])
  writes v := bytesBodyTo_writes (asBytes v)
  reads v _ _ hs hat :=
    Returns.bind (bytesTail_returns hs hat) (returns_ofOption.mpr (fromUtf8_asBytes v))
  at_eq_tail h := absurd h (by simp [string])

/-! ### The parts of a list of elements -/

section Elements

variable {T : SolCodec} {τ : AbiType} (f : T.Carrier → τ.Val)

/-- The parts that elements of one type make up. -/
def elemParts (vs : List T.Carrier) : List Part :=
  vs.map fun v => ⟨τ.isDynamic, enc τ (f v)⟩

variable {f}

theorem elemParts_cons (v : T.Carrier) (vs : List T.Carrier) :
    elemParts f (v :: vs) = ⟨τ.isDynamic, enc τ (f v)⟩ :: elemParts f vs := rfl

theorem headLen_elemParts (h : Represents T τ f) (vs : List T.Carrier) :
    headLen (elemParts f vs) = vs.length * T.slotSize := by
  induction vs with
  | nil => simp [elemParts]
  | cons v vs ih =>
    rw [elemParts_cons, headLen_cons, ih, ← h.slotSize_eq v, List.length_cons, Nat.succ_mul, Nat.add_comm]

theorem tails_elemParts (h : Represents T τ f) (hd : T.isDynamic = true) (vs : List T.Carrier) :
    (tails (elemParts f vs)).length = (vs.map T.encodeBodyLen).sum := by
  induction vs with
  | nil => rfl
  | cons v vs ih =>
    have hd' : τ.isDynamic = true := by rw [← h.dynamic]; exact hd
    rw [elemParts_cons, length_tails_cons, ih, List.map_cons, List.sum_cons, h.len, Part.tail, hd']
    rfl

theorem elemParts_static (h : Represents T τ f) (hd : T.isDynamic = false) (vs : List T.Carrier) :
    ∀ p ∈ elemParts f vs, p.dynamic = false := by
  intro p hp
  obtain ⟨v, -, rfl⟩ := List.mem_map.mp hp
  rw [← h.dynamic]
  exact hd

/-- What one dynamic element adds to a layout that is being written. -/
theorem place_elem (h : Represents T τ f) (hd : T.isDynamic = true) {buf : List UInt8} {ho tp : ℕ}
    (off : ℕ) {v : T.Carrier} {vs : List T.Carrier}
    (hho : ho + headLen (elemParts f (v :: vs)) ≤ tp)
    (htp : tp + (tails (elemParts f (v :: vs))).length ≤ buf.length) :
    place buf ho tp off (elemParts f (v :: vs)) =
      place (overwrite (overwrite buf ho (word off)) tp (enc τ (f v))) (ho + 32)
        (tp + T.encodeBodyLen v) (off + T.encodeBodyLen v) (elemParts f vs) := by
  have hd' : τ.isDynamic = true := by rw [← h.dynamic]; exact hd
  rw [elemParts_cons] at hho htp ⊢
  rw [place_cons off hho htp, h.len]
  simp only [Part.head, Part.tail, Part.headLen, hd', if_true]

/-- Static elements stand one after the other. -/
theorem layout_elem (h : Represents T τ f) (hd : T.isDynamic = false) (v : T.Carrier)
    (vs : List T.Carrier) :
    layout (elemParts f (v :: vs)) = enc τ (f v) ++ layout (elemParts f vs) := by
  rw [layout_of_static (elemParts_static h hd _), layout_of_static (elemParts_static h hd _)]
  rfl

end Elements

/-! ### Reading one component -/

/-- A component whose head is at `ho` and whose tail is where the head says is read back. -/
theorem tupleReadField_returns {T : SolCodec} {τ : AbiType} {f : T.Carrier → τ.Val} (h : Represents T τ f) {v : T.Carrier} {input : List UInt8}
    {off ho r : ℕ} (hs : IsSlice input)
    (hhead : At input ho (Part.head r ⟨τ.isDynamic, enc τ (f v)⟩))
    (htail : At input (off + r) (Part.tail ⟨τ.isDynamic, enc τ (f v)⟩)) :
    Returns (tupleReadField T .checked input off ho) v := by
  have hbound := htail.bound
  unfold IsSlice at hs
  unfold tupleReadField
  rw [h.dynamic]
  unfold Part.head at hhead
  unfold Part.tail at htail
  split_ifs at hhead htail ⊢ with hd
  · refine Returns.bind (readWordOffset_word hs hhead (by omega)) ?_
    rw [checkedSum_pair, checkedAdd_of_lt (by omega), pure_andThen]
    exact h.reads v input _ hs htail
  · rw [h.at_eq_tail (by rw [h.dynamic]; simp [hd])]
    exact h.reads v input ho hs hhead

/-! ### `[T; N]` -/

section Arrays

variable {T : SolCodec} {τ : AbiType} {f : T.Carrier → τ.Val}

theorem arrayWriteDynamic_eq (h : Represents T τ f) (hd : T.isDynamic = true) {vs : List T.Carrier}
    {i tp : ℕ} {buf : List UInt8} (hho : i * T.slotSize + headLen (elemParts f vs) ≤ tp)
    (htp : tp + (tails (elemParts f vs)).length ≤ buf.length) (hfit : buf.length < 2 ^ 64) :
    arrayWriteDynamic T vs i tp buf =
      some (place buf (i * T.slotSize) tp tp (elemParts f vs)) := by
  induction vs generalizing i tp buf with
  | nil => rw [arrayWriteDynamic]; simp [elemParts]
  | cons v vs ih =>
    have hd' : τ.isDynamic = true := by rw [← h.dynamic]; exact hd
    have hplace := place_elem h hd tp hho htp
    rw [headLen_elemParts h, List.length_cons, Nat.succ_mul, SolCodec.slotSize_dynamic hd] at hho
    rw [tails_elemParts h hd, List.map_cons, List.sum_cons] at htp
    have h1 : (overwrite buf (i * 32) (word tp)).length = buf.length :=
      length_overwrite (by rw [length_word]; omega)
    have h2 : (overwrite (overwrite buf (i * 32) (word tp)) tp (enc τ (f v))).length =
        buf.length := by rw [length_overwrite (by rw [h1, ← h.len]; omega), h1]
    rw [hplace, arrayWriteDynamic, SolCodec.slotSize_dynamic hd, writePointer_eq (by omega) (by omega),
      Option.bind_eq_bind, Option.bind_some]
    dsimp only
    rw [onSlice_writes (h.writes v) (by rw [← h.len]) (by omega) (by omega), Option.bind_some,
      ih (by rw [headLen_elemParts h, SolCodec.slotSize_dynamic hd, Nat.succ_mul]; omega)
        (by rw [tails_elemParts h hd, h2]; omega) (by omega),
      SolCodec.slotSize_dynamic hd, Nat.succ_mul]

theorem arrayWriteStatic_eq (h : Represents T τ f) (hd : T.isDynamic = false) {vs : List T.Carrier}
    {pos : ℕ} {buf : List UInt8} (hpos : pos + (layout (elemParts f vs)).length ≤ buf.length)
    (hfit : buf.length < 2 ^ 64) :
    arrayWriteStatic T vs pos buf = some (overwrite buf pos (layout (elemParts f vs))) := by
  induction vs generalizing pos buf with
  | nil => rw [arrayWriteStatic]; simp [elemParts, layout, heads, tails]
  | cons v vs ih =>
    rw [layout_elem h hd] at hpos ⊢
    rw [List.length_append] at hpos
    have h1 : (overwrite buf pos (enc τ (f v))).length = buf.length :=
      length_overwrite (by omega)
    rw [arrayWriteStatic, onSlice_writes (h.writes v) (by omega) (le_refl _) hfit, Option.bind_eq_bind,
      Option.bind_some, SolCodec.slotSize_static hd, h.slot v hd, ih (by omega) (by omega),
      overwrite_append (by rw [List.length_append]; omega)]

theorem arrayRead_returns (h : Represents T τ f) {vs : List T.Carrier} {n i r off : ℕ} {input : List UInt8}
    (hn : vs.length = n) (hs : IsSlice input)
    (hheads : At input (off + i * T.slotSize) (heads r (elemParts f vs)))
    (htails : At input (off + r) (tails (elemParts f vs))) :
    Returns (arrayRead T .checked input off i n) ⟨vs, hn⟩ := by
  induction vs generalizing n i r with
  | nil => subst hn; exact returns_pure.mpr rfl
  | cons v vs ih =>
    subst hn
    rw [elemParts_cons] at hheads htails
    have hle := hheads.le
    obtain ⟨hhead, hheads⟩ := At.heads_cons.mp hheads
    obtain ⟨htail, htails⟩ := At.tails_cons.mp htails
    unfold IsSlice at hs
    have helem : Returns (arrayReadElem T .checked input off i) v := by
      rw [arrayReadElem, umul_of_lt (by omega), pure_andThen, checkedSum_pair, checkedAdd_of_lt (by omega),
        pure_andThen]
      exact tupleReadField_returns h hs hhead htail
    rw [← h.slotSize_eq v, Nat.add_assoc, ← Nat.succ_mul] at hheads
    rw [Nat.add_assoc] at htails
    exact helem.bind ((ih rfl hheads htails).bind (returns_pure.mpr rfl))

/-- The ABI value of an array. -/
def arrayToAbi (f : T.Carrier → τ.Val) (n : ℕ) (vs : (array T n).Carrier) : (AbiType.fixed τ n).Val :=
  ⟨vs.1.map f, by rw [List.length_map, vs.2]⟩

theorem enc_arrayToAbi {n : ℕ} (vs : (array T n).Carrier) :
    enc (.fixed τ n) (arrayToAbi f n vs) = layout (elemParts f vs.1) := by
  change layout ((vs.1.map f).map fun v => ⟨τ.isDynamic, enc τ v⟩) = _
  rw [List.map_map]
  rfl

theorem array_bodyLen (h : Represents T τ f) {n : ℕ} (vs : (array T n).Carrier) :
    (array T n).encodeBodyLen vs = (layout (elemParts f vs.1)).length := by
  have hn : vs.1.length = n := vs.2
  simp only [array, length_layout, headLen_elemParts h, hn]
  split_ifs with hd
  · rw [tails_elemParts h hd, SolCodec.slotSize_dynamic hd]
  · rw [tails_of_static (elemParts_static h (by simpa using hd) _), SolCodec.slotSize_static (by simpa using hd),
      List.length_nil, Nat.add_zero, Nat.mul_comm]

/-- **Arrays**: if the elements implement their ABI type, so does the array. -/
theorem represents_array (h : Represents T τ f) (n : ℕ) :
    Represents (array T n) (.fixed τ n) (arrayToAbi f n) where
  dynamic := h.dynamic
  len vs := by
    rw [enc_arrayToAbi]
    exact array_bodyLen h vs
  slot vs hd := by
    rw [enc_arrayToAbi, ← array_bodyLen h vs]
    simp only [array] at hd ⊢
    rw [if_neg (by simp [hd]), SolCodec.slotSize_static hd]
  writes vs buf hlen hfit := by
    rw [enc_arrayToAbi] at hlen ⊢
    rw [← overwrite_zero]
    simp only [array]
    split_ifs with hd
    · rw [length_layout, headLen_elemParts h, vs.2] at hlen
      rw [arrayWriteDynamic_eq h hd (by rw [headLen_elemParts h, vs.2]; omega) hlen hfit, layout,
        ← place_layout (by rw [headLen_elemParts h, vs.2]; omega), headLen_elemParts h, vs.2, Nat.zero_mul,
        Nat.zero_add]
    · exact arrayWriteStatic_eq h (by simpa using hd) (by omega) hfit
  reads vs input off hs hat := by
    rw [enc_arrayToAbi] at hat
    obtain ⟨hheads, htails⟩ := At.layout_iff.mp hat
    exact arrayRead_returns h vs.2 hs (by rwa [Nat.zero_mul, Nat.add_zero]) htails
  at_eq_tail _ := rfl

end Arrays

/-! ### `Vec<T>` -/

section Vectors

variable {T : SolCodec} {τ : AbiType} {f : T.Carrier → τ.Val}

theorem vecWriteDynamic_eq (h : Represents T τ f) (hd : T.isDynamic = true) {vs : List T.Carrier}
    {ho tp : ℕ} {buf : List UInt8} (h32 : 32 ≤ tp) (hho : ho + headLen (elemParts f vs) ≤ tp)
    (htp : tp + (tails (elemParts f vs)).length ≤ buf.length) (hfit : buf.length < 2 ^ 64) :
    vecWriteDynamic T vs ho tp buf = some (place buf ho tp (tp - 32) (elemParts f vs)) := by
  induction vs generalizing ho tp buf with
  | nil => rw [vecWriteDynamic]; simp [elemParts]
  | cons v vs ih =>
    have hplace := place_elem h hd (tp - 32) hho htp
    rw [headLen_elemParts h, List.length_cons, Nat.succ_mul, SolCodec.slotSize_dynamic hd] at hho
    rw [tails_elemParts h hd, List.map_cons, List.sum_cons] at htp
    have h1 : (overwrite buf ho (word (tp - 32))).length = buf.length :=
      length_overwrite (by rw [length_word]; omega)
    have h2 : (overwrite (overwrite buf ho (word (tp - 32))) tp (enc τ (f v))).length =
        buf.length := by rw [length_overwrite (by rw [h1, ← h.len]; omega), h1]
    have hoff : tp - 32 + T.encodeBodyLen v = tp + T.encodeBodyLen v - 32 := by omega
    rw [hplace, vecWriteDynamic]
    dsimp only
    rw [writeWord_eq (by omega) (by omega), Option.bind_eq_bind, Option.bind_some, onSlice_writes (h.writes v) (by rw [← h.len]) (by omega) (by omega), Option.bind_some,
      ih (by omega) (by rw [headLen_elemParts h, SolCodec.slotSize_dynamic hd]; omega)
        (by rw [tails_elemParts h hd, h2]; omega) (by omega), hoff]

theorem vecWriteStatic_eq (h : Represents T τ f) (hd : T.isDynamic = false) {vs : List T.Carrier}
    {pos : ℕ} {buf : List UInt8} (hpos : pos + (layout (elemParts f vs)).length ≤ buf.length)
    (hfit : buf.length < 2 ^ 64) :
    vecWriteStatic T vs pos buf = some (overwrite buf pos (layout (elemParts f vs))) := by
  induction vs generalizing pos buf with
  | nil => rw [vecWriteStatic]; simp [elemParts, layout, heads, tails]
  | cons v vs ih =>
    rw [layout_elem h hd] at hpos ⊢
    rw [List.length_append] at hpos
    have h1 : (overwrite buf pos (enc τ (f v))).length = buf.length :=
      length_overwrite (by omega)
    rw [vecWriteStatic, onSlice_writes (h.writes v) (by rw [← h.len]) (by rw [h.len]; omega) hfit, Option.bind_eq_bind,
      Option.bind_some, h.len, ih (by omega) (by omega),
      overwrite_append (by rw [List.length_append]; omega)]

/-- Dynamic elements are read as the elements of an array that starts behind the length. -/
theorem vecReadDynamic_eq (hd : T.isDynamic = true) (p : Profile) (input : List UInt8)
    (start i n : ℕ) :
    vecReadDynamic T p input start i n = Subtype.val <$> arrayRead T p input start i n := by
  induction n generalizing i with
  | zero => rfl
  | succ n ih =>
    have helem : arrayReadElem T p input start i = (do
        let k ← umul p i 32
        let headPos ← checkedSum [start, k]
        let elemOffset ← readWordOffset input headPos
        let elemStart ← checkedSum [start, elemOffset]
        T.decodeTail p input elemStart) := by
      simp only [arrayReadElem, SolCodec.slotSize_dynamic hd, hd, if_true]
    rw [vecReadDynamic, arrayRead, helem, ih]
    simp only [map_eq_andThen, bind_assoc, pure_andThen]

theorem vecReadStatic_returns (h : Represents T τ f) (hd : T.isDynamic = false) {vs : List T.Carrier}
    {pos : ℕ} {input : List UInt8} (hs : IsSlice input) (hat : At input pos (layout (elemParts f vs))) :
    Returns (vecReadStatic T .checked input pos vs.length) vs := by
  induction vs generalizing pos with
  | nil => exact returns_pure.mpr rfl
  | cons v vs ih =>
    rw [layout_elem h hd, At.append_iff] at hat
    obtain ⟨helem, hrest⟩ := hat
    have hle := hrest.le
    unfold IsSlice at hs
    have hat := h.at_eq_tail (by simp [hd])
    rw [List.length_cons, vecReadStatic, hat]
    refine (h.reads v input pos hs helem).bind ?_
    rw [checkedSum_pair, h.slot v hd, checkedAdd_of_lt (by omega), pure_andThen]
    exact (ih hrest).bind (returns_pure.mpr rfl)

/-- The ABI value of a vector. -/
def vecToAbi (f : T.Carrier → τ.Val) (vs : (Vec T).Carrier) : (AbiType.array τ).Val :=
  List.map f vs

theorem enc_vecToAbi (vs : List T.Carrier) :
    enc (.array τ) (vecToAbi f vs) = word vs.length ++ layout (elemParts f vs) := by
  change word (vs.map f).length ++
    layout ((vs.map f).map fun v => ⟨τ.isDynamic, enc τ v⟩) = _
  rw [List.length_map, List.map_map]
  rfl

/-- A vector's elements take at least a word each, where their slots do. -/
theorem length_le_layout (h : Represents T τ f) (hpos : 32 ≤ T.slotSize) (vs : List T.Carrier) :
    32 * vs.length ≤ (layout (elemParts f vs)).length := by
  have hpos := Nat.mul_le_mul_left vs.length hpos
  rw [length_layout, headLen_elemParts h]
  omega

theorem vec_bodyLen (h : Represents T τ f) (vs : List T.Carrier) :
    (Vec T).encodeBodyLen vs = 32 + (layout (elemParts f vs)).length := by
  simp only [Vec, length_layout, headLen_elemParts h]
  split_ifs with hd
  · rw [tails_elemParts h hd, SolCodec.slotSize_dynamic hd, Nat.add_assoc]
  · have hd' : T.isDynamic = false := by simpa using hd
    rw [tails_of_static (elemParts_static h hd' _), List.length_nil, Nat.add_zero]
    congr 1
    induction vs with
    | nil => simp
    | cons v vs ih =>
      rw [List.map_cons, List.sum_cons, ih, h.len, ← h.slot v hd', ← SolCodec.slotSize_static hd',
        List.length_cons, Nat.succ_mul, Nat.add_comm]

/-- **Vectors**: if the elements implement their ABI type, and take a word at least, so does the
vector. -/
theorem represents_Vec (h : Represents T τ f) (hpos : 32 ≤ T.slotSize) :
    Represents (Vec T) (.array τ) (vecToAbi f) where
  dynamic := rfl
  len (vs : List T.Carrier) := by rw [enc_vecToAbi, vec_bodyLen h, List.length_append, length_word]
  slot _ hd := absurd hd (by simp [Vec])
  writes (vs : List T.Carrier) buf hlen hfit := by
    rw [enc_vecToAbi, List.length_append, length_word] at hlen
    have h1 : (overwrite buf 0 (word vs.length)).length = buf.length :=
      length_overwrite (by rw [length_word]; omega)
    have hlast : 32 * vs.length ≤ (layout (elemParts f vs)).length := length_le_layout h hpos vs
    rw [enc_vecToAbi, ← overwrite_zero,
      overwrite_append (by rw [List.length_append, length_word]; omega), length_word, Nat.zero_add]
    simp only [Vec, vecBodyTo]
    rw [writeWord_eq (by omega) (by omega), Option.bind_eq_bind, Option.bind_some]
    split_ifs with hd
    · rw [length_layout, headLen_elemParts h, SolCodec.slotSize_dynamic hd] at hlen
      rw [vecWriteDynamic_eq h hd (by omega)
          (by rw [headLen_elemParts h, SolCodec.slotSize_dynamic hd]) (by omega) (by omega),
        layout, ← place_layout (by rw [headLen_elemParts h, SolCodec.slotSize_dynamic hd]; omega),
        headLen_elemParts h, SolCodec.slotSize_dynamic hd, Nat.add_sub_cancel_left]
    · exact vecWriteStatic_eq h (by simpa using hd) (by omega) (by omega)
  reads (vs : List T.Carrier) input off hs hat := by
    have hbound := hat.bound
    rw [enc_vecToAbi, List.length_append, length_word] at hbound
    rw [enc_vecToAbi, At.append_iff, length_word] at hat
    have hlast : 32 * vs.length ≤ (layout (elemParts f vs)).length := length_le_layout h hpos vs
    have hs' := hs
    unfold IsSlice at hs'
    simp only [Vec, vecTail]
    refine (readWordOffset_word hs hat.1 (by omega)).bind ?_
    rw [if_neg (by omega)]
    refine Returns.bind (returns_alloc (u := ())) ?_
    rw [checkedSum_pair, checkedAdd_of_lt (by omega), pure_andThen]
    split_ifs with hd
    · obtain ⟨hheads, htails⟩ := At.layout_iff.mp hat.2
      rw [vecReadDynamic_eq hd]
      exact (arrayRead_returns h rfl hs (by rwa [Nat.zero_mul, Nat.add_zero]) htails).bind
        (returns_pure.mpr rfl)
    · exact vecReadStatic_returns h (by simpa using hd) hs hat.2
  at_eq_tail hd := absurd hd (by simp [Vec])

end Vectors

/-! ### Tuples -/

section Tuples

/-- The components of a list implement the ABI types of a list, one each. -/
inductive RepresentsAll : (Ts : List SolCodec) → (τs : List AbiType) → (Fields Ts → Vals τs) → Prop
  | nil : RepresentsAll [] [] (fun _ => ())
  | cons {T : SolCodec} {Ts : List SolCodec} {τ : AbiType} {τs : List AbiType} {f : T.Carrier → τ.Val}
      {fs : Fields Ts → Vals τs} (head : Represents T τ f) (tail : RepresentsAll Ts τs fs) :
      RepresentsAll (T :: Ts) (τ :: τs) (fun vals : T.Carrier × Fields Ts => (f vals.1, fs vals.2))

variable {Ts : List SolCodec} {τs : List AbiType} {fs : Fields Ts → Vals τs}

theorem tupleHeadSize_cons (T : SolCodec) (Ts : List SolCodec) :
    tupleHeadSize (T :: Ts) = T.slotSize + tupleHeadSize Ts := by
  simp [tupleHeadSize]

namespace RepresentsAll

theorem headLen_eq (h : RepresentsAll Ts τs fs) (vals : Fields Ts) :
    headLen (encParts τs (fs vals)) = tupleHeadSize Ts := by
  induction h with
  | nil => rfl
  | cons head tail ih =>
    obtain ⟨val, vals⟩ := vals
    rw [tupleHeadSize_cons, head.slotSize_eq val, ← ih vals]
    exact headLen_cons _ _

theorem tails_eq (h : RepresentsAll Ts τs fs) (vals : Fields Ts) :
    (tails (encParts τs (fs vals))).length = tupleTailLen Ts vals := by
  induction h with
  | nil => rfl
  | cons head tail ih =>
    obtain ⟨val, vals⟩ := vals
    rw [tupleTailLen, ← ih vals, head.dynamic, head.len]
    refine (length_tails_cons _ _).trans ?_
    rw [Part.tail]
    split <;> simp_all

theorem isDynamic_eq (h : RepresentsAll Ts τs fs) :
    (tuple Ts).isDynamic = (AbiType.tuple τs).isDynamic := by
  change Ts.any SolCodec.isDynamic = anyDynamic τs
  induction h with
  | nil => rfl
  | cons head tail ih => rw [List.any_cons, ih, head.dynamic, anyDynamic]

/-- Static components make up parts that stay in place. -/
theorem parts_static (h : RepresentsAll Ts τs fs) (hd : Ts.any SolCodec.isDynamic = false)
    (vals : Fields Ts) : ∀ p ∈ encParts τs (fs vals), p.dynamic = false := by
  induction h with
  | nil => intro p hp; exact absurd hp List.not_mem_nil
  | cons head tail ih =>
    rw [List.any_cons, Bool.or_eq_false_iff] at hd
    intro p hp
    rcases List.mem_cons.mp hp with rfl | hp
    · exact head.dynamic.symm.trans hd.1
    · exact ih hd.2 vals.2 p hp

theorem write_eq (h : RepresentsAll Ts τs fs) {vals : Fields Ts} {ho tp : ℕ} {buf : List UInt8}
    (hho : ho + headLen (encParts τs (fs vals)) ≤ tp)
    (htp : tp + (tails (encParts τs (fs vals))).length ≤ buf.length) (hfit : buf.length < 2 ^ 64) :
    tupleWrite Ts vals ho tp buf = some (place buf ho tp tp (encParts τs (fs vals))) := by
  induction h generalizing ho tp buf with
  | nil => exact (congrArg some (place_nil buf ho tp tp)).symm
  | @cons T Ts τ τs f fs head tail ih =>
    obtain ⟨val, vals⟩ := vals
    have hplace := place_cons tp hho htp
    have hlen := headLen_cons ⟨τ.isDynamic, enc τ (f val)⟩ (encParts τs (fs vals))
    have htails := length_tails_cons ⟨τ.isDynamic, enc τ (f val)⟩ (encParts τs (fs vals))
    rw [← head.slotSize_eq val] at hplace hlen
    change ho + headLen (_ :: _) ≤ tp at hho
    change tp + (tails (_ :: _)).length ≤ _ at htp
    rw [hlen] at hho
    rw [htails] at htp
    refine Eq.trans ?_ (congrArg some hplace.symm)
    rw [tupleWrite]
    simp only [Part.head, Part.tail, ← head.dynamic] at htp ⊢
    split_ifs at htp ⊢ with hd
    · rw [SolCodec.slotSize_dynamic hd] at hho ⊢
      have h1 : (overwrite buf ho (word tp)).length = buf.length :=
        length_overwrite (by rw [length_word]; omega)
      have h2 : (overwrite (overwrite buf ho (word tp)) tp (enc τ (f val))).length = buf.length := by
        rw [length_overwrite (by rw [h1]; omega), h1]
      rw [writePointer_eq (by omega) (by omega), Option.bind_eq_bind, Option.bind_some,
        onSlice_writes (head.writes val) (by rw [← head.len]) (by rw [head.len]; omega) (by omega),
        Option.bind_some, head.len]
      exact ih (by omega) (by omega) (by omega)
    · have hd' : T.isDynamic = false := by simpa using hd
      have hslot : T.slotSize = (enc τ (f val)).length := by
        rw [SolCodec.slotSize_static hd', head.slot val hd']
      have h1 : (overwrite buf ho (enc τ (f val))).length = buf.length := length_overwrite (by omega)
      rw [onSlice_writes (head.writes val) (by omega) (le_refl _) hfit, Option.bind_eq_bind,
        Option.bind_some, overwrite_nil, List.length_nil, Nat.add_zero]
      exact ih (by omega) (by rw [h1]; simpa using htp) (by omega)

theorem read_returns (h : RepresentsAll Ts τs fs) {vals : Fields Ts} {off ho r : ℕ} {input : List UInt8}
    (hs : IsSlice input) (hheads : At input ho (heads r (encParts τs (fs vals))))
    (htails : At input (off + r) (tails (encParts τs (fs vals)))) :
    Returns (tupleRead .checked input off Ts ho) vals := by
  induction h generalizing ho r with
  | nil => exact returns_pure.mpr rfl
  | cons head tail ih =>
    obtain ⟨val, vals⟩ := vals
    obtain ⟨hhead, hheads⟩ := At.heads_cons.mp hheads
    obtain ⟨htail, htails⟩ := At.tails_cons.mp htails
    rw [← head.slotSize_eq val] at hheads
    have hle := hheads.le
    have hs' := hs
    unfold IsSlice at hs'
    refine (tupleReadField_returns head hs hhead htail).bind ?_
    rw [checkedSum_pair, checkedAdd_of_lt (by omega), pure_andThen]
    rw [Nat.add_assoc] at htails
    exact (ih hheads htails).bind (returns_pure.mpr rfl)

end RepresentsAll

theorem tupleTailLen_static {Ts : List SolCodec} (h : Ts.any SolCodec.isDynamic = false) (vals : Fields Ts) :
    tupleTailLen Ts vals = 0 := by
  induction Ts with
  | nil => rfl
  | cons T Ts ih =>
    obtain ⟨val, vals⟩ := vals
    rw [List.any_cons, Bool.or_eq_false_iff] at h
    rw [tupleTailLen, h.1, ih h.2]
    rfl

theorem enc_tuple (vals : Vals τs) : enc (.tuple τs) vals = layout (encParts τs vals) := rfl

/-- **Tuples**: if the fields implement their ABI types, so does the tuple. -/
theorem represents_tuple (h : RepresentsAll Ts τs fs) :
    Represents (tuple Ts) (.tuple τs) fs where
  dynamic := h.isDynamic_eq
  len (vals : Fields Ts) := by
    rw [enc_tuple, length_layout, h.headLen_eq, h.tails_eq]
    rfl
  slot (vals : Fields Ts) hd := by
    rw [enc_tuple, length_layout, h.headLen_eq, h.tails_eq, tupleTailLen_static hd]
    rfl
  writes (vals : Fields Ts) buf hlen hfit := by
    rw [enc_tuple, length_layout] at hlen
    rw [enc_tuple, ← overwrite_zero, layout, ← place_layout (by omega), Nat.zero_add, h.headLen_eq]
    rw [h.headLen_eq] at hlen
    exact h.write_eq (by rw [h.headLen_eq, Nat.zero_add]) hlen hfit
  reads (vals : Fields Ts) input off hs hat := by
    obtain ⟨hheads, htails⟩ := At.layout_iff.mp hat
    exact h.read_returns hs hheads htails
  at_eq_tail _ := rfl

end Tuples

end PvmContract.Types
