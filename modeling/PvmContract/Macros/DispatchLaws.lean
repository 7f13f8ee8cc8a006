import PvmContract.Macros.Dispatch
import PvmContract.Macros.FailClosed
import PvmContract.Macros.FastPath
import PvmContract.Types.MisreadLaws

/-!
# What the dispatcher reads

The dispatcher's reads against the encoding of the arguments. `decode_at` of a
vector, a string or a byte string follows the pointer in the parameter's slot;
`decode_at` of a dynamic array, tuple or struct starts with the body right there
(`bodyAt`), as the tuple codec never asks it to. So such a parameter is read from
the heads of the argument list, beginning with its own pointer.

`decodesCall` is the round trip for parameter lists without such a type, and
`decodesCall_iff` says that it fails for the others: in front of the list, the
first word of the body is the pointer itself, and some value is misread
(`exists_misreads`).
-/

namespace PvmContract.Macros

open Data Run PvmContract.Types Abi AbiType

namespace Ty

/-! ### One parameter -/

/-- A dynamic type whose `decode_at` starts with the body at the offset; that of the others reads
a pointer there. -/
def bodyAt : Ty → Bool
  | array elem n => (array elem n).impl.isDynamic
  | tuple elems => (tuple elems).impl.isDynamic
  | struct idents fields => (struct idents fields).impl.isDynamic
  | _ => false

/-- The unchecked read stays in the slot of a type without unit. -/
theorem reach_le_slotSize {t : Ty} (h : t.Compiles = true) (hplain : t.rust.sol.hasCustomTypes = false)
    (hsome : t.impl.decodeUnchecked.isSome = true) : reach t ≤ t.impl.slotSize := by
  have hp := plain h hplain hsome
  rw [hp.reach, hp.slotSize]
  exact Nat.mul_le_mul_left _ (wordsReach_le _)

/-- A dynamic type that is not read in place has a pointer at its offset. -/
theorem decodeAt_pointer {t : Ty} (hd : t.impl.isDynamic = true) (hbody : t.bodyAt = false) (p : Profile)
    (input : List UInt8) (off : ℕ) :
    t.impl.decodeAt p input off = readWordOffset input off >>= fun n => t.impl.decodeTail p input n := by
  cases t with
  | bytes | string | vec => rfl
  | prim k => cases k <;> exact Bool.noConfusion (show false = true from hd)
  | unit | bytesN | enum => exact Bool.noConfusion (show false = true from hd)
  | array | tuple | struct => exact Bool.noConfusion (hbody.symm.trans hd)

/-- The read of a dynamic type is the checked one. -/
theorem decodeParam_of_dynamic {t : Ty} (h : t.Proper = true) (hd : t.impl.isDynamic = true) :
    decodeParam t.rust = some t.impl.decodeAt := by
  rw [decodeParam]
  refine if_pos ((Bool.or_eq_true _ _).mpr ?_)
  cases hcustom : t.rust.sol.hasCustomTypes with
  | true => exact .inl rfl
  | false =>
    obtain ⟨b, hb⟩ := SolType.isDynamic_of_plain _ hcustom
    obtain rfl := ((consistent h).dynamic b hb).symm.trans hd
    exact .inr (by rw [hb]; rfl)

/-- **A parameter is read back**, if it is not a body read in place: its head is at `ho`, and its
tail where the head says. -/
theorem decodeParam_returns {t : Ty} (h : t.Codable = true) (hbody : t.bodyAt = false) :
    ∃ decode, decodeParam t.rust = some decode ∧ ∀ p v input ho r, IsSlice input →
      At input ho (Part.head r ⟨t.abi.isDynamic, enc t.abi (t.toAbi v)⟩) →
      At input r (Part.tail ⟨t.abi.isDynamic, enc t.abi (t.toAbi v)⟩) → Returns (decode p input ho) v := by
  have hrep := represents h
  have hproper := proper_of_codable h
  have hfree := profileFree (compiles_of_proper hproper)
  cases hd : t.impl.isDynamic with
  | true =>
    refine ⟨_, decodeParam_of_dynamic hproper hd, fun p v input ho r hs hhead htail => ?_⟩
    rw [Part.head, ← hrep.dynamic, hd, if_pos rfl] at hhead
    rw [Part.tail, ← hrep.dynamic, hd, if_pos rfl] at htail
    have hr := htail.le
    have hs' := hs
    unfold IsSlice at hs'
    rw [decodeAt_pointer hd hbody]
    exact (readWordOffset_word hs hhead (by omega)).bind (hfree.decodeTail_returns (hrep.reads v input r hs htail) p)
  | false =>
    have hat : ∀ v input ho r, IsSlice input →
        At input ho (Part.head r ⟨t.abi.isDynamic, enc t.abi (t.toAbi v)⟩) →
        Returns (t.impl.decodeAt .checked input ho) v := by
      intro v input ho r hs hhead
      rw [Part.head, ← hrep.dynamic, hd, if_neg Bool.false_ne_true] at hhead
      rw [hrep.at_eq_tail (by rw [hd, Bool.not_false, Bool.or_true])]
      exact hrep.reads v input ho hs hhead
    by_cases hsol : (t.rust.sol.hasCustomTypes || t.rust.sol.isDynamic == some true) = true
    · refine ⟨t.impl.decodeAt, if_pos hsol, fun p v input ho r hs hhead _ => ?_⟩
      exact Agrees.returns (f := fun p => t.impl.decodeAt p input ho) (hfree.decodeAt input ho)
        (hat v input ho r hs hhead) p
    · have hplain : t.rust.sol.hasCustomTypes = false := by
        simpa using (Bool.or_eq_false_iff.mp (Bool.not_eq_true _ ▸ hsol)).1
      obtain ⟨-, hsome⟩ := unchecked_of_plain hproper hplain hd
      obtain ⟨decode, hdec⟩ := Option.isSome_iff_exists.mp hsome
      obtain ⟨-, hunchecked⟩ := unchecked (compiles_of_proper hproper) decode hdec
      refine ⟨fun _ input offset => ofAccess (decode input offset), ?_, fun p v input ho r hs hhead _ => ?_⟩
      · rw [decodeParam, if_neg hsol, show t.rust.impl.decodeUnchecked = some decode from hdec]
        rfl
      · have hle := hhead.le
        have hlen := hhead.bound
        rw [Part.length_head, ← hrep.slotSize_eq] at hlen
        have hreach := reach_le_slotSize (compiles_of_proper hproper) hplain hsome
        have hval := hunchecked.confirms .checked input ho v hs (.inr (by omega)) (hat v input ho r hs hhead)
        change Returns (ofAccess (decode input ho)) v
        rw [hval]
        exact returns_pure.mpr rfl

/-! ### All parameters -/

theorem decodeParams_cons {f : Field} {params : List Field} {decode : Profile → List UInt8 → ℕ → Run f.impl.Carrier}
    {rest : Profile → List UInt8 → ℕ → Run (Types.Fields (implOf params))} (hdec : decodeParam f = some decode)
    (hrest : decodeParams params = some rest) :
    decodeParams (f :: params) = some fun p input offset => (do
      let value ← decode p input offset
      let offset ← uadd p offset f.impl.slotSize
      let values ← rest p input offset
      pure (value, values)) := by
  rw [decodeParams, hdec, hrest]
  rfl

/-- The parameters are read one after the other. -/
theorem decodeParams_returns {ts : List Ty} (h : ∀ t ∈ ts, t.Codable = true ∧ t.bodyAt = false) :
    ∃ decode, decodeParams (rusts ts) = some decode ∧ ∀ p (vals : Types.Fields (impls ts)) input ho r,
      IsSlice input → At input ho (heads r (encParts (abis ts) (toAbis ts vals))) →
      At input r (tails (encParts (abis ts) (toAbis ts vals))) → Returns (decode p input ho) vals := by
  induction ts with
  | nil => exact ⟨_, rfl, fun p vals input ho r _ _ _ => returns_pure.mpr rfl⟩
  | cons t ts ih =>
    obtain ⟨hcodable, hbody⟩ := h t List.mem_cons_self
    obtain ⟨rest, hrest, hvals⟩ := ih fun t' ht' => h t' (List.mem_cons_of_mem _ ht')
    obtain ⟨decode, hdec, hval⟩ := decodeParam_returns hcodable hbody
    refine ⟨_, decodeParams_cons hdec hrest, fun p vals input ho r hs hheads htails => ?_⟩
    obtain ⟨v, vs⟩ := vals
    obtain ⟨hhead, hheads⟩ := At.heads_cons.mp hheads
    obtain ⟨htail, htails⟩ := At.tails_cons.mp htails
    rw [← (represents hcodable).slotSize_eq v] at hheads
    have hle := hheads.le
    have hs' := hs
    unfold IsSlice at hs'
    refine (hval p v input ho r hs hhead htail).bind ?_
    have hnext : Returns (uadd p ho t.impl.slotSize) (ho + t.impl.slotSize) := by
      rw [uadd_of_lt (by omega)]
      exact returns_pure.mpr rfl
    refine hnext.bind ?_
    exact (hvals p vs input _ _ hs hheads htails).bind (returns_pure.mpr rfl)

theorem minInputSize_eq {p : Profile} {ts : List Ty} (h : tupleHeadSize (impls ts) < 2 ^ 64) :
    minInputSize p (rusts ts) = pure (tupleHeadSize (impls ts)) := by
  suffices hfold : ∀ n, n + tupleHeadSize (impls ts) < 2 ^ 64 →
      (rusts ts).foldlM (fun size f => uadd p size f.impl.slotSize) n = pure (n + tupleHeadSize (impls ts)) by
    have hzero := hfold 0 (by omega)
    rwa [Nat.zero_add] at hzero
  clear h
  induction ts with
  | nil => exact fun n _ => rfl
  | cons t ts ih =>
    intro n hn
    rw [show tupleHeadSize (impls (t :: ts)) = t.impl.slotSize + tupleHeadSize (impls ts) from
      tupleHeadSize_cons _ _] at hn ⊢
    rw [rusts, List.foldlM_cons]
    change (uadd p n t.impl.slotSize >>= _) = _
    rw [uadd_of_lt (by omega), pure_andThen, ih _ (by omega), Nat.add_assoc]

/-- **The dispatcher takes `abi.encode` of the arguments back**, for all arguments that fit in the
calldata and under either build profile. -/
def DecodesCall (ts : List Ty) : Prop :=
  ∃ decode, decodeCall (rusts ts) = some decode ∧ ∀ p (vals : Types.Fields (impls ts)),
    IsSlice (AbiType.abiEncode (abis ts) (toAbis ts vals)) →
    Returns (decode p (AbiType.abiEncode (abis ts) (toAbis ts vals))) vals

theorem decodesCall {ts : List Ty} (h : ∀ t ∈ ts, t.Codable = true ∧ t.bodyAt = false) : DecodesCall ts := by
  obtain ⟨decode, hdec, hvals⟩ := decodeParams_returns h
  refine ⟨_, by rw [decodeCall, hdec]; rfl, fun p vals hs => ?_⟩
  have hrep := representsAll fun t ht => represents (h t ht).1
  have hat : At (AbiType.abiEncode (abis ts) (toAbis ts vals)) 0 (layout (encParts (abis ts) (toAbis ts vals))) :=
    ⟨Nat.zero_le _, List.prefix_refl _⟩
  obtain ⟨hheads, htails⟩ := At.layout_iff.mp hat
  rw [Nat.zero_add] at htails
  have hsize := htails.le
  have hs' := hs
  unfold IsSlice at hs'
  rw [hrep.headLen_eq] at hsize
  rw [minInputSize_eq (by omega), pure_andThen, if_neg (by omega)]
  exact hvals p vals _ 0 _ hs hheads htails

/-! ### Bodies read in place -/

/-- Some value of the type, of at most `room` bytes, is misread at the word `H`. -/
def HasMisread (t : Ty) : Prop := ∀ H, 0 < H → ∃ v, (enc t.abi (t.toAbi v)).length ≤ room t ∧
  Misreads t.impl (fun v => enc t.abi (t.toAbi v)) H v

/-- A type that is one word: its values have that length. -/
theorem hasMisread_word {t : Ty} (h : t.Codable = true) (hd : t.impl.isDynamic = false) (h32 : t.impl.headSize = 32)
    (hroom : room t = 32) (hmis : ∀ H, 0 < H → H < 2 ^ 63 → ∃ v, ∀ input pos, At input pos (word H) →
      ¬Returns (t.impl.decodeTail .checked input pos) v) : HasMisread t := by
  have hlen : ∀ v, (enc t.abi (t.toAbi v)).length ≤ room t := fun v => by
    rw [← (represents h).slot v hd, h32, hroom]
  intro H h0
  by_cases hH : H < 2 ^ 63
  · obtain ⟨v, hv⟩ := hmis H h0 hH
    exact ⟨v, hlen v, fun input pos _ _ hat _ => hv input pos hat⟩
  · obtain ⟨v, -⟩ := hmis 1 (by omega) (by omega)
    exact ⟨v, hlen v, fun _ _ _ hH' => absurd hH' hH⟩

theorem hasMisread_prim (k : Prim) : HasMisread (prim k) := by
  have hbits : ∀ n, 0 < n → Nontrivial (BitVec (8 * n)) := fun n hn => nontrivial_bitVec (by omega)
  cases k <;> refine hasMisread_word rfl rfl rfl rfl fun H _ _ => ?_
  case u8 | i8 => exact exists_misreads_staticType (hbits 1 (by omega)) reads_getByte (by omega) H
  case u16 | i16 => exact exists_misreads_staticType (hbits 2 (by omega)) reads_getPair (by omega) H
  case u32 | i32 => exact exists_misreads_staticType (hbits 4 (by omega)) (reads_getLow (k := 4) (by omega)) (by omega) H
  case u64 | i64 => exact exists_misreads_staticType (hbits 8 (by omega)) (reads_getLow (k := 8) (by omega)) (by omega) H
  case u128 | i128 =>
    exact exists_misreads_staticType (hbits 16 (by omega)) (reads_getLow (k := 16) (by omega)) (by omega) H
  case U256 | I256 =>
    exact exists_misreads_staticType (hbits 32 (by omega)) (reads_getRangeAt (n := 32) (by omega)) (by omega) H
  case bool => exact exists_misreads_staticType (inferInstanceAs (Nontrivial Bool)) reads_getByte (by omega) H
  case address =>
    exact exists_misreads_staticType (nontrivial_byteArr (by omega)) (reads_getLow (k := 20) (by omega)) (by omega) H

theorem hasMisread_bytesN {n : ℕ} (h : (bytesN n).Codable = true) : HasMisread (bytesN n) := by
  have hn := all_self h
  simp [compilesHere, notUnit, notEmpty] at hn
  refine hasMisread_word h rfl rfl rfl fun H _ _ => ?_
  have hmis : ∃ v : ByteArr n, ∀ input pos, At input pos (word H) →
      ¬Returns ((staticType (ByteArr n) "" (fun val => padRight val.1) (getRangeAt n) (uncheckedRange 0 n)
        (toByteArr n)).decodeTail .checked input pos) v :=
    exists_misreads_staticType (nontrivial_byteArr (by omega)) (reads_getRangeAt (n := n) (by omega)) (by omega) H
  exact hmis

/-- The first variant is not what a positive number is read as. -/
theorem hasMisread_enum {n : ℕ} (h : (enum n).Codable = true) : HasMisread (enum n) := by
  have hn := all_self h
  simp [compilesHere, notUnit, notEmpty] at hn
  refine hasMisread_word h rfl rfl rfl fun H h0 hH => ⟨⟨0, by omega⟩, fun input pos hat hret => ?_⟩
  obtain ⟨w, hw, hret⟩ := returns_bind.mp (show Returns (expandEnum.read n .checked input pos) ⟨0, _⟩ from hret)
  have hget := (((reads_getRangeAt (le_refl 32)).returns input pos w).mp hw).2
  have hword : w = word H := by
    have hget' := hat.getRange
    rw [length_word] at hget'
    exact Option.some.inj (hget.symm.trans hget')
  split at hret
  · exact not_returns_fail hret
  · rename_i hzeros
    obtain ⟨index, hindex, hret⟩ := returns_bind.mp hret
    have hindex' := returns_ofOption.mp hindex
    have htry := returns_ofOption.mp hret
    rw [enumTryFrom] at htry
    split_ifs at htry with hlt
    have hval : index.toNat = 0 := congrArg Fin.val (Option.some.inj htry)
    have hsplit : w = w.take 31 ++ [index] := by
      have hlen : w.length = 31 + 1 := by rw [hword, length_word]
      obtain ⟨hlt', hget'⟩ := List.getElem?_eq_some_iff.mp hindex'
      rw [← hget', List.take_append_getElem, ← hlen, List.take_length]
    rw [not_not.mp hzeros, show index = 0 from UInt8.toNat_inj.mp hval, hword] at hsplit
    have hH0 := beBytes_inj (k := 32) (m := H) (n := 0) (by omega) (by omega) hsplit
    omega

theorem hasMisread_bytes : HasMisread bytes := fun _ h0 =>
  ⟨([] : List UInt8), by decide, misreads_Bytes h0 _⟩

theorem hasMisread_string : HasMisread string := fun _ h0 =>
  ⟨"", by decide, misreads_string h0 _⟩

theorem hasMisread_vec (elem : Ty) : HasMisread (vec elem) := by
  intro H h0
  refine ⟨([] : List elem.impl.Carrier), ?_, misreads_Vec h0 _⟩
  change (enc (.array elem.abi) (vecToAbi elem.toAbi [])).length ≤ 64 + room elem
  rw [enc_vecToAbi, List.length_append, length_word]
  simp [elemParts, layout, heads, tails]
  omega

/-- A part of a sequence takes at most a word more than its bytes. -/
theorem part_le {p : Part} {r : ℕ} (h : p.body.length ≤ r) : p.headLen + p.tail.length ≤ 32 + r := by
  rw [Part.headLen, Part.tail]
  cases p.dynamic <;> simp <;> omega

theorem length_replicate_parts (p : Part) (n : ℕ) :
    headLen (List.replicate n p) + (tails (List.replicate n p)).length = n * (p.headLen + p.tail.length) := by
  induction n with
  | zero => simp [tails]
  | succ n ih =>
    rw [List.replicate_succ, headLen_cons, length_tails_cons, Nat.succ_mul, ← ih]
    omega

theorem hasMisread_array {elem : Ty} {n : ℕ} (hc : elem.Codable = true) (hn : 0 < n) (h : HasMisread elem) :
    HasMisread (array elem n) := by
  intro H h0
  obtain ⟨m, rfl⟩ : ∃ m, n = m + 1 := ⟨n - 1, by omega⟩
  obtain ⟨v, hlen, hv⟩ := h (if elem.impl.isDynamic then (m + 1) * 32 else H) (by split_ifs <;> omega)
  have henc : ∀ vs : (Types.array elem.impl (m + 1)).Carrier,
      enc (array elem (m + 1)).abi ((array elem (m + 1)).toAbi vs) = layout (elemParts elem.toAbi vs.1) :=
    fun vs => enc_arrayToAbi vs
  have hsize : (layout (elemParts elem.toAbi (List.replicate (m + 1) v))).length ≤ room (array elem (m + 1)) := by
    rw [length_layout, elemParts, List.map_replicate, length_replicate_parts]
    exact Nat.mul_le_mul (by omega) (part_le hlen)
  refine ⟨(⟨List.replicate (m + 1) v, List.length_replicate⟩ : (Types.array elem.impl (m + 1)).Carrier),
    le_of_eq_of_le (congrArg List.length (henc _)) hsize,
    fun input pos hs hH hat hbody => misreads_array (represents hc) hv input pos hs hH hat fun hd => ?_⟩
  exact Eq.mp (congrArg (At input (pos + H)) (henc _)) (hbody hd)

/-- There are small values of all types of a list. -/
theorem exists_small {ts : List Ty} (h : ∀ t ∈ ts, HasMisread t) : ∃ vals : Types.Fields (impls ts),
    headLen (encParts (abis ts) (toAbis ts vals)) + (tails (encParts (abis ts) (toAbis ts vals))).length ≤
      rooms ts := by
  induction ts with
  | nil => exact ⟨(), le_refl _⟩
  | cons t ts ih =>
    obtain ⟨v, hlen, -⟩ := h t List.mem_cons_self 1 (by omega)
    obtain ⟨vals, hvals⟩ := ih fun t' ht' => h t' (List.mem_cons_of_mem _ ht')
    have hpart := part_le (p := ⟨t.abi.isDynamic, enc t.abi (t.toAbi v)⟩) hlen
    refine ⟨((v, vals) : t.impl.Carrier × Types.Fields (impls ts)), ?_⟩
    change headLen (⟨t.abi.isDynamic, enc t.abi (t.toAbi v)⟩ :: encParts (abis ts) (toAbis ts vals)) +
      (tails (⟨t.abi.isDynamic, enc t.abi (t.toAbi v)⟩ :: encParts (abis ts) (toAbis ts vals))).length ≤ rooms (t :: ts)
    rw [headLen_cons, length_tails_cons, rooms]
    omega

theorem cast_cast_symm {α β : Type} (h : α = β) (b : β) : cast h (cast h.symm b) = b := by
  subst h
  rfl

/-- The first field of a list is misread. -/
theorem hasMisread_fields {t : Ty} {ts : List Ty} (hc : ∀ t' ∈ t :: ts, t'.Codable = true)
    (h : ∀ t' ∈ t :: ts, HasMisread t') {H : ℕ} (h0 : 0 < H) : ∃ vals : Types.Fields (impls (t :: ts)),
    (layout (encParts (abis (t :: ts)) (toAbis (t :: ts) vals))).length ≤ rooms (t :: ts) ∧
      Misreads (Types.tuple (impls (t :: ts)))
        (fun vals => layout (encParts (abis (t :: ts)) (toAbis (t :: ts) vals))) H vals := by
  have hsize : 0 < tupleHeadSize (impls (t :: ts)) := by
    have hpos := slotSize_pos (hc t List.mem_cons_self)
    rw [show tupleHeadSize (impls (t :: ts)) = t.impl.slotSize + tupleHeadSize (impls ts) from
      tupleHeadSize_cons _ _]
    omega
  obtain ⟨v, hlen, hv⟩ := h t List.mem_cons_self
    (if t.impl.isDynamic then tupleHeadSize (impls (t :: ts)) else H) (by split_ifs <;> omega)
  obtain ⟨vals, hvals⟩ := exists_small fun t' ht' => h t' (List.mem_cons_of_mem _ ht')
  have hreps := representsAll fun t' ht' => represents (hc t' (List.mem_cons_of_mem _ ht'))
  refine ⟨((v, vals) : t.impl.Carrier × Types.Fields (impls ts)), ?_,
    misreads_tuple (represents (hc t List.mem_cons_self)) hreps hv vals⟩
  have hpart := part_le (p := ⟨t.abi.isDynamic, enc t.abi (t.toAbi v)⟩) hlen
  change (layout (⟨t.abi.isDynamic, enc t.abi (t.toAbi v)⟩ :: encParts (abis ts) (toAbis ts vals))).length ≤ _
  rw [length_layout, headLen_cons, length_tails_cons, rooms]
  omega

theorem hasMisread_tuple {ts : List Ty} (hne : ts ≠ []) (hc : ∀ t ∈ ts, t.Codable = true)
    (h : ∀ t ∈ ts, HasMisread t) : HasMisread (tuple ts) := by
  intro H h0
  cases ts with
  | nil => exact absurd rfl hne
  | cons t ts => exact hasMisread_fields hc h h0

theorem hasMisread_struct {idents : List (Option String)} {ts : List Ty} (hne : ts ≠ [])
    (hc : (struct idents ts).Codable = true) (h : ∀ t ∈ ts, HasMisread t) : HasMisread (struct idents ts) := by
  intro H h0
  cases ts with
  | nil => exact absurd rfl hne
  | cons t ts =>
    obtain ⟨vals, hlen, hmis⟩ := hasMisread_fields (all_struct hc) h h0
    have hcodec := struct_codec (proper_of_codable hc)
    have hC := expandSolType_carrier idents (rusts (t :: ts))
    have henc : enc (struct idents (t :: ts)).abi ((struct idents (t :: ts)).toAbi (cast hC.symm vals)) =
        layout (encParts (abis (t :: ts)) (toAbis (t :: ts) vals)) := by
      exact congrArg (fun vals => layout (encParts (abis (t :: ts)) (toAbis (t :: ts) vals))) (cast_cast_symm hC vals)
    refine ⟨cast hC.symm vals, ?_, fun input pos hs hH hat hbody hret => ?_⟩
    · exact le_of_eq_of_le (congrArg List.length henc) hlen
    · have hle := hat.le
      have hs' := hs
      unfold IsSlice at hs'
      refine hmis input pos hs hH hat (fun hd => ?_) ?_
      · exact Eq.mp (congrArg (At input (pos + H)) henc) (hbody (hcodec.isDynamic.trans hd))
      · rw [← hcodec.decodeTail .checked input pos hs (.inl ⟨rfl, by omega⟩)]
        exact returns_bind.mpr ⟨_, hret, returns_pure.mpr (cast_cast_symm hC vals)⟩

/-- **Every codable type has a value that is misread** at its offset word. -/
theorem hasMisread {t : Ty} (h : t.Codable = true) : HasMisread t := by
  refine induction_of_all (motive := fun t => t.Codable = true → HasMisread t) (fun k _ => hasMisread_prim k)
    (fun hu => by simp [notUnit] at hu) (fun n _ h => hasMisread_bytesN h) (fun _ => hasMisread_bytes)
    (fun _ => hasMisread_string) (fun elem _ _ => hasMisread_vec elem) (fun elem n hn ih h => ?_)
    (fun elems he ih h => ?_) (fun idents fields hf ih h => ?_) (fun n _ h => hasMisread_enum h) t h h
  · simp [compilesHere, notUnit, notEmpty] at hn
    exact hasMisread_array (all_array h) hn.2 (ih (all_array h))
  · simp [compilesHere, notUnit, notEmpty] at he
    exact hasMisread_tuple (List.ne_nil_of_length_pos he.1) (all_tuple h) fun t ht => ih t ht (all_tuple h t ht)
  · simp [compilesHere, notUnit, notEmpty] at hf
    exact hasMisread_struct (List.ne_nil_of_length_pos hf) h fun t ht => ih t ht (all_struct h t ht)

/-- The decoder of a body that is read in place is the one for tails. -/
theorem decodeAt_of_bodyAt {t : Ty} (h : t.bodyAt = true) : t.impl.decodeAt = t.impl.decodeTail := by
  cases t with
  | array | tuple => rfl
  | struct idents fields =>
    change (expandSolType idents (rusts fields)).decodeAt = (expandSolType idents (rusts fields)).decodeTail
    rw [expandSolType]
    cases needsDynamic (rusts fields) <;> rfl
  | prim | unit | bytesN | bytes | string | vec | enum => exact Bool.noConfusion (show false = true from h)

theorem isDynamic_of_bodyAt {t : Ty} (h : t.bodyAt = true) : t.impl.isDynamic = true := by
  cases t with
  | array | tuple | struct => exact h
  | prim | unit | bytesN | bytes | string | vec | enum => exact Bool.noConfusion (show false = true from h)

theorem returns_of_guard {α : Type} {c : Prop} [Decidable c] {x : Run α} {a : α}
    (h : Returns (if c then fail else x) a) : Returns x a := by
  split at h
  · exact absurd h not_returns_fail
  · exact h

/-- A parameter list that begins with a body read in place. -/
theorem not_decodesCall {t : Ty} {ts : List Ty} (h : ∀ t' ∈ t :: ts, t'.Codable = true) (hbody : t.bodyAt = true)
    (hfit : rooms (t :: ts) < 2 ^ 63) : ¬DecodesCall (t :: ts) := by
  rintro ⟨decode, hdec, hreturns⟩
  have hc := h t List.mem_cons_self
  have hd := isDynamic_of_bodyAt hbody
  have hrep := represents hc
  have hreps := representsAll fun t' ht' => represents (h t' ht')
  have hsize : 0 < tupleHeadSize (impls (t :: ts)) := by
    have hpos := slotSize_pos hc
    rw [show tupleHeadSize (impls (t :: ts)) = t.impl.slotSize + tupleHeadSize (impls ts) from
      tupleHeadSize_cons _ _]
    omega
  obtain ⟨v, hlen, hv⟩ := hasMisread hc _ hsize
  obtain ⟨vals, hvals⟩ := exists_small fun t' ht' => hasMisread (h t' (List.mem_cons_of_mem _ ht'))
  have hpart := part_le (p := ⟨t.abi.isDynamic, enc t.abi (t.toAbi v)⟩) hlen
  have hlayout : (layout (⟨t.abi.isDynamic, enc t.abi (t.toAbi v)⟩ :: encParts (abis ts) (toAbis ts vals))).length ≤
      rooms (t :: ts) := by
    rw [length_layout, headLen_cons, length_tails_cons, rooms]
    omega
  have hs : IsSlice (AbiType.abiEncode (abis (t :: ts)) (toAbis (t :: ts) (v, vals))) := lt_of_le_of_lt hlayout hfit
  have hret := hreturns .checked (v, vals) hs
  have hat : At (AbiType.abiEncode (abis (t :: ts)) (toAbis (t :: ts) (v, vals))) 0
      (layout (⟨t.abi.isDynamic, enc t.abi (t.toAbi v)⟩ :: encParts (abis ts) (toAbis ts vals))) :=
    ⟨Nat.zero_le _, List.prefix_refl _⟩
  have hheadLen : headLen (⟨t.abi.isDynamic, enc t.abi (t.toAbi v)⟩ :: encParts (abis ts) (toAbis ts vals)) =
      tupleHeadSize (impls (t :: ts)) := hreps.headLen_eq ((v, vals) : t.impl.Carrier × Types.Fields (impls ts))
  generalize AbiType.abiEncode (abis (t :: ts)) (toAbis (t :: ts) (v, vals)) = input at hs hret hat
  rw [At.layout_iff, hheadLen] at hat
  obtain ⟨hheads, htails⟩ := hat
  have hhead := (At.heads_cons.mp hheads).1
  have htail := (At.tails_cons.mp htails).1
  rw [Part.head, ← hrep.dynamic, hd, if_pos rfl] at hhead
  rw [Part.tail, ← hrep.dynamic, hd, if_pos rfl] at htail
  obtain ⟨params, hparams, hdec⟩ := Option.bind_eq_some_iff.mp hdec
  obtain ⟨decodeAt, hdecAt, hparams⟩ := Option.bind_eq_some_iff.mp hparams
  obtain ⟨rest, -, hparams⟩ := Option.bind_eq_some_iff.mp hparams
  obtain rfl := Option.some.inj ((decodeParam_of_dynamic (proper_of_codable hc) hd).symm.trans hdecAt)
  obtain rfl := Option.some.inj hparams
  obtain rfl := Option.some.inj hdec
  obtain ⟨size, -, hret⟩ := returns_bind.mp hret
  obtain ⟨value, hvalue, hret⟩ := returns_bind.mp (returns_of_guard hret)
  obtain ⟨offset, -, hret⟩ := returns_bind.mp hret
  obtain ⟨values, -, hret⟩ := returns_bind.mp hret
  obtain rfl := (Prod.mk.inj (returns_pure.mp hret)).1
  have hle := htail.le
  have hs' := hs
  unfold IsSlice at hs'
  rw [decodeAt_of_bodyAt hbody] at hvalue
  exact hv input 0 hs (by omega) hhead (fun _ => htail) hvalue

/-- The room for a list does not depend on its order. -/
theorem rooms_perm {ts us : List Ty} (h : us.Perm ts) : rooms us = rooms ts := by
  induction h with
  | nil => rfl
  | cons t _ ih => rw [rooms, rooms, ih]
  | swap t u ts =>
    simp only [rooms]
    omega
  | trans _ _ ih ih' => exact ih.trans ih'

/-- **The dispatcher and the tuple codec**: a parameter list is read back when no parameter is a
dynamic tuple, a dynamic struct or an array of dynamic elements. With such a parameter it is not, at
least when that parameter comes first. (The values of the types have to fit in the calldata.) -/
theorem decodesCall_iff {ts : List Ty} (h : ∀ t ∈ ts, t.Codable = true) :
    ((∀ t ∈ ts, t.bodyAt = false) → DecodesCall ts) ∧
      (rooms ts < 2 ^ 63 → (∀ us, us.Perm ts → DecodesCall us) → ∀ t ∈ ts, t.bodyAt = false) := by
  refine ⟨fun hbody => decodesCall fun t ht => ⟨h t ht, hbody t ht⟩, fun hfit hall t ht => ?_⟩
  by_contra hbody
  obtain ⟨as, bs, rfl⟩ := List.append_of_mem ht
  have hperm : (t :: (as ++ bs)).Perm (as ++ t :: bs) := List.perm_middle.symm
  exact not_decodesCall (fun t' ht' => h t' (hperm.mem_iff.mp ht')) (by simpa using hbody)
    (by rw [rooms_perm hperm]; exact hfit) (hall _ hperm)

theorem decodesCall_plain : DecodesCall [prim .address, vec (prim .U256), tuple [prim .bool, prim .u8], string] :=
  (@decodesCall_iff [prim .address, vec (prim .U256), tuple [prim .bool, prim .u8], string]
    (by decide)).1 (by decide)

set_option maxRecDepth 4096 in
/-- A pair of a number and a byte string: the number is read from the pair's own pointer, and the pointer
to the byte string from the number. -/
theorem pair_misread :
    let input := word 32 ++ word 96 ++ word 64 ++ word 0
    AbiType.abiEncode (abis [tuple [prim .U256, bytes]]) (((96#256, [], ()), ()) : (BitVec 256 × List UInt8 × Unit) × Unit) =
        input ∧
      (∃ decode, decodeCall (rusts [tuple [prim .U256, bytes]]) = some decode ∧
        Returns (decode .checked input) (((32#256, [], ()), ()) : (BitVec 256 × List UInt8 × Unit) × Unit)) ∧
      ¬DecodesCall [tuple [prim .U256, bytes]] := by
  have hwrong : ∃ decode, decodeCall (rusts [tuple [prim .U256, bytes]]) = some decode ∧
      Returns (decode .checked (word 32 ++ word 96 ++ word 64 ++ word 0))
        (((32#256, [], ()), ()) : (BitVec 256 × List UInt8 × Unit) × Unit) := ⟨_, rfl, rfl⟩
  refine ⟨rfl, hwrong, ?_⟩
  rintro ⟨decode, hdec, hreturns⟩
  obtain ⟨decode', hdec', h32⟩ := hwrong
  obtain rfl := Option.some.inj (hdec'.symm.trans hdec)
  have hs : IsSlice (word 32 ++ word 96 ++ word 64 ++ word 0) := by
    simp only [IsSlice, List.length_append, length_word]
    omega
  have hret := hreturns .checked (((96#256, [], ()), ()) : (BitVec 256 × List UInt8 × Unit) × Unit) hs
  have hne : ((((96#256, [], ()), ()) : (BitVec 256 × List UInt8 × Unit) × Unit)) ≠ ((32#256, [], ()), ()) := by
    decide
  exact hne (hret.unique h32)

end Ty

end PvmContract.Macros
