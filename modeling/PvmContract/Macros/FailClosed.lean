import Mathlib.Algebra.Order.BigOperators.Group.List
import PvmContract.Macros.StructLayout
import PvmContract.Types.HostileLaws

/-!
# Which decoders fail closed

`far` and `near` say where a hostile input can make a decoder overflow. A type is
`far` if its decoder begins with a static value, which it reads with a plain `+`;
so it overflows at the end of the address space. It is `near` if somewhere in it
an offset word leads to a far type: the word can lead to the end of the address
space. `closed_iff` says that these are the only ways to overflow, and that they
are ways indeed.
-/

namespace PvmContract.Macros

open Data Run PvmContract.Types Abi AbiType

/-! ### Structs -/

section

variable {c : SolCodec} {Ts : List SolCodec} {split : c.Carrier → Types.Fields Ts} (h : TupleCodec c Ts split)

include h

theorem TupleCodec.guarded {far : Bool} (hg : Guarded (tuple Ts) far) : Guarded c far where
  decodeAt input off hs hoff hfar := by
    have hsafe := hg.decodeAt input off hs hoff hfar
    rw [← h.decodeAt .checked input off hs (.inl ⟨rfl, hoff⟩)] at hsafe
    exact safe_of_map hsafe
  decodeTail input off hs hoff hfar := by
    have hsafe := hg.decodeTail input off hs hoff hfar
    rw [← h.decodeTail .checked input off hs (.inl ⟨rfl, hoff⟩)] at hsafe
    exact safe_of_map hsafe

theorem TupleCodec.aborts_decodeAt {input : List UInt8} {off : ℕ} (hs : IsSlice input) (hoff : off < 2 ^ 64)
    (ha : Aborts ((tuple Ts).decodeAt .checked input off)) : Aborts (c.decodeAt .checked input off) := by
  rw [← h.decodeAt .checked input off hs (.inl ⟨rfl, hoff⟩)] at ha
  exact aborts_of_map ha

theorem TupleCodec.aborts_decodeTail {input : List UInt8} {off : ℕ} (hs : IsSlice input) (hoff : off < 2 ^ 64)
    (ha : Aborts ((tuple Ts).decodeTail .checked input off)) : Aborts (c.decodeTail .checked input off) := by
  rw [← h.decodeTail .checked input off hs (.inl ⟨rfl, hoff⟩)] at ha
  exact aborts_of_map ha

theorem TupleCodec.overflows_decodeAt (ho : Overflows ((tuple Ts).decodeAt .checked)) :
    Overflows (c.decodeAt .checked) := fun input hs => h.aborts_decodeAt hs (by omega) (ho input hs)

theorem TupleCodec.overflows_decodeTail (ho : Overflows ((tuple Ts).decodeTail .checked)) :
    Overflows (c.decodeTail .checked) := fun input hs => h.aborts_decodeTail hs (by omega) (ho input hs)

theorem TupleCodec.hostile {r : ℕ} (hh : Hostile (tuple Ts) r) : Hostile c r := by
  intro pre hpre
  obtain ⟨body, hbody, ha⟩ := hh pre hpre
  refine ⟨body, hbody, h.aborts_decodeTail ?_ (by omega) ha⟩
  rw [IsSlice, List.length_append]
  omega

theorem TupleCodec.benignStatic (hc : c.headSize = tupleHeadSize Ts) (hb : BenignStatic (tuple Ts)) :
    BenignStatic c := by
  intro input off hs hat
  have hle := hat.le
  have hs' := hs
  unfold IsSlice at hs'
  rw [hc] at hat
  obtain ⟨vals, hvals⟩ := hb input off hs hat
  rw [← h.decodeAt .checked input off hs (.inl ⟨rfl, by omega⟩)] at hvals
  exact exists_of_returns_map hvals

theorem TupleCodec.benignTail {r : ℕ} (hb : BenignTail (tuple Ts) r) : BenignTail c r := by
  intro input off hs hat
  have hle := hat.le
  have hs' := hs
  unfold IsSlice at hs'
  obtain ⟨vals, hvals⟩ := hb input off hs hat
  rw [← h.decodeTail .checked input off hs (.inl ⟨rfl, by omega⟩)] at hvals
  exact exists_of_returns_map hvals

end

/-- The only value of a tuple without bytes is that of the struct. -/
theorem TupleCodec.readsNothing {c : SolCodec} {Ts : List SolCodec} {hC : c.Carrier = Types.Fields Ts}
    (h : TupleCodec c Ts (cast hC)) (hr : ReadsNothing (tuple Ts)) : ReadsNothing c := by
  obtain ⟨vals, hvals⟩ := hr
  refine ⟨cast hC.symm vals, fun input off hs hoff => ?_⟩
  have hread := (h.decodeAt .checked input off hs (.inl ⟨rfl, hoff⟩)).trans (hvals input off hs hoff)
  generalize c.decodeAt .checked input off = x at hread ⊢
  exact eq_pure_of_cast hC hread

namespace Ty

/-! ### Where a decoder can be led astray -/

/-- The decoder begins with the bytes of a static value. -/
def far : Ty → Bool
  | tuple elems => farFields (impls elems)
  | struct _ fields => farFields (impls fields)
  | t => !t.impl.isDynamic && t.impl.headSize != 0

mutual

/-- An offset word in the type leads to a far type. -/
def near : Ty → Bool
  | vec elem => elem.impl.isDynamic && (far elem || near elem)
  | array elem n => n != 0 && elem.impl.isDynamic && (far elem || near elem)
  | tuple elems => nearAny elems
  | struct _ fields => nearAny fields
  | _ => false

/-- The offset word of one of the fields does. -/
def nearAny : List Ty → Bool
  | [] => false
  | t :: ts => (t.impl.isDynamic && (far t || near t)) || nearAny ts

end

mutual

/-- Bytes enough for an input of the type, benign or hostile. -/
def room : Ty → ℕ
  | vec elem => 64 + room elem
  | array elem n => (n + 1) * (32 + room elem)
  | tuple elems => rooms elems
  | struct _ fields => rooms fields
  | _ => 32

/-- The bytes for a sequence. -/
def rooms : List Ty → ℕ
  | [] => 0
  | t :: ts => 32 + 2 * room t + rooms ts

end

/-! ### The facts about single decoders -/

/-- What the decoders of a type do at zeros, and at the end of the address space. -/
structure Behaves (t : Ty) : Prop where
  tail_eq : t.impl.isDynamic = false → t.impl.decodeTail = t.impl.decodeAt
  readsNothing : t.impl.isDynamic = false → t.impl.headSize = 0 → ReadsNothing t.impl
  overflows : t.impl.isDynamic = false → t.impl.headSize ≠ 0 → Overflows (t.impl.decodeAt .checked)
  far_overflows : far t = true → Overflows (t.impl.decodeTail .checked)
  benignStatic : t.impl.isDynamic = false → BenignStatic t.impl
  benignTail : t.impl.isDynamic = true → BenignTail t.impl (room t)
  slot_le : t.impl.slotSize ≤ room t

/-- A type that is one word. -/
theorem behaves_word {t : Ty} (hd : t.impl.isDynamic = false) (h32 : t.impl.headSize = 32) (hroom : room t = 32)
    (htail : t.impl.decodeTail = t.impl.decodeAt) (hover : Overflows (t.impl.decodeAt .checked))
    (hzeros : BenignStatic t.impl) : Behaves t where
  tail_eq _ := htail
  readsNothing _ h0 := absurd (h32.symm.trans h0) (by omega)
  overflows _ _ := hover
  far_overflows _ := by rw [htail]; exact hover
  benignStatic _ := hzeros
  benignTail hdyn := Bool.noConfusion (hd.symm.trans hdyn)
  slot_le := by rw [SolCodec.slotSize_static hd, h32, hroom]

/-- A type that begins with an offset word or a length. -/
theorem behaves_pointer {t : Ty} (hd : t.impl.isDynamic = true) (hfar : far t = false)
    (hzeros : BenignTail t.impl (room t)) (hroom : 32 ≤ room t) : Behaves t where
  tail_eq hs := Bool.noConfusion (hd.symm.trans hs)
  readsNothing hs := Bool.noConfusion (hd.symm.trans hs)
  overflows hs := Bool.noConfusion (hd.symm.trans hs)
  far_overflows hf := Bool.noConfusion (hfar.symm.trans hf)
  benignStatic hs := Bool.noConfusion (hd.symm.trans hs)
  benignTail _ := hzeros
  slot_le := by rw [SolCodec.slotSize_dynamic hd]; exact hroom

theorem behaves_prim (k : Prim) : Behaves (prim k) := by
  cases k <;> refine behaves_word rfl rfl rfl rfl ?_ ?_ <;> first
    | exact overflows_staticType reads_getByte (by omega)
    | exact benign_staticType reads_getByte (by omega)
    | exact overflows_staticType reads_getPair (by omega)
    | exact benign_staticType reads_getPair (by omega)
    | exact overflows_staticType (reads_getLow (by omega)) (by omega)
    | exact benign_staticType (reads_getLow (by omega)) (by omega)
    | exact overflows_staticType (reads_getRangeAt (by omega)) (by omega)
    | exact benign_staticType (reads_getRangeAt (by omega)) (by omega)

theorem behaves_bytesN {n : ℕ} (hn : 0 < n) (h32 : n ≤ 32) : Behaves (bytesN n) := by
  have hget := reads_getRangeAt h32
  refine behaves_word rfl rfl rfl rfl (fun input _ => (aborts_get hget hn input).bind_left _) ?_
  intro input off hs hat
  have hzeros : BenignStatic (staticType (ByteArr n) "" (fun val => padRight val.1) (getRangeAt n)
      (uncheckedRange 0 n) (toByteArr n)) := benign_staticType hget (by omega)
  exact hzeros input off hs hat

theorem behaves_enum {n : ℕ} (hn : 0 < n) (h256 : n ≤ 256) : Behaves (enum n) := by
  refine behaves_word rfl rfl rfl rfl
    (fun input _ => (aborts_get (reads_getRangeAt (le_refl 32)) (by omega) input).bind_left _) ?_
  intro input off hs hat
  have hword : enc (.uint (8 * 1)) (BitVec.ofNat 8 (⟨0, hn⟩ : Fin n)) = List.replicate 32 0 := by
    rw [enc]
    exact word_zero
  have hat' : At input off (enc (.uint (8 * 1)) (BitVec.ofNat 8 (⟨0, hn⟩ : Fin n))) := by
    rw [hword]
    exact hat
  exact ⟨_, enumRead_returns h256 hs hat'⟩

theorem behaves_array {elem : Ty} (h : Behaves elem) (n : ℕ) : Behaves (array elem n) := by
  have hhead : (array elem n).impl.headSize = elem.impl.slotSize * n := rfl
  have hslot : elem.impl.isDynamic = false → elem.impl.slotSize = elem.impl.headSize := SolCodec.slotSize_static
  have hroom : room (array elem n) = 32 * n + n * room elem + (32 + room elem) := by
    rw [room]
    ring
  have hover : elem.impl.isDynamic = false → (array elem n).impl.headSize ≠ 0 →
      Overflows ((array elem n).impl.decodeAt .checked) := by
    intro hd h0
    rw [hhead, hslot hd] at h0
    refine overflows_array (h.overflows hd fun hz => h0 (by rw [hz, Nat.zero_mul])) hd ?_
    rcases Nat.eq_zero_or_pos n with rfl | hn
    · exact absurd rfl h0
    · exact hn
  refine ⟨fun _ => rfl, fun hd h0 => ?_, hover, fun hfar => ?_,
    fun hd => benign_array_static (h.benignStatic hd) hd n, fun hd => ?_, ?_⟩
  · rw [hhead, hslot hd] at h0
    rcases Nat.mul_eq_zero.mp h0 with hz | rfl
    · exact readsNothing_array (T := elem.impl) hd hz (h.readsNothing hd hz) n
    · exact ⟨⟨[], rfl⟩, fun _ _ _ _ => rfl⟩
  · obtain ⟨hd, h0⟩ := (Bool.and_eq_true _ _).mp hfar
    exact hover ((Bool.not_eq_true' _).mp hd) (bne_iff_ne.mp h0)
  · refine (benign_array_dynamic (h.benignTail hd) hd n).mono ?_
    have hle := Nat.zero_le (n * room elem)
    omega
  · rw [SolCodec.slotSize]
    split_ifs
    · omega
    · rw [hhead, Nat.mul_comm]
      have hmul := Nat.mul_le_mul_left n h.slot_le
      omega

theorem room_le_rooms {ts : List Ty} {t : Ty} (h : t ∈ ts) : room t ≤ rooms ts := by
  induction ts with
  | nil => simp at h
  | cons t' ts ih =>
    rw [rooms]
    rcases List.mem_cons.mp h with rfl | h
    · omega
    · have hle := ih h
      omega

theorem head_le_rooms {ts : List Ty} (h : ∀ t ∈ ts, Behaves t) : tupleHeadSize (impls ts) ≤ rooms ts := by
  induction ts with
  | nil => exact le_refl _
  | cons t ts ih =>
    have ht := (h t List.mem_cons_self).slot_le
    have hts := ih fun t' ht' => h t' (List.mem_cons_of_mem _ ht')
    rw [show tupleHeadSize (impls (t :: ts)) = t.impl.slotSize + tupleHeadSize (impls ts) from
      tupleHeadSize_cons _ _, rooms]
    omega

section

variable {ts : List Ty} (h : ∀ t ∈ ts, Behaves t)

include h

theorem readsNothing_impls : ∀ T ∈ impls ts, T.isDynamic = false → T.headSize = 0 → ReadsNothing T := by
  intro T hT
  obtain ⟨t, ht, rfl⟩ := mem_impls hT
  exact (h t ht).readsNothing

theorem overflows_impls : ∀ T ∈ impls ts, T.isDynamic = false → T.headSize ≠ 0 → Overflows (T.decodeAt .checked) := by
  intro T hT
  obtain ⟨t, ht, rfl⟩ := mem_impls hT
  exact (h t ht).overflows

theorem benignStatic_impls : ∀ T ∈ impls ts, T.isDynamic = false → BenignStatic T := by
  intro T hT
  obtain ⟨t, ht, rfl⟩ := mem_impls hT
  exact (h t ht).benignStatic

theorem benignTail_impls {r : ℕ} (hr : ∀ t ∈ ts, room t ≤ r) :
    ∀ T ∈ impls ts, T.isDynamic = true → BenignTail T r := by
  intro T hT hd
  obtain ⟨t, ht, rfl⟩ := mem_impls hT
  exact ((h t ht).benignTail hd).mono (hr t ht)

theorem behaves_tuple : Behaves (tuple ts) := by
  have hover : farFields (impls ts) = true → Overflows ((tuple ts).impl.decodeAt .checked) :=
    overflows_tuple (readsNothing_impls h) (overflows_impls h)
  refine ⟨fun _ => rfl, fun hd h0 => ?_, fun hd h0 => hover (farFields_of_static hd h0), hover,
    fun hd input off hs hat => ?_, fun hd input off hs hat => ?_, ?_⟩
  · refine readsNothing_tuple fun T hT => ?_
    have hTd : T.isDynamic = false := by simpa using List.any_eq_false.mp hd T hT
    have hle := slotSize_le_head hT
    rw [SolCodec.slotSize_static hTd, show tupleHeadSize (impls ts) = 0 from h0] at hle
    exact ⟨hTd, by omega, readsNothing_impls h T hT hTd (by omega)⟩
  · have hbound := hat.bound
    have hs' := hs
    unfold IsSlice at hs'
    refine tupleRead_benign (z := 0) (r := 0) hs (by omega) ⟨hat.le, List.nil_prefix⟩ (benignStatic_impls h)
      (fun T hT hTd => ?_) (by rw [benignHead_zero]; exact hat)
    have hTd' : T.isDynamic = false := by simpa using List.any_eq_false.mp hd T hT
    exact Bool.noConfusion (hTd'.symm.trans hTd)
  · have hhead := at_zeros (k := 0) hat (m := tupleHeadSize (impls ts)) (by
      rw [Nat.zero_add]
      exact head_le_rooms h)
    rw [← benignHead_zero] at hhead
    exact tupleRead_benign (z := 0) (r := rooms ts) hs (by omega) hat (benignStatic_impls h)
      (benignTail_impls h fun t ht => room_le_rooms ht) hhead
  · rw [SolCodec.slotSize]
    split_ifs with hd
    · cases ts with
      | nil => exact Bool.noConfusion (show false = true from hd)
      | cons t ts =>
        rw [room, rooms]
        omega
    · exact head_le_rooms h

end

theorem behaves_struct {idents : List (Option String)} {fields : List Ty}
    (hp : (struct idents fields).Proper = true) (h : ∀ t ∈ fields, Behaves t) : Behaves (struct idents fields) := by
  have htuple := behaves_tuple h
  have hc := struct_codec hp
  have hdyn : (struct idents fields).impl.isDynamic = (tuple fields).impl.isDynamic := hc.isDynamic
  have hhead : (struct idents fields).impl.headSize = (tuple fields).impl.headSize :=
    headSize_expandSolType idents (folds (consistent_rusts (all_struct hp)))
  have htail : (struct idents fields).impl.decodeTail = (struct idents fields).impl.decodeAt := by
    change (expandSolType idents (rusts fields)).decodeTail = (expandSolType idents (rusts fields)).decodeAt
    rw [expandSolType]
    cases needsDynamic (rusts fields) <;> rfl
  refine ⟨fun _ => htail, fun hd h0 => ?_, fun hd h0 => ?_, fun hfar => ?_, fun hd => ?_, fun hd => ?_, ?_⟩
  · exact TupleCodec.readsNothing hc (htuple.readsNothing (hdyn ▸ hd) (hhead ▸ h0))
  · exact hc.overflows_decodeAt (htuple.overflows (hdyn ▸ hd) (hhead ▸ h0))
  · exact hc.overflows_decodeTail (htuple.far_overflows hfar)
  · exact hc.benignStatic hhead (htuple.benignStatic (hdyn ▸ hd))
  · exact hc.benignTail (htuple.benignTail (hdyn ▸ hd))
  · exact hc.slotSize.trans_le htuple.slot_le

theorem behaves {t : Ty} (h : t.Proper = true) : Behaves t := by
  refine induction_of_all (motive := fun t => t.Proper = true → Behaves t) (fun k _ => behaves_prim k)
    (fun hu => by simp [notUnit] at hu) (fun n hn _ => ?_)
    (fun _ => behaves_pointer rfl rfl benign_Bytes (le_refl _))
    (fun _ => behaves_pointer rfl rfl benign_string (le_refl _))
    (fun elem _ _ => behaves_pointer rfl rfl ((benign_Vec elem.impl).mono ?_) ?_)
    (fun elem n _ ih h => behaves_array (ih (all_array h)) n)
    (fun elems _ ih h => behaves_tuple fun t ht => ih t ht (all_tuple h t ht))
    (fun idents fields _ ih h => behaves_struct h fun t ht => ih t ht (all_struct h t ht))
    (fun n hn _ => ?_) t h h
  · simp [compilesHere, notUnit] at hn
    exact behaves_bytesN (by omega) (by omega)
  · rw [room]
    omega
  · rw [room]
    omega
  · simp [compilesHere, notUnit] at hn
    exact behaves_enum (by omega) (by omega)

/-! ### No panic where nothing leads astray -/

theorem static_of_not_far {t : Ty} (h : Behaves t) (hin : StaysInside t.impl) (hd : t.impl.isDynamic = false) :
    Guarded t.impl (t.impl.headSize != 0) :=
  guarded_static hin hd (h.tail_eq hd) (h.readsNothing hd)

/-- Where a field is behind an offset word, nothing in it may be far. -/
theorem guarded_behind {t : Ty} (ih : near t = false → Guarded t.impl (far t)) (hd : t.impl.isDynamic = true)
    (h : (t.impl.isDynamic && (far t || near t)) = false) : Guarded t.impl false := by
  rw [hd, Bool.true_and, Bool.or_eq_false_iff] at h
  rw [← h.1]
  exact ih h.2

theorem nearAny_eq_false {ts : List Ty} (h : nearAny ts = false) {t : Ty} (ht : t ∈ ts) :
    (t.impl.isDynamic && (far t || near t)) = false := by
  induction ts with
  | nil => simp at ht
  | cons t' ts ih =>
    obtain ⟨hhead, htail⟩ := Bool.or_eq_false_iff.mp h
    rcases List.mem_cons.mp ht with rfl | ht
    · exact hhead
    · exact ih htail ht

theorem guarded_fields {ts : List Ty} (hp : ∀ t ∈ ts, t.Proper = true)
    (ih : ∀ t ∈ ts, near t = false → Guarded t.impl (far t)) (hn : nearAny ts = false) :
    Guarded (Types.tuple (impls ts)) (farFields (impls ts)) := by
  refine Types.guarded_tuple (fun T hT => ?_) (readsNothing_impls fun t ht => behaves (hp t ht)) fun T hT hd => ?_
  · obtain ⟨t, ht, rfl⟩ := mem_impls hT
    exact staysInside (hp t ht)
  · obtain ⟨t, ht, rfl⟩ := mem_impls hT
    exact guarded_behind (ih t ht) hd (nearAny_eq_false hn ht)

/-- **No offset word leads astray**: the decoders are safe where their first bytes can be read. -/
theorem guarded {t : Ty} (h : t.Proper = true) (hn : near t = false) : Guarded t.impl (far t) := by
  have hstatic : ∀ {t : Ty}, t.Proper = true → t.impl.isDynamic = false → Guarded t.impl (t.impl.headSize != 0) :=
    fun hp hd => static_of_not_far (behaves hp) (staysInside hp) hd
  refine induction_of_all (motive := fun t => t.Proper = true → near t = false → Guarded t.impl (far t))
    (fun k h _ => by cases k <;> exact hstatic h rfl) (fun hu => by simp [notUnit] at hu)
    (fun n _ h _ => hstatic h rfl) (fun _ _ => guarded_Bytes) (fun _ _ => guarded_string)
    (fun elem ih h hn => ?_) (fun elem n _ ih h hn => ?_)
    (fun elems _ ih h hn => guarded_fields (all_tuple h) (fun t ht => ih t ht (all_tuple h t ht)) hn)
    (fun idents fields _ ih h hn => (struct_codec h).guarded
      (guarded_fields (all_struct h) (fun t ht => ih t ht (all_struct h t ht)) hn))
    (fun n _ h _ => hstatic h rfl) t h h hn
  · exact guarded_Vec (fun _ => staysInside (all_vec h)) fun hd => guarded_behind (ih (all_vec h)) hd hn
  · cases hd : elem.impl.isDynamic with
    | false =>
      have hfar : far (array elem n) = ((array elem n).impl.headSize != 0) := by
        change (!elem.impl.isDynamic && _) = _
        rw [hd, Bool.not_false, Bool.true_and]
      rw [hfar]
      exact hstatic h hd
    | true =>
      have hfar : far (array elem n) = false := by
        change (!elem.impl.isDynamic && _) = _
        rw [hd, Bool.not_true, Bool.false_and]
      rw [hfar]
      rcases Nat.eq_zero_or_pos n with rfl | hpos
      · exact ⟨fun _ _ _ _ _ => safe_pure _, fun _ _ _ _ _ => safe_pure _⟩
      · refine Types.guarded_array (guarded_behind (ih (all_array h)) hd ?_) hd n
        have hn' : (n != 0 && elem.impl.isDynamic && (far elem || near elem)) = false := hn
        rwa [show (n != 0) = true from bne_iff_ne.mpr (by omega), Bool.true_and] at hn'

/-! ### A panic where something does -/

theorem poisoned {t : Ty} (h : Behaves t) (ih : near t = true → Hostile t.impl (room t))
    (hfn : (far t || near t) = true) : Poisoned t.impl (room t) := by
  rcases (Bool.or_eq_true _ _).mp hfn with hfar | hnear
  · exact .inl (h.far_overflows hfar)
  · exact .inr (ih hnear)

theorem nearAny_eq_true {ts : List Ty} (h : nearAny ts = true) :
    ∃ t ∈ ts, t.impl.isDynamic = true ∧ (far t || near t) = true := by
  induction ts with
  | nil => exact Bool.noConfusion (show false = true from h)
  | cons t ts ih =>
    rcases (Bool.or_eq_true _ _).mp h with hhead | htail
    · exact ⟨t, List.mem_cons_self, (Bool.and_eq_true _ _).mp hhead⟩
    · obtain ⟨t', ht', h'⟩ := ih htail
      exact ⟨t', List.mem_cons_of_mem _ ht', h'⟩

theorem rooms_append {as bs : List Ty} {t : Ty} (h : ∀ a ∈ as, Behaves a) :
    tupleHeadSize (impls as) + 32 + (as.map room).sum + room t ≤ rooms (as ++ t :: bs) := by
  induction as with
  | nil =>
    rw [List.nil_append, rooms, show tupleHeadSize (impls []) = 0 from rfl, List.map_nil, List.sum_nil]
    omega
  | cons a as ih =>
    have ha := (h a List.mem_cons_self).slot_le
    have has := ih fun a' ha' => h a' (List.mem_cons_of_mem _ ha')
    rw [show tupleHeadSize (impls (a :: as)) = a.impl.slotSize + tupleHeadSize (impls as) from
      tupleHeadSize_cons _ _, List.map_cons, List.sum_cons, List.cons_append, rooms]
    omega

theorem Hostile.mono {T : SolCodec} {r s : ℕ} (h : Hostile T r) (hle : r ≤ s) : Hostile T s := by
  intro pre hpre
  obtain ⟨body, hbody, ha⟩ := h pre (by omega)
  exact ⟨body, by omega, ha⟩

theorem hostile_fields {ts : List Ty} (hb : ∀ t ∈ ts, Behaves t)
    (ih : ∀ t ∈ ts, near t = true → Hostile t.impl (room t)) (hn : nearAny ts = true) :
    Hostile (Types.tuple (impls ts)) (rooms ts) := by
  obtain ⟨t, ht, hd, hfn⟩ := nearAny_eq_true hn
  obtain ⟨as, bs, rfl⟩ := List.append_of_mem ht
  have hbas : ∀ a ∈ as, Behaves a := fun a ha => hb a (List.mem_append_left _ ha)
  have himpls : impls (as ++ t :: bs) = impls as ++ t.impl :: impls bs := by
    simp only [impls, implOf, rusts_eq, List.map_append, List.map_cons]
  rw [himpls]
  refine Hostile.mono (Types.hostile_tuple (impls bs) (benignStatic_impls hbas)
    (benignTail_impls (r := (as.map room).sum) hbas fun a ha => ?_) (poisoned (hb t ht) (ih t ht) hfn) hd)
    (rooms_append hbas)
  exact List.le_sum_of_mem (List.mem_map_of_mem ha)

/-- **An offset word leads astray**: every beginning of an input has a hostile continuation. -/
theorem hostile {t : Ty} (h : t.Proper = true) (hn : near t = true) : Hostile t.impl (room t) := by
  refine induction_of_all (motive := fun t => t.Proper = true → near t = true → Hostile t.impl (room t))
    (fun k _ hn => Bool.noConfusion (show false = true from hn)) (fun hu => by simp [notUnit] at hu)
    (fun n _ _ hn => Bool.noConfusion (show false = true from hn))
    (fun _ hn => Bool.noConfusion (show false = true from hn))
    (fun _ hn => Bool.noConfusion (show false = true from hn)) (fun elem ih h hn => ?_)
    (fun elem n _ ih h hn => ?_)
    (fun elems _ ih h hn => hostile_fields (fun t ht => behaves (all_tuple h t ht))
      (fun t ht => ih t ht (all_tuple h t ht)) hn)
    (fun idents fields _ ih h hn => (struct_codec h).hostile
      (hostile_fields (fun t ht => behaves (all_struct h t ht)) (fun t ht => ih t ht (all_struct h t ht)) hn))
    (fun n _ _ hn => Bool.noConfusion (show false = true from hn)) t h h hn
  · obtain ⟨hd, hfn⟩ := (Bool.and_eq_true _ _).mp hn
    exact hostile_Vec (poisoned (behaves (all_vec h)) (ih (all_vec h)) hfn) hd
  · obtain ⟨hnd, hfn⟩ := (Bool.and_eq_true _ _).mp hn
    obtain ⟨h0, hd⟩ := (Bool.and_eq_true _ _).mp hnd
    have hpos : n ≠ 0 := bne_iff_ne.mp h0
    refine Hostile.mono (Types.hostile_array (poisoned (behaves (all_array h)) (ih (all_array h)) hfn) hd
      (by omega)) ?_
    rw [room]
    exact Nat.le_mul_of_pos_left _ (by omega)

/-! ### The equivalence -/

/-- **A decoder that fails closed**: it ends with a value or an error, no arithmetic overflows, so
that the build profile makes no difference, and no vector of more than `lim` elements is reserved. -/
structure FailsClosed {α : Type} (lim : ℕ) (decode : Profile → Run α) : Prop where
  safe : Safe lim (decode .checked)
  noOverflow : decode .wrapping = decode .checked

theorem failsClosed {α : Type} {lim : ℕ} {decode : Profile → Run α} (hs : Safe lim (decode .checked))
    (ha : Agrees (decode .checked) (decode .wrapping)) : FailsClosed lim decode := ⟨hs, ha hs.no_panic⟩

/-- The decoders of all types but byte strings and vectors start with the body. -/
theorem decodeAt_eq_or (t : Ty) : t.impl.decodeAt = t.impl.decodeTail ∨
    (far t = false ∧ t.impl.isTuple = false ∧ t.impl.isDynamic = true ∧ ∀ input off ptr, Returns (readWordOffset input off) ptr →
      Aborts (t.impl.decodeTail .checked input ptr) → Aborts (t.impl.decodeAt .checked input off)) := by
  cases t with
  | prim k => cases k <;> exact .inl rfl
  | bytes => exact .inr ⟨rfl, rfl, rfl, fun _ _ _ hptr ha => hptr.aborts_bind ha⟩
  | string => exact .inr ⟨rfl, rfl, rfl, fun _ _ _ hptr ha => hptr.aborts_bind ha⟩
  | vec elem => exact .inr ⟨rfl, rfl, rfl, fun _ _ _ hptr ha => hptr.aborts_bind ha⟩
  | struct idents fields =>
    refine .inl ?_
    change (expandSolType idents (rusts fields)).decodeAt = (expandSolType idents (rusts fields)).decodeTail
    rw [expandSolType]
    cases needsDynamic (rusts fields) <;> rfl
  | _ => exact .inl rfl

section

variable {t : Ty} (h : t.Proper = true) (hroom : 32 + room t < 2 ^ 63)

include h hroom

/-- A near type overflows on some input, from wherever it is entered. -/
theorem exists_aborts_of_near (hn : near t = true) :
    (∃ input off, IsSlice input ∧ off + 32 < 2 ^ 64 ∧ Aborts (t.impl.decodeTail .checked input off)) ∧
    (∃ input off, IsSlice input ∧ off + 32 < 2 ^ 64 ∧ Aborts (t.impl.decodeAt .checked input off)) ∧
    ∃ input, IsSlice input ∧ Aborts (t.impl.decode .checked input) := by
  have hhost := hostile h hn
  obtain ⟨body, hbody, ha⟩ := hhost [] (by rw [List.length_nil]; omega)
  obtain ⟨body', hbody', ha'⟩ := hhost (word 32) (by rw [length_word]; omega)
  have hs : IsSlice body := by
    unfold IsSlice
    omega
  have hs' : IsSlice (word 32 ++ body') := by
    rw [IsSlice, List.length_append, length_word]
    omega
  have hat : At (word 32 ++ body') 0 (word 32) := .intro [] (word 32) body'
  have hptr := readWordOffset_word hs' hat (by omega)
  have hdyn : t.impl.isTuple = false → t.impl.isDynamic = true → Aborts (t.impl.decode .checked (word 32 ++ body')) := by
    intro htuple hd
    obtain ⟨-, bs, hbs, hval⟩ := returns_readWordOffset.mp hptr
    rw [SolCodec.decode, htuple, hd, if_neg (by decide)]
    refine Returns.aborts_bind (returns_ofOption.mpr hbs) ?_
    rw [hval]
    exact ha'
  refine ⟨⟨body, 0, hs, by omega, ha⟩, ?_, ?_⟩
  · rcases decodeAt_eq_or t with heq | ⟨-, -, -, hlead⟩
    · exact ⟨body, 0, hs, by omega, by rw [heq]; exact ha⟩
    · exact ⟨word 32 ++ body', 0, hs', by omega, hlead _ _ _ hptr ha'⟩
  · rcases decodeAt_eq_or t with heq | ⟨-, htuple, hd, -⟩
    · by_cases htop : (t.impl.isTuple || !t.impl.isDynamic) = true
      · refine ⟨body, hs, ?_⟩
        rw [SolCodec.decode, if_pos htop, heq]
        exact ha
      · rw [Bool.not_eq_true, Bool.or_eq_false_iff, Bool.not_eq_false'] at htop
        exact ⟨_, hs', hdyn htop.1 htop.2⟩
    · exact ⟨_, hs', hdyn htuple hd⟩

end

/-- `decode_at` fails closed on every input, from every offset. -/
def AtCloses (t : Ty) : Prop := ∀ input off, IsSlice input → off < 2 ^ 64 →
  FailsClosed (input.length / 32) fun p => t.impl.decodeAt p input off

/-- `decode_tail` does. -/
def TailCloses (t : Ty) : Prop := ∀ input off, IsSlice input → off < 2 ^ 64 →
  FailsClosed (input.length / 32) fun p => t.impl.decodeTail p input off

/-- Both do, from every offset that has a word behind it in the address space. -/
def InnerCloses (t : Ty) : Prop := ∀ input off, IsSlice input → off + 32 < 2 ^ 64 →
  (FailsClosed (input.length / 32) fun p => t.impl.decodeAt p input off) ∧
    FailsClosed (input.length / 32) fun p => t.impl.decodeTail p input off

/-- `decode` fails closed on every input. -/
def DecodeCloses (t : Ty) : Prop := ∀ input, IsSlice input →
  FailsClosed (input.length / 32) fun p => t.impl.decode p input

section

variable {t : Ty} (h : t.Proper = true)

include h

theorem atCloses (hn : near t = false) {input : List UInt8} {off : ℕ} (hs : IsSlice input) (hoff : off < 2 ^ 64)
    (hfar : far t = true → off + 32 < 2 ^ 64) :
    (FailsClosed (input.length / 32) fun p => t.impl.decodeAt p input off) ∧
      FailsClosed (input.length / 32) fun p => t.impl.decodeTail p input off := by
  have hg := guarded h hn
  have hfree := profileFree (compiles_of_proper h)
  exact ⟨failsClosed (hg.decodeAt input off hs hoff hfar) (hfree.decodeAt input off),
    failsClosed (hg.decodeTail input off hs hoff hfar) (hfree.decodeTail input off)⟩

theorem decodeCloses (hn : near t = false) (hfar : (t.impl.isTuple || !t.impl.isDynamic) = true ∨ far t = false) :
    DecodeCloses t := by
  intro input hs
  refine failsClosed ?_ ((profileFree (compiles_of_proper h)).decode input)
  have hg := guarded h hn
  unfold SolCodec.decode
  split_ifs with htop
  · exact hg.decodeAt input 0 hs (by omega) fun _ => by omega
  · have hfar' : far t = false := hfar.resolve_left htop
    refine (safe_ofOption _).bind fun bs hbs => hg.decodeTail input _ hs ?_ fun hf => ?_
    · have hlen := length_of_getRange (returns_ofOption.mp hbs)
      have hlt := ofBe_lt bs
      rw [hlen] at hlt
      exact hlt
    · exact Bool.noConfusion (hfar'.symm.trans hf)

/-- A far type overflows at the last byte of the address space. -/
theorem exists_aborts_of_far (hfar : far t = true) :
    Aborts (t.impl.decodeTail .checked [] (2 ^ 64 - 1)) ∧ Aborts (t.impl.decodeAt .checked [] (2 ^ 64 - 1)) ∧
      ((t.impl.isTuple || !t.impl.isDynamic) = false → Aborts (t.impl.decode .checked (word (2 ^ 64 - 1)))) := by
  have hover := (behaves h).far_overflows hfar
  have hempty : IsSlice [] := by decide
  have hword : IsSlice (word (2 ^ 64 - 1)) := by
    rw [IsSlice, length_word]
    omega
  refine ⟨hover [] hempty, ?_, fun htop => ?_⟩
  · rcases decodeAt_eq_or t with heq | ⟨hnot, -⟩
    · rw [heq]
      exact hover [] hempty
    · exact Bool.noConfusion (hnot.symm.trans hfar)
  · have hat : At (word (2 ^ 64 - 1)) 0 (word (2 ^ 64 - 1)) := ⟨Nat.zero_le _, List.prefix_refl _⟩
    obtain ⟨-, bs, hbs, hval⟩ := returns_readWordOffset.mp (readWordOffset_word hword hat (by omega))
    rw [SolCodec.decode, htop, if_neg Bool.false_ne_true]
    refine Returns.aborts_bind (returns_ofOption.mpr hbs) ?_
    rw [hval]
    exact hover _ hword

/-- **Failing closed**: exactly the types that are neither near nor far fail closed everywhere; away
from the end of the address space the near ones are the only exceptions, and so they are for `decode`
of a tuple or a static type. That a type which is not safe really overflows needs an input that
holds it. -/
theorem closed_iff :
    ((near t = false ∧ far t = false → AtCloses t ∧ TailCloses t) ∧ (near t = false → InnerCloses t) ∧
      (near t = false → (t.impl.isTuple || !t.impl.isDynamic) = true ∨ far t = false → DecodeCloses t)) ∧
    (32 + room t < 2 ^ 63 →
      (AtCloses t → near t = false ∧ far t = false) ∧ (TailCloses t → near t = false ∧ far t = false) ∧
      (InnerCloses t → near t = false) ∧
      (DecodeCloses t → near t = false ∧ ((t.impl.isTuple || !t.impl.isDynamic) = true ∨ far t = false))) := by
  constructor
  · refine ⟨fun hnf => ?_, fun hn => ?_, decodeCloses h⟩
    · have hfar : ∀ {off : ℕ}, far t = true → off + 32 < 2 ^ 64 := fun hf => Bool.noConfusion (hnf.2.symm.trans hf)
      exact ⟨fun input off hs hoff => (atCloses h hnf.1 hs hoff hfar).1,
        fun input off hs hoff => (atCloses h hnf.1 hs hoff hfar).2⟩
    · exact fun input off hs hoff => atCloses h hn hs (by omega) fun _ => hoff
  · intro hroom
    have hfar := exists_aborts_of_far h
    have hnear := exists_aborts_of_near h hroom
    have hempty : IsSlice [] := by decide
    refine ⟨fun hat => ⟨?_, ?_⟩, fun htail => ⟨?_, ?_⟩, fun hinner => ?_, fun hdec => ⟨?_, ?_⟩⟩
    · by_contra hn
      obtain ⟨-, ⟨input, off, hs, hoff, ha⟩, -⟩ := hnear (by simpa using hn)
      exact ha.not_safe (hat input off hs (by omega)).safe
    · by_contra hf
      exact (hfar (by simpa using hf)).2.1.not_safe (hat [] _ hempty (by omega)).safe
    · by_contra hn
      obtain ⟨⟨input, off, hs, hoff, ha⟩, -, -⟩ := hnear (by simpa using hn)
      exact ha.not_safe (htail input off hs (by omega)).safe
    · by_contra hf
      exact (hfar (by simpa using hf)).1.not_safe (htail [] _ hempty (by omega)).safe
    · by_contra hn
      obtain ⟨⟨input, off, hs, hoff, ha⟩, -, -⟩ := hnear (by simpa using hn)
      exact ha.not_safe (hinner input off hs hoff).2.safe
    · by_contra hn
      obtain ⟨-, -, input, hs, ha⟩ := hnear (by simpa using hn)
      exact ha.not_safe (hdec input hs).safe
    · by_contra hf
      rw [not_or, Bool.not_eq_true, Bool.not_eq_false] at hf
      have ha := (hfar hf.2).2.2 hf.1
      exact ha.not_safe (hdec _ (by rw [IsSlice, length_word]; omega)).safe

end

/-- The types of an ordinary argument list. -/
theorem closed_plain :
    DecodeCloses (tuple [prim .address, vec (prim .U256), string, array bytes 2]) :=
  (closed_iff (t := tuple [prim .address, vec (prim .U256), string, array bytes 2]) (by decide)).1.2.2
    (by decide) (.inl (by decide))

/-- A vector of dynamic tuples whose first field is a number: the offset word of the element leads to the
end of the address space, where the number is read with a plain addition. -/
theorem vec_of_tuples_panics :
    let t := vec (tuple [prim .U256, bytes])
    t.Proper = true ∧ (t.impl.decode .checked (word 32 ++ word 1 ++ word (2 ^ 64 - 80))).exit = .panic :=
  ⟨by decide, rfl⟩

end Ty

end PvmContract.Macros
