import PvmContract.Types.GuardLaws
import PvmContract.Types.SequenceLaws

/-!
# Inputs that make a decoder overflow

The converse of `GuardLaws`. `Overflows` says that a decoder panics where it is
led to the last byte of the address space, and `Hostile` that every beginning of
an input can be continued so that the decoder panics behind it. An element or a
field behind an offset word is led anywhere (`exists_pointer`). Before the hostile
field of a tuple is reached, the fields in front of it have to be decoded: they
find zeros, each behind its own offset word (`BenignTail`).
-/

namespace PvmContract.Types

open Data Run

/-- The decoder panics at the last byte of the address space. -/
def Overflows {α : Type} (decode : List UInt8 → ℕ → Run α) : Prop :=
  ∀ input, IsSlice input → Aborts (decode input (2 ^ 64 - 1))

/-- Every beginning of an input has a continuation, of at most `room` bytes, at which
`decode_tail` panics. -/
def Hostile (T : SolCodec) (room : ℕ) : Prop :=
  ∀ pre : List UInt8, pre.length + room < 2 ^ 63 →
    ∃ body, body.length ≤ room ∧ Aborts (T.decodeTail .checked (pre ++ body) pre.length)

/-- A static type is read from zeros. -/
def BenignStatic (T : SolCodec) : Prop :=
  ∀ input off, IsSlice input → At input off (List.replicate T.headSize 0) →
    ∃ v, Returns (T.decodeAt .checked input off) v

/-- A dynamic type is read from `room` zeros. -/
def BenignTail (T : SolCodec) (room : ℕ) : Prop :=
  ∀ input off, IsSlice input → At input off (List.replicate room 0) →
    ∃ v, Returns (T.decodeTail .checked input off) v

/-! ### Bytes in a row -/

theorem word_zero : word 0 = List.replicate 32 0 := rfl

/-- Zeros inside zeros. -/
theorem at_zeros {input : List UInt8} {off n k m : ℕ} (h : At input off (List.replicate n 0)) (hle : k + m ≤ n) :
    At input (off + k) (List.replicate m 0) := by
  have hsplit : List.replicate n (0 : UInt8) =
      List.replicate k 0 ++ (List.replicate m 0 ++ List.replicate (n - k - m) 0) := by
    rw [List.replicate_append_replicate, List.replicate_append_replicate]
    congr 1
    omega
  rw [hsplit, At.append_iff, List.length_replicate] at h
  exact h.2.left

theorem BenignTail.mono {T : SolCodec} {r s : ℕ} (h : BenignTail T r) (hle : r ≤ s) : BenignTail T s := by
  intro input off hs hat
  exact h input off hs (at_zeros (k := 0) hat (by omega))

/-! ### Zeros -/

theorem benign_staticType {C : Type} {name : String} {encodeFn : C → List UInt8 → Option (List UInt8)}
    {get : Profile → List UInt8 → ℕ → Run (List UInt8)}
    {getUnchecked : List UInt8 → ℕ → Option (List UInt8)} {convert : List UInt8 → C} {skip k top : ℕ}
    (hget : Reads get getUnchecked skip k top) (h32 : skip + k ≤ 32) :
    BenignStatic (staticType C name encodeFn get getUnchecked convert) := by
  intro input off hs hat
  have hbound := hat.bound
  have htop := hget.top_le
  unfold IsSlice at hs
  rw [List.length_replicate] at hbound
  change off + 32 ≤ _ at hbound
  have hret := (hget.returns input off _).mpr ⟨by omega, getRange_eq_some_iff.mpr ⟨by omega, by omega, rfl⟩⟩
  exact ⟨_, returns_bind.mpr ⟨_, hret, returns_pure.mpr rfl⟩⟩

/-- At zeros there is an empty byte string. -/
theorem bytesTail_zeros {input : List UInt8} {off : ℕ} (hs : IsSlice input)
    (hat : At input off (List.replicate 32 0)) : Returns (bytesTail input off) [] := by
  have hbound := hat.bound
  unfold IsSlice at hs
  rw [List.length_replicate] at hbound
  rw [bytesTail]
  refine (readWordOffset_word hs (n := 0) hat (by omega)).bind ?_
  rw [checkedSum_pair, checkedAdd_of_lt (by omega), pure_andThen, checkedSum_pair, checkedAdd_zero (by omega),
    pure_andThen]
  refine returns_ofOption.mpr (getRange_eq_some_iff.mpr ⟨le_refl _, by omega, ?_⟩)
  rw [Nat.sub_self, List.take_zero]

theorem benign_Bytes : BenignTail Bytes 32 := fun _ _ hs hat => ⟨_, bytesTail_zeros hs hat⟩

theorem benign_string : BenignTail string 32 := fun _ _ hs hat =>
  ⟨"", (bytesTail_zeros hs hat).bind (returns_ofOption.mpr (fromUtf8_asBytes ""))⟩

theorem benign_Vec (T : SolCodec) : BenignTail (Vec T) 32 := by
  intro input off hs hat
  have hbound := hat.bound
  have hs' := hs
  unfold IsSlice at hs'
  rw [List.length_replicate] at hbound
  have hlen := readWordOffset_word hs (n := 0) hat (by omega)
  refine ⟨([] : List T.Carrier), hlen.bind ?_⟩
  rw [if_neg (by omega)]
  refine Returns.bind (returns_alloc (u := ())) ?_
  rw [checkedSum_pair, checkedAdd_of_lt (by omega), pure_andThen]
  cases T.isDynamic <;> exact returns_pure.mpr rfl

/-- The elements of an array, one after the other. -/
theorem arrayRead_benign {T : SolCodec} {input : List UInt8} {off i : ℕ} (n : ℕ)
    (h : ∀ j < n, ∃ v, Returns (arrayReadElem T .checked input off (i + j)) v) :
    ∃ vs, Returns (arrayRead T .checked input off i n) vs := by
  induction n generalizing i with
  | zero => exact ⟨_, returns_pure.mpr rfl⟩
  | succ n ih =>
    obtain ⟨v, hv⟩ := h 0 (by omega)
    obtain ⟨vs, hvs⟩ := ih (i := i + 1) fun j hj => by
      rw [Nat.add_right_comm, Nat.add_assoc]
      exact h (j + 1) (by omega)
    exact ⟨_, hv.bind (hvs.bind (returns_pure.mpr rfl))⟩

theorem benign_array_static {T : SolCodec} (h : BenignStatic T) (hd : T.isDynamic = false) (n : ℕ) :
    BenignStatic (array T n) := by
  intro input off hs hat
  refine arrayRead_benign n fun j hj => ?_
  have hslot : T.slotSize = T.headSize := SolCodec.slotSize_static hd
  have hle : j * T.headSize + T.headSize ≤ T.headSize * n := by
    rw [← Nat.succ_mul, Nat.mul_comm]
    exact Nat.mul_le_mul_left _ hj
  have hbound := hat.bound
  have hs' := hs
  unfold IsSlice at hs'
  rw [List.length_replicate] at hbound
  change off + T.slotSize * n ≤ _ at hbound
  change At input off (List.replicate (T.slotSize * n) 0) at hat
  rw [hslot] at hbound hat
  rw [Nat.zero_add, arrayReadElem, hslot, umul_of_lt (by omega), pure_andThen, checkedSum_pair,
    checkedAdd_of_lt (by omega), pure_andThen, hd, if_neg Bool.false_ne_true]
  exact h input _ hs (at_zeros hat hle)

theorem benign_array_dynamic {T : SolCodec} {r : ℕ} (h : BenignTail T r) (hd : T.isDynamic = true) (n : ℕ) :
    BenignTail (array T n) (32 * n + r) := by
  intro input off hs hat
  refine arrayRead_benign n fun j hj => ?_
  have hbound := hat.bound
  have hs' := hs
  unfold IsSlice at hs'
  rw [List.length_replicate] at hbound
  rw [Nat.zero_add, arrayReadElem, SolCodec.slotSize_dynamic hd, umul_of_lt (by omega), pure_andThen,
    checkedSum_pair, checkedAdd_of_lt (by omega), pure_andThen, hd, if_pos rfl]
  obtain ⟨v, hv⟩ := h input off hs (at_zeros (k := 0) hat (by omega))
  refine ⟨v, (readWordOffset_word hs (n := 0) (at_zeros (k := j * 32) (m := 32) hat (by omega)) (by omega)).bind ?_⟩
  rw [checkedSum_pair, checkedAdd_zero (by omega), pure_andThen]
  exact hv

/-- The heads of fields that are zeros: static ones in place, dynamic ones at the offset `z`. -/
def benignHead (z : ℕ) (Ts : List SolCodec) : List UInt8 :=
  Ts.flatMap fun T => if T.isDynamic then word z else List.replicate T.headSize 0

theorem length_benignHead (z : ℕ) (Ts : List SolCodec) : (benignHead z Ts).length = tupleHeadSize Ts := by
  induction Ts with
  | nil => rfl
  | cons T Ts ih =>
    rw [tupleHeadSize_cons, ← ih, benignHead, List.flatMap_cons, List.length_append]
    congr 1
    cases hd : T.isDynamic with
    | true => rw [if_pos rfl, length_word, SolCodec.slotSize_dynamic hd]
    | false => rw [if_neg Bool.false_ne_true, List.length_replicate, SolCodec.slotSize_static hd]

theorem benignHead_zero (Ts : List SolCodec) : benignHead 0 Ts = List.replicate (tupleHeadSize Ts) 0 := by
  rw [List.eq_replicate_iff]
  refine ⟨length_benignHead 0 Ts, fun b hb => ?_⟩
  obtain ⟨T, -, hb⟩ := List.mem_flatMap.mp hb
  split at hb
  · rw [word_zero] at hb
    exact List.eq_of_mem_replicate hb
  · exact List.eq_of_mem_replicate hb

section Tuples

variable {input : List UInt8} {off z r : ℕ} (hs : IsSlice input) (hz : z < 2 ^ 64)
  (hzeros : At input (off + z) (List.replicate r 0))

include hs hz hzeros

/-- A field whose head is zeros is read. -/
theorem tupleReadField_benign {T : SolCodec} {ho : ℕ} (hstatic : T.isDynamic = false → BenignStatic T)
    (hdyn : T.isDynamic = true → BenignTail T r)
    (hat : At input ho (if T.isDynamic then word z else List.replicate T.headSize 0)) :
    ∃ v, Returns (tupleReadField T .checked input off ho) v := by
  rw [tupleReadField]
  cases hd : T.isDynamic with
  | true =>
    rw [hd, if_pos rfl] at hat
    rw [if_pos rfl]
    have hle := hzeros.le
    have hs' := hs
    unfold IsSlice at hs'
    obtain ⟨v, hv⟩ := hdyn hd input (off + z) hs hzeros
    refine ⟨v, (readWordOffset_word hs hat hz).bind ?_⟩
    rw [checkedSum_pair, checkedAdd_of_lt (by omega), pure_andThen]
    exact hv
  | false =>
    rw [hd, if_neg Bool.false_ne_true] at hat
    rw [if_neg Bool.false_ne_true]
    exact hstatic hd input ho hs hat

theorem tupleRead_benign {Ts : List SolCodec} {ho : ℕ} (hstatic : ∀ T ∈ Ts, T.isDynamic = false → BenignStatic T)
    (hdyn : ∀ T ∈ Ts, T.isDynamic = true → BenignTail T r) (hat : At input ho (benignHead z Ts)) :
    ∃ vals, Returns (tupleRead .checked input off Ts ho) vals := by
  induction Ts generalizing ho with
  | nil => exact ⟨(), returns_pure.mpr rfl⟩
  | cons T Ts ih =>
    have hbound := hat.bound
    rw [length_benignHead, tupleHeadSize_cons] at hbound
    rw [benignHead, List.flatMap_cons, At.append_iff] at hat
    obtain ⟨v, hv⟩ := tupleReadField_benign hs hz hzeros (hstatic T List.mem_cons_self)
      (hdyn T List.mem_cons_self) hat.1
    have hlen := length_benignHead z [T]
    rw [benignHead, List.flatMap_cons, List.flatMap_nil, List.append_nil, tupleHeadSize_cons] at hlen
    rw [hlen] at hat
    obtain ⟨vals, hvals⟩ := ih (fun T' hT' => hstatic T' (List.mem_cons_of_mem _ hT'))
      (fun T' hT' => hdyn T' (List.mem_cons_of_mem _ hT')) hat.2
    unfold IsSlice at hs
    refine ⟨(v, vals), hv.bind ?_⟩
    rw [checkedSum_pair, checkedAdd_of_lt (by omega), pure_andThen]
    exact hvals.bind (returns_pure.mpr rfl)

/-- Behind fields whose heads are zeros the tuple panics where the next field does. -/
theorem tupleRead_aborts {As : List SolCodec} {T : SolCodec} {Bs : List SolCodec} {ho : ℕ}
    (hstatic : ∀ A ∈ As, A.isDynamic = false → BenignStatic A)
    (hdyn : ∀ A ∈ As, A.isDynamic = true → BenignTail A r) (hat : At input ho (benignHead z As))
    (habort : Aborts (tupleReadField T .checked input off (ho + tupleHeadSize As))) :
    Aborts (tupleRead .checked input off (As ++ T :: Bs) ho) := by
  induction As generalizing ho with
  | nil => exact habort.bind_left _
  | cons A As ih =>
    have hbound := hat.bound
    rw [length_benignHead, tupleHeadSize_cons] at hbound
    rw [benignHead, List.flatMap_cons, At.append_iff] at hat
    obtain ⟨v, hv⟩ := tupleReadField_benign hs hz hzeros (hstatic A List.mem_cons_self)
      (hdyn A List.mem_cons_self) hat.1
    have hlen := length_benignHead z [A]
    rw [benignHead, List.flatMap_cons, List.flatMap_nil, List.append_nil, tupleHeadSize_cons] at hlen
    rw [hlen] at hat
    rw [tupleHeadSize_cons, ← Nat.add_assoc] at habort
    have hrest := ih (fun A' hA' => hstatic A' (List.mem_cons_of_mem _ hA'))
      (fun A' hA' => hdyn A' (List.mem_cons_of_mem _ hA')) hat.2 habort
    unfold IsSlice at hs
    refine hv.aborts_bind ?_
    rw [checkedSum_pair, checkedAdd_of_lt (by omega), pure_andThen]
    exact hrest.bind_left _

end Tuples

/-! ### The last byte of the address space -/

theorem aborts_get {get : Profile → List UInt8 → ℕ → Run (List UInt8)}
    {getUnchecked : List UInt8 → ℕ → Option (List UInt8)} {skip k top : ℕ}
    (hget : Reads get getUnchecked skip k top) (htop : 0 < top) (input : List UInt8) :
    Aborts (get .checked input (2 ^ 64 - 1)) :=
  aborts_of_not_safe fun lim hsafe => by
    have hlt := (hget.safe lim input (2 ^ 64 - 1)).mp hsafe
    omega

theorem overflows_staticType {C : Type} {name : String} {encodeFn : C → List UInt8 → Option (List UInt8)}
    {get : Profile → List UInt8 → ℕ → Run (List UInt8)}
    {getUnchecked : List UInt8 → ℕ → Option (List UInt8)} {convert : List UInt8 → C} {skip k top : ℕ}
    (hget : Reads get getUnchecked skip k top) (htop : 0 < top) :
    Overflows ((staticType C name encodeFn get getUnchecked convert).decodeAt .checked) :=
  fun input _ => (aborts_get hget htop input).bind_left _

theorem overflows_array {T : SolCodec} (h : Overflows (T.decodeAt .checked)) (hd : T.isDynamic = false) {n : ℕ}
    (hn : 0 < n) : Overflows ((array T n).decodeAt .checked) := by
  intro input hs
  obtain ⟨n, rfl⟩ : ∃ m, n = m + 1 := ⟨n - 1, by omega⟩
  have helem : Aborts (arrayReadElem T .checked input (2 ^ 64 - 1) 0) := by
    rw [arrayReadElem, umul_of_lt (by omega), pure_andThen, Nat.zero_mul, checkedSum_pair,
      checkedAdd_zero (by omega), pure_andThen, hd, if_neg Bool.false_ne_true]
    exact h input hs
  exact helem.bind_left _

theorem overflows_tuple {Ts : List SolCodec} (hempty : ∀ T ∈ Ts, T.isDynamic = false → T.headSize = 0 → ReadsNothing T)
    (h : ∀ T ∈ Ts, T.isDynamic = false → T.headSize ≠ 0 → Overflows (T.decodeAt .checked))
    (hfar : farFields Ts = true) : Overflows ((tuple Ts).decodeAt .checked) := by
  intro input hs
  change Aborts (tupleRead .checked input (2 ^ 64 - 1) Ts (2 ^ 64 - 1))
  generalize hoff : 2 ^ 64 - 1 = off
  have hlt : off < 2 ^ 64 := by omega
  suffices hread : Aborts (tupleRead .checked input off Ts (2 ^ 64 - 1)) by rwa [hoff] at hread
  induction Ts with
  | nil => exact Bool.noConfusion hfar
  | cons T Ts ih =>
    rw [farFields, Bool.and_eq_true, Bool.not_eq_true', Bool.or_eq_true, bne_iff_ne] at hfar
    obtain ⟨hd, hfar⟩ := hfar
    by_cases h0 : T.headSize = 0
    · obtain ⟨v, hv⟩ := hempty T List.mem_cons_self hd h0
      have hrest := ih (fun T' hT' => hempty T' (List.mem_cons_of_mem _ hT'))
        (fun T' hT' => h T' (List.mem_cons_of_mem _ hT')) (hfar.resolve_left (not_not.mpr h0))
      rw [tupleRead, tupleReadField, hd, if_neg Bool.false_ne_true, hv input _ hs (by omega), pure_andThen,
        SolCodec.slotSize_static hd, h0, checkedSum_pair, checkedAdd_zero (by omega), pure_andThen]
      exact hrest.bind_left _
    · have hfield : Aborts (tupleReadField T .checked input off (2 ^ 64 - 1)) := by
        rw [tupleReadField, hd, if_neg Bool.false_ne_true]
        exact h T List.mem_cons_self hd h0 input hs
      exact hfield.bind_left _

/-! ### Behind an offset word -/

/-- The decoder behind an offset word can be made to panic. -/
def Poisoned (T : SolCodec) (room : ℕ) : Prop := Overflows (T.decodeTail .checked) ∨ Hostile T room

/-- There is a value for an offset word, and a continuation of the input, that lead to a panic:
`pre` is in front of the word, `mid` behind it, and the offset counts from `off`. -/
theorem exists_pointer {T : SolCodec} {room : ℕ} (h : Poisoned T room) (pre mid : List UInt8) {off : ℕ}
    (hoff : off ≤ pre.length) (hroom : pre.length + 32 + mid.length + room < 2 ^ 63) :
    ∃ ptr body, off + ptr < 2 ^ 64 ∧ body.length ≤ room ∧
      Aborts (T.decodeTail .checked (pre ++ word ptr ++ mid ++ body) (off + ptr)) := by
  rcases h with hover | hnear
  · refine ⟨2 ^ 64 - 1 - off, [], by omega, Nat.zero_le _, ?_⟩
    rw [show off + (2 ^ 64 - 1 - off) = 2 ^ 64 - 1 by omega]
    refine hover _ ?_
    simp only [IsSlice, List.length_append, length_word, List.length_nil]
    omega
  · obtain ⟨ptr, hptr⟩ : ∃ ptr, off + ptr = pre.length + 32 + mid.length := ⟨_, Nat.add_sub_cancel' (by omega)⟩
    have hlen : (pre ++ word ptr ++ mid).length = off + ptr := by
      rw [hptr, List.length_append, List.length_append, length_word]
    obtain ⟨body, hbody, habort⟩ := hnear (pre ++ word ptr ++ mid) (by omega)
    rw [hlen] at habort
    exact ⟨ptr, body, by omega, hbody, habort⟩

theorem hostile_array {T : SolCodec} {r : ℕ} (h : Poisoned T r) (hd : T.isDynamic = true) {n : ℕ} (hn : 0 < n) :
    Hostile (array T n) (32 + r) := by
  intro pre hpre
  obtain ⟨n, rfl⟩ : ∃ m, n = m + 1 := ⟨n - 1, by omega⟩
  obtain ⟨ptr, body, hptr, hbody, habort⟩ := exists_pointer h pre [] (le_refl pre.length)
    (by rw [List.length_nil]; omega)
  rw [List.append_nil] at habort
  refine ⟨word ptr ++ body, by rw [List.length_append, length_word]; omega, ?_⟩
  rw [← List.append_assoc]
  have hs : IsSlice (pre ++ word ptr ++ body) := by
    simp only [IsSlice, List.length_append, length_word]
    omega
  have helem : Aborts (arrayReadElem T .checked (pre ++ word ptr ++ body) pre.length 0) := by
    rw [arrayReadElem, umul_of_lt (by omega), pure_andThen, Nat.zero_mul, checkedSum_pair,
      checkedAdd_zero (by omega), pure_andThen, hd, if_pos rfl]
    refine (readWordOffset_word hs (.intro pre (word ptr) body) (by omega)).aborts_bind ?_
    rw [checkedSum_pair, checkedAdd_of_lt hptr, pure_andThen]
    exact habort
  exact helem.bind_left _

theorem hostile_Vec {T : SolCodec} {r : ℕ} (h : Poisoned T r) (hd : T.isDynamic = true) :
    Hostile (Vec T) (64 + r) := by
  intro pre hpre
  have hlen : (pre ++ word 1).length = pre.length + 32 := by rw [List.length_append, length_word]
  obtain ⟨ptr, body, hptr, hbody, habort⟩ := exists_pointer h (pre ++ word 1) []
    (show pre.length + 32 ≤ _ by omega) (by rw [List.length_nil, hlen]; omega)
  rw [List.append_nil] at habort
  refine ⟨word 1 ++ word ptr ++ body, by simp only [List.length_append, length_word]; omega, ?_⟩
  have hinput : pre ++ (word 1 ++ word ptr ++ body) = pre ++ word 1 ++ word ptr ++ body := by
    simp only [List.append_assoc]
  have hlength : (pre ++ word 1 ++ word ptr ++ body).length = pre.length + 64 + body.length := by
    simp only [List.length_append, length_word]
  rw [hinput]
  have hs : IsSlice (pre ++ word 1 ++ word ptr ++ body) := by
    unfold IsSlice
    omega
  have hone : At (pre ++ word 1 ++ word ptr ++ body) pre.length (word 1) := by
    rw [List.append_assoc (pre ++ word 1)]
    exact .intro pre (word 1) _
  have hword : At (pre ++ word 1 ++ word ptr ++ body) (pre.length + 32) (word ptr) := by
    rw [← hlen]
    exact .intro (pre ++ word 1) (word ptr) body
  change Aborts (vecTail T .checked _ _)
  rw [vecTail]
  refine (readWordOffset_word hs hone (by omega)).aborts_bind ?_
  rw [if_neg (by omega)]
  refine Returns.aborts_bind (returns_alloc (u := ())) ?_
  rw [checkedSum_pair, checkedAdd_of_lt (by omega), pure_andThen, hd, if_pos rfl, vecReadDynamic,
    umul_of_lt (by omega), pure_andThen, Nat.zero_mul, checkedSum_pair, checkedAdd_zero (by omega), pure_andThen]
  refine (readWordOffset_word hs hword (by omega)).aborts_bind ?_
  rw [checkedSum_pair, checkedAdd_of_lt hptr, pure_andThen]
  exact habort.bind_left _

/-- **Tuples**: the fields in front of the hostile one find zeros. -/
theorem hostile_tuple {As : List SolCodec} {T : SolCodec} (Bs : List SolCodec) {r s : ℕ}
    (hstatic : ∀ A ∈ As, A.isDynamic = false → BenignStatic A)
    (hdyn : ∀ A ∈ As, A.isDynamic = true → BenignTail A s) (h : Poisoned T r) (hd : T.isDynamic = true) :
    Hostile (tuple (As ++ T :: Bs)) (tupleHeadSize As + 32 + s + r) := by
  intro pre hpre
  obtain ⟨z, hz⟩ : ∃ z, z = tupleHeadSize As + 32 := ⟨_, rfl⟩
  have hhead := length_benignHead z As
  -- the heads, the offset word of the hostile field, the zeros, the hostile bytes
  obtain ⟨ptr, body, hptr, hbody, habort⟩ := exists_pointer h (pre ++ benignHead z As)
    (List.replicate s 0) (show pre.length ≤ _ by rw [List.length_append]; omega)
    (by rw [List.length_append, List.length_replicate]; omega)
  refine ⟨benignHead z As ++ word ptr ++ List.replicate s 0 ++ body, ?_, ?_⟩
  · simp only [List.length_append, length_word, List.length_replicate]
    omega
  have hinput : pre ++ (benignHead z As ++ word ptr ++ List.replicate s 0 ++ body) =
      pre ++ benignHead z As ++ word ptr ++ List.replicate s 0 ++ body := by
    simp only [List.append_assoc]
  rw [hinput]
  have hs : IsSlice (pre ++ benignHead z As ++ word ptr ++ List.replicate s 0 ++ body) := by
    simp only [IsSlice, List.length_append, length_word, List.length_replicate]
    omega
  have hheads : At (pre ++ benignHead z As ++ word ptr ++ List.replicate s 0 ++ body) pre.length
      (benignHead z As) := by
    rw [List.append_assoc _ (List.replicate s 0), List.append_assoc _ (word ptr)]
    exact .intro pre _ _
  have hword : At (pre ++ benignHead z As ++ word ptr ++ List.replicate s 0 ++ body)
      (pre.length + tupleHeadSize As) (word ptr) := by
    rw [← hhead, ← List.length_append, List.append_assoc _ (List.replicate s 0)]
    exact .intro (pre ++ benignHead z As) (word ptr) _
  have hzeros : At (pre ++ benignHead z As ++ word ptr ++ List.replicate s 0 ++ body) (pre.length + z)
      (List.replicate s 0) := by
    have hlen : (pre ++ benignHead z As ++ word ptr).length = pre.length + z := by
      rw [List.length_append, List.length_append, hhead, length_word, hz, Nat.add_assoc]
    rw [← hlen]
    exact .intro _ (List.replicate s 0) body
  refine tupleRead_aborts hs (by omega) hzeros hstatic hdyn hheads ?_
  rw [tupleReadField, hd, if_pos rfl]
  refine (readWordOffset_word hs hword (by omega)).aborts_bind ?_
  rw [checkedSum_pair, checkedAdd_of_lt hptr, pure_andThen]
  exact habort

end PvmContract.Types
