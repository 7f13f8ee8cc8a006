import PvmContract.Types.HostileLaws
import PvmContract.Types.UncheckedLaws

/-!
# What stands where a body is expected

A decoder that looks for a value at the offset word of its encoding, instead of
where the word points, finds the word itself. `Misreads` says of a value that it
is not what the decoder makes of that: a static type has another value than the
one that the word gives, a byte string or a vector is not as long as the word is
large, and in a sequence the same happens to the first component.
-/

namespace PvmContract.Types

open Data Run Abi AbiType

/-- The decoder does not return `v` at the word `H`, with the encoding of `v` at the distance `H`. -/
def Misreads (c : SolCodec) (body : c.Carrier → List UInt8) (H : ℕ) (v : c.Carrier) : Prop :=
  ∀ input pos, IsSlice input → H < 2 ^ 63 → At input pos (word H) →
    (c.isDynamic = true → At input (pos + H) (body v)) → ¬Returns (c.decodeTail .checked input pos) v

/-! ### One word -/

/-- The bytes of a range inside others. -/
theorem getRange_of_at {input bs : List UInt8} {off skip k : ℕ} (h : At input off bs) (hk : skip + k ≤ bs.length) :
    getRange input (off + skip) (off + (skip + k)) = some ((bs.drop skip).take k) := by
  have hsplit : bs = bs.take skip ++ ((bs.drop skip).take k ++ (bs.drop skip).drop k) := by
    rw [List.take_append_drop, List.take_append_drop]
  rw [hsplit, At.append_iff, List.length_take, Nat.min_eq_left (by omega)] at h
  have hget := h.2.left.getRange
  rwa [List.length_take, List.length_drop, Nat.min_eq_left (by omega), Nat.add_assoc] at hget

/-- A word stands for one value of a static type; another value is misread. -/
theorem exists_misreads_staticType {C : Type} (hC : Nontrivial C) {name : String}
    {encodeFn : C → List UInt8 → Option (List UInt8)}
    {get : Profile → List UInt8 → ℕ → Run (List UInt8)}
    {getUnchecked : List UInt8 → ℕ → Option (List UInt8)} {convert : List UInt8 → C} {skip k top : ℕ}
    (hget : Reads get getUnchecked skip k top) (h32 : skip + k ≤ 32) (H : ℕ) :
    ∃ v : C, ∀ input pos, At input pos (word H) →
      ¬Returns ((staticType C name encodeFn get getUnchecked convert).decodeTail .checked input pos) v := by
  obtain ⟨v, hv⟩ := exists_ne (convert (((word H).drop skip).take k))
  refine ⟨v, fun input pos hat hret => hv ?_⟩
  have hrange : getRange input (pos + skip) (pos + (skip + k)) = some (((word H).drop skip).take k) :=
    getRange_of_at hat (by rw [length_word]; exact h32)
  have hret' : Returns (convert <$> get .checked input pos) v := hret
  rw [map_eq_andThen] at hret'
  obtain ⟨bs, hbs, hval⟩ := returns_bind.mp hret'
  have hbs' := ((hget.returns input pos bs).mp hbs).2
  rw [← returns_pure.mp hval, Option.some.inj (hrange.symm.trans hbs')]

theorem nontrivial_bitVec {w : ℕ} (h : 0 < w) : Nontrivial (BitVec w) := by
  refine ⟨0#w, 1#w, fun heq => ?_⟩
  have hone : (1#w).toNat = 1 := BitVec.toNat_one h
  rw [← heq, BitVec.toNat_zero] at hone
  exact absurd hone (by omega)

theorem nontrivial_byteArr {n : ℕ} (h : 0 < n) : Nontrivial (ByteArr n) := by
  refine ⟨⟨List.replicate n 0, List.length_replicate⟩, ⟨List.replicate n 1, List.length_replicate⟩, fun heq => ?_⟩
  have hbytes : List.replicate n (0 : UInt8) = List.replicate n 1 := congrArg Subtype.val heq
  rw [List.replicate_inj] at hbytes
  exact absurd (hbytes.2.resolve_left (by omega)) (by decide)

/-! ### Lengths -/

/-- The data is as long as the word at the offset says. -/
theorem length_of_bytesTail {input bs : List UInt8} {pos H : ℕ} (hs : IsSlice input) (hH : H < 2 ^ 63)
    (hat : At input pos (word H)) (hret : Returns (bytesTail input pos) bs) : bs.length = H := by
  obtain ⟨len, hlen, hret⟩ := returns_bind.mp hret
  obtain rfl := hlen.unique (readWordOffset_word hs hat (by omega))
  obtain ⟨start, hstart, hret⟩ := returns_bind.mp hret
  obtain ⟨stop, hstop, hret⟩ := returns_bind.mp hret
  rw [checkedSum_pair] at hstop
  rw [length_of_getRange (returns_ofOption.mp hret), (returns_checkedAdd.mp hstop).2, Nat.add_sub_cancel_left]

theorem misreads_Bytes {H : ℕ} (h0 : 0 < H) (body : List UInt8 → List UInt8) :
    Misreads Bytes body H ([] : List UInt8) := by
  intro input pos hs hH hat _ hret
  have hlen : ([] : List UInt8).length = H := length_of_bytesTail hs hH hat hret
  rw [List.length_nil] at hlen
  omega

theorem asBytes_of_fromUtf8 {bytes : List UInt8} {s : String} (h : fromUtf8 bytes = some s) : asBytes s = bytes := by
  rw [fromUtf8, String.fromUTF8?] at h
  split_ifs at h with hvalid
  rw [← Option.some.inj h]
  rfl

theorem misreads_string {H : ℕ} (h0 : 0 < H) (body : String → List UInt8) : Misreads string body H "" := by
  intro input pos hs hH hat _ hret
  obtain ⟨data, hdata, hret⟩ := returns_bind.mp hret
  have hlen := length_of_bytesTail hs hH hat hdata
  rw [← asBytes_of_fromUtf8 (returns_ofOption.mp hret)] at hlen
  have hempty : (asBytes "").length = 0 := rfl
  omega

theorem misreads_Vec {T : SolCodec} {H : ℕ} (h0 : 0 < H) (body : List T.Carrier → List UInt8) :
    Misreads (Vec T) body H ([] : List T.Carrier) := by
  intro input pos hs hH hat _ hret
  obtain ⟨len, hlen, hret⟩ := returns_bind.mp hret
  obtain rfl := hlen.unique (readWordOffset_word hs hat (by omega))
  obtain ⟨n, rfl⟩ : ∃ n, len = n + 1 := ⟨len - 1, by omega⟩
  have hne : ∀ {x : Run T.Carrier} {f : T.Carrier → Run (List T.Carrier)},
      ¬Returns (x >>= fun elem => f elem >>= fun rest => pure (elem :: rest)) [] := by
    intro x f hx
    obtain ⟨elem, -, hx⟩ := returns_bind.mp hx
    obtain ⟨rest, -, hx⟩ := returns_bind.mp hx
    exact absurd (returns_pure.mp hx) (List.cons_ne_nil elem rest)
  by_cases hcap : n + 1 > input.length / 32
  · rw [if_pos hcap] at hret
    exact not_returns_fail hret
  · rw [if_neg hcap] at hret
    obtain ⟨-, -, hret⟩ := returns_bind.mp hret
    obtain ⟨start, -, hret⟩ := returns_bind.mp hret
    cases hd : T.isDynamic with
    | true =>
      rw [hd, if_pos rfl, vecReadDynamic] at hret
      obtain ⟨k, -, hret⟩ := returns_bind.mp hret
      obtain ⟨headPos, -, hret⟩ := returns_bind.mp hret
      obtain ⟨elemOffset, -, hret⟩ := returns_bind.mp hret
      obtain ⟨elemStart, -, hret⟩ := returns_bind.mp hret
      exact hne hret
    | false =>
      rw [hd, if_neg Bool.false_ne_true, vecReadStatic] at hret
      obtain ⟨elem, -, hret⟩ := returns_bind.mp hret
      obtain ⟨elemOffset, -, hret⟩ := returns_bind.mp hret
      obtain ⟨rest, -, hret⟩ := returns_bind.mp hret
      exact absurd (returns_pure.mp hret) (List.cons_ne_nil elem rest)

/-! ### The first component -/

section

variable {T : SolCodec} {τ : AbiType} {f : T.Carrier → τ.Val} (hrep : Represents T τ f) {H S : ℕ} {v : T.Carrier}
  (hv : Misreads T (fun v => enc τ (f v)) (if T.isDynamic then S else H) v)

include hrep hv

/-- The first component of a sequence that is looked for at its offset word `H`, where `S` is the
distance from the sequence to its tails. -/
theorem not_returns_first {input : List UInt8} {pos : ℕ} (ps : List Part) (hs : IsSlice input) (hH : H < 2 ^ 63)
    (hat : At input pos (word H))
    (hbody : T.isDynamic = true → At input (pos + H) (heads S (⟨τ.isDynamic, enc τ (f v)⟩ :: ps)) ∧
      At input (pos + H + S) (tails (⟨τ.isDynamic, enc τ (f v)⟩ :: ps))) :
    ¬Returns (tupleReadField T .checked input pos pos) v := by
  intro hret
  rw [tupleReadField] at hret
  cases hd : T.isDynamic with
  | true =>
    obtain ⟨hheads, htails⟩ := hbody hd
    have hhead := (At.heads_cons.mp hheads).1
    have htail := (At.tails_cons.mp htails).1
    rw [Part.head, ← hrep.dynamic, hd, if_pos rfl] at hhead
    rw [Part.tail, ← hrep.dynamic, hd, if_pos rfl] at htail
    rw [hd, if_pos rfl] at hret hv
    obtain ⟨n, hn, hret⟩ := returns_bind.mp hret
    obtain rfl := hn.unique (readWordOffset_word hs hat (by omega))
    obtain ⟨start, hstart, hret⟩ := returns_bind.mp hret
    rw [checkedSum_pair] at hstart
    rw [(returns_checkedAdd.mp hstart).2] at hret
    have hle := htail.le
    have hs' := hs
    unfold IsSlice at hs'
    exact hv input _ hs (by omega) hhead (fun _ => htail) hret
  | false =>
    rw [hd, if_neg Bool.false_ne_true] at hret hv
    rw [hrep.at_eq_tail (by rw [hd, Bool.not_false, Bool.or_true])] at hret
    exact hv input pos hs hH hat (fun hdyn => Bool.noConfusion (hd.symm.trans hdyn)) hret

end

/-- An array whose elements are all the misread value. -/
theorem misreads_array {T : SolCodec} {τ : AbiType} {f : T.Carrier → τ.Val} (hrep : Represents T τ f) {H n : ℕ}
    {v : T.Carrier} (hv : Misreads T (fun v => enc τ (f v)) (if T.isDynamic then (n + 1) * 32 else H) v) :
    Misreads (array T (n + 1)) (fun vs => layout (elemParts f vs.1)) H
      ⟨List.replicate (n + 1) v, List.length_replicate⟩ := by
  intro input pos hs hH hat hbody hret
  obtain ⟨val, hval, hret⟩ := returns_bind.mp hret
  obtain ⟨rest, -, hret⟩ := returns_bind.mp hret
  have hlist : val :: rest.1 = List.replicate (n + 1) v := congrArg Subtype.val (returns_pure.mp hret)
  rw [List.replicate_succ] at hlist
  obtain rfl := (List.cons.inj hlist).1
  have hle := hat.le
  have hs' := hs
  unfold IsSlice at hs'
  rw [arrayReadElem, umul_of_lt (by omega), pure_andThen, Nat.zero_mul, checkedSum_pair, checkedAdd_zero (by omega),
    pure_andThen] at hval
  refine not_returns_first hrep hv (elemParts f (List.replicate n val)) hs hH hat (fun hd => ?_) hval
  have hlayout : At input (pos + H) (layout (elemParts f (List.replicate (n + 1) val))) := hbody hd
  rw [At.layout_iff, headLen_elemParts hrep, List.length_replicate, SolCodec.slotSize_dynamic hd] at hlayout
  exact hlayout

/-- A tuple whose first field is the misread value. -/
theorem misreads_tuple {T : SolCodec} {Ts : List SolCodec} {τ : AbiType} {τs : List AbiType} {f : T.Carrier → τ.Val}
    {fs : Fields Ts → Vals τs} (hrep : Represents T τ f) (hreps : RepresentsAll Ts τs fs) {H : ℕ} {v : T.Carrier}
    (hv : Misreads T (fun v => enc τ (f v)) (if T.isDynamic then tupleHeadSize (T :: Ts) else H) v)
    (vals : Fields Ts) :
    Misreads (tuple (T :: Ts)) (fun vals : T.Carrier × Fields Ts => layout
      (⟨τ.isDynamic, enc τ (f vals.1)⟩ :: encParts τs (fs vals.2))) H ((v, vals) : T.Carrier × Fields Ts) := by
  intro input pos hs hH hat hbody hret
  obtain ⟨val, hval, hret⟩ := returns_bind.mp hret
  obtain ⟨ho, -, hret⟩ := returns_bind.mp hret
  obtain ⟨rest, -, hret⟩ := returns_bind.mp hret
  obtain rfl := (Prod.mk.inj (returns_pure.mp hret)).1
  refine not_returns_first hrep hv (encParts τs (fs vals)) hs hH hat (fun hd => ?_) hval
  have hlayout : At input (pos + H) (layout (⟨τ.isDynamic, enc τ (f val)⟩ :: encParts τs (fs vals))) :=
    hbody ((Bool.or_eq_true _ _).mpr (.inl hd))
  have hhead : headLen (⟨τ.isDynamic, enc τ (f val)⟩ :: encParts τs (fs vals)) = tupleHeadSize (T :: Ts) := by
    rw [headLen_cons, ← hrep.slotSize_eq, hreps.headLen_eq, tupleHeadSize_cons]
  rw [At.layout_iff, hhead] at hlayout
  exact hlayout

end PvmContract.Types
