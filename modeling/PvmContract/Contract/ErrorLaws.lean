import PvmContract.Contract.Errors

/-!
# The laws of error types

`Classifies` is what an implementation of `SolError` promises: the selector and
the argument list are written over the front of any buffer, they are decoded to
the value, and bytes that start with none of the type's selectors are no error of
this type. It is proved of each implementation, and of an enum from its variants:
the last part for the earlier variants is what lets the decoder reach a later one.
-/

namespace PvmContract.Contract

open PvmContract.Data PvmContract.Types PvmContract.Macros PvmContract.Abi AbiType Run

/-- What an implementation of `SolError` promises, where `forget` is what decoding leaves of a
value. -/
structure Classifies (E : SolError) (selectors : List Selector) (data : E.Carrier → List UInt8)
    (Valid : E.Carrier → Prop) (forget : E.Carrier → E.Carrier) : Prop where
  /-- `encoded_size` is the number of bytes. -/
  size : ∀ e, E.encodedSize e = (data e).length
  /-- `encode_to` writes them over the front of the buffer and returns their number. -/
  writes : ∀ e buf, IsSlice buf → E.encodedSize e ≤ buf.length →
    E.encodeTo e buf = some (data e ++ buf.drop (E.encodedSize e), E.encodedSize e)
  /-- They start with a selector of the type. -/
  starts : ∀ e, ∃ s ∈ selectors, s.1 <+: data e
  /-- `decode_at` takes them back. -/
  reads : ∀ e p, Valid e → IsSlice (data e) → Returns (E.decodeAt p (data e) 0) (some (forget e))
  /-- Bytes with another selector are no error of the type. -/
  other : ∀ p input, 4 ≤ input.length → (∀ s ∈ selectors, ¬ s.1 <+: input) →
    E.decodeAt p input 0 = pure none
  /-- Nothing is found in bytes that start with none of the selectors, however short. -/
  never : ∀ p input e, (∀ s ∈ selectors, ¬ s.1 <+: input) → ¬ Returns (E.decodeAt p input 0) (some e)
  /-- What is found is of the variant whose selector stands there. -/
  sound : ∀ p input e, Returns (E.decodeAt p input 0) (some e) → (data e).take 4 <+: input

/-! ### The selector -/

/-- A writer of `bs` that also returns their number. -/
def WritesSized (body : List UInt8 → Option (List UInt8 × ℕ)) (bs : List UInt8) : Prop :=
  ∀ buf, IsSlice buf → bs.length ≤ buf.length → body buf = some (bs ++ buf.drop bs.length, bs.length)

/-- What is written behind the selector, if the body writes `bs`. -/
theorem withSelector_eq {selector : Selector} {body : List UInt8 → Option (List UInt8 × ℕ)} {bs buf : List UInt8}
    (hlen : 4 ≤ buf.length) (hbody : body (buf.drop 4) = some (bs ++ (buf.drop 4).drop bs.length, bs.length)) :
    withSelector selector body buf =
      some (selector.1 ++ bs ++ buf.drop (selector.1 ++ bs).length, (selector.1 ++ bs).length) := by
  have h4 := selector.2
  have hcopy : onSlice buf 0 4 (copyFromSlice selector.1) = some (selector.1 ++ buf.drop 4) := by
    rw [copy_eq (by rw [h4]) hlen, overwrite_zero, h4]
  have htake : (selector.1 ++ buf.drop 4).take 4 = selector.1 := by
    rw [List.take_append_of_le_length (by rw [h4]), List.take_of_length_le (by rw [h4])]
  have hdrop : (selector.1 ++ buf.drop 4).drop 4 = buf.drop 4 := by
    rw [List.drop_append_of_le_length (by rw [h4]), List.drop_of_length_le (by rw [h4]), List.nil_append]
  rw [withSelector, hcopy, Option.bind_eq_bind, Option.bind_some, hdrop, hbody, Option.bind_eq_bind, Option.bind_some,
    htake, List.drop_drop, List.length_append, h4, List.append_assoc]
  rfl

/-- A writer of `bs` behind the selector. -/
theorem withSelector_writes {selector : Selector} {body : List UInt8 → Option (List UInt8 × ℕ)}
    {bs : List UInt8} (hbody : WritesSized body bs) :
    WritesSized (withSelector selector body) (selector.1 ++ bs) := by
  intro buf hs hlen
  rw [List.length_append, selector.2] at hlen
  have hrest : IsSlice (buf.drop 4) := by
    unfold IsSlice at hs ⊢
    rw [List.length_drop]
    omega
  exact withSelector_eq (by omega) (hbody (buf.drop 4) hrest (by rw [List.length_drop]; omega))

/-- The first four bytes are the selector. -/
theorem getRange_selector {selector : Selector} {input : List UInt8} :
    getRange input 0 4 = some selector.1 ↔ selector.1 <+: input := by
  have h4 := selector.2
  rw [getRange_eq_some_iff, List.drop_zero, List.prefix_iff_eq_take, h4, Nat.sub_zero]
  constructor
  · rintro ⟨-, -, h⟩
    exact h.symm
  · intro h
    have hlen := congrArg List.length h
    rw [List.length_take, h4] at hlen
    exact ⟨by omega, by omega, h.symm⟩

section

variable {α : Type} {selector : Selector} {p : Profile} {input : List UInt8} {decode : ℕ → Run α}

theorem four_le_length (h : selector.1 <+: input) : 4 ≤ input.length := by
  rw [← selector.2]
  exact h.length_le

theorem ifSelected_prefix (h : selector.1 <+: input) : ifSelected selector p input 0 decode = some <$> decode 4 := by
  have h4 := four_le_length h
  rw [ifSelected, if_neg (by omega), uadd_of_lt (by omega), pure_andThen, Nat.zero_add,
    if_pos (getRange_selector.mpr h)]

theorem ifSelected_other (h4 : 4 ≤ input.length) (h : ¬ selector.1 <+: input) :
    ifSelected selector p input 0 decode = pure none := by
  rw [ifSelected, if_neg (by omega), uadd_of_lt (by omega), pure_andThen, Nat.zero_add,
    if_neg (fun hget => h (getRange_selector.mp hget))]

theorem ifSelected_short (h4 : input.length < 4) : ifSelected selector p input 0 decode = fail := by
  rw [ifSelected, if_pos h4]

/-- A value is found only behind the selector. -/
theorem prefix_of_ifSelected {a : α} (h : Returns (ifSelected selector p input 0 decode) (some a)) :
    selector.1 <+: input := by
  by_contra hpre
  by_cases h4 : input.length < 4
  · rw [ifSelected_short h4] at h
    exact not_returns_fail h
  · rw [ifSelected_other (by omega) hpre] at h
    exact absurd (returns_pure.mp h) (by simp)

end

/-- An implementation with one selector, from its writer and its decoder behind the selector. -/
theorem classifies_single {E : SolError} {selector : Selector} {body : E.Carrier → List UInt8}
    {Valid : E.Carrier → Prop} {forget : E.Carrier → E.Carrier} (decode : Profile → List UInt8 → ℕ → Run E.Carrier)
    (hsize : ∀ e, E.encodedSize e = 4 + (body e).length)
    (hwrites : ∀ e, WritesSized (E.encodeTo e) (selector.1 ++ body e))
    (hdecode : ∀ p input, E.decodeAt p input 0 = ifSelected selector p input 0 (decode p input))
    (hreads : ∀ e p, Valid e → IsSlice (selector.1 ++ body e) →
      Returns (decode p (selector.1 ++ body e) 4) (forget e)) :
    Classifies E [selector] (fun e => selector.1 ++ body e) Valid forget where
  size e := by rw [hsize, List.length_append, selector.2]
  writes e buf hs hlen := by
    rw [hsize] at hlen ⊢
    have h := hwrites e buf hs (by rw [List.length_append, selector.2]; exact hlen)
    rw [List.length_append, selector.2] at h
    exact h
  starts e := ⟨selector, List.mem_singleton_self selector, List.prefix_append _ _⟩
  reads e p hv hs := by
    rw [hdecode, ifSelected_prefix (List.prefix_append _ _), map_eq_andThen]
    exact Returns.bind (hreads e p hv hs) (returns_pure.mpr rfl)
  other p input h4 h := by
    rw [hdecode, ifSelected_other h4 (h selector (List.mem_singleton_self selector))]
  never p input e h hret := by
    rw [hdecode] at hret
    exact h selector (List.mem_singleton_self selector) (prefix_of_ifSelected hret)
  sound p input e hret := by
    rw [hdecode] at hret
    rw [List.take_left' selector.2]
    exact prefix_of_ifSelected hret

/-! ### Derived structs -/

section

variable {fields : List Ty} (selector : Selector)

/-- `__tail_offset` ends up behind the last tail. -/
theorem dynamicTailOffset_eq (fields : List Field) (vals : Types.Fields (implOf fields)) (off : ℕ) :
    dynamicTailOffset fields vals off = off + dynamicTailLen fields vals := by
  induction fields generalizing off with
  | nil => rfl
  | cons f fields ih =>
    obtain ⟨val, vals⟩ := vals
    rw [dynamicTailOffset, ih, dynamicTailLen]
    split
    · exact Nat.add_assoc _ _ _
    · rw [Nat.zero_add]

/-- The fields of a struct are laid out as an argument list. -/
theorem represents_fields (h : ∀ t ∈ fields, t.Codable = true) :
    Represents (expandDynamic [] (Ty.rusts fields)) (.tuple (Ty.abis fields)) (Ty.toAbis fields) :=
  represents_expandDynamic [] (Ty.consistent_rusts fun t ht => Ty.proper_of_codable (h t ht))
    (Ty.representsAll fun t ht => Ty.represents (h t ht))

theorem length_args (h : ∀ t ∈ fields, t.Codable = true) (vals : Types.Fields (Ty.impls fields)) :
    (abiEncode (Ty.abis fields) (Ty.toAbis fields vals)).length =
      buildDynamicHeadSum (Ty.rusts fields) + dynamicTailLen (Ty.rusts fields) vals := by
  have hlen := (represents_fields h).len vals
  rw [enc_tuple] at hlen
  exact hlen.symm

theorem errorSize_eq (h : ∀ t ∈ fields, t.Codable = true) (vals : Types.Fields (Ty.impls fields)) :
    errorSize (Ty.rusts fields) vals = 4 + (abiEncode (Ty.abis fields) (Ty.toAbis fields vals)).length := by
  rw [length_args h, errorSize]
  cases fields with
  | nil => rfl
  | cons t ts => rfl

theorem errorEncode_writes (h : ∀ t ∈ fields, t.Codable = true) (vals : Types.Fields (Ty.impls fields)) :
    WritesSized (errorEncode (Ty.rusts fields) vals) (abiEncode (Ty.abis fields) (Ty.toAbis fields vals)) := by
  intro buf hs hbuf
  have hwrites := (represents_fields h).writes vals
  rw [enc_tuple] at hwrites
  unfold IsSlice at hs
  have hout := hwrites buf hbuf (by omega)
  simp only [errorEncode, dynamicTailOffset_eq, ← length_args h]
  cases fields with
  | nil => rfl
  | cons t ts =>
    rw [if_neg (by simp [Ty.rusts])]
    exact congrArg (Option.map _) hout

/-- The fields are decoded behind the selector. -/
theorem dynamicRead_returns (h : ∀ t ∈ fields, t.Codable = true) (vals : Types.Fields (Ty.impls fields)) (p : Profile)
    (hs : IsSlice (abiEncode (Ty.abis fields) (Ty.toAbis fields vals))) :
    Returns (dynamicRead p (abiEncode (Ty.abis fields) (Ty.toAbis fields vals)) 0 (Ty.rusts fields) 0) vals := by
  have hfree : ProfileFree (expandDynamic [] (Ty.rusts fields)) := by
    refine profileFree_expandDynamic [] fun T hT => ?_
    obtain ⟨t, ht, rfl⟩ := Ty.mem_impls hT
    exact Ty.profileFree (Ty.compiles_of_proper (Ty.proper_of_codable (h t ht)))
  have hread := (represents_fields h).reads vals _ 0 hs (by rw [enc_tuple]; exact ⟨Nat.zero_le _, List.prefix_refl _⟩)
  exact hfree.decodeTail_returns hread p

theorem classifies_struct (h : ∀ t ∈ fields, t.Codable = true) :
    Classifies (expandSolError selector (Ty.rusts fields)) [selector]
      (fun vals => selector.1 ++ abiEncode (Ty.abis fields) (Ty.toAbis fields vals)) (fun _ => True) id := by
  refine classifies_single (fun p input _ => dynamicRead p (input.drop 4) 0 (Ty.rusts fields) 0)
    (errorSize_eq h) (fun vals => withSelector_writes (errorEncode_writes h vals)) (fun _ _ => rfl)
    (fun vals p _ hs => ?_)
  unfold IsSlice at hs
  rw [List.length_append] at hs
  rw [List.drop_left' selector.2]
  exact dynamicRead_returns h vals p (by unfold IsSlice; omega)

end

/-! ### `Error(string)` -/

/-- A block of a buffer replaced by one of its length. -/
theorem copy_block {a b r src : List UInt8} {i j : ℕ} (hi : a.length = i) (hb : b.length = src.length)
    (hj : i + src.length = j) : onSlice (a ++ b ++ r) i j (copyFromSlice src) = some (a ++ src ++ r) := by
  have hlen : (a ++ b).length = i + src.length := by rw [List.length_append, hi, hb]
  rw [copy_eq hj (by rw [List.length_append, hlen]; omega), overwrite, List.append_assoc a b r,
    List.take_left' hi, ← List.append_assoc a b r, List.drop_left' hlen]

/-- A dynamic argument alone: the offset word, and its encoding. -/
theorem abiEncode_dynamic {τ : AbiType} (hd : τ.isDynamic = true) (v : τ.Val) :
    abiEncode [τ] (v, ()) = word 32 ++ enc τ v := by
  simp [abiEncode, encParts, layout, heads, tails, headLen, Part.head, Part.tail, Part.headLen, hd]

theorem abiEncode_string (message : String) :
    abiEncode [.string] (message, ()) = word 32 ++ encBytes (asBytes message) := by
  have h := abiEncode_dynamic (show isDynamic .string = true from rfl) (message : Val .string)
  exact h

/-- A number written into the low bytes of a cleared word. -/
theorem copy_low (pre rest : List UInt8) {i j n : ℕ} (hi : pre.length + 24 = i) (hj : i + 8 = j) (hn : n < 2 ^ 64) :
    onSlice (pre ++ (List.replicate 32 0 ++ rest)) i j (copyFromSlice (beBytes 8 n)) =
      some (pre ++ (word n ++ rest)) := by
  have hsplit : pre ++ (List.replicate 32 (0 : UInt8) ++ rest) =
      pre ++ List.replicate 24 0 ++ List.replicate 8 0 ++ rest := by
    simp only [List.append_assoc, ← List.replicate_add]
  rw [hsplit, copy_block (by rw [List.length_append, List.length_replicate, hi])
    (by rw [List.length_replicate, length_beBytes]) (by rw [length_beBytes, hj]), word_of_lt hn]
  simp only [List.append_assoc]

/-- The cleared buffer: two words, the place of the message, and the rest. -/
theorem fill_zeros {buf : List UInt8} {n pad : ℕ} (h : 64 + n + pad ≤ buf.length) :
    fill buf 0 (64 + n + pad) 0 = some ([] ++ (List.replicate 32 0 ++ (List.replicate 32 0 ++
      (List.replicate n 0 ++ (List.replicate pad 0 ++ buf.drop (64 + n + pad)))))) := by
  rw [fill_eq 0 (Nat.zero_le _) h, overwrite_zero, List.length_replicate, Nat.sub_zero]
  have hsum : 64 + n + pad = 32 + (32 + (n + pad)) := by omega
  simp only [hsum, List.replicate_add, List.append_assoc, List.nil_append]

/-- The bytes of a message that are written: whole words of them, if there is no room for all. -/
def keptBytes (message : String) (room : ℕ) : List UInt8 :=
  (asBytes message).take (min (asBytes message).length (room / 32 * 32))

theorem keptBytes_of_le {message : String} {room : ℕ} (h : (asBytes message).length ≤ room / 32 * 32) :
    keptBytes message room = asBytes message := by
  rw [keptBytes, Nat.min_eq_left h, List.take_length]

theorem length_keptBytes (message : String) (room : ℕ) :
    (keptBytes message room).length = min (asBytes message).length (room / 32 * 32) := by
  rw [keptBytes, List.length_take, Nat.min_assoc, Nat.min_comm _ (asBytes message).length, ← Nat.min_assoc, Nat.min_self]

/-- The statements behind the length of the message, for the bytes that are written. -/
theorem messageBody_eq {bs buf : List UInt8} (hs : IsSlice buf)
    (hfit : 64 + bs.length + (32 - bs.length % 32) % 32 ≤ buf.length) :
    (do
      let buf ← fill buf 0 (64 + bs.length + (32 - bs.length % 32) % 32) 0
      let buf ← onSlice buf 24 32 (copyFromSlice (beBytes 8 32))
      let buf ← onSlice buf 56 64 (copyFromSlice (beBytes 8 bs.length))
      let buf ← onSlice buf 64 (64 + bs.length) (copyFromSlice bs)
      pure (buf, 64 + bs.length + (32 - bs.length % 32) % 32)) =
      some (word 32 ++ encBytes bs ++ buf.drop (64 + bs.length + (32 - bs.length % 32) % 32),
        64 + bs.length + (32 - bs.length % 32) % 32) := by
  unfold IsSlice at hs
  rw [encBytes, padding]
  generalize (32 - bs.length % 32) % 32 = pad at hfit ⊢
  generalize hrest : buf.drop (64 + bs.length + pad) = rest
  have hdata : onSlice (word 32 ++ (word bs.length ++ (List.replicate bs.length 0 ++ (List.replicate pad 0 ++ rest))))
      64 (64 + bs.length) (copyFromSlice bs) =
      some (word 32 ++ (word bs.length ++ bs ++ List.replicate pad 0) ++ rest) := by
    have hblock := copy_block (a := word 32 ++ word bs.length) (b := List.replicate bs.length 0)
      (r := List.replicate pad 0 ++ rest) (by rw [List.length_append, length_word, length_word])
      (List.length_replicate) (rfl : 64 + bs.length = _)
    simp only [List.append_assoc] at hblock ⊢
    exact hblock
  have hoffset := copy_low [] (List.replicate 32 0 ++ (List.replicate bs.length 0 ++ (List.replicate pad 0 ++ rest)))
    (rfl : 0 + 24 = 24) (rfl : 24 + 8 = 32) (show 32 < 2 ^ 64 by omega)
  have hlength := copy_low (word 32) (List.replicate bs.length 0 ++ (List.replicate pad 0 ++ rest))
    (show (word 32).length + 24 = 56 by rw [length_word]) (rfl : 56 + 8 = 64) (show bs.length < 2 ^ 64 by omega)
  rw [fill_zeros hfit, hrest, Option.bind_eq_bind, Option.bind_some, hoffset, Option.bind_some, List.nil_append,
    hlength, Option.bind_some, hdata]
  rfl

/-- **The part of the message that fits.** -/
theorem revertBody_eq (message : String) {buf : List UInt8} (hs : IsSlice buf) (h64 : 64 ≤ buf.length) :
    let bs := word 32 ++ encBytes (keptBytes message (buf.length - 64));
    revertBody message buf = some (bs ++ buf.drop bs.length, bs.length) := by
  intro bs
  have hlen := length_keptBytes message (buf.length - 64)
  have hbs : bs.length = 64 + (keptBytes message (buf.length - 64)).length +
      (32 - (keptBytes message (buf.length - 64)).length % 32) % 32 := by
    rw [List.length_append, length_word, length_encBytes, bytesBodyLen]
    omega
  have hroom : bs.length ≤ buf.length := by omega
  rw [hbs] at hroom
  have hbody := messageBody_eq hs hroom
  rw [← hbs] at hbody
  have hkept : (asBytes message).take (min (asBytes message).length ((buf.length - 64) / 32 * 32)) =
      keptBytes message (buf.length - 64) := rfl
  rw [revertBody, if_neg (by omega)]
  dsimp only
  rw [hkept, ← hlen, ← hbs]
  exact hbody

theorem revertBody_writes (message : String) :
    WritesSized (revertBody message) (abiEncode [.string] (message, ())) := by
  intro buf hs hbuf
  rw [abiEncode_string] at hbuf ⊢
  rw [List.length_append, length_word, length_encBytes, bytesBodyLen] at hbuf
  have hbody := revertBody_eq message hs (by omega)
  rw [keptBytes_of_le (by omega)] at hbody
  exact hbody

/-- What is decoded from the top-level encoding of a value. -/
theorem decode_returns {t : Ty} (h : t.Codable = true) (v : t.impl.Carrier) (p : Profile)
    (hs : IsSlice (t.abiEncode v)) : Returns (t.impl.decode p (t.abiEncode v)) v := by
  have hfree := Ty.profileFree (Ty.compiles_of_proper (Ty.proper_of_codable h))
  refine hfree.decode_returns ((Ty.represents h).decode_returns hs ?_) p
  rw [Ty.topLevel_eq_abiEncode]
  exact ⟨Nat.zero_le _, List.prefix_refl _⟩

/-- The decoder of the message, behind the selector. -/
def revertDecode (alloc : Bool) (p : Profile) (input : List UInt8) (stop : ℕ) : Run String :=
  if alloc then do
    let args ← ofOption (getRange input stop input.length)
    let data ← (Types.tuple [Types.string]).decode p args
    pure data.1
  else pure ""

/-- The two implementations agree on what is not `Error(string)`. -/
theorem revertString_decodeAt (alloc : Bool) (p : Profile) (input : List UInt8) :
    (RevertString alloc).decodeAt p input 0 = ifSelected revertSelector p input 0 (revertDecode alloc p input) := by
  cases alloc with
  | false => rfl
  | true =>
    have hstop : uadd p 0 4 = pure 4 := uadd_of_lt (by omega)
    by_cases h4 : input.length < 4
    · have hget : getRange input 0 4 = none := by
        rw [getRange, if_neg (by omega)]
      rw [ifSelected_short h4]
      change (do let stop ← uadd p 0 4; _) = _
      rw [hstop, pure_andThen, hget, ofOption_none, fail_andThen]
    · have hget : getRange input 0 4 = some (input.take 4) := by
        rw [getRange_eq_some_iff]
        exact ⟨by omega, by omega, rfl⟩
      rw [ifSelected, if_neg h4]
      change (do let stop ← uadd p 0 4; _) = _
      rw [hstop, pure_andThen, pure_andThen, hget, ofOption_some, pure_andThen]
      by_cases hsel : input.take 4 = revertSelector.1
      · rw [if_pos hsel, if_pos (congrArg some hsel)]
        simp only [revertDecode, if_true, map_eq_andThen, andThen_assoc]
        exact bind_congr_of_returns fun args _ => bind_congr_of_returns fun data _ =>
          (pure_andThen (α := String) data.1 fun message => pure (some message)).symm
      · rw [if_neg hsel, if_neg (fun h => hsel (Option.some.inj h))]

theorem classifies_revertString (alloc : Bool) :
    Classifies (RevertString alloc) [revertSelector]
      (fun message : String => revertSelector.1 ++ abiEncode [.string] (message, ())) (fun _ => True)
      (fun message : String => if alloc then message else "") := by
  refine classifies_single (revertDecode alloc) (fun message : String => ?_)
    (fun message => withSelector_writes (revertBody_writes message)) (revertString_decodeAt alloc)
    (fun message p _ hs => ?_)
  · rw [abiEncode_string, List.length_append, length_word, length_encBytes, bytesBodyLen]
    change 68 + ((asBytes message).length + 31) / 32 * 32 = _
    omega
  · cases alloc with
    | false => exact returns_pure.mpr rfl
    | true =>
      unfold IsSlice at hs
      rw [List.length_append] at hs
      have hargs : getRange (revertSelector.1 ++ abiEncode [.string] (message, ())) 4
          (revertSelector.1 ++ abiEncode [.string] (message, ())).length =
            some (abiEncode [.string] (message, ())) := by
        rw [getRange_eq_some_iff, List.drop_left' revertSelector.2]
        refine ⟨?_, le_refl _, ?_⟩
        · rw [List.length_append, revertSelector.2]
          omega
        · rw [List.length_append, revertSelector.2, Nat.add_sub_cancel_left, List.take_length]
      have hdecode := decode_returns (t := .tuple [.string]) (by decide) ((message, ()) : String × Unit) p
        (by unfold IsSlice; exact lt_of_le_of_lt (Nat.le_add_left _ _) hs)
      rw [revertDecode, if_pos rfl, hargs, ofOption_some, pure_andThen]
      exact Returns.bind hdecode (returns_pure.mpr rfl)

/-! ### `Panic(uint256)` -/

namespace Panic

/-- The code of a valid value is decoded to it. -/
theorem ofWord_code {e : Panic} (h : e.Valid) : ofWord e.code.toNat = some e := by
  cases e with
  | unknown code =>
    have hle : code.toNat ≤ 0xff := Nat.lt_succ_iff.mp code.toNat_lt
    have hne : ∀ c ∈ named, ¬ code.toNat = c.toNat := fun c hc heq => by
      rw [UInt8.toNat_inj] at heq
      exact h (heq ▸ hc)
    simp only [named, List.mem_cons, List.not_mem_nil, or_false, forall_eq_or_imp, forall_eq,
      UInt8.reduceToNat] at hne
    obtain ⟨h0, h1, h11, h12, h21, h22, h31, h32, h41, h51⟩ := hne
    rw [Panic.code, ofWord, if_neg h0, if_neg h1, if_neg h11, if_neg h12, if_neg h21, if_neg h22, if_neg h31,
      if_neg h32, if_neg h41, if_neg h51, if_pos hle, UInt8.ofNat_toNat]
  | _ => rfl

theorem canonical_of_valid {e : Panic} (h : e.Valid) : e.canonical = e := by
  rw [canonical, ofWord_code h, Option.getD_some]

/-- A code with a variant of its own is decoded to that. -/
theorem ofWord_named {code : UInt8} (h : code ∈ named) : ∃ e : Panic, ofWord code.toNat = some e ∧ e.Valid ∧
    e.code = code := by
  simp only [named, List.mem_cons, List.not_mem_nil, or_false] at h
  rcases h with rfl | rfl | rfl | rfl | rfl | rfl | rfl | rfl | rfl | rfl <;> exact ⟨_, rfl, trivial, rfl⟩

theorem canonical_spec (e : Panic) : e.canonical.Valid ∧ e.canonical.code = e.code := by
  by_cases h : e.code ∈ named
  · obtain ⟨e', hword, hvalid, hcode⟩ := ofWord_named h
    rw [canonical, hword, Option.getD_some]
    exact ⟨hvalid, hcode⟩
  · have hvalid : e.Valid := by
      cases e with
      | unknown code => exact h
      | _ => trivial
    rw [canonical_of_valid hvalid]
    exact ⟨hvalid, rfl⟩

/-- A static argument alone is its encoding. -/
theorem abiEncode_static {τ : AbiType} (hd : τ.isDynamic = false) (v : τ.Val) : abiEncode [τ] (v, ()) = enc τ v := by
  simp [abiEncode, encParts, layout, heads, tails, headLen, Part.head, Part.tail, Part.headLen, hd]

/-- The word of a code. -/
theorem abiEncode_code (code : UInt8) :
    abiEncode [.uint 256] (BitVec.ofNat 256 code.toNat, ()) = List.replicate 31 0 ++ [code] := by
  have hlt := code.toNat_lt
  have h := abiEncode_static (show isDynamic (.uint 256) = false from rfl) (BitVec.ofNat 256 code.toNat)
  have hval : (BitVec.ofNat 256 code.toNat).toNat = code.toNat := by
    rw [BitVec.toNat_ofNat, Nat.mod_eq_of_lt (by omega)]
  have hbyte : beBytes 1 code.toNat = [code] := by
    rw [beBytes, beBytes, UInt8.ofNat_toNat, List.nil_append]
  have hword : word code.toNat = List.replicate 31 0 ++ beBytes 1 code.toNat :=
    beBytes_add_of_lt (j := 31) (k := 1) (by omega)
  refine h.trans ?_
  rw [enc, hval, hword, hbyte]

theorem codeBody_writes (code : UInt8) :
    WritesSized (codeBody code) (abiEncode [.uint 256] (BitVec.ofNat 256 code.toNat, ())) := by
  intro buf _ hbuf
  have hlen : (List.replicate 31 (0 : UInt8) ++ [code]).length = 32 := rfl
  rw [abiEncode_code, hlen] at hbuf ⊢
  have hfill : fill buf 0 32 0 = some (List.replicate 31 0 ++ [0] ++ buf.drop 32) := by
    rw [fill_eq 0 (Nat.zero_le _) hbuf, overwrite_zero]
    rfl
  have hcopy : onSlice (List.replicate 31 0 ++ [0] ++ buf.drop 32) 31 32 (copyFromSlice [code]) =
      some (List.replicate 31 0 ++ [code] ++ buf.drop 32) := copy_block List.length_replicate rfl rfl
  rw [codeBody, hfill, Option.bind_eq_bind, Option.bind_some, hcopy]
  rfl

/-- The code is decoded behind the selector. -/
theorem code_decodeAt_returns (code : UInt8) (p : Profile) :
    Returns ((Types.tuple [Types.U256]).decodeAt p
      (selector.1 ++ abiEncode [.uint 256] (BitVec.ofNat 256 code.toNat, ())) 4)
      ((BitVec.ofNat 256 code.toNat, ()) : BitVec 256 × Unit) := by
  have hc : (Ty.tuple [.prim .U256]).Codable = true := by decide
  have hfree := Ty.profileFree (Ty.compiles_of_proper (Ty.proper_of_codable hc))
  have hs : IsSlice (selector.1 ++ abiEncode [.uint 256] (BitVec.ofNat 256 code.toNat, ())) := by
    rw [IsSlice, abiEncode_code, List.length_append, selector.2]
    exact (by decide : 4 + 32 < 2 ^ 63)
  have hread := (Ty.represents hc).reads ((BitVec.ofNat 256 code.toNat, ()) : BitVec 256 × Unit) _ 4 hs
    ⟨by rw [List.length_append, selector.2]; omega, by rw [List.drop_left' selector.2]; exact List.prefix_refl _⟩
  exact hfree.decodeTail_returns hread p

theorem classifies : Classifies impl [selector]
    (fun e : Panic => selector.1 ++ abiEncode [.uint 256] (BitVec.ofNat 256 e.code.toNat, ())) Valid id := by
  refine classifies_single (fun p input stop => do
      let data ← (Types.tuple [Types.U256]).decodeAt p input stop
      ofOption (ofWord (BitVec.toNat (w := 256) data.1)))
    (fun e : Panic => ?_) (fun e : Panic => withSelector_writes (codeBody_writes e.code)) (fun _ _ => rfl)
    (fun (e : Panic) p he _ => Returns.bind (code_decodeAt_returns e.code p) (returns_ofOption.mpr ?_))
  · rw [abiEncode_code]
    rfl
  · have hlt := e.code.toNat_lt
    change ofWord (BitVec.ofNat 256 e.code.toNat).toNat = some e
    rw [BitVec.toNat_ofNat, Nat.mod_eq_of_lt (by omega)]
    exact ofWord_code he

end Panic

/-! ### Derived enums -/

theorem classifies_nil {data : Empty → List UInt8} {Valid : Empty → Prop} {forget : Empty → Empty} :
    Classifies (expandSolErrorEnum []) [] data Valid forget where
  size e := nomatch (e : Empty)
  writes e := nomatch (e : Empty)
  starts e := nomatch (e : Empty)
  reads e := nomatch (e : Empty)
  other _ _ _ _ := rfl
  never _ _ e := nomatch (e : Empty)
  sound _ _ e := nomatch (e : Empty)

/-- Two selectors in front of the same bytes are one. -/
theorem selector_unique {s s' : Selector} {input : List UInt8} (h : s.1 <+: input) (h' : s'.1 <+: input) : s = s' := by
  have hlen : s.1.length = s'.1.length := by rw [s.2, s'.2]
  exact Subtype.ext ((List.prefix_of_prefix_length_le h h' hlen.le).eq_of_length hlen)

/-- Where the first variant finds nothing, the others are asked. -/
theorem variantsRead_none {E : SolError} {Es : List SolError} {p : Profile} {input : List UInt8} {offset : ℕ}
    (h : E.decodeAt p input offset = pure none) :
    variantsRead p input offset (E :: Es) = Option.map Sum.inr <$> variantsRead p input offset Es := by
  rw [variantsRead, h, pure_andThen, map_eq_andThen]
  rfl

/-- A value of the first variant was found by its decoder. -/
theorem variantsRead_inl {E : SolError} {Es : List SolError} {p : Profile} {input : List UInt8} {offset : ℕ}
    {e : E.Carrier} (h : Returns (variantsRead p input offset (E :: Es)) (some (.inl e))) :
    Returns (E.decodeAt p input offset) (some e) := by
  obtain ⟨found, hfound, hret⟩ := returns_bind.mp h
  cases found with
  | some e' =>
    have heq := Sum.inl.inj (Option.some.inj (returns_pure.mp hret))
    rwa [heq] at hfound
  | none =>
    obtain ⟨rest, -, hret⟩ := returns_bind.mp hret
    have heq : rest.map Sum.inr = some (.inl e) := returns_pure.mp hret
    obtain ⟨e', -, hsum⟩ := Option.map_eq_some_iff.mp heq
    exact absurd hsum (by simp)

/-- A value of a later variant was found by the decoders of the others. -/
theorem variantsRead_inr {E : SolError} {Es : List SolError} {p : Profile} {input : List UInt8} {offset : ℕ}
    {e : Variants Es} (h : Returns (variantsRead p input offset (E :: Es)) (some (.inr e))) :
    Returns (variantsRead p input offset Es) (some e) := by
  obtain ⟨found, hfound, hret⟩ := returns_bind.mp h
  cases found with
  | some e' =>
    have heq : Sum.inl e' = Sum.inr e := Option.some.inj (returns_pure.mp hret)
    exact absurd heq (by simp)
  | none =>
    obtain ⟨rest, hrest, hret⟩ := returns_bind.mp hret
    have heq : rest.map Sum.inr = some (.inr e) := returns_pure.mp hret
    obtain ⟨e', rfl, hsum⟩ := Option.map_eq_some_iff.mp heq
    rwa [Sum.inr.inj hsum] at hrest

section

variable {E : SolError} {Es : List SolError} {selectors selectors' : List Selector}
  {data : Variants (E :: Es) → List UInt8} {Valid : Variants (E :: Es) → Prop}
  {forget : Variants (E :: Es) → Variants (E :: Es)} {forgetE : E.Carrier → E.Carrier}
  {forgetEs : Variants Es → Variants Es}

/-- One more variant in front of an enum. Its selectors are none of the others', so what it
does not find is left to the others. -/
theorem classifies_cons
    (hE : Classifies E selectors (fun e => data (.inl e)) (fun e => Valid (.inl e)) forgetE)
    (hEs : Classifies (expandSolErrorEnum Es) selectors' (fun e => data (.inr e)) (fun e => Valid (.inr e)) forgetEs)
    (hdisj : ∀ s ∈ selectors, s ∉ selectors') (hinl : ∀ e, forget (.inl e) = .inl (forgetE e))
    (hinr : ∀ e, forget (.inr e) = .inr (forgetEs e)) :
    Classifies (expandSolErrorEnum (E :: Es)) (selectors ++ selectors') data Valid forget where
  size := by
    rintro (e | e)
    · exact hE.size e
    · exact hEs.size e
  writes := by
    rintro (e | e) buf hs hlen
    · exact hE.writes e buf hs hlen
    · exact hEs.writes e buf hs hlen
  starts := by
    rintro (e | e)
    · obtain ⟨s, hs, hpre⟩ := hE.starts e
      exact ⟨s, List.mem_append_left _ hs, hpre⟩
    · obtain ⟨s, hs, hpre⟩ := hEs.starts e
      exact ⟨s, List.mem_append_right _ hs, hpre⟩
  reads := by
    rintro (e | e) p hv hs
    · rw [hinl]
      exact Returns.bind (hE.reads e p hv hs) (returns_pure.mpr rfl)
    · -- no selector of the first variant stands in front of the bytes of another one
      obtain ⟨s, hmem, hpre⟩ := hEs.starts e
      have hnone := hE.other p (data (.inr e)) (four_le_length hpre) fun s' hs' hpre' =>
        hdisj s' hs' (selector_unique hpre' hpre ▸ hmem)
      have hread : variantsRead p (data (.inr e)) 0 (E :: Es) =
          Option.map Sum.inr <$> variantsRead p (data (.inr e)) 0 Es := variantsRead_none hnone
      rw [hinr]
      change Returns (variantsRead p (data (.inr e)) 0 (E :: Es)) _
      rw [hread, map_eq_andThen]
      exact Returns.bind (hEs.reads e p hv hs) (returns_pure.mpr rfl)
  other p input h4 h := by
    have hnone := hE.other p input h4 fun s hs => h s (List.mem_append_left _ hs)
    have hrest : variantsRead p input 0 Es = pure none :=
      hEs.other p input h4 fun s hs => h s (List.mem_append_right _ hs)
    change variantsRead p input 0 (E :: Es) = _
    rw [variantsRead_none hnone, hrest, map_eq_andThen, pure_andThen]
    rfl
  never := by
    rintro p input (e | e) h hret
    · exact hE.never p input e (fun s hs => h s (List.mem_append_left _ hs)) (variantsRead_inl hret)
    · exact hEs.never p input e (fun s hs => h s (List.mem_append_right _ hs)) (variantsRead_inr hret)
  sound := by
    rintro p input (e | e) hret
    · exact hE.sound p input e (variantsRead_inl hret)
    · exact hEs.sound p input e (variantsRead_inr hret)

end

/-! ### Every error type -/

namespace ErrTy

/-- The selector of a derived error is that of its name and the name of its argument list. -/
theorem derived_eq {fields : List Ty} (h : ∀ t ∈ fields, t.Proper = true) (keccak : List UInt8 → Word)
    (errorName : String) {s : String} (hs : (Types.tuple (Ty.impls fields)).solName = some s) :
    derived keccak errorName fields = some (struct (constSelector keccak (errorName ++ s)) fields) := by
  rw [derived, buildSignature, buildSolName_of_tupleName (Ty.consistent_rusts h) hs, Option.map_some, Option.map_some]

variable (alloc : Bool)

mutual

/-- Every error type classifies. -/
theorem classifies : (t : ErrTy) → t.WellFormed →
    Classifies (t.impl alloc) t.selectors (t.data alloc) (t.Valid alloc) (t.forget alloc)
  | struct selector _, h => by
    rw [WellFormed] at h
    have hc := classifies_struct selector h
    exact hc
  | enum variants, h => by
    rw [WellFormed] at h
    exact classifiesList variants h.2.2 h.2.1
  | revertString, _ => classifies_revertString alloc
  | panic, _ => Panic.classifies

/-- So does every list of variants. -/
theorem classifiesList : (ts : List ErrTy) → WellFormedList ts → (selectorsList ts).Nodup →
    Classifies (expandSolErrorEnum (impls alloc ts)) (selectorsList ts) (dataList alloc ts) (ValidList alloc ts)
      (forgetList alloc ts)
  | [], _, _ => classifies_nil
  | t :: ts, h, hd => by
    rw [WellFormedList] at h
    rw [selectorsList, List.nodup_append] at hd
    exact classifies_cons (classifies t h.1) (classifiesList ts h.2 hd.2.1)
      (fun s hs hs' => hd.2.2 s hs s hs' rfl) (fun _ => rfl) (fun _ => rfl)

end

mutual

/-- With `alloc`, or where there is no `Error(string)`, nothing of a value is lost. -/
theorem forget_eq : (t : ErrTy) → (alloc = true ∨ revertSelector ∉ t.selectors) → ∀ e, t.forget alloc e = e
  | struct _ _, _, _ => rfl
  | enum variants, h, e => forgetList_eq variants h e
  | revertString, h, (message : String) => by
    rcases h with rfl | h
    · rfl
    · exact absurd (List.mem_singleton_self revertSelector) h
  | panic, _, _ => rfl

/-- The same of a list of variants. -/
theorem forgetList_eq : (ts : List ErrTy) → (alloc = true ∨ revertSelector ∉ selectorsList ts) →
    ∀ e, forgetList alloc ts e = e
  | [], _, e => nomatch (e : Empty)
  | t :: ts, h, e => by
    rw [selectorsList, List.mem_append, not_or] at h
    rcases e with e | e
    · exact congrArg Sum.inl (forget_eq t (h.imp_right And.left) e)
    · exact congrArg Sum.inr (forgetList_eq ts (h.imp_right And.right) e)

end

mutual

/-- The canonical value is valid, and has the same bytes. -/
theorem canonical_spec : (t : ErrTy) → ∀ e, t.Valid alloc (t.canonical alloc e) ∧
    t.data alloc (t.canonical alloc e) = t.data alloc e
  | struct _ _, _ => ⟨trivial, rfl⟩
  | enum variants, e => canonicalList_spec variants e
  | revertString, _ => ⟨trivial, rfl⟩
  | panic, (e : Panic) => by
    obtain ⟨hvalid, hcode⟩ := e.canonical_spec
    refine ⟨hvalid, ?_⟩
    change Panic.selector.1 ++ abiEncode [.uint 256] (BitVec.ofNat 256 e.canonical.code.toNat, ()) = _
    rw [hcode]
    rfl

/-- The same of a list of variants. -/
theorem canonicalList_spec : (ts : List ErrTy) → ∀ e, ValidList alloc ts (canonicalList alloc ts e) ∧
    dataList alloc ts (canonicalList alloc ts e) = dataList alloc ts e
  | [], e => nomatch (e : Empty)
  | t :: _, .inl e => canonical_spec t e
  | _ :: ts, .inr e => canonicalList_spec ts e

end

/-- **Errors.** Every error type classifies, and decoding loses nothing but, without `alloc`, the
message of `Error(string)`. -/
theorem round_trip (t : ErrTy) (h : t.WellFormed) :
    Classifies (t.impl alloc) t.selectors (t.data alloc) (t.Valid alloc) (t.forget alloc) ∧
      ((alloc = true ∨ revertSelector ∉ t.selectors) → ∀ e, t.forget alloc e = e) :=
  ⟨classifies alloc t h, forget_eq alloc t⟩

/-- An enum of `struct Err;` and the errors of Solidity. -/
def errOrDefault : ErrTy := enum [struct ⟨[198, 79, 195, 114], rfl⟩ [], solDefaultError]

theorem round_trip_errOrDefault :
    Classifies (errOrDefault.impl true) errOrDefault.selectors (errOrDefault.data true) (errOrDefault.Valid true)
        (errOrDefault.forget true) ∧
      ((true = true ∨ revertSelector ∉ errOrDefault.selectors) → ∀ e, errOrDefault.forget true e = e) :=
  round_trip true errOrDefault (by
    simp only [errOrDefault, solDefaultError, WellFormed, WellFormedList, selectorsList, selectors]
    decide)

/-- Without `alloc` a message is encoded, and is gone when it is decoded. -/
theorem message_lost : ∃ buf,
    (RevertString false).encodeTo "abc" (List.replicate 100 0xff) = some (buf, 100) ∧
      Returns ((RevertString false).decodeAt .checked buf 0) (some "") ∧
      ¬ Returns ((RevertString false).decodeAt .checked buf 0) (some "abc") := by
  have hsize : (RevertString false).encodedSize "abc" = 100 := rfl
  have hc := classifies_revertString false
  have hlen := hc.size "abc"
  have hread := hc.reads "abc" .checked trivial (by rw [IsSlice, ← hlen, hsize]; decide)
  have hwrite := hc.writes "abc" (List.replicate 100 0xff) (by rw [IsSlice, List.length_replicate]; decide)
    (by rw [hsize, List.length_replicate])
  rw [hsize, List.drop_replicate, Nat.sub_self, List.replicate_zero, List.append_nil] at hwrite
  refine ⟨_, hwrite, hread, fun h => ?_⟩
  have heq : "" = "abc" := Option.some.inj (hread.unique h)
  exact absurd heq (by decide)

end ErrTy

/-! ### Reverts of other contracts -/

/-- Through a buffer with room for them, the data of a revert are decoded as they are. -/
theorem tryDecodeErrorRaw_eq (E : SolError) (p : Profile) {data buf : List UInt8} (h : data.length ≤ buf.length) :
    tryDecodeErrorRaw E p .calleeReverted data buf = E.decodeAt p data 0 := by
  rw [tryDecodeErrorRaw, if_pos rfl, if_neg (by omega), returnDataCopy_eq h]

theorem tryDecodeError_eq (E : SolError) (p : Profile) (data : List UInt8) :
    tryDecodeError E p .calleeReverted data = E.decodeAt p data 0 := by
  have hcopy : returnDataCopy data (List.replicate data.length 0) 0 = data :=
    returnDataCopy_eq (by rw [List.length_replicate])
  simp only [tryDecodeError, if_true, hcopy]
  rw [List.drop_of_length_le (by rw [List.length_replicate]), List.append_nil]

end PvmContract.Contract
