import PvmContract.Contract.ErrorLaws
import PvmContract.Types.MisreadLaws

/-!
# Messages of reverts

`Error(string)` in a buffer that may be too small for the message. The encoder never
leaves the buffer: it writes as many whole words of the message as fit, with their
number in the length word, so what it has written is always the encoding of a byte
string that the message begins with (`Fitted`).

Whether it is the encoding of a message is another question. A word may end between
the bytes of one character, and then the bytes that are left are not UTF-8, and the
decoder rejects what the encoder wrote. `encodeTo_sound_iff` is the exact condition:
the last byte that is written must be the last one of a character.
-/

namespace PvmContract.Contract

open PvmContract.Data PvmContract.Types PvmContract.Macros PvmContract.Abi AbiType Run

/-! ### Characters -/

/-- `str::is_char_boundary`: the string can be divided behind its first `n` bytes. -/
def IsCharBoundary (s : String) (n : ℕ) : Prop := ∃ front rest : String, s = front ++ rest ∧ (asBytes front).length = n

theorem asBytes_append (a b : String) : asBytes (a ++ b) = asBytes a ++ asBytes b := by
  simp [asBytes]

/-- A string whose bytes another one begins with is the front of it. -/
theorem exists_append {s front : String} (h : asBytes front <+: asBytes s) : ∃ rest, s = front ++ rest := by
  obtain ⟨bytes, hbytes⟩ := h
  have hencode : front.toList.utf8Encode ++ ⟨bytes.toArray⟩ = s.toList.utf8Encode := by
    rw [String.utf8Encode_toList, String.utf8Encode_toList]
    apply ByteArray.ext
    apply Array.toList_inj.mp
    rw [ByteArray.data_append, Array.toList_append]
    exact hbytes
  obtain ⟨rest, hrest⟩ := List.isPrefix_of_utf8Encode_append_eq_utf8Encode _ hencode
  refine ⟨.ofList rest, ?_⟩
  apply String.toList_inj.mp
  rw [String.toList_append, String.toList_ofList]
  exact hrest.symm

/-- The first bytes of a string are a string at a character boundary only. -/
theorem fromUtf8_take {s front : String} {n : ℕ} (hn : n ≤ (asBytes s).length) :
    fromUtf8 ((asBytes s).take n) = some front ↔ ∃ rest, s = front ++ rest ∧ (asBytes front).length = n := by
  constructor
  · intro h
    have hfront := asBytes_of_fromUtf8 h
    obtain ⟨rest, hrest⟩ := exists_append (s := s) (hfront ▸ List.take_prefix n (asBytes s))
    refine ⟨rest, hrest, ?_⟩
    rw [hfront, List.length_take, Nat.min_eq_left hn]
  · rintro ⟨rest, rfl, hlen⟩
    rw [asBytes_append, List.take_left' hlen]
    exact fromUtf8_asBytes front

/-! ### What is written -/

/-- The number of bytes of a message that are written to a buffer. -/
def keptLen (message : String) (bufLen : ℕ) : ℕ := min (asBytes message).length ((bufLen - 68) / 32 * 32)

/-- What `encode_to` left in a buffer: it wrote `size` bytes, all of them inside, and they are the encoding of
a byte string that the message begins with. -/
structure Fitted (message : String) (buf out : List UInt8) (size : ℕ) : Prop where
  inside : size ≤ buf.length
  length : out.length = buf.length
  rest : out.drop size = buf.drop size
  payload : out.take size = revertSelector.1 ++ abiEncode [.bytes] ((asBytes message).take (keptLen message buf.length), ())

/-- What was written is `Error(string)` of a text. -/
def IsErrorString (written : List UInt8) : Prop :=
  ∃ text : String, written = revertSelector.1 ++ abiEncode [.string] (text, ())

/-- The decoder takes back a front of the message, and all of it if the buffer has room for it. -/
structure Decoded (alloc : Bool) (message : String) (buf written : List UInt8) (decoded : String) : Prop where
  accepts : ∀ p, Returns ((RevertString alloc).decodeAt p written 0) (some decoded)
  front : ∃ rest, message = decoded ++ rest
  whole : (RevertString alloc).encodedSize message ≤ buf.length → decoded = message

section

variable {message : String} {buf : List UInt8}

theorem keptLen_le (message : String) (bufLen : ℕ) : keptLen message bufLen ≤ (asBytes message).length :=
  Nat.min_le_left _ _

theorem keptBytes_eq :
    keptBytes message ((buf.drop 4).length - 64) = (asBytes message).take (keptLen message buf.length) := by
  rw [List.length_drop, Nat.sub_sub]
  rfl

theorem abiEncode_bytes (data : List UInt8) : abiEncode [.bytes] (data, ()) = word 32 ++ encBytes data := by
  have h := abiEncode_dynamic (show isDynamic .bytes = true from rfl) (data : Val .bytes)
  exact h

theorem abiEncode_bytes_inj {data data' : List UInt8} (hlt : data.length < 2 ^ 64)
    (h : abiEncode [.bytes] (data, ()) = abiEncode [.bytes] (data', ())) : data = data' := by
  rw [abiEncode_bytes, abiEncode_bytes] at h
  have hbytes := List.append_cancel_left h
  have hlength := congrArg List.length hbytes
  rw [length_encBytes, length_encBytes, bytesBodyLen, bytesBodyLen] at hlength
  rw [encBytes, encBytes, List.append_assoc, List.append_assoc] at hbytes
  obtain ⟨hword, hrest⟩ := List.append_inj hbytes (by rw [length_word, length_word])
  have hnum : data.length = data'.length := by
    have hof := congrArg ofBe hword
    rwa [word, word, ofBe_beBytes_of_lt (by omega), ofBe_beBytes_of_lt (by omega)] at hof
  exact (List.append_inj hrest hnum).1

/-- **The encoder stays in the buffer.** -/
theorem encodeTo_fitted (alloc : Bool) (hs : IsSlice buf) (hlen : 68 ≤ buf.length) :
    ∃ out size, (RevertString alloc).encodeTo message buf = some (out, size) ∧ Fitted message buf out size := by
  have hrest : IsSlice (buf.drop 4) := by
    unfold IsSlice at hs ⊢
    rw [List.length_drop]
    omega
  have hbody := revertBody_eq message hrest (by rw [List.length_drop]; omega)
  rw [keptBytes_eq] at hbody
  have hout : withSelector revertSelector (revertBody message) buf = _ := withSelector_eq (by omega) hbody
  have hkept := keptLen_le message buf.length
  have hroom : keptLen message buf.length ≤ (buf.length - 68) / 32 * 32 := Nat.min_le_right _ _
  rw [← abiEncode_bytes] at hout
  have hsize : (revertSelector.1 ++ abiEncode [.bytes] ((asBytes message).take (keptLen message buf.length), ())).length ≤
      buf.length := by
    rw [abiEncode_bytes, List.length_append, List.length_append, revertSelector.2, length_word, length_encBytes, bytesBodyLen,
      List.length_take]
    omega
  refine ⟨_, _, hout, hsize, ?_, ?_, ?_⟩
  · rw [List.length_append, List.length_drop]
    omega
  · rw [List.drop_left]
  · rw [List.take_left]

/-- What was written is in memory. -/
theorem Fitted.slice {out : List UInt8} {size : ℕ} (h : Fitted message buf out size) (hs : IsSlice buf) :
    IsSlice (revertSelector.1 ++ abiEncode [.bytes] ((asBytes message).take (keptLen message buf.length), ())) := by
  have hlength := h.length
  unfold IsSlice at hs ⊢
  rw [← h.payload, List.length_take]
  omega

/-- What comes behind a part that returns. -/
theorem returns_bind_of {α β : Type} {x : Run α} {a : α} {f : α → Run β} {b : β} (hx : Returns x a) :
    Returns (x >>= f) b ↔ Returns (f a) b := by
  constructor
  · intro h
    obtain ⟨a', ha', hf⟩ := returns_bind.mp h
    rwa [hx.unique ha']
  · exact hx.bind

/-- The argument list is read as the one string that it holds. -/
theorem decode_string {data : List UInt8} {p : Profile} {decoded : String} (hs : IsSlice (word 32 ++ encBytes data)) :
    Returns ((Types.tuple [Types.string]).decode p (word 32 ++ encBytes data)) ((decoded, ()) : String × Unit) ↔
      fromUtf8 data = some decoded := by
  have hat := At.intro [] (word 32 ++ encBytes data) []
  rw [List.nil_append, List.append_nil, At.append_iff, length_word, List.length_nil, Nat.zero_add] at hat
  obtain ⟨hoffset, hbody⟩ := hat
  have hword : Returns (readWordOffset (word 32 ++ encBytes data) 0) 32 := readWordOffset_word hs hoffset (by decide)
  have hpos : Returns (checkedSum [0, 32]) 32 := by
    rw [checkedSum_pair, checkedAdd_of_lt (by omega)]
    rfl
  change Returns (tupleReadField Types.string p (word 32 ++ encBytes data) 0 0 >>= fun val => do
    let ho ← checkedSum [0, Types.string.slotSize]
    let vals ← tupleRead p (word 32 ++ encBytes data) 0 [] ho
    pure ((val, vals) : String × Unit)) _ ↔ _
  have hfield : ∀ val : String, Returns (tupleReadField Types.string p (word 32 ++ encBytes data) 0 0) val ↔
      fromUtf8 data = some val := by
    intro val
    change Returns (readWordOffset (word 32 ++ encBytes data) 0 >>= fun fo =>
      checkedSum [0, fo] >>= fun pos => stringTail (word 32 ++ encBytes data) pos) val ↔ _
    rw [returns_bind_of hword, returns_bind_of hpos, stringTail, returns_bind_of (bytesTail_returns hs hbody),
      returns_ofOption]
  constructor
  · intro h
    obtain ⟨val, hval, hrest⟩ := returns_bind.mp h
    obtain ⟨ho, -, hrest⟩ := returns_bind.mp hrest
    have heq := returns_pure.mp ((returns_bind_of (returns_pure.mpr rfl)).mp hrest)
    rw [← (Prod.mk.inj heq).1]
    exact (hfield val).mp hval
  · intro h
    exact ((hfield decoded).mpr h).bind (hpos.bind rfl)

/-- What the decoder makes of the encoding of a byte string. -/
theorem decodeAt_payload {data : List UInt8} {p : Profile} {decoded : String}
    (hs : IsSlice (revertSelector.1 ++ abiEncode [.bytes] (data, ()))) :
    Returns ((RevertString true).decodeAt p (revertSelector.1 ++ abiEncode [.bytes] (data, ())) 0) (some decoded) ↔
      fromUtf8 data = some decoded := by
  rw [abiEncode_bytes] at hs ⊢
  have hargs : Returns (ofOption (getRange (revertSelector.1 ++ (word 32 ++ encBytes data)) 4
      (revertSelector.1 ++ (word 32 ++ encBytes data)).length)) (word 32 ++ encBytes data) := by
    rw [returns_ofOption, getRange_eq_some_iff, List.drop_left' revertSelector.2, List.length_append, revertSelector.2,
      Nat.add_sub_cancel_left, List.take_length]
    exact ⟨by omega, le_refl _, rfl⟩
  have hslice : IsSlice (word 32 ++ encBytes data) := by
    unfold IsSlice at hs ⊢
    rw [List.length_append] at hs
    omega
  rw [revertString_decodeAt, ifSelected_prefix (List.prefix_append _ _), map_eq_andThen, ← decode_string hslice, revertDecode,
    if_pos rfl]
  constructor
  · intro h
    obtain ⟨val, hval, hsome⟩ := returns_bind.mp h
    obtain ⟨⟨val', u⟩, htuple, hpure⟩ := returns_bind.mp ((returns_bind_of hargs).mp hval)
    rw [← Option.some.inj (returns_pure.mp hsome), ← returns_pure.mp hpure]
    exact htuple
  · intro h
    have hmessage : Returns (do
        let data ← (Types.tuple [Types.string]).decode p (word 32 ++ encBytes data)
        pure data.1) decoded := Returns.bind h (returns_pure.mpr rfl)
    exact Returns.bind ((returns_bind_of hargs).mpr hmessage) (returns_pure.mpr rfl)

/-- The written bytes are those of a text at a character boundary only. -/
theorem isErrorString_iff {kept : ℕ} (hkept : kept ≤ (asBytes message).length)
    (hs : IsSlice (revertSelector.1 ++ abiEncode [.bytes] ((asBytes message).take kept, ()))) :
    IsErrorString (revertSelector.1 ++ abiEncode [.bytes] ((asBytes message).take kept, ())) ↔
      IsCharBoundary message kept := by
  have hstring : ∀ text : String, abiEncode [.string] (text, ()) = abiEncode [.bytes] (asBytes text, ()) := fun text => rfl
  constructor
  · rintro ⟨text, htext⟩
    rw [hstring] at htext
    have hlt : ((asBytes message).take kept).length < 2 ^ 64 := by
      unfold IsSlice at hs
      rw [abiEncode_bytes, List.length_append, List.length_append, length_encBytes, bytesBodyLen] at hs
      omega
    have hbytes := abiEncode_bytes_inj hlt (List.append_cancel_left htext)
    have hvalid : fromUtf8 ((asBytes message).take kept) = some text := by
      rw [hbytes]
      exact fromUtf8_asBytes text
    obtain ⟨rest, hrest, hlen⟩ := (fromUtf8_take hkept).mp hvalid
    exact ⟨text, rest, hrest, hlen⟩
  · rintro ⟨front, rest, rfl, hlen⟩
    refine ⟨front, ?_⟩
    rw [hstring, asBytes_append, List.take_left' hlen]

/-- **A message is cut off well at a character boundary only.** The written bytes are `Error(string)` of a text,
and taken back as a front of the message, if the last of them ends a character. Without `alloc` the decoder has
no place for a message, and finds the empty one. -/
theorem encodeTo_sound_iff (alloc : Bool) (message : String) {buf : List UInt8} (hs : IsSlice buf) (hlen : 68 ≤ buf.length) :
    ∃ out size, (RevertString alloc).encodeTo message buf = some (out, size) ∧ Fitted message buf out size ∧
      ((IsErrorString (out.take size) ∧ ∃ decoded, Decoded alloc message buf (out.take size) decoded) ↔
        IsCharBoundary message (keptLen message buf.length) ∧
          (alloc = true ∨ message = "" ∨ buf.length < (RevertString alloc).encodedSize message)) := by
  obtain ⟨out, size, hout, hfit⟩ := encodeTo_fitted alloc hs hlen
  refine ⟨out, size, hout, hfit, ?_⟩
  have hslice := hfit.slice hs
  rw [hfit.payload, isErrorString_iff (keptLen_le _ _) hslice]
  refine and_congr_right fun hboundary => ?_
  cases alloc with
  | true =>
    refine ⟨fun _ => .inl rfl, fun _ => ?_⟩
    obtain ⟨decoded, rest, hrest, hkept⟩ := hboundary
    have haccepts := (fromUtf8_take (keptLen_le _ _)).mpr ⟨rest, hrest, hkept⟩
    refine ⟨decoded, fun p => (decodeAt_payload hslice).mpr haccepts, ⟨rest, hrest⟩, fun hfits => ?_⟩
    -- all bytes of the message are written
    have hall : keptLen message buf.length = (asBytes message).length := by
      change 68 + ((asBytes message).length + 31) / 32 * 32 ≤ buf.length at hfits
      exact Nat.min_eq_left (by omega)
    rw [hall, List.take_length, fromUtf8_asBytes] at haccepts
    exact (Option.some.inj haccepts).symm
  | false =>
    have hempty : ∀ p, Returns ((RevertString false).decodeAt p
        (revertSelector.1 ++ abiEncode [.bytes] ((asBytes message).take (keptLen message buf.length), ())) 0) (some "") := by
      intro p
      rw [revertString_decodeAt, ifSelected_prefix (List.prefix_append _ _)]
      exact rfl
    constructor
    · rintro ⟨decoded, haccepts, -, hwhole⟩
      have hdecoded : "" = decoded := Option.some.inj ((hempty .checked).unique (haccepts .checked))
      by_cases hfits : (RevertString false).encodedSize message ≤ buf.length
      · exact .inr (.inl ((hwhole hfits).symm.trans hdecoded.symm))
      · exact .inr (.inr (Nat.lt_of_not_le hfits))
    · intro h
      refine ⟨"", hempty, ⟨message, String.empty_append.symm⟩, fun hfits => ?_⟩
      rcases h with h | rfl | hsmall
      · exact Bool.noConfusion h
      · rfl
      · exact absurd hfits (Nat.not_le_of_lt hsmall)

/-- A message of 40 letters is cut off behind 32 of them. -/
theorem letters_cut :
    let message := "abcdefghijklmnopqrstuvwxyzabcdefghijklmn";
    let buf := List.replicate 100 (0xff : UInt8);
    ∃ out size, (RevertString true).encodeTo message buf = some (out, size) ∧ Fitted message buf out size ∧
      IsErrorString (out.take size) ∧ ∃ decoded, Decoded true message buf (out.take size) decoded := by
  intro message buf
  have hs : IsSlice buf := by
    rw [IsSlice, List.length_replicate]
    decide
  obtain ⟨out, size, hout, hfit, hiff⟩ := encodeTo_sound_iff true message hs (by rw [List.length_replicate]; decide)
  refine ⟨out, size, hout, hfit, hiff.mpr ⟨⟨"abcdefghijklmnopqrstuvwxyzabcdef", "ghijklmn", rfl, ?_⟩, .inl rfl⟩⟩
  rw [keptLen, List.length_replicate]
  decide

/-- Eleven euro signs are 33 bytes. The first 32 of them end inside a euro sign: in no build are the written
bytes `Error(string)` of a text, and the decoder of a build with `alloc` finds no message. -/
theorem euro_cut :
    let message := "€€€€€€€€€€€";
    let buf := List.replicate 100 (0xff : UInt8);
    ∀ alloc, ∃ out size, (RevertString alloc).encodeTo message buf = some (out, size) ∧
      ¬ IsErrorString (out.take size) ∧
      (alloc = true → ∀ p decoded, ¬ Returns ((RevertString alloc).decodeAt p (out.take size) 0) (some decoded)) := by
  intro message buf alloc
  have hs : IsSlice buf := by
    rw [IsSlice, List.length_replicate]
    decide
  obtain ⟨out, size, hout, hfit⟩ : ∃ out size, (RevertString alloc).encodeTo message buf = some (out, size) ∧
      Fitted message buf out size := encodeTo_fitted alloc hs (by rw [List.length_replicate]; decide)
  have hslice := hfit.slice hs
  have hkept : keptLen message buf.length = 32 := by
    rw [keptLen, List.length_replicate]
    decide
  have hinvalid : fromUtf8 ((asBytes message).take 32) = none := by decide
  rw [hkept] at hslice
  refine ⟨out, size, hout, ?_, fun halloc p decoded hdecoded => ?_⟩
  · rw [hfit.payload, hkept, isErrorString_iff (by decide) hslice]
    rintro ⟨front, rest, hfront, hlen⟩
    have hvalid := (fromUtf8_take (s := message) (n := 32) (by decide)).mpr ⟨rest, hfront, hlen⟩
    rw [hinvalid] at hvalid
    exact absurd hvalid (by simp)
  · subst halloc
    rw [hfit.payload, hkept] at hdecoded
    have hvalid := (decodeAt_payload hslice).mp hdecoded
    rw [hinvalid] at hvalid
    exact absurd hvalid (by simp)

end

end PvmContract.Contract
