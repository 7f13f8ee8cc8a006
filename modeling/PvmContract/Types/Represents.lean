import PvmContract.Abi.Encoding
import PvmContract.Types.Codec

/-!
# What it means to implement an ABI type

`Represents` is the contract between an implementation of the codec traits and
the reference encoding: the writer writes the encoding of the value, the sizes
are its sizes, and the decoder that finds an encoding at an offset returns the
value. `ProfileFree` says that an implementation does the same under both build
profiles wherever it does not panic. Both are proved of each implementation
from the same facts about its components; here are their consequences for the
provided methods `encode_to` and `decode`.
-/

namespace PvmContract.Types

open Data Run Abi AbiType

/-- A slice is at most `isize::MAX` bytes long. -/
def IsSlice (input : List UInt8) : Prop := input.length < 2 ^ 63

instance (input : List UInt8) : Decidable (IsSlice input) :=
  inferInstanceAs (Decidable (input.length < 2 ^ 63))

/-- **Contract of an implementation**: `c` implements the ABI type `τ`, where a value of the
Rust type stands for the ABI value `toAbi`. -/
structure Represents (c : SolCodec) (τ : AbiType) (toAbi : c.Carrier → τ.Val) : Prop where
  /-- `IS_DYNAMIC` is the ABI's notion. -/
  dynamic : c.isDynamic = τ.isDynamic
  /-- `encode_body_len` is the length of the encoding. -/
  len : ∀ v, c.encodeBodyLen v = (enc τ (toAbi v)).length
  /-- A static encoding fills the slot of its type. -/
  slot : ∀ v, c.isDynamic = false → c.headSize = (enc τ (toAbi v)).length
  /-- `encode_body_to` writes the encoding. -/
  writes : ∀ v, Writes (c.encodeBodyTo v) (enc τ (toAbi v))
  /-- `decode_tail` at an encoding returns the value. -/
  reads : ∀ v input off, IsSlice input → At input off (enc τ (toAbi v)) →
    Returns (c.decodeTail .checked input off) v
  /-- `decode_at` of a static type and of a tuple is `decode_tail`. -/
  at_eq_tail : (c.isTuple || !c.isDynamic) = true → c.decodeAt = c.decodeTail

/-- Where the checked build does not panic, the wrapping build does the same. -/
structure ProfileFree (c : SolCodec) : Prop where
  decodeAt : ∀ input off, Agrees (c.decodeAt .checked input off) (c.decodeAt .wrapping input off)
  decodeTail : ∀ input off, Agrees (c.decodeTail .checked input off) (c.decodeTail .wrapping input off)

theorem ProfileFree.decode {c : SolCodec} (h : ProfileFree c) (input : List UInt8) :
    Agrees (c.decode .checked input) (c.decode .wrapping input) := by
  unfold SolCodec.decode
  split
  · exact h.decodeAt input 0
  · exact .bind (.refl _) fun bs _ => h.decodeTail input _

/-- A value returned by the checked build is returned by both. -/
theorem Agrees.returns {α : Type} {f : Profile → Run α} (h : Agrees (f .checked) (f .wrapping)) {a : α}
    (ha : Returns (f .checked) a) (p : Profile) : Returns (f p) a := by
  cases p with
  | checked => exact ha
  | wrapping =>
    have hne : (f .checked).exit ≠ .panic := by rw [ha]; simp
    rw [h hne]
    exact ha

theorem ProfileFree.decode_returns {c : SolCodec} (h : ProfileFree c) {input : List UInt8} {v : c.Carrier}
    (hv : Returns (c.decode .checked input) v) (p : Profile) : Returns (c.decode p input) v :=
  Agrees.returns (f := fun p => c.decode p input) (h.decode input) hv p

theorem ProfileFree.decodeTail_returns {c : SolCodec} (h : ProfileFree c) {input : List UInt8} {off : ℕ}
    {v : c.Carrier} (hv : Returns (c.decodeTail .checked input off) v) (p : Profile) :
    Returns (c.decodeTail p input off) v :=
  Agrees.returns (f := fun p => c.decodeTail p input off) (h.decodeTail input off) hv p

/-! ### Offset words -/

/-- A number in an offset word at `ho` is read back. -/
theorem readWordOffset_word {input : List UInt8} {ho n : ℕ} (hs : IsSlice input)
    (h : At input ho (word n)) (hn : n < 2 ^ 64) : Returns (readWordOffset input ho) n := by
  have hbound := h.bound
  rw [length_word] at hbound
  rw [word_of_lt hn, At.append_iff, List.length_replicate] at h
  have hget := h.2.getRange
  rw [length_beBytes] at hget
  unfold IsSlice at hs
  exact returns_readWordOffset.mpr ⟨by omega, _, hget, ofBe_beBytes_of_lt hn⟩

theorem writePointer_eq {buf : List UInt8} {ho n : ℕ} (hho : ho + 32 ≤ buf.length) (hn : n < 2 ^ 64) :
    writePointer buf ho n = some (overwrite buf ho (word n)) := by
  have hlen : (overwrite buf ho (List.replicate 24 (0 : UInt8))).length = buf.length :=
    length_overwrite (by rw [List.length_replicate]; omega)
  rw [writePointer, fill_eq 0 (by omega) (by omega), Nat.add_sub_cancel_left, Option.bind_eq_bind, Option.bind_some,
    copy_eq (by rw [length_beBytes]) (by rw [hlen]; omega), word_of_lt hn,
    overwrite_append (by rw [List.length_append, List.length_replicate, length_beBytes]; omega),
    List.length_replicate]

theorem writeWord_eq {buf : List UInt8} {ho n : ℕ} (hho : ho + 32 ≤ buf.length) (hn : n < 2 ^ 64) :
    writeWord buf ho n = some (overwrite buf ho (word n)) := by
  have hzeros : List.replicate 32 (0 : UInt8) = List.replicate 24 0 ++ List.replicate 8 0 := rfl
  have h24 : (overwrite buf ho (List.replicate 24 (0 : UInt8))).length = buf.length :=
    length_overwrite (by rw [List.length_replicate]; omega)
  have h32 : (overwrite buf ho (List.replicate 32 (0 : UInt8))).length = buf.length :=
    length_overwrite (by rw [List.length_replicate]; omega)
  rw [writeWord, fill_eq 0 (by omega) (by omega), Nat.add_sub_cancel_left, Option.bind_eq_bind,
    Option.bind_some, copy_eq (by rw [length_beBytes]) (by rw [h32]; omega), hzeros,
    overwrite_append (by rw [List.length_append, List.length_replicate, List.length_replicate]; omega),
    List.length_replicate, overwrite_overwrite (by rw [List.length_replicate, length_beBytes])
      (by rw [List.length_replicate, h24]; omega),
    word_of_lt hn, overwrite_append (by rw [List.length_append, List.length_replicate, length_beBytes]; omega),
    List.length_replicate]

/-! ### The provided methods -/

namespace Represents

variable {c : SolCodec} {τ : AbiType} {toAbi : c.Carrier → τ.Val}

/-- What the slot of a value holds is as long as the slot. -/
theorem slotSize_eq (h : Represents c τ toAbi) (v : c.Carrier) :
    c.slotSize = Part.headLen ⟨τ.isDynamic, enc τ (toAbi v)⟩ := by
  rw [SolCodec.slotSize, Part.headLen, h.dynamic]
  split_ifs with hd
  · rfl
  · exact h.slot v (by rw [h.dynamic]; simpa using hd)

/-- The bytes of `encode_to`: the value is a whole argument list or its only element. -/
def topLevel (c : SolCodec) (τ : AbiType) (toAbi : c.Carrier → τ.Val) (v : c.Carrier) : List UInt8 :=
  if c.isTuple then enc τ (toAbi v) else abiEncode [τ] (toAbi v, ())

theorem topLevel_eq (h : Represents c τ toAbi) (v : c.Carrier) :
    topLevel c τ toAbi v =
      if c.isTuple || !c.isDynamic then enc τ (toAbi v) else word 32 ++ enc τ (toAbi v) := by
  rw [topLevel, h.dynamic]
  cases c.isTuple <;> cases hd : τ.isDynamic <;>
    simp [abiEncode, encParts, layout, heads, tails, headLen, Part.head, Part.tail, Part.headLen, hd]

theorem encodeLen_eq (h : Represents c τ toAbi) (v : c.Carrier) :
    c.encodeLen v = (topLevel c τ toAbi v).length := by
  rw [topLevel_eq h, SolCodec.encodeLen, h.len]
  split
  · rfl
  · rw [List.length_append, length_word]

/-- `encode_to` writes the top-level encoding. -/
theorem encodeTo_writes (h : Represents c τ toAbi) (v : c.Carrier) :
    Writes (c.encodeTo v) (topLevel c τ toAbi v) := by
  rw [topLevel_eq h]
  unfold SolCodec.encodeTo
  split
  · exact h.writes v
  · intro buf hlen hfit
    rw [List.length_append, length_word] at hlen
    have hover : (overwrite buf 0 (word 32)).length = buf.length :=
      length_overwrite (by rw [length_word]; omega)
    dsimp only
    rw [writePointer_eq (by omega) (by omega), Option.bind_eq_bind, Option.bind_some,
      onSlice_writes (h.writes v) (by omega) (le_refl _) (by omega), ← overwrite_zero,
      overwrite_append (by rw [List.length_append, length_word]; omega), length_word]

/-- `decode` of a top-level encoding returns the value. -/
theorem decode_returns (h : Represents c τ toAbi) {v : c.Carrier} {input : List UInt8}
    (hs : IsSlice input) (hat : At input 0 (topLevel c τ toAbi v)) :
    Returns (c.decode .checked input) v := by
  rw [topLevel_eq h] at hat
  unfold SolCodec.decode
  split_ifs at hat ⊢ with htop
  · rw [h.at_eq_tail htop]
    exact h.reads v input 0 hs hat
  · rw [At.append_iff, length_word] at hat
    have hword := readWordOffset_word hs hat.1 (by omega)
    obtain ⟨-, bs, hbs, hval⟩ := returns_readWordOffset.mp hword
    refine Returns.bind (returns_ofOption.mpr hbs) ?_
    rw [hval]
    exact h.reads v input 32 hs hat.2

end Represents

end PvmContract.Types
