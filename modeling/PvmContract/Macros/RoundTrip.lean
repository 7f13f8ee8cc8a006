import PvmContract.Macros.UniverseLaws

/-!
# Encoding is `abi.encode`, and decoding takes it back

The two results on whole values, for every codable type: what `encode_to` leaves
in a buffer is the reference encoding followed by what was there before, and
`decode` and `decode_tail` return the value that was written, under either build
profile. A buffer is a slice; a value whose encoding does not fit in a slice has
no buffer.
-/

namespace PvmContract.Macros

open Data Run PvmContract.Types Abi AbiType

namespace Ty

/-- `abi.encode` of a value: a tuple is an argument list, any other value the only argument. -/
def abiEncode : (t : Ty) → t.impl.Carrier → List UInt8
  | tuple elems, v => AbiType.abiEncode (abis elems) (toAbis elems v)
  | t, v => AbiType.abiEncode [t.abi] (t.toAbi v, ())

theorem topLevel_eq_abiEncode (t : Ty) (v : t.impl.Carrier) :
    Represents.topLevel t.impl t.abi t.toAbi v = t.abiEncode v := by
  cases t with
  | tuple elems => rfl
  | prim k => cases k <;> rfl
  | struct idents fields =>
    have htuple : (struct idents fields).impl.isTuple = false := by
      change (expandSolType idents (rusts fields)).isTuple = false
      rw [expandSolType]
      split <;> rfl
    rw [Represents.topLevel, if_neg (by rw [htuple]; simp)]
    rfl
  | _ => rfl

/-- **Encoding is `abi.encode`**: `encode_to` replaces the first `encode_len` bytes of a buffer
by the reference encoding, whatever the buffer held, and keeps the others. -/
theorem encodeTo_eq_abiEncode {t : Ty} (h : t.Codable = true) (v : t.impl.Carrier) {buf : List UInt8}
    (hs : IsSlice buf) (hlen : t.impl.encodeLen v ≤ buf.length) :
    t.impl.encodeLen v = (t.abiEncode v).length ∧
      t.impl.encodeTo v buf = some (t.abiEncode v ++ buf.drop (t.impl.encodeLen v)) := by
  have hrep := represents h
  have hlen' := hrep.encodeLen_eq v
  have hwrites := hrep.encodeTo_writes v
  unfold IsSlice at hs
  rw [topLevel_eq_abiEncode] at hlen' hwrites
  refine ⟨hlen', ?_⟩
  rw [hlen'] at hlen ⊢
  exact hwrites buf hlen (by omega)

theorem encodeTo_eq_abiEncode_pair :
    (tuple [vec (prim .bool), prim .u8]).impl.encodeTo (([true], 7#8, ()) : List Bool × BitVec 8 × Unit)
        (List.replicate 130 0xff) =
      some (word 64 ++ word 7 ++ word 1 ++ word 1 ++ [0xff, 0xff]) := by
  have hs : IsSlice (List.replicate 130 0xff) := by
    rw [IsSlice, List.length_replicate]
    decide
  have hlen : (tuple [vec (prim .bool), prim .u8]).impl.encodeLen
      (([true], 7#8, ()) : List Bool × BitVec 8 × Unit) = 128 := rfl
  have h := (encodeTo_eq_abiEncode (t := tuple [vec (prim .bool), prim .u8]) (by decide)
    (([true], 7#8, ()) : List Bool × BitVec 8 × Unit) hs (by rw [hlen, List.length_replicate]; omega)).2
  rw [hlen, List.drop_replicate] at h
  exact h

/-- **The round trip**: `decode` takes back what `encode_to` wrote into a buffer of `encode_len`
bytes, and `decode_tail` takes back what `encode_body_to` wrote anywhere in a larger buffer. -/
theorem decode_encode {t : Ty} (h : t.Codable = true) (v : t.impl.Carrier) (p : Profile) :
    (∀ buf, IsSlice buf → buf.length = t.impl.encodeLen v →
      ∃ out, t.impl.encodeTo v buf = some out ∧ Returns (t.impl.decode p out) v) ∧
    (∀ buf off stop, IsSlice buf → off + t.impl.encodeBodyLen v ≤ stop → stop ≤ buf.length →
      ∃ out, onSlice buf off stop (t.impl.encodeBodyTo v) = some out ∧
        Returns (t.impl.decodeTail p out off) v) := by
  have hrep := represents h
  have hfree := profileFree (compiles_of_proper (proper_of_codable h))
  constructor
  · intro buf hs hlen
    have hwrites := hrep.encodeTo_writes v
    have hlen' := hrep.encodeLen_eq v
    have hout := hwrites buf (by omega) (by unfold IsSlice at hs; omega)
    rw [List.drop_eq_nil_of_le (by omega), List.append_nil] at hout
    refine ⟨_, hout, hfree.decode_returns (hrep.decode_returns ?_ ?_) p⟩
    · unfold IsSlice at hs ⊢
      omega
    · exact ⟨Nat.zero_le _, List.prefix_refl _⟩
  · intro buf off stop hs hoff hstop
    have hs' := hs
    unfold IsSlice at hs'
    rw [hrep.len] at hoff
    have hover : (overwrite buf off (enc t.abi (t.toAbi v))).length = buf.length :=
      length_overwrite (by omega)
    refine ⟨_, onSlice_writes (hrep.writes v) hoff hstop (by omega),
      hfree.decodeTail_returns (hrep.reads v _ off ?_ ?_) p⟩
    · unfold IsSlice
      omega
    · exact at_overwrite (by omega)

theorem decode_encode_nested :
    let t := vec (tuple [string, array (prim .i16) 2])
    let v : List (String × {vs : List (BitVec 16) // vs.length = 2} × Unit) := [("abi", ⟨[1, -1], rfl⟩, ())]
    ∃ out, t.impl.encodeTo v (List.replicate 256 0xff) = some out ∧
      Returns (t.impl.decode .wrapping out) v := by
  intro t v
  have hs : IsSlice (List.replicate 256 0xff) := by
    rw [IsSlice, List.length_replicate]
    decide
  have hlen : t.impl.encodeLen v = 256 := by
    rfl
  exact (decode_encode (t := t) (by decide) v .wrapping).1 _ hs (by rw [hlen, List.length_replicate])

end Ty

end PvmContract.Macros
