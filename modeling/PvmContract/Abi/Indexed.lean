import PvmContract.Abi.Encoding

/-!
# Indexed event parameters

The reference for the topic of an indexed parameter. A value type is its word. A
byte string is hashed as it is. An array or a tuple is hashed in the in-place
encoding of the ABI specification: its elements one after the other, padded to
words, with no lengths and no offsets. The hash is a parameter.

The in-place encoding of a static value is its encoding (`enc_of_static`).
-/

namespace PvmContract.Abi.AbiType

open PvmContract.Data

mutual

/-- The in-place encoding of a value inside an array or a tuple. -/
def inPlace : (τ : AbiType) → τ.Val → List UInt8
  | bytes, (v : List UInt8) => v ++ padding v.length
  | string, (v : String) => utf8 v ++ padding (utf8 v).length
  | array elem, (vs : List elem.Val) => (vs.map fun v => inPlace elem v).flatten
  | fixed elem _, vs => (vs.1.map fun v => inPlace elem v).flatten
  | tuple comps, vs => inPlaces comps vs
  | uint bits, v => enc (uint bits) v
  | int bits, v => enc (int bits) v
  | address, v => enc address v
  | bool, v => enc bool v
  | fixedBytes n, v => enc (fixedBytes n) v

/-- The in-place encodings of a sequence of values. -/
def inPlaces : (τs : List AbiType) → Vals τs → List UInt8
  | [], _ => []
  | τ :: τs, (v, vs) => inPlace τ v ++ inPlaces τs vs

end

/-- The topic of an indexed parameter, for a hash function. -/
def topic (hash : List UInt8 → List UInt8) : (τ : AbiType) → τ.Val → List UInt8
  | bytes, (v : List UInt8) => hash v
  | string, (v : String) => hash (utf8 v)
  | array elem, vs => hash (inPlace (array elem) vs)
  | fixed elem n, vs => hash (inPlace (fixed elem n) vs)
  | tuple comps, vs => hash (inPlace (tuple comps) vs)
  | τ, v => enc τ v

theorem layout_elems_of_static {elem : AbiType} (hd : elem.isDynamic = false) (vs : List elem.Val)
    (h : ∀ v, enc elem v = inPlace elem v) :
    layout (vs.map fun v => ⟨elem.isDynamic, enc elem v⟩) = (vs.map fun v => inPlace elem v).flatten := by
  rw [layout_of_static, List.map_map]
  · congr 1
    exact List.map_congr_left fun v _ => h v
  · intro p hp
    obtain ⟨v, -, rfl⟩ := List.mem_map.mp hp
    exact hd

mutual

/-- A static value has no lengths and no offsets in its encoding. -/
theorem enc_of_static : (τ : AbiType) → τ.isDynamic = false → (v : τ.Val) → enc τ v = inPlace τ v
  | uint _, _, _ | int _, _, _ | address, _, _ | bool, _, _ | fixedBytes _, _, _ => by rw [inPlace]
  | bytes, h, _ | string, h, _ | array _, h, _ => Bool.noConfusion h
  | fixed elem _, h, vs => by
    have hd : elem.isDynamic = false := h
    rw [enc, inPlace]
    exact layout_elems_of_static hd vs.1 (enc_of_static elem hd)
  | tuple comps, h, vs => by
    rw [enc, inPlace, layout_of_static (encParts_static comps h vs).1]
    exact (encParts_static comps h vs).2

theorem encParts_static : (τs : List AbiType) → anyDynamic τs = false → (vs : Vals τs) →
    (∀ p ∈ encParts τs vs, p.dynamic = false) ∧ ((encParts τs vs).map Part.body).flatten = inPlaces τs vs
  | [], _, _ => ⟨fun _ hp => absurd hp List.not_mem_nil, rfl⟩
  | τ :: τs, h, (v, vs) => by
    rw [anyDynamic, Bool.or_eq_false_iff] at h
    obtain ⟨hparts, hbodies⟩ := encParts_static τs h.2 vs
    constructor
    · intro p hp
      rcases List.mem_cons.mp hp with rfl | hp
      · exact h.1
      · exact hparts p hp
    · rw [encParts, List.map_cons, List.flatten_cons, hbodies, inPlaces, enc_of_static τ h.1 v]

end

end PvmContract.Abi.AbiType
