import PvmContract.Storage.Codec
import PvmContract.Macros.UniverseLaws
import PvmContract.Data.Address

/-!
# Mapping keys

What can be the key of a `Mapping`, and the slot that it leads to (`AsStorageKey`). A
value of one word is padded by its own encoder, text and byte strings are hashed as
they are, and a tuple is one key after the other, each from the slot of the one
before.

`image` is the `h` of solc's rule, by which the slot of a key `k` in a mapping at slot
`p` is `keccak256(h(k) . p)`, and `images` are those of all single keys of a tuple.
The slot of a key is solc's (`deriveSlot_eq`), and a key is known from its images
(`images_injective`).
-/

namespace PvmContract.Storage

open PvmContract.Data PvmContract.Types PvmContract.Abi PvmContract.Macros

/-! ### Deriving -/

/-- `storage_derive_key` and `storage_derive_key_unpadded`. -/
def storageDeriveKey (keccak : Hash) (root : Key) (key : List UInt8) : Key := keccak (key ++ root.1)

/-- The key types that derive one slot. -/
inductive SingleKey where
  /-- The types of `impl_scalar_storage_key!`. -/
  | prim (p : Prim)
  /-- `[u8; N]`. -/
  | bytesN (n : ℕ) (hpos : 1 ≤ n) (hle : n ≤ 32)
  /-- `str` and `String`. -/
  | string
  /-- `[u8]` and `Vec<u8>`. -/
  | bytes

namespace SingleKey

def Val : SingleKey → Type
  | prim p => p.impl.Carrier
  | bytesN n _ _ => ByteArr n
  | string => String
  | bytes => List UInt8

/-- `derive_slot`. The encoder of a word panics if the buffer is too short for it. -/
def deriveSlot (keccak : Hash) : (K : SingleKey) → K.Val → Key → Option Key
  | prim p, (k : p.impl.Carrier), root => do
    let padded ← p.impl.encodeBodyTo k (List.replicate 32 0)
    return storageDeriveKey keccak root padded
  | bytesN n _ _, (k : ByteArr n), root => do
    let padded ← (Types.bytesN n).encodeBodyTo k (List.replicate 32 0)
    return storageDeriveKey keccak root padded
  | string, (k : String), root => some (storageDeriveKey keccak root (AbiType.utf8 k))
  | bytes, (k : List UInt8), root => some (storageDeriveKey keccak root k)

/-- The `h` of solc's rule: the ABI word of a value, and the bytes of text and byte strings. -/
def image : (K : SingleKey) → K.Val → List UInt8
  | prim p, (k : p.impl.Carrier) => AbiType.enc p.abi (p.toAbi k)
  | bytesN n _ _, (k : ByteArr n) => AbiType.enc (.fixedBytes n) k
  | string, (k : String) => AbiType.utf8 k
  | bytes, (k : List UInt8) => k

/-- A writer of a word on a buffer of one word. -/
theorem encode_word {c : SolCodec} {τ : AbiType} {f : c.Carrier → τ.Val} (h : Represents c τ f) (v : c.Carrier)
    (hlen : (AbiType.enc τ (f v)).length = 32) :
    c.encodeBodyTo v (List.replicate 32 0) = some (AbiType.enc τ (f v)) := by
  rw [h.writes v _ (by rw [hlen, List.length_replicate]) (by rw [List.length_replicate]; decide), hlen,
    List.drop_replicate, Nat.sub_self, List.replicate_zero, List.append_nil]

theorem length_enc_prim (p : Prim) (v : p.impl.Carrier) : (AbiType.enc p.abi (p.toAbi v)).length = 32 := by
  have hlen := (Ty.represents_prim p).len v
  rw [← hlen]
  cases p <;> rfl

theorem length_enc_bytesN {n : ℕ} (h : n ≤ 32) (v : ByteArr n) : (AbiType.enc (.fixedBytes n) v).length = 32 := by
  rw [enc_fixedBytes, List.length_append, List.length_replicate, v.2]
  exact Nat.add_sub_cancel' h

theorem deriveSlot_eq (keccak : Hash) (K : SingleKey) (k : K.Val) (root : Key) :
    K.deriveSlot keccak k root = some (keccak (K.image k ++ root.1)) := by
  cases K with
  | prim p =>
    have hword := encode_word (Ty.represents_prim p) k (length_enc_prim p k)
    exact congrArg (Option.bind · fun padded => some (storageDeriveKey keccak root padded)) hword
  | bytesN n hpos hle =>
    have hword := encode_word (represents_bytesN hle) k (length_enc_bytesN hle k)
    exact congrArg (Option.bind · fun padded => some (storageDeriveKey keccak root padded)) hword
  | string => rfl
  | bytes => rfl

/-- Values of one encoding are equal. -/
theorem enc_injective {c : SolCodec} {τ : AbiType} {f : c.Carrier → τ.Val} (hc : Represents c τ f) {v w : c.Carrier}
    (hlen : (AbiType.enc τ (f v)).length = 32) (h : AbiType.enc τ (f v) = AbiType.enc τ (f w)) : v = w := by
  have hslice : IsSlice (AbiType.enc τ (f v)) := by
    rw [IsSlice, hlen]
    decide
  have hat := At.intro [] (AbiType.enc τ (f v)) []
  rw [List.nil_append, List.append_nil] at hat
  have hv := hc.reads v _ 0 hslice hat
  have hw := hc.reads w _ 0 hslice (h ▸ hat)
  exact hv.unique hw

theorem image_injective {K : SingleKey} {k k' : K.Val} (h : K.image k = K.image k') : k = k' := by
  cases K with
  | prim p => exact enc_injective (Ty.represents_prim p) (length_enc_prim p k) h
  | bytesN n hpos hle => exact enc_injective (represents_bytesN hle) (length_enc_bytesN hle k) h
  | string => exact String.toByteArray_inj.mp (ByteArray.ext (Array.toList_inj.mp h))
  | bytes => exact h

end SingleKey

/-- The key types. -/
inductive KeyType where
  | single (K : SingleKey)
  /-- The tuples of 2 to 5 keys. -/
  | tuple (n : ℕ) (hlow : 2 ≤ n) (hhigh : n ≤ 5) (keys : Fin n → KeyType)

namespace KeyType

def Val : KeyType → Type
  | single K => K.Val
  | tuple n _ _ keys => (i : Fin n) → (keys i).Val

/-- `derive_slot`. -/
def deriveSlot (keccak : Hash) : (K : KeyType) → K.Val → Key → Option Key
  | single K, k, root => K.deriveSlot keccak k root
  | tuple n _ _ keys, k, root => (List.finRange n).foldlM (fun slot i => (keys i).deriveSlot keccak (k i) slot) root

/-- The images of the single keys, in order. -/
def images : (K : KeyType) → K.Val → List (List UInt8)
  | single K, k => [K.image k]
  | tuple n _ _ keys, k => (List.finRange n).flatMap fun i => (keys i).images (k i)

/-- solc's rule for one key after the other. -/
def solcSlot (keccak : Hash) (images : List (List UInt8)) (p : Key) : Key :=
  images.foldl (fun p h => keccak (h ++ p.1)) p

theorem deriveSlot_eq (keccak : Hash) (K : KeyType) (k : K.Val) (root : Key) :
    K.deriveSlot keccak k root = some (solcSlot keccak (K.images k) root) := by
  induction K generalizing root with
  | single K => exact K.deriveSlot_eq keccak k root
  | tuple n hlow hhigh keys ih =>
    rw [deriveSlot, images]
    generalize List.finRange n = l
    induction l generalizing root with
    | nil => rfl
    | cons i l ihl =>
      rw [List.foldlM_cons, ih i (k i) root, Option.bind_eq_bind, Option.bind_some, ihl, List.flatMap_cons, solcSlot,
        solcSlot, solcSlot, List.foldl_append]

/-- The key of a chain of fronts is solc's slot. -/
theorem key_chain (keccak : Hash) (a : Address) (fronts : List (List UInt8)) :
    (a.chain fronts).key keccak = solcSlot keccak fronts (a.key keccak) := by
  induction fronts generalizing a with
  | nil => rfl
  | cons front fronts ih =>
    rw [Address.chain_cons, ih, solcSlot, solcSlot, List.foldl_cons]
    exact congrArg (List.foldl _ · fronts) (Key.add_zero _)

theorem length_images {K : KeyType} (k k' : K.Val) : (K.images k).length = (K.images k').length := by
  induction K with
  | single K => rfl
  | tuple n hlow hhigh keys ih =>
    rw [images, images, List.length_flatMap, List.length_flatMap]
    exact congrArg List.sum (List.map_congr_left fun i _ => ih i (k i) (k' i))

theorem images_ne_nil (K : KeyType) (k : K.Val) : K.images k ≠ [] := by
  induction K with
  | single K => exact List.cons_ne_nil _ _
  | tuple n hlow hhigh keys ih =>
    rw [images, Ne, List.flatMap_eq_nil_iff]
    intro h
    exact ih ⟨0, by omega⟩ _ (h ⟨0, by omega⟩ (List.mem_finRange _))

/-- Lists of lists with the same lengths are equal if they are joined to the same list. -/
theorem flatMap_inj {α β : Type} {f g : α → List β} {l : List α} (hlen : ∀ a ∈ l, (f a).length = (g a).length)
    (h : l.flatMap f = l.flatMap g) : ∀ a ∈ l, f a = g a := by
  induction l with
  | nil => exact fun a ha => absurd ha List.not_mem_nil
  | cons b l ih =>
    rw [List.flatMap_cons, List.flatMap_cons] at h
    obtain ⟨hhead, htail⟩ := List.append_inj h (hlen b List.mem_cons_self)
    intro a ha
    rcases List.mem_cons.mp ha with rfl | ha
    · exact hhead
    · exact ih (fun c hc => hlen c (List.mem_cons_of_mem _ hc)) htail a ha

/-- **A key is known from its images.** -/
theorem images_injective {K : KeyType} {k k' : K.Val} (h : K.images k = K.images k') : k = k' := by
  induction K with
  | single K => exact SingleKey.image_injective (List.singleton_inj.mp h)
  | tuple n hlow hhigh keys ih =>
    funext i
    exact ih i (flatMap_inj (fun i _ => length_images (k i) (k' i)) h i (List.mem_finRange i))

end KeyType

end PvmContract.Storage
