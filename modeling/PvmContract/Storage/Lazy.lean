import PvmContract.Storage.Fields

/-!
# Handles to single values

`Lazy<T>` is a handle to one value in storage: a key, the offset of the value in
its slot, and whether the value is alone there. A type narrower than a slot is
packed, and its handle reads and writes a window, by way of the whole slot if it is
alone and by reading, modifying and writing the slot otherwise. Any other type is
left to its codec.

A handle is specified by a value or none. `Lazy.exec_moves` is the whole contract:
an operation moves the place of the value as the specification says, and returns
what it says. The handle of a value that is alone relies on the rest of its slot
being blank (`Lazy.Undisturbed`); it then does not matter which way a packed value
is written.
-/

namespace PvmContract.Storage

open PvmContract.Data

/-! ### Types of values -/

/-- A type that can be the `T` of `Lazy<T>`, by the branch that `T::PACKED_BYTES < 32` takes. -/
inductive LeafType where
  | packed (p : Packable) (narrow : p.packedBytes < 32)
  | full (c : StorageCodec)

namespace LeafType

def Carrier : LeafType → Type
  | packed p _ => p.Carrier
  | full c => c.Carrier

/-- The values that fit in memory. -/
def Fits : (T : LeafType) → T.Carrier → Prop
  | packed _ _, _ => True
  | full c, v => c.Fits v

abbrev Value (T : LeafType) : Type := {v : T.Carrier // T.Fits v}

/-- The value of storage that was never written. -/
def zero : (T : LeafType) → T.Carrier
  | packed p _ => p.zero
  | full c => c.zero

/-- `PACKED_BYTES` and `STORAGE_SLOTS`. -/
def shape : LeafType → Shape
  | packed p _ => p.shape
  | full c => ⟨32, c.storageSlots, word_pos, word_le, c.storageSlots_pos, fun h => absurd h (lt_irrefl 32)⟩

/-- `HAS_DYNAMIC_BODY`. -/
def hasDynamicBody : LeafType → Bool
  | packed _ _ => false
  | full c => c.hasDynamicBody

/-- What `try_read` makes of a value that was written. -/
def presence : (T : LeafType) → Option T.Carrier → Option T.Carrier
  | packed _ _, o => o
  | full c, o => c.presence o

/-- The slots of a value at `key` that are hashed. -/
def points : LeafType → Key → Set Key
  | packed _ _, _ => ∅
  | full c, key => pointsAt c.headers key

/-- The place of a value: a window, or the slots of a codec. -/
def place : (T : LeafType) → Hash → Key → ℕ → Place Cell UInt8 (Option T.Carrier)
  | packed p _, _, key, offset => p.place key offset
  | full c, keccak, key, _ => c.place keccak key

/-- What a value fills. -/
theorem fills (T : LeafType) (keccak : Hash) (key : Key) (offset : ℕ) :
    Fills keccak T.shape key offset (T.points key) (T.place keccak key offset).cells := by
  cases T with
  | packed p narrow =>
    refine ⟨Set.empty_subset _, ?_, fun _ => subset_refl _⟩
    exact Store.windowCells_subset (.inl (Key.mem_range_self Nat.one_pos)) _ _
  | full c =>
    refine ⟨?_, c.cells_subset, fun h => absurd h (lt_irrefl 32)⟩
    rintro _ ⟨h, hh, rfl⟩
    exact Key.mem_range_add (c.headers_lt h hh)

/-- No value is all zeros. -/
theorem none_iff {T : LeafType} {keccak : Hash} {key : Key} {offset : ℕ} {x : Cell → UInt8} :
    (T.place keccak key offset).Holds x none ↔ ∀ c ∈ (T.place keccak key offset).cells, x c = 0 := by
  cases T with
  | packed p narrow => exact Packable.place_none_iff
  | full c => exact c.none_iff

end LeafType

/-! ### The handle -/

/-- `Lazy<T>`, with the first assertion of `Lazy::new_inner`. -/
structure Lazy (T : LeafType) where
  key : Key
  offset : ℕ
  alone : Bool
  within : offset + T.shape.packedBytes ≤ 32

namespace Lazy

variable {T : LeafType}

/-- `buf[off..off + T::PACKED_BYTES].fill(0)`. -/
def fillZero (p : Packable) (buf : Word) (off : ℕ) : Word := buf.copyAt off (zeroBytes p.packedBytes).1

/-- `Lazy::get`. -/
def get (keccak : Hash) (s : Store) (self : Lazy T) : T.Carrier :=
  match T with
  | .packed p _ =>
    let buf := s.getStorageOrZero self.key
    p.unpackFrom buf self.offset
  | .full c => c.readFromStorage keccak s self.key

/-- `Lazy::try_get`, which the build rejects for a packed type. -/
def tryGet (keccak : Hash) (s : Store) (self : Lazy T) (full : T.shape.packedBytes = 32) : Option T.Carrier :=
  match T with
  | .packed _ narrow => absurd full (ne_of_lt narrow)
  | .full c => c.tryReadFromStorage keccak s self.key

/-- `Lazy::set`. -/
def set (keccak : Hash) (s : Store) (self : Lazy T) (value : T.Carrier) : Store :=
  match T with
  | .packed p _ =>
    if self.alone then
      let buf := p.packInto value Word.zero self.offset
      s.setStorageOrClear self.key buf
    else
      let buf := s.getStorageOrZero self.key
      let buf := fillZero p buf self.offset
      let buf := p.packInto value buf self.offset
      s.setStorageOrClear self.key buf
  | .full c => c.writeToStorage keccak s self.key value

/-- `Lazy::clear`. -/
def clear (keccak : Hash) (s : Store) (self : Lazy T) : Store :=
  match T with
  | .packed p _ =>
    if self.alone then s.setStorageOrClear self.key Word.zero
    else
      let buf := s.getStorageOrZero self.key
      let buf := fillZero p buf self.offset
      s.setStorageOrClear self.key buf
  | .full c => c.clearStorage keccak s self.key

/-- `Lazy::take`. -/
def take (keccak : Hash) (s : Store) (self : Lazy T) : Store × T.Carrier :=
  match T with
  | .packed p _ =>
    if !self.alone then
      let buf := s.getStorageOrZero self.key
      let value := p.unpackFrom buf self.offset
      let buf := fillZero p buf self.offset
      (s.setStorageOrClear self.key buf, value)
    else
      let value := self.get keccak s
      (self.clear keccak s, value)
  | .full _ =>
    let value := self.get keccak s
    (self.clear keccak s, value)

end Lazy

/-! ### Operations -/

/-- The operations of a handle. -/
inductive LazyOp (T : LeafType) where
  | get
  | tryGet (full : T.shape.packedBytes = 32)
  | set (value : T.Value)
  | take
  | clear

/-- What an operation returns. -/
inductive LazyResult (T : LeafType) where
  | unit
  | value (v : T.Carrier)
  | option (o : Option T.Carrier)

/-- An operation on storage. -/
def Lazy.exec {T : LeafType} (keccak : Hash) (self : Lazy T) (s : Store) : LazyOp T → Store × LazyResult T
  | .get => (s, .value (self.get keccak s))
  | .tryGet full => (s, .option (self.tryGet keccak s full))
  | .set value => (self.set keccak s value.1, .unit)
  | .take => ((self.take keccak s).1, .value (self.take keccak s).2)
  | .clear => (self.clear keccak s, .unit)

/-- An operation on a variable: what was last set and neither taken nor cleared since. -/
def LazyOp.spec {T : LeafType} (o : Option T.Carrier) : LazyOp T → Option T.Carrier × LazyResult T
  | .get => (o, .value (o.getD T.zero))
  | .tryGet _ => (o, .option (T.presence o))
  | .set value => (some value.1, .unit)
  | .take => (none, .value (o.getD T.zero))
  | .clear => (none, .unit)

namespace Lazy

variable {T : LeafType} {keccak : Hash} {s : Store} {self : Lazy T} {o : Option T.Carrier} {points slots : Set Key}

/-- The place of the value of a handle. -/
def place (self : Lazy T) (keccak : Hash) : Place Cell UInt8 (Option T.Carrier) := T.place keccak self.key self.offset

/-- Nothing else is in the slot of a narrow value that is alone. -/
def Undisturbed (self : Lazy T) (x : Cell → UInt8) : Prop :=
  T.shape.packedBytes < 32 → self.alone = true → ∀ p, ¬ (self.offset ≤ p ∧ p < self.offset + T.shape.packedBytes) → x (self.key, p) = 0

section

variable {p : Packable} {key : Key} {offset : ℕ}

/-- A slot that has a value in the window and agrees with the old one elsewhere. -/
theorem packed_moves {o : Option p.Carrier} {w : Word}
    (hin : ∀ j < p.packedBytes, w.1.getD (offset + j) 0 = (o.elim (zeroBytes p.packedBytes) p.toBytes).1.getD j 0)
    (hout : ∀ q, ¬ (offset ≤ q ∧ q < offset + p.packedBytes) → w.1.getD q 0 = s.bytes (key, q)) :
    (p.place key offset).Moves s.bytes (s.setStorageOrClear key w).bytes o := by
  have h := Store.window_moves (k := key) (n := p.packedBytes) hin hout
  exact ⟨h.holds, h.outside⟩

theorem zero_moves (hblank : ∀ q, ¬ (offset ≤ q ∧ q < offset + p.packedBytes) → s.bytes (key, q) = 0) :
    (p.place key offset).Moves s.bytes (s.setStorageOrClear key Word.zero).bytes none := by
  refine packed_moves (fun j hj => ?_) fun q hq => ?_
  · rw [Word.getD_zero]
    exact (getD_zeroBytes _ j).symm
  · rw [Word.getD_zero, hblank q hq]

variable (within : offset + p.packedBytes ≤ 32)

include within

theorem getD_fillZero (buf : Word) (q : ℕ) : (fillZero p buf offset).1.getD q 0 =
    if offset ≤ q ∧ q < offset + p.packedBytes then 0 else buf.1.getD q 0 := by
  have hlen := (zeroBytes p.packedBytes).2
  rw [fillZero, Word.getD_copyAt buf (by omega), hlen]
  simp only [getD_zeroBytes]

/-- Packing a value into a buffer that agrees with the slot outside the window. -/
theorem packInto_moves (v : p.Carrier) {buf : Word}
    (hbuf : ∀ q, ¬ (offset ≤ q ∧ q < offset + p.packedBytes) → buf.1.getD q 0 = s.bytes (key, q)) :
    (p.place key offset).Moves s.bytes (s.setStorageOrClear key (p.packInto v buf offset)).bytes (some v) := by
  refine packed_moves (fun j hj => ?_) fun q hq => ?_
  · rw [p.getD_packInto v buf within, if_pos (by omega), Nat.add_sub_cancel_left]
    rfl
  · rw [p.getD_packInto v buf within, if_neg hq, hbuf q hq]

theorem fillZero_moves : (p.place key offset).Moves s.bytes
    (s.setStorageOrClear key (fillZero p (s.getStorageOrZero key) offset)).bytes none := by
  refine packed_moves (fun j hj => ?_) fun q hq => ?_
  · rw [getD_fillZero within, if_pos (by omega)]
    exact (getD_zeroBytes _ j).symm
  · rw [getD_fillZero within, if_neg hq]
    rfl

end

/-- What a full value asks of the hash. -/
def Apart (self : Lazy T) (keccak : Hash) : Prop :=
  Separate keccak (T.points self.key) (self.key.range T.shape.slots)

theorem set_moves (hsep : self.Apart keccak) (h : (self.place keccak).Holds s.bytes o) (hu : self.Undisturbed s.bytes)
    (v : T.Value) : (self.place keccak).Moves s.bytes (self.set keccak s v.1).bytes (some v.1) := by
  cases T with
  | packed p narrow =>
    have hw : self.offset + p.packedBytes ≤ 32 := self.within
    rw [set]
    by_cases halone : self.alone = true
    · rw [if_pos halone]
      refine packInto_moves hw v.1 fun q hq => ?_
      rw [hu narrow halone q hq, Word.getD_zero]
    · rw [if_neg halone]
      refine packInto_moves hw v.1 fun q hq => ?_
      rw [getD_fillZero hw, if_neg hq]
      rfl
  | full c => exact c.write_moves hsep h v.2

theorem clear_moves (hsep : self.Apart keccak) (h : (self.place keccak).Holds s.bytes o) (hu : self.Undisturbed s.bytes) :
    (self.place keccak).Moves s.bytes (self.clear keccak s).bytes none := by
  cases T with
  | packed p narrow =>
    have hw : self.offset + p.packedBytes ≤ 32 := self.within
    rw [clear]
    by_cases halone : self.alone = true
    · rw [if_pos halone]
      exact zero_moves fun q hq => hu narrow halone q hq
    · rw [if_neg halone]
      exact fillZero_moves hw
  | full c => exact c.clear_moves hsep h

theorem get_eq (h : (self.place keccak).Holds s.bytes o) : self.get keccak s = o.getD T.zero := by
  cases T with
  | packed p narrow => exact Packable.unpackFrom_of_holds h
  | full c => exact c.read_eq h

theorem tryGet_eq (h : (self.place keccak).Holds s.bytes o) (full : T.shape.packedBytes = 32) :
    self.tryGet keccak s full = T.presence o := by
  cases T with
  | packed p narrow => exact absurd full (ne_of_lt narrow)
  | full c => exact c.tryRead_eq h

/-- Taking is reading and clearing, whether or not the two are fused. -/
theorem take_eq : self.take keccak s = (self.clear keccak s, self.get keccak s) := by
  cases T with
  | packed p narrow =>
    rw [take, clear]
    by_cases halone : self.alone = true
    · simp only [halone, Bool.not_true, Bool.false_eq_true, if_false, if_true]
    · simp only [halone, Bool.not_false, if_true, Bool.false_eq_true, if_false]
      rfl
  | full c => rfl

/-- **The contract of a handle.** -/
theorem exec_moves (hsep : self.Apart keccak) (h : (self.place keccak).Holds s.bytes o) (hu : self.Undisturbed s.bytes)
    (op : LazyOp T) : (self.place keccak).Moves s.bytes (self.exec keccak s op).1.bytes (op.spec o).1 ∧
      (self.exec keccak s op).2 = (op.spec o).2 := by
  cases op with
  | get => exact ⟨.refl h, congrArg _ (get_eq h)⟩
  | tryGet full => exact ⟨.refl h, congrArg _ (tryGet_eq h full)⟩
  | set value => exact ⟨set_moves hsep h hu value, rfl⟩
  | take =>
    rw [exec, take_eq]
    exact ⟨clear_moves hsep h hu, congrArg _ (get_eq h)⟩
  | clear => exact ⟨clear_moves hsep h hu, rfl⟩

end Lazy

end PvmContract.Storage
