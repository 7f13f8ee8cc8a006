import PvmContract.Data.Bytes

/-!
# Byte buffers: reading and writing slices

A buffer is the list of its bytes. `At` says which bytes sit where, `getRange`
is a checked read, and a write is a partial function on buffers that fails when
a slice is out of range. `overwrite` is what a write that succeeds does, and
`Writes` is the specification of a writer that fills a prefix of whatever slice
it is handed: `onSlice_writes` then says what it does to the whole buffer.
-/

namespace PvmContract.Data

/-! ### Reading -/

/-- The bytes `bs` sit in `input` at offset `off`. -/
structure At (input : List UInt8) (off : ℕ) (bs : List UInt8) : Prop where
  /-- The offset is in the buffer, or at its end. -/
  le : off ≤ input.length
  /-- What follows the offset begins with `bs`. -/
  start : bs <+: input.drop off

theorem At.intro (pre bs post : List UInt8) : At (pre ++ bs ++ post) pre.length bs where
  le := by simp
  start := by rw [List.append_assoc, List.drop_left]; exact List.prefix_append bs post

theorem At.bound {input bs : List UInt8} {off : ℕ} (h : At input off bs) :
    off + bs.length ≤ input.length := by
  have hlen := h.start.length_le
  have hle := h.le
  rw [List.length_drop] at hlen
  omega

theorem At.read {input bs : List UInt8} {off : ℕ} (h : At input off bs) :
    (input.drop off).take bs.length = bs := (List.prefix_iff_eq_take.mp h.start).symm

/-- Consecutive bytes sit one after the other. -/
theorem At.append_iff {input a b : List UInt8} {off : ℕ} :
    At input off (a ++ b) ↔ At input off a ∧ At input (off + a.length) b := by
  constructor
  · intro h
    obtain ⟨post, hpost⟩ := h.start
    have hb := h.bound
    rw [List.length_append] at hb
    refine ⟨⟨h.le, b ++ post, by rw [← hpost, List.append_assoc]⟩, ⟨by omega, post, ?_⟩⟩
    rw [← List.drop_drop, ← hpost, List.append_assoc, List.drop_left]
  · rintro ⟨ha, hb⟩
    obtain ⟨post, hpost⟩ := ha.start
    have hrest := hb.start
    rw [← List.drop_drop, ← hpost, List.drop_left] at hrest
    obtain ⟨post', rfl⟩ := hrest
    exact ⟨ha.le, post', by rw [← hpost, List.append_assoc]⟩

theorem At.left {input a b : List UInt8} {off : ℕ} (h : At input off (a ++ b)) : At input off a :=
  (At.append_iff.mp h).1

theorem At.right {input a b : List UInt8} {off : ℕ} (h : At input off (a ++ b)) :
    At input (off + a.length) b := (At.append_iff.mp h).2

/-- `input.get(a..b)`: the bytes from `a` to `b`, if the range is well formed and in bounds. -/
def getRange (input : List UInt8) (a b : ℕ) : Option (List UInt8) :=
  if a ≤ b ∧ b ≤ input.length then some ((input.drop a).take (b - a)) else none

theorem getRange_eq_some_iff {input bs : List UInt8} {a b : ℕ} :
    getRange input a b = some bs ↔ a ≤ b ∧ b ≤ input.length ∧ (input.drop a).take (b - a) = bs := by
  unfold getRange
  split_ifs with h <;> simp_all

theorem length_of_getRange {input bs : List UInt8} {a b : ℕ} (h : getRange input a b = some bs) :
    bs.length = b - a := by
  obtain ⟨hab, hb, rfl⟩ := getRange_eq_some_iff.mp h
  rw [List.length_take, List.length_drop]
  omega

theorem At.getRange {input bs : List UInt8} {off : ℕ} (h : At input off bs) :
    getRange input off (off + bs.length) = some bs :=
  getRange_eq_some_iff.mpr ⟨by omega, h.bound, by rw [Nat.add_sub_cancel_left]; exact h.read⟩

/-! ### Writing -/

/-- The buffer with `bs` written over it from `off` on. -/
def overwrite (buf : List UInt8) (off : ℕ) (bs : List UInt8) : List UInt8 :=
  buf.take off ++ bs ++ buf.drop (off + bs.length)

@[simp] theorem length_overwrite {buf bs : List UInt8} {off : ℕ} (h : off + bs.length ≤ buf.length) :
    (overwrite buf off bs).length = buf.length := by
  simp only [overwrite, List.length_append, List.length_take, List.length_drop]
  omega

@[simp] theorem overwrite_nil (buf : List UInt8) (off : ℕ) : overwrite buf off [] = buf := by
  simp [overwrite]

theorem overwrite_zero (buf bs : List UInt8) : overwrite buf 0 bs = bs ++ buf.drop bs.length := by
  simp [overwrite]

/-- Byte by byte: the new bytes in the range, the old ones outside it. -/
theorem getElem?_overwrite {buf bs : List UInt8} {off : ℕ} (h : off + bs.length ≤ buf.length) (i : ℕ) :
    (overwrite buf off bs)[i]? =
      if off ≤ i ∧ i < off + bs.length then bs[i - off]? else buf[i]? := by
  have htake : (buf.take off).length = off := by rw [List.length_take]; omega
  rw [overwrite, List.append_assoc]
  by_cases hlo : i < off
  · rw [List.getElem?_append_left (by omega), List.getElem?_take_of_lt hlo, if_neg (by omega)]
  rw [List.getElem?_append_right (by omega), htake]
  by_cases hhi : i < off + bs.length
  · rw [List.getElem?_append_left (by omega), if_pos (by omega)]
  · rw [List.getElem?_append_right (by omega), List.getElem?_drop, if_neg (by omega)]
    congr 1
    omega

theorem overwrite_append {buf a b : List UInt8} {off : ℕ} (h : off + (a ++ b).length ≤ buf.length) :
    overwrite buf off (a ++ b) = overwrite (overwrite buf off a) (off + a.length) b := by
  rw [List.length_append] at h
  apply List.ext_getElem?
  intro i
  have hlen : (overwrite buf off a).length = buf.length := length_overwrite (by omega)
  rw [getElem?_overwrite (by simp; omega), getElem?_overwrite (by omega),
    getElem?_overwrite (by omega), List.length_append]
  by_cases hlo : i < off
  · rw [if_neg (by omega), if_neg (by omega), if_neg (by omega)]
  by_cases hmid : i < off + a.length
  · rw [if_pos (by omega), if_neg (by omega), if_pos (by omega), List.getElem?_append_left (by omega)]
  by_cases hhi : i < off + a.length + b.length
  · rw [if_pos (by omega), if_pos (by omega), List.getElem?_append_right (by omega)]
    congr 1
    omega
  · rw [if_neg (by omega), if_neg (by omega), if_neg (by omega)]

/-- What was written sits there. -/
theorem at_overwrite {buf bs : List UInt8} {off : ℕ} (h : off + bs.length ≤ buf.length) :
    At (overwrite buf off bs) off bs := by
  have hat := At.intro (buf.take off) bs (buf.drop (off + bs.length))
  rwa [List.length_take, Nat.min_eq_left (by omega)] at hat

/-- Writes to disjoint ranges commute. -/
theorem overwrite_comm {buf a b : List UInt8} {i j : ℕ} (hij : i + a.length ≤ j)
    (hj : j + b.length ≤ buf.length) :
    overwrite (overwrite buf i a) j b = overwrite (overwrite buf j b) i a := by
  apply List.ext_getElem?
  intro k
  have hla : (overwrite buf i a).length = buf.length := length_overwrite (by omega)
  have hlb : (overwrite buf j b).length = buf.length := length_overwrite hj
  rw [getElem?_overwrite (by omega), getElem?_overwrite (by omega), getElem?_overwrite (by omega),
    getElem?_overwrite (by omega)]
  by_cases hka : i ≤ k ∧ k < i + a.length
  · rw [if_neg (by omega), if_pos hka, if_pos hka]
  · rw [if_neg hka, if_neg hka]

/-- Of two writes to one range the second stands. -/
theorem overwrite_overwrite {buf a b : List UInt8} {off : ℕ} (hab : a.length = b.length)
    (h : off + a.length ≤ buf.length) : overwrite (overwrite buf off a) off b = overwrite buf off b := by
  apply List.ext_getElem?
  intro i
  have hlen : (overwrite buf off a).length = buf.length := length_overwrite h
  rw [getElem?_overwrite (by omega), getElem?_overwrite h, getElem?_overwrite (by omega)]
  by_cases hi : off ≤ i ∧ i < off + b.length
  · rw [if_pos hi, if_pos hi]
  · rw [if_neg hi, if_neg hi, if_neg (by omega)]

/-- `f(&mut buf[a..b])`: run a writer on a slice of the buffer. -/
def onSlice (buf : List UInt8) (a b : ℕ) (f : List UInt8 → Option (List UInt8)) : Option (List UInt8) :=
  if a ≤ b ∧ b ≤ buf.length then
    (f ((buf.drop a).take (b - a))).map fun mid => buf.take a ++ mid ++ buf.drop b
  else none

/-- `dst.copy_from_slice(src)`: the lengths have to be equal. -/
def copyFromSlice (src dst : List UInt8) : Option (List UInt8) :=
  if dst.length = src.length then some src else none

/-- `buf[a..b].fill(x)`. -/
def fill (buf : List UInt8) (a b : ℕ) (x : UInt8) : Option (List UInt8) :=
  onSlice buf a b fun s => some (List.replicate s.length x)

/-- **A writer of `bs`**: handed any slice that is long enough (and that a 64-bit machine
can address), it writes `bs` at its front and leaves the rest. -/
def Writes (f : List UInt8 → Option (List UInt8)) (bs : List UInt8) : Prop :=
  ∀ buf : List UInt8, bs.length ≤ buf.length → buf.length < 2 ^ 64 →
    f buf = some (bs ++ buf.drop bs.length)

/-- A writer run on a slice overwrites the buffer from the slice's start on. -/
theorem onSlice_writes {f : List UInt8 → Option (List UInt8)} {buf bs : List UInt8} {a b : ℕ}
    (hf : Writes f bs) (hbs : a + bs.length ≤ b) (hb : b ≤ buf.length) (hfit : buf.length < 2 ^ 64) :
    onSlice buf a b f = some (overwrite buf a bs) := by
  have hlen : ((buf.drop a).take (b - a)).length = b - a := by
    rw [List.length_take, List.length_drop]; omega
  rw [onSlice, if_pos ⟨by omega, hb⟩, hf _ (by omega) (by omega), Option.map_some, overwrite,
    List.drop_take, List.drop_drop, List.append_assoc (buf.take a), List.append_assoc bs,
    List.append_assoc (buf.take a)]
  have hsplit : (buf.drop (a + bs.length)).take (b - a - bs.length) ++ buf.drop b =
      buf.drop (a + bs.length) := by
    have hdrop : buf.drop b = (buf.drop (a + bs.length)).drop (b - a - bs.length) := by
      rw [List.drop_drop]; congr 1; omega
    rw [hdrop, List.take_append_drop]
  rw [hsplit]

theorem fill_eq {buf : List UInt8} {a b : ℕ} (x : UInt8) (hab : a ≤ b) (hb : b ≤ buf.length) :
    fill buf a b x = some (overwrite buf a (List.replicate (b - a) x)) := by
  have hlen : ((buf.drop a).take (b - a)).length = b - a := by
    rw [List.length_take, List.length_drop]; omega
  rw [fill, onSlice, if_pos ⟨hab, hb⟩, hlen, Option.map_some, overwrite, List.length_replicate,
    Nat.add_sub_cancel' hab]

theorem copy_eq {buf src : List UInt8} {a b : ℕ} (hab : a + src.length = b) (hb : b ≤ buf.length) :
    onSlice buf a b (copyFromSlice src) = some (overwrite buf a src) := by
  have hlen : ((buf.drop a).take (b - a)).length = src.length := by
    rw [List.length_take, List.length_drop]; omega
  rw [onSlice, if_pos ⟨by omega, hb⟩, copyFromSlice, if_pos hlen, Option.map_some, overwrite, hab]

end PvmContract.Data
