import PvmContract.Data.Buffer

/-!
# Head and tail layout

The layout of a sequence of parts in a format with out-of-line data. A part is
in place, or it is dynamic: then its place in the head is taken by a 32-byte
offset, and its bytes come later, in the tail. Offsets count from the start of
the sequence, so a layout can be moved as a block.

`heads` and `tails` follow the list of parts with a running offset, which is how
a writer lays the parts out (`place`, with `place_cons` for one turn of its loop)
and how a reader finds them (`At.heads_cons`, `At.tails_cons`).
-/

namespace PvmContract.Data

/-- A number in a 32-byte word. -/
def word (n : ℕ) : List UInt8 := beBytes 32 n

@[simp] theorem length_word (n : ℕ) : (word n).length = 32 := length_beBytes 32 n

theorem word_of_lt {n : ℕ} (h : n < 2 ^ 64) : word n = List.replicate 24 0 ++ beBytes 8 n :=
  beBytes_add_of_lt (j := 24) (k := 8) (by omega)

/-- A part of a sequence: its bytes, and whether they go to the tail. -/
structure Part where
  /-- The bytes go to the tail. -/
  dynamic : Bool
  /-- The bytes of the part itself. -/
  body : List UInt8

namespace Part

/-- What the part has in the head when the next free place of the tail is `off`. -/
def head (off : ℕ) (p : Part) : List UInt8 := if p.dynamic then word off else p.body

/-- What the part has in the tail. -/
def tail (p : Part) : List UInt8 := if p.dynamic then p.body else []

/-- The length of the part's head. -/
def headLen (p : Part) : ℕ := if p.dynamic then 32 else p.body.length

@[simp] theorem length_head (off : ℕ) (p : Part) : (p.head off).length = p.headLen := by
  unfold head headLen
  split <;> simp

end Part

/-- The heads of the parts, with the tail starting at `off`. -/
def heads : ℕ → List Part → List UInt8
  | _, [] => []
  | off, p :: ps => p.head off ++ heads (off + p.tail.length) ps

/-- The tails of the parts. -/
def tails : List Part → List UInt8
  | [] => []
  | p :: ps => p.tail ++ tails ps

/-- The length of all heads together. -/
def headLen (ps : List Part) : ℕ := (ps.map Part.headLen).sum

/-- A sequence of parts: all heads, then all tails. -/
def layout (ps : List Part) : List UInt8 := heads (headLen ps) ps ++ tails ps

@[simp] theorem headLen_nil : headLen [] = 0 := rfl

@[simp] theorem headLen_cons (p : Part) (ps : List Part) :
    headLen (p :: ps) = p.headLen + headLen ps := by
  simp [headLen]

@[simp] theorem length_heads (off : ℕ) (ps : List Part) : (heads off ps).length = headLen ps := by
  induction ps generalizing off with
  | nil => rfl
  | cons p ps ih => rw [heads, List.length_append, Part.length_head, ih, headLen_cons]

theorem length_tails_cons (p : Part) (ps : List Part) :
    (tails (p :: ps)).length = p.tail.length + (tails ps).length := by
  rw [tails, List.length_append]

theorem length_layout (ps : List Part) : (layout ps).length = headLen ps + (tails ps).length := by
  rw [layout, List.length_append, length_heads]

/-- Parts that are all in place: no tails, and the heads are the bodies one after the other. -/
theorem heads_of_static {ps : List Part} (h : ∀ p ∈ ps, p.dynamic = false) (off : ℕ) :
    heads off ps = (ps.map Part.body).flatten := by
  induction ps generalizing off with
  | nil => rfl
  | cons p ps ih =>
    have hp : p.dynamic = false := h p (by simp)
    rw [heads, ih (fun q hq => h q (by simp [hq])), Part.head, hp]
    simp

theorem tails_of_static {ps : List Part} (h : ∀ p ∈ ps, p.dynamic = false) : tails ps = [] := by
  induction ps with
  | nil => rfl
  | cons p ps ih =>
    have hp : p.dynamic = false := h p (by simp)
    rw [tails, ih (fun q hq => h q (by simp [hq])), Part.tail, hp]
    rfl

theorem layout_of_static {ps : List Part} (h : ∀ p ∈ ps, p.dynamic = false) :
    layout ps = (ps.map Part.body).flatten := by
  rw [layout, heads_of_static h, tails_of_static h, List.append_nil]

/-! ### Writing a layout -/

/-- The buffer with heads written from `ho` on and tails from `tp` on, where the offset
word for the place `tp` is `off`. -/
def place (buf : List UInt8) (ho tp off : ℕ) (ps : List Part) : List UInt8 :=
  overwrite (overwrite buf ho (heads off ps)) tp (tails ps)

@[simp] theorem place_nil (buf : List UInt8) (ho tp off : ℕ) : place buf ho tp off [] = buf := by
  simp [place, heads, tails]

/-- One part of a layout is written, then the others. -/
theorem place_cons {buf : List UInt8} {ho tp : ℕ} (off : ℕ) {p : Part} {ps : List Part}
    (hho : ho + headLen (p :: ps) ≤ tp) (htp : tp + (tails (p :: ps)).length ≤ buf.length) :
    place buf ho tp off (p :: ps) =
      place (overwrite (overwrite buf ho (p.head off)) tp p.tail) (ho + p.headLen)
        (tp + p.tail.length) (off + p.tail.length) ps := by
  rw [headLen_cons] at hho
  rw [length_tails_cons] at htp
  have hhead : (overwrite buf ho (p.head off)).length = buf.length :=
    length_overwrite (by rw [Part.length_head]; omega)
  rw [place, place, heads, tails, overwrite_append (a := p.head off)
    (by rw [List.length_append, Part.length_head, length_heads]; omega), Part.length_head]
  rw [overwrite_append (a := p.tail)
    (by rw [length_overwrite (by rw [hhead, length_heads]; omega), hhead, List.length_append]; omega)]
  rw [← overwrite_comm (a := heads (off + p.tail.length) ps) (b := p.tail)
    (by rw [length_heads]; omega) (by rw [hhead]; omega)]

/-- Heads and tails written next to each other are one block. -/
theorem place_layout {buf : List UInt8} {ho off : ℕ} {ps : List Part}
    (h : ho + headLen ps + (tails ps).length ≤ buf.length) :
    place buf ho (ho + headLen ps) off ps = overwrite buf ho (heads off ps ++ tails ps) := by
  rw [place, overwrite_append (by rw [List.length_append, length_heads]; omega), length_heads]

/-! ### Reading a layout -/

/-- The head of the first part sits where the heads start. -/
theorem At.heads_cons {input : List UInt8} {ho off : ℕ} {p : Part} {ps : List Part} :
    At input ho (heads off (p :: ps)) ↔
      At input ho (p.head off) ∧ At input (ho + p.headLen) (heads (off + p.tail.length) ps) := by
  rw [heads, At.append_iff, Part.length_head]

theorem At.tails_cons {input : List UInt8} {tp : ℕ} {p : Part} {ps : List Part} :
    At input tp (tails (p :: ps)) ↔
      At input tp p.tail ∧ At input (tp + p.tail.length) (tails ps) := by
  rw [tails, At.append_iff]

theorem At.layout_iff {input : List UInt8} {off : ℕ} {ps : List Part} :
    At input off (layout ps) ↔
      At input off (heads (headLen ps) ps) ∧ At input (off + headLen ps) (tails ps) := by
  rw [layout, At.append_iff, length_heads]

end PvmContract.Data
