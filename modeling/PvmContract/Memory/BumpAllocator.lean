import PvmContract.Data.Bytes
import PvmContract.Data.Run

/-!
# The bump allocator

The heap of a contract is an array of `HEAP_SIZE` bytes that only ever fills up:
`offset` is the first byte nobody holds, a request rounds it up to its alignment,
takes its bytes and moves it on. There are two ways to fail, a size that does not
fit into `usize` behind the rounded offset and one that does not fit the heap, and
both panic before the offset is written.

`alloc_eq` is what one request does: the machine arithmetic never wraps, because
an array is smaller than half of the address space and an alignment is at most the
other half. `World.Ok` is the invariant of a whole run, in which the holders of
blocks also write to them: everything handed out lies below the offset, no two
blocks meet, and every byte above the offset is still zero.

The alignment is made on the offset in the heap, so what it says about the address
depends on where the heap is.
-/

namespace PvmContract.Memory

open Data

/-- `core::alloc::Layout`. -/
structure Layout where
  /-- How many bytes. -/
  size : ℕ
  /-- What the address shall be a multiple of. -/
  align : ℕ
  /-- A size is a `usize`. -/
  size_lt : size < 2 ^ 64
  /-- An alignment is a power of two in `usize`. -/
  align_pow : ∃ k < 64, align = 2 ^ k

/-- Where a static allocator is: the heap's size (`HEAP_SIZE`) and its address. -/
structure Placement where
  /-- `HEAP_SIZE`. -/
  heapSize : ℕ
  /-- The address of the first byte of the heap. -/
  base : ℕ
  /-- No object is larger than `isize::MAX`. -/
  heapSize_lt : heapSize < 2 ^ 63
  /-- No object is at the null address. -/
  base_pos : 0 < base
  /-- An object ends inside the address space. -/
  fits : base + heapSize < 2 ^ 64

/-- `BumpAllocator<HEAP_SIZE>`. -/
structure BumpAllocator (P : Placement) where
  /-- The first byte that is not handed out. -/
  offset : ℕ
  /-- The bytes of the heap. -/
  heap : ByteArr P.heapSize

/-- The bits of a `usize` flipped: `!x`. -/
def unot (x : ℕ) : ℕ := 2 ^ 64 - 1 - x

/-- `let Some(x) = o else { panic!(..) }`. -/
def orPanic {α : Type} : Option α → Run α
  | some a => pure a
  | none => .abort

namespace BumpAllocator

variable {P : Placement}

/-- `BumpAllocator::new`. -/
def new : BumpAllocator P := ⟨0, List.replicate P.heapSize 0, List.length_replicate⟩

/-- The part of `alloc` before the offset is written: the block's first byte and the first one behind it. -/
def reserve (p : Profile) (self : BumpAllocator P) (layout : Layout) : Run (ℕ × ℕ) := do
  let sum ← uadd p self.offset layout.align
  let last ← usub p sum 1
  let mask ← usub p layout.align 1
  let aligned := last &&& unot mask
  let next ← orPanic (if aligned + layout.size < 2 ^ 64 then some (aligned + layout.size) else none)
  if P.heapSize < next then .abort else pure (aligned, next)

/-- `alloc`: how the call ends, and the allocator after it. -/
def alloc (p : Profile) (self : BumpAllocator P) (layout : Layout) : Exit ℕ × BumpAllocator P :=
  match (self.reserve p layout).exit with
  | .ok (aligned, next) => (.ok (P.base + aligned), { self with offset := next })
  | .err => (.err, self)
  | .panic => (.panic, self)

/-- `alloc_zeroed`. -/
def allocZeroed (p : Profile) (self : BumpAllocator P) (layout : Layout) : Exit ℕ × BumpAllocator P :=
  self.alloc p layout

/-- `dealloc`. -/
def dealloc (self : BumpAllocator P) (_ptr : ℕ) (_layout : Layout) : BumpAllocator P := self

/-- What the holder of a pointer does: one byte at an address. -/
def store (self : BumpAllocator P) (addr : ℕ) (byte : UInt8) : BumpAllocator P :=
  { self with heap := ⟨self.heap.1.set (addr - P.base) byte, by rw [List.length_set, self.heap.2]⟩ }

/-- The byte at an address of the heap. -/
def byteAt (self : BumpAllocator P) (addr : ℕ) : Option UInt8 := self.heap.1[addr - P.base]?

end BumpAllocator

/-! ### Rounding up -/

/-- The first multiple of `a` from `x` on. -/
def roundUp (x a : ℕ) : ℕ := (x + a - 1) / a * a

theorem dvd_roundUp (x a : ℕ) : a ∣ roundUp x a := Nat.dvd_mul_left a _

theorem le_roundUp (x : ℕ) {a : ℕ} (ha : 0 < a) : x ≤ roundUp x a := by
  have hdiv := Nat.div_add_mod (x + a - 1) a
  have hmod := Nat.mod_lt (x + a - 1) ha
  rw [roundUp, Nat.mul_comm]
  omega

/-- Clearing the low bits of a machine word leaves the multiple of the power of two below it. -/
theorem land_unot {x k : ℕ} (hx : x < 2 ^ 64) (hk : k < 64) :
    x &&& unot (2 ^ k - 1) = x / 2 ^ k * 2 ^ k := by
  apply Nat.eq_of_testBit_eq
  intro i
  have hlow : (2 ^ k - 1 : ℕ) < 2 ^ 64 := lt_of_le_of_lt (Nat.sub_le _ _) (Nat.pow_lt_pow_right (by decide) hk)
  have hnot : unot (2 ^ k - 1) = 2 ^ 64 - (2 ^ k - 1 + 1) := by rw [unot]; omega
  rw [hnot, Nat.testBit_and, Nat.testBit_two_pow_sub_succ hlow, Nat.testBit_two_pow_sub_one,
    Nat.testBit_mul_two_pow, Nat.testBit_div_two_pow]
  by_cases hik : i < k
  · simp [hik, Nat.not_le.mpr hik]
  · have hki : k ≤ i := Nat.not_lt.mp hik
    by_cases hi : i < 64
    · simp [hik, hi, hki, Nat.sub_add_cancel hki]
    · have hzero : x.testBit i = false :=
        Nat.testBit_lt_two_pow (lt_of_lt_of_le hx (Nat.pow_le_pow_right (by decide) (Nat.not_lt.mp hi)))
      simp [hi, hzero, Nat.sub_add_cancel hki]

namespace Layout

theorem align_pos (layout : Layout) : 0 < layout.align := by
  obtain ⟨k, -, hk⟩ := layout.align_pow
  rw [hk]
  exact Nat.pow_pos (by decide)

theorem align_le (layout : Layout) : layout.align ≤ 2 ^ 63 := by
  obtain ⟨k, hlt, hk⟩ := layout.align_pow
  rw [hk]
  exact Nat.pow_le_pow_right (by decide) (by omega)

end Layout

/-! ### One request -/

namespace BumpAllocator

variable {P : Placement}

/-- The first byte of a block for a layout. -/
def start (self : BumpAllocator P) (layout : Layout) : ℕ := roundUp self.offset layout.align

/-- There is room for a layout. -/
def HasRoom (self : BumpAllocator P) (layout : Layout) : Prop :=
  self.start layout + layout.size ≤ P.heapSize

instance (self : BumpAllocator P) (layout : Layout) : Decidable (self.HasRoom layout) :=
  inferInstanceAs (Decidable (_ ≤ _))

/-- The sum of an offset and an alignment is a machine word. -/
theorem offset_add_align_lt {self : BumpAllocator P} (h : self.offset ≤ P.heapSize) (layout : Layout) :
    self.offset + layout.align < 2 ^ 64 := by
  have hsize := P.heapSize_lt
  have halign := layout.align_le
  omega

theorem reserve_eq {self : BumpAllocator P} (h : self.offset ≤ P.heapSize) (p : Profile) (layout : Layout) :
    self.reserve p layout =
      if self.HasRoom layout then pure (self.start layout, self.start layout + layout.size) else .abort := by
  have hsum := offset_add_align_lt h layout
  have hpos := layout.align_pos
  obtain ⟨k, hk, hpow⟩ := layout.align_pow
  have hstart : self.offset + layout.align - 1 &&& unot (layout.align - 1) = self.start layout := by
    rw [start, roundUp, hpow]
    rw [hpow] at hsum
    exact land_unot (lt_of_le_of_lt (Nat.sub_le _ _) hsum) hk
  rw [reserve, Run.uadd_of_lt hsum, Run.pure_andThen, Run.usub_of_le (by omega), Run.pure_andThen, Run.usub_of_le hpos,
    Run.pure_andThen, hstart]
  dsimp only
  by_cases hroom : self.HasRoom layout
  · have hword : self.start layout + layout.size < 2 ^ 64 :=
      lt_of_le_of_lt hroom (lt_trans P.heapSize_lt (by decide))
    have hin : ¬ P.heapSize < self.start layout + layout.size := Nat.not_lt.mpr hroom
    rw [if_pos hroom, if_pos hword, orPanic, Run.pure_andThen, if_neg hin]
  · rw [if_neg hroom]
    by_cases hword : self.start layout + layout.size < 2 ^ 64
    · rw [if_pos hword, orPanic, Run.pure_andThen, if_pos (Nat.not_le.mp hroom)]
    · rw [if_neg hword, orPanic, Run.abort_andThen]

/-- What a request does, in either build: a block from the rounded offset on if there is room, and
otherwise a panic that leaves the allocator as it was. -/
theorem alloc_eq {self : BumpAllocator P} (h : self.offset ≤ P.heapSize) (p : Profile) (layout : Layout) :
    self.alloc p layout =
      if self.HasRoom layout then
        (.ok (P.base + self.start layout), { self with offset := self.start layout + layout.size })
      else (.panic, self) := by
  rw [alloc, reserve_eq h]
  by_cases hroom : self.HasRoom layout
  · rw [if_pos hroom, if_pos hroom]
    rfl
  · rw [if_neg hroom, if_neg hroom]
    rfl

theorem offset_le_start (self : BumpAllocator P) (layout : Layout) : self.offset ≤ self.start layout :=
  le_roundUp self.offset layout.align_pos

theorem byteAt_store_of_ne (self : BumpAllocator P) {addr other : ℕ} (byte : UInt8) (ha : P.base ≤ addr)
    (ho : P.base ≤ other) (hne : addr ≠ other) : (self.store addr byte).byteAt other = self.byteAt other := by
  change (self.heap.1.set (addr - P.base) byte)[other - P.base]? = self.heap.1[other - P.base]?
  exact List.getElem?_set_ne (by omega)

theorem byteAt_new {addr : ℕ} (hlo : P.base ≤ addr) (hhi : addr < P.base + P.heapSize) :
    (new : BumpAllocator P).byteAt addr = some 0 := by
  change (List.replicate P.heapSize 0)[addr - P.base]? = some 0
  rw [List.getElem?_replicate, if_pos (by omega)]

end BumpAllocator

/-! ### Runs -/

/-- A block that was handed out. -/
structure Block where
  /-- The pointer that was returned. -/
  ptr : ℕ
  /-- The layout it was asked for with. -/
  layout : Layout

namespace Block

/-- The block holds an address. -/
def Holds (b : Block) (addr : ℕ) : Prop := b.ptr ≤ addr ∧ addr < b.ptr + b.layout.size

/-- Two blocks share no byte. -/
def Apart (b c : Block) : Prop := ∀ addr, b.Holds addr → ¬ c.Holds addr

end Block

/-- What a program does with its allocator. -/
inductive Event where
  /-- `alloc`. -/
  | alloc (layout : Layout)
  /-- `alloc_zeroed`. -/
  | allocZeroed (layout : Layout)
  /-- `dealloc`. -/
  | dealloc (ptr : ℕ) (layout : Layout)
  /-- A write to byte `i` of the `k`-th block that was handed out. -/
  | write (k i : ℕ) (byte : UInt8)

/-- An allocator and the blocks it handed out, the first one first. -/
structure World (P : Placement) where
  /-- The allocator. -/
  allocator : BumpAllocator P
  /-- The blocks. -/
  blocks : List Block

namespace World

variable {P : Placement}

/-- The world after a request: a returned pointer is a new block, a panic is none. -/
def request (w : World P) (layout : Layout) : Exit ℕ × BumpAllocator P → World P
  | (.ok ptr, allocator) => ⟨allocator, w.blocks ++ [⟨ptr, layout⟩]⟩
  | (_, allocator) => ⟨allocator, w.blocks⟩

/-- One event. A program writes only to bytes of blocks that it holds. -/
def step (p : Profile) (w : World P) : Event → World P
  | .alloc layout => w.request layout (w.allocator.alloc p layout)
  | .allocZeroed layout => w.request layout (w.allocator.allocZeroed p layout)
  | .dealloc ptr layout => { w with allocator := w.allocator.dealloc ptr layout }
  | .write k i byte =>
    match w.blocks[k]? with
    | some b => if i < b.layout.size then { w with allocator := w.allocator.store (b.ptr + i) byte } else w
    | none => w

/-- A run from the allocator as it is made. -/
def run (p : Profile) (P : Placement) (events : List Event) : World P :=
  events.foldl (step p) ⟨.new, []⟩

/-- What holds all along a run. -/
structure Ok (w : World P) : Prop where
  /-- The offset is inside the heap. -/
  offset_le : w.allocator.offset ≤ P.heapSize
  /-- What was handed out lies between the base and the offset. -/
  inside : ∀ b ∈ w.blocks, P.base ≤ b.ptr ∧ b.ptr + b.layout.size ≤ P.base + w.allocator.offset
  /-- Blocks start at a multiple of their alignment, counted from the base. -/
  aligned : ∀ b ∈ w.blocks, b.layout.align ∣ b.ptr - P.base
  /-- No byte is in two blocks. -/
  apart : w.blocks.Pairwise Block.Apart
  /-- Nobody wrote above the offset. -/
  fresh : ∀ addr, P.base + w.allocator.offset ≤ addr → addr < P.base + P.heapSize →
    w.allocator.byteAt addr = some 0

theorem ok_new : Ok (⟨.new, []⟩ : World P) where
  offset_le := Nat.zero_le _
  inside := by simp
  aligned := by simp
  apart := List.Pairwise.nil
  fresh addr hlo hhi := BumpAllocator.byteAt_new hlo hhi

/-- A request keeps the invariant, whether it is served or not. -/
theorem Ok.request {w : World P} (h : w.Ok) (p : Profile) (layout : Layout) :
    (w.request layout (w.allocator.alloc p layout)).Ok := by
  rw [BumpAllocator.alloc_eq h.offset_le]
  by_cases hroom : w.allocator.HasRoom layout
  · rw [if_pos hroom]
    have hstart := w.allocator.offset_le_start layout
    have hend : w.allocator.start layout + layout.size ≤ P.heapSize := hroom
    change Ok ⟨{ w.allocator with offset := w.allocator.start layout + layout.size },
      w.blocks ++ [⟨P.base + w.allocator.start layout, layout⟩]⟩
    constructor
    case offset_le => exact hend
    case inside =>
      intro b hb
      rcases List.mem_append.mp hb with hold | hnew
      · obtain ⟨hlo, hhi⟩ := h.inside b hold
        exact ⟨hlo, by dsimp only; omega⟩
      · rw [List.mem_singleton.mp hnew]
        exact ⟨Nat.le_add_right _ _, by dsimp only; omega⟩
    case aligned =>
      intro b hb
      rcases List.mem_append.mp hb with hold | hnew
      · exact h.aligned b hold
      · rw [List.mem_singleton.mp hnew, Nat.add_sub_cancel_left]
        exact dvd_roundUp _ _
    case apart =>
      rw [List.pairwise_append]
      refine ⟨h.apart, List.pairwise_singleton _ _, fun b hb c hc addr hin hc' => ?_⟩
      rw [List.mem_singleton.mp hc] at hc'
      obtain ⟨-, hhi⟩ := h.inside b hb
      have hbefore := hin.2
      have hafter : P.base + w.allocator.start layout ≤ addr := hc'.1
      omega
    case fresh =>
      intro addr hlo hhi
      dsimp only at hlo
      exact h.fresh addr (by omega) hhi
  · rw [if_neg hroom]
    exact h

/-- A write to a block changes no byte above the offset. -/
theorem Ok.store {w : World P} (h : w.Ok) {b : Block} (hb : b ∈ w.blocks) {i : ℕ} (hi : i < b.layout.size)
    (byte : UInt8) : Ok { w with allocator := w.allocator.store (b.ptr + i) byte } where
  offset_le := h.offset_le
  inside := h.inside
  aligned := h.aligned
  apart := h.apart
  fresh addr hlo hhi := by
    obtain ⟨hbase, hend⟩ := h.inside b hb
    have hoff : P.base + w.allocator.offset ≤ addr := hlo
    have hne : b.ptr + i ≠ addr := by omega
    exact (w.allocator.byteAt_store_of_ne byte (by omega) (by omega) hne).trans (h.fresh addr hoff hhi)

/-- Every event keeps the invariant. -/
theorem Ok.step {w : World P} (h : w.Ok) (p : Profile) (e : Event) : (w.step p e).Ok := by
  cases e with
  | alloc layout => exact h.request p layout
  | allocZeroed layout => exact h.request p layout
  | dealloc ptr layout => exact h
  | write k i byte =>
    rw [World.step]
    cases hk : w.blocks[k]? with
    | none => exact h
    | some b =>
      dsimp only
      by_cases hi : i < b.layout.size
      · rw [if_pos hi]
        exact h.store (List.mem_of_getElem? hk) hi byte
      · rw [if_neg hi]
        exact h

/-- Every run keeps the invariant. -/
theorem ok_run (p : Profile) (P : Placement) (events : List Event) : (run p P events).Ok := by
  have hall : ∀ w : World P, w.Ok → (events.foldl (World.step p) w).Ok := by
    induction events with
    | nil => exact fun w h => h
    | cons e es ih => exact fun w h => ih _ (h.step p e)
  exact hall _ ok_new

end World

/-! ### What a run hands out -/

section Run

variable {P : Placement} {w : World P}

/-- A block that was handed out is inside the heap, and as aligned as the heap is. -/
theorem World.Ok.block {b : Block} (h : w.Ok) (hb : b ∈ w.blocks) :
    b.ptr ≠ 0 ∧ P.base ≤ b.ptr ∧ b.ptr + b.layout.size ≤ P.base + P.heapSize ∧
      (b.layout.align ∣ P.base → b.layout.align ∣ b.ptr) := by
  obtain ⟨hlo, hhi⟩ := h.inside b hb
  have hpos := P.base_pos
  have hoff := h.offset_le
  refine ⟨by omega, hlo, by omega, fun hbase => ?_⟩
  have hsum := Nat.dvd_add hbase (h.aligned b hb)
  rwa [Nat.add_sub_cancel' hlo] at hsum

/-- A block is zero when it is handed out. -/
theorem World.Ok.zeroed {p : Profile} {layout : Layout} {ptr : ℕ} {a : BumpAllocator P} (h : w.Ok)
    (hserved : w.allocator.allocZeroed p layout = (.ok ptr, a)) {addr : ℕ} (hlo : ptr ≤ addr)
    (hhi : addr < ptr + layout.size) : a.byteAt addr = some 0 := by
  rw [BumpAllocator.allocZeroed, BumpAllocator.alloc_eq h.offset_le] at hserved
  by_cases hroom : w.allocator.HasRoom layout
  · rw [if_pos hroom, Prod.mk.injEq, Exit.ok.injEq] at hserved
    obtain ⟨rfl, rfl⟩ := hserved
    have hstart := w.allocator.offset_le_start layout
    have hend : w.allocator.start layout + layout.size ≤ P.heapSize := hroom
    exact h.fresh addr (by omega) (by omega)
  · rw [if_neg hroom] at hserved
    cases hserved

/-- **The bump allocator.** After any run of requests and writes to blocks: the blocks are inside the
heap and apart from each other, and each is aligned if the heap is aligned as it asks; and of the next
request, the sum that is rounded does not wrap, it is served if there is room from the rounded offset on
and otherwise panics with the allocator left as it was, and a zeroed block is zero. -/
theorem bumpAllocator_sound (p : Profile) (P : Placement) (events : List Event) :
    let w := World.run p P events;
    (∀ b ∈ w.blocks, b.ptr ≠ 0 ∧ P.base ≤ b.ptr ∧ b.ptr + b.layout.size ≤ P.base + P.heapSize ∧
      (b.layout.align ∣ P.base → b.layout.align ∣ b.ptr)) ∧
    w.blocks.Pairwise Block.Apart ∧
    ∀ layout : Layout,
      w.allocator.offset + layout.align < 2 ^ 64 ∧
      (w.allocator.HasRoom layout → ∃ ptr a, w.allocator.alloc p layout = (.ok ptr, a)) ∧
      (¬ w.allocator.HasRoom layout → w.allocator.alloc p layout = (.panic, w.allocator)) ∧
      ∀ ptr a, w.allocator.allocZeroed p layout = (.ok ptr, a) →
        ∀ addr, ptr ≤ addr → addr < ptr + layout.size → a.byteAt addr = some 0 := by
  intro w
  have hok : w.Ok := World.ok_run p P events
  refine ⟨fun b hb => hok.block hb, hok.apart, fun layout => ⟨?_, ?_, ?_, ?_⟩⟩
  · exact BumpAllocator.offset_add_align_lt hok.offset_le layout
  · intro hroom
    rw [BumpAllocator.alloc_eq hok.offset_le, if_pos hroom]
    exact ⟨_, _, rfl⟩
  · intro hroom
    rw [BumpAllocator.alloc_eq hok.offset_le, if_neg hroom]
  · exact fun ptr a hserved addr hlo hhi => hok.zeroed hserved hlo hhi

end Run

theorem eight_pos : 0 < 8 := by decide

/-- A heap of 64 bytes at address 8: aligned as the allocator's own `usize` is. -/
def atEight : Placement := ⟨64, 8, by decide, eight_pos, by decide⟩

/-- A request for one byte aligned to 16 is given address 8, and one for 65 bytes is given no null
pointer: it panics. -/
theorem alloc_misaligned_and_panics :
    8 ∣ atEight.base ∧
      ((BumpAllocator.new : BumpAllocator atEight).alloc .checked ⟨1, 16, by decide, 4, by decide⟩).1 = .ok 8 ∧
      ¬ 16 ∣ 8 ∧
      ((BumpAllocator.new : BumpAllocator atEight).alloc .checked ⟨65, 1, by decide, 0, by decide⟩).1 = .panic := by
  decide +kernel

end PvmContract.Memory
