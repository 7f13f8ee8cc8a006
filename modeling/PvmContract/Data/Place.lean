import Mathlib.Data.Set.Lattice
import Mathlib.Logic.Function.Basic
import Mathlib.Order.CompletePartialOrder

/-!
# Places in a store of cells

A *place* is a part of a store that keeps a value: the cells it owns, and what
those cells look like when it holds a value. Both a single variable and a whole
data structure are places, so the same few rules serve at every level.

A change of the store *moves* a place to a value when the place holds that value
afterwards and no cell outside the place has changed. Moves compose
(`Place.Moves.trans`), they leave disjoint places alone (`Place.Moves.frame`),
and a move of one member moves the whole family by one component
(`Place.family_moves`). A family owns, besides the cells of its members, a set of
spare cells, which must be blank.

The contents of a store are a function from cells; how they are stored is no
concern of this module.
-/

namespace PvmContract.Data

/-- A part of a store that keeps a value. -/
structure Place (C B V : Type*) where
  /-- The cells of the place. -/
  cells : Set C
  /-- The contents of the store when the place holds a value. -/
  Holds : (C → B) → V → Prop
  /-- Only the cells of the place matter. -/
  congr : ∀ {x y v}, Holds x v → (∀ c ∈ cells, y c = x c) → Holds y v
  /-- And all of them do. -/
  unique : ∀ {x y v}, Holds x v → Holds y v → ∀ c ∈ cells, x c = y c

namespace Place

variable {C B V W : Type*}

/-- The change from `x` to `y` leaves the value `w` in a place and touches no other cell. -/
structure Moves (P : Place C B V) (x y : C → B) (w : V) : Prop where
  holds : P.Holds y w
  outside : ∀ c ∉ P.cells, y c = x c

namespace Moves

variable {P : Place C B V} {x y z : C → B} {v w : V}

theorem refl (h : P.Holds x v) : P.Moves x x v := ⟨h, fun _ _ => rfl⟩

theorem trans (h : P.Moves x y v) (h' : P.Moves y z w) : P.Moves x z w where
  holds := h'.holds
  outside c hc := (h'.outside c hc).trans (h.outside c hc)

/-- A disjoint place holds what it held. -/
theorem frame {Q : Place C B W} {u : W} (h : P.Moves x y v) (hQ : Q.Holds x u) (hd : Disjoint P.cells Q.cells) :
    Q.Holds y u := by
  refine Q.congr hQ fun c hc => h.outside c fun hP => ?_
  exact Set.disjoint_left.mp hd hP hc

end Moves

/-- The place of a value that is represented by another. -/
def comap (P : Place C B V) (f : W → V) : Place C B W where
  cells := P.cells
  Holds x w := P.Holds x (f w)
  congr h heq := P.congr h heq
  unique h h' := P.unique h h'

/-- A place that holds certain values only. -/
def restrict (P : Place C B V) (allowed : V → Prop) : Place C B V where
  cells := P.cells
  Holds x v := allowed v ∧ P.Holds x v
  congr h heq := ⟨h.1, P.congr h.2 heq⟩
  unique h h' := P.unique h.2 h'.2

/-- The place of nothing. -/
def nothing : Place C B Unit where
  cells := ∅
  Holds _ _ := True
  congr h _ := h
  unique _ _ _ hc := absurd hc (Set.notMem_empty _)

/-- A place with spare cells beside it that are kept blank. -/
def pad (P : Place C B V) (spare : Set C) (blank : B) : Place C B V where
  cells := spare ∪ P.cells
  Holds x v := P.Holds x v ∧ ∀ c ∈ spare, c ∉ P.cells → x c = blank
  congr h heq := by
    refine ⟨P.congr h.1 fun c hc => heq c (.inr hc), fun c hc hout => ?_⟩
    rw [heq c (.inl hc)]
    exact h.2 c hc hout
  unique := by
    intro x y v h h' c hc
    by_cases hin : c ∈ P.cells
    · exact P.unique h.1 h'.1 c hin
    · have hspare : c ∈ spare := hc.resolve_right hin
      rw [h.2 c hspare hin, h'.2 c hspare hin]

/-- What moves a place moves it with its spare cells. -/
theorem Moves.pad {P : Place C B V} {x y : C → B} {v w : V} {spare : Set C} {blank : B}
    (h : (P.pad spare blank).Holds x v) (hm : P.Moves x y w) : (P.pad spare blank).Moves x y w where
  holds := by
    refine ⟨hm.holds, fun c hc hout => ?_⟩
    rw [hm.outside c hout]
    exact h.2 c hc hout
  outside c hc := hm.outside c fun hin => hc (.inr hin)

/-- What a blank place holds, it holds with blank cells beside it. -/
theorem pad_blank {P : Place C B V} {x : C → B} {v : V} {spare : Set C} {blank : B}
    (h : P.Holds x v ↔ ∀ c ∈ P.cells, x c = blank) (hx : ∀ c ∈ (P.pad spare blank).cells, x c = blank) :
    (P.pad spare blank).Holds x v :=
  ⟨h.mpr fun c hc => hx c (.inr hc), fun c hc _ => hx c (.inl hc)⟩

/-! ### Pairs -/

/-- Two places side by side. -/
def prod (P : Place C B V) (Q : Place C B W) : Place C B (V × W) where
  cells := P.cells ∪ Q.cells
  Holds x v := P.Holds x v.1 ∧ Q.Holds x v.2
  congr h heq := ⟨P.congr h.1 fun c hc => heq c (.inl hc), Q.congr h.2 fun c hc => heq c (.inr hc)⟩
  unique := by
    rintro x y v h h' c (hc | hc)
    · exact P.unique h.1 h'.1 c hc
    · exact Q.unique h.2 h'.2 c hc

section

variable {P : Place C B V} {Q : Place C B W} {x y : C → B} {v v' : V} {w w' : W}

theorem prod_moves_left (hd : Disjoint P.cells Q.cells) (h : (P.prod Q).Holds x (v, w)) (hm : P.Moves x y v') :
    (P.prod Q).Moves x y (v', w) where
  holds := ⟨hm.holds, hm.frame h.2 hd⟩
  outside c hc := hm.outside c fun hP => hc (.inl hP)

theorem prod_moves_right (hd : Disjoint P.cells Q.cells) (h : (P.prod Q).Holds x (v, w)) (hm : Q.Moves x y w') :
    (P.prod Q).Moves x y (v, w') where
  holds := ⟨hm.frame h.1 hd.symm, hm.holds⟩
  outside c hc := hm.outside c fun hQ => hc (.inr hQ)

end

/-! ### Families -/

section

variable {ι : Type*} {V : ι → Type*}

/-- The places of a family, and spare cells that are kept blank. -/
def family (P : ∀ i, Place C B (V i)) (spare : Set C) (blank : B) : Place C B (∀ i, V i) where
  cells := spare ∪ ⋃ i, (P i).cells
  Holds x v := (∀ i, (P i).Holds x (v i)) ∧ ∀ c ∈ spare, (∀ i, c ∉ (P i).cells) → x c = blank
  congr := by
    rintro x y v ⟨hparts, hspare⟩ heq
    refine ⟨fun i => (P i).congr (hparts i) fun c hc => ?_, fun c hc hout => ?_⟩
    · exact heq c (Set.mem_union_right _ (Set.mem_iUnion_of_mem i hc))
    · rw [heq c (Set.mem_union_left _ hc)]
      exact hspare c hc hout
  unique := by
    rintro x y v ⟨hparts, hspare⟩ ⟨hparts', hspare'⟩ c hc
    by_cases hin : ∃ i, c ∈ (P i).cells
    · obtain ⟨i, hi⟩ := hin
      exact (P i).unique (hparts i) (hparts' i) c hi
    · have hout : ∀ i, c ∉ (P i).cells := fun i hi => hin ⟨i, hi⟩
      rcases hc with hc | hc
      · rw [hspare c hc hout, hspare' c hc hout]
      · exact absurd (Set.mem_iUnion.mp hc) hin

variable {P : ∀ i, Place C B (V i)} {spare : Set C} {blank : B} {x y : C → B} {v : ∀ i, V i}

theorem cells_subset_family (i : ι) : (P i).cells ⊆ (family P spare blank).cells := fun _ hc =>
  Set.mem_union_right _ (Set.mem_iUnion_of_mem i hc)

/-- If blank members hold certain values, then so does the blank family. -/
theorem family_blank_iff (h : ∀ i, (P i).Holds x (v i) ↔ ∀ c ∈ (P i).cells, x c = blank) :
    (family P spare blank).Holds x v ↔ ∀ c ∈ (family P spare blank).cells, x c = blank := by
  constructor
  · rintro ⟨hparts, hspare⟩ c hc
    by_cases hin : ∃ i, c ∈ (P i).cells
    · obtain ⟨i, hi⟩ := hin
      exact (h i).mp (hparts i) c hi
    · have hout : ∀ i, c ∉ (P i).cells := fun i hi => hin ⟨i, hi⟩
      rcases hc with hc | hc
      · exact hspare c hc hout
      · exact absurd (Set.mem_iUnion.mp hc) hin
  · intro hall
    refine ⟨fun i => (h i).mpr fun c hc => ?_, fun c hc _ => hall c (.inl hc)⟩
    exact hall c (cells_subset_family i hc)

/-- **One member moves**, and with it one component of the family. -/
theorem family_moves [DecidableEq ι] (hd : ∀ i j, i ≠ j → Disjoint (P i).cells (P j).cells)
    (h : (family P spare blank).Holds x v) {i : ι} {w : V i} (hm : (P i).Moves x y w) :
    (family P spare blank).Moves x y (Function.update v i w) := by
  refine ⟨⟨fun j => ?_, fun c hc hout => ?_⟩, fun c hc => ?_⟩
  · by_cases hj : j = i
    · subst hj
      rw [Function.update_self]
      exact hm.holds
    · rw [Function.update_of_ne hj]
      exact hm.frame (h.1 j) (hd i j (Ne.symm hj))
  · rw [hm.outside c (hout i)]
    exact h.2 c hc hout
  · exact hm.outside c fun hi => hc (cells_subset_family i hi)

/-- One member after the other moves. -/
theorem family_foldl [DecidableEq ι] {σ : Type*} (view : σ → C → B)
    (hd : ∀ i j, i ≠ j → Disjoint (P i).cells (P j).cells) {step : σ → ι → σ} {target : ∀ i, V i} {l : List ι}
    (hstep : ∀ i ∈ l, ∀ s v, (family P spare blank).Holds (view s) v →
      (P i).Moves (view s) (view (step s i)) (target i)) {s : σ} (h : (family P spare blank).Holds (view s) v) :
    (family P spare blank).Moves (view s) (view (l.foldl step s)) fun i => if i ∈ l then target i else v i := by
  induction l generalizing s v with
  | nil =>
    simp only [List.not_mem_nil, if_false, List.foldl_nil]
    exact .refl h
  | cons i l ih =>
    have hmove := family_moves hd h (hstep i List.mem_cons_self s v h)
    have hrest := ih (fun j hj => hstep j (List.mem_cons_of_mem _ hj)) hmove.holds
    have hvalue : (fun j => if j ∈ l then target j else Function.update v i (target i) j) =
        fun j => if j ∈ i :: l then target j else v j := by
      funext j
      by_cases hj : j = i
      · subst hj
        simp only [Function.update_self, List.mem_cons_self, if_true, ite_self]
      · simp only [Function.update_of_ne hj, List.mem_cons, hj, false_or]
    rw [hvalue] at hrest
    exact hmove.trans hrest

end

end Place

end PvmContract.Data
