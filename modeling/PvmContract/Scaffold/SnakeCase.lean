import PvmContract.Data.Text
import Mathlib.Data.List.Basic

/-!
# Two snake-case conversions

The scaffolder names a method by the snake case of the `convert_case` library,
which splits an identifier into words and joins the words with underscores. The
contract macro has a conversion of its own, `to_snake_case`, which puts an
underscore in front of every capital but a first one and changes nothing else.

The two agree on an identifier exactly where the words begin at the capitals:
`snakeChars_eq_iff`, with `evenlyCased` as the condition on the identifier. The
library's conversion is first turned from words into one pass over the characters
(`emitStart`, `emitRest`), and the two passes are then compared step by step.

Identifiers are ASCII, so the cases of a character are the ASCII ones.
-/

namespace PvmContract.Scaffold

open Data

/-! ### Characters -/

theorem toLower_of_not_upper {c : Char} (h : c.isUpper = false) : c.toLower = c :=
  dif_neg (of_decide_eq_false h)

theorem toNat_toLower {c : Char} (h : c.isUpper = true) : c.toLower.toNat = c.toNat + 32 := by
  have hle := isUpper_iff.mp h
  have hupper : c.toLower = ⟨c.val + 32, _⟩ := dif_pos (of_decide_eq_true h)
  rw [hupper]
  have h32 : (32 : UInt32).toNat = 32 := rfl
  have hval : c.val.toNat = c.toNat := rfl
  change (c.val + 32).toNat = c.val.toNat + 32
  rw [UInt32.toNat_add]
  exact Nat.mod_eq_of_lt (by omega)

theorem isUpper_toLower (c : Char) : c.toLower.isUpper = false := by
  by_cases h : c.isUpper = true
  · have hnat := toNat_toLower h
    have hu := isUpper_iff.mp h
    rw [Bool.eq_false_iff]
    intro hl
    have hle := isUpper_iff.mp hl
    omega
  · rw [toLower_of_not_upper (Bool.eq_false_iff.mpr h)]
    exact Bool.eq_false_iff.mpr h

theorem toLower_ne_underscore {c : Char} (h : c ≠ '_') : c.toLower ≠ '_' := by
  by_cases hu : c.isUpper = true
  · intro heq
    have hnat := toNat_toLower hu
    have hle := isUpper_iff.mp hu
    have hcode : '_'.toNat = 95 := rfl
    rw [heq, hcode] at hnat
    omega
  · rwa [toLower_of_not_upper (Bool.eq_false_iff.mpr hu)]

/-! ### The conversion of the macro -/

/-- The loop of `to_snake_case` behind the first character. -/
def snakeRest : List Char → List Char
  | [] => []
  | c :: rest => if c.isUpper then '_' :: c.toLower :: snakeRest rest else c :: snakeRest rest

/-- `to_snake_case`. -/
def toSnakeChars : List Char → List Char
  | [] => []
  | c :: rest => (if c.isUpper then c.toLower else c) :: snakeRest rest

/-! ### The conversion of the library -/

/-- Two neighbours, and the character behind them, between which the library splits: lower to upper, the
end of an acronym, and a letter next to a digit. -/
def boundary (c d : Char) (e : Option Char) : Bool :=
  c.isLower && d.isUpper || c.isUpper && d.isUpper && e.any Char.isLower ||
    c.isUpper && d.isDigit || c.isDigit && d.isUpper || c.isDigit && d.isLower || c.isLower && d.isDigit

/-- The loop of `split`: an underscore ends a word and is dropped, a boundary ends one as well. -/
def splitWords (prev : Option Char) (word : List Char) : List Char → List (List Char)
  | [] => [word]
  | c :: rest =>
    if c = '_' then word :: splitWords (some c) [] rest
    else if prev.any fun p => boundary p c rest.head? then word :: splitWords (some c) [c] rest
    else splitWords (some c) (word ++ [c]) rest

/-- The words joined: empty ones are dropped, the others are lower-cased and joined with underscores. -/
def joinWords (words : List (List Char)) : List Char :=
  ['_'].intercalate ((words.filter fun w => !w.isEmpty).map (List.map Char.toLower))

/-- `to_case(Case::Snake)`. -/
def snakeChars (s : List Char) : List Char := joinWords (splitWords none [] s)

/-! ### The library's conversion as one pass -/

/-- What is written behind a character, `pending` when an underscore was read since. -/
def emitRest (prev : Char) (pending : Bool) : List Char → List Char
  | [] => []
  | c :: rest =>
    if c = '_' then emitRest c true rest
    else if pending || boundary prev c rest.head? then '_' :: c.toLower :: emitRest c false rest
    else c.toLower :: emitRest c false rest

/-- What is written before any character was. -/
def emitStart : List Char → List Char
  | [] => []
  | c :: rest => if c = '_' then emitStart rest else c.toLower :: emitRest c false rest

/-- A text behind an underscore, if there is a text. -/
def behind (text : List Char) : List Char := if text = [] then [] else '_' :: text

theorem behind_of_ne {text : List Char} (h : text ≠ []) : behind text = '_' :: text := if_neg h

@[simp] theorem joinWords_nil_cons (words : List (List Char)) : joinWords ([] :: words) = joinWords words := by
  simp [joinWords]

theorem joinWords_cons {w : List Char} (hw : w ≠ []) (words : List (List Char)) :
    joinWords (w :: words) = w.map Char.toLower ++ behind (joinWords words) := by
  rw [joinWords, joinWords, List.filter_cons_of_pos (by simpa using hw)]
  cases hws : words.filter fun w => !w.isEmpty with
  | nil => simp [behind]
  | cons x xs =>
    have hx : x ≠ [] := by
      have hmem : x ∈ words.filter fun w => !w.isEmpty := hws ▸ List.mem_cons_self
      simpa using (List.mem_filter.mp hmem).2
    have hne : ['_'].intercalate ((x :: xs).map (List.map Char.toLower)) ≠ [] := by
      cases xs with
      | nil => simpa using hx
      | cons y ys => simp [List.intercalate_cons_cons]
    rw [behind_of_ne hne, List.map_cons, List.map_cons, List.intercalate_cons_cons, ← List.map_cons,
      List.append_assoc]
    rfl

theorem emitRest_pending (prev : Char) (s : List Char) : emitRest prev true s = behind (emitStart s) := by
  induction s generalizing prev with
  | nil => rfl
  | cons c rest ih =>
    rw [emitRest, emitStart]
    by_cases hc : c = '_'
    · rw [if_pos hc, if_pos hc, ih]
    · rw [if_neg hc, if_neg hc, Bool.true_or, if_pos rfl, behind_of_ne (List.cons_ne_nil _ _)]

/-- Splitting and joining, with a word begun and with none. -/
theorem joinWords_splitWords (s : List Char) :
    (∀ (p : Char) (word : List Char), word ≠ [] →
      joinWords (splitWords (some p) word s) = word.map Char.toLower ++ emitRest p false s) ∧
    ∀ prev : Option Char, (prev = none ∨ prev = some '_') → joinWords (splitWords prev [] s) = emitStart s := by
  induction s with
  | nil =>
    refine ⟨fun p word hword => ?_, fun prev _ => rfl⟩
    rw [splitWords, joinWords_cons hword]
    rfl
  | cons c rest ih =>
    obtain ⟨ihword, ihstart⟩ := ih
    constructor
    · intro p word hword
      rw [splitWords, emitRest]
      by_cases hc : c = '_'
      · rw [if_pos hc, if_pos hc, joinWords_cons hword, ihstart _ (.inr (congrArg some hc)), emitRest_pending]
      · rw [if_neg hc, if_neg hc, Option.any_some, Bool.false_or]
        by_cases hb : boundary p c rest.head? = true
        · have hone := ihword c [c] (List.cons_ne_nil _ _)
          rw [if_pos hb, if_pos hb, joinWords_cons hword, hone, behind_of_ne (by simp)]
          rfl
        · have hmore := ihword c (word ++ [c]) (by simp)
          rw [if_neg hb, if_neg hb, hmore, List.map_append, List.append_assoc]
          rfl
    · intro prev hprev
      rw [splitWords, emitStart]
      by_cases hc : c = '_'
      · rw [if_pos hc, if_pos hc, joinWords_nil_cons, ihstart _ (.inr (congrArg some hc))]
      · have hquiet : (prev.any fun p => boundary p c rest.head?) = false := by
          rcases hprev with rfl | rfl
          · rfl
          · rfl
        rw [if_neg hc, if_neg hc, hquiet, if_neg Bool.false_ne_true, List.nil_append,
          ihword c [c] (List.cons_ne_nil _ _)]
        rfl

theorem snakeChars_eq_emitStart (s : List Char) : snakeChars s = emitStart s :=
  (joinWords_splitWords s).2 none (.inl rfl)

/-! ### Where the two agree -/

/-- The characters of an identifier, except `$`. -/
def plain (c : Char) : Bool := c.isUpper || c.isLower || c.isDigit || c == '_'

/-- What may follow a character: an underscore between two others, a capital at the start of a word, a
digit in a run of digits or at the start of a word, and a small letter anywhere but behind a digit. -/
def follows (p c : Char) (next : Option Char) : Bool :=
  if c = '_' then next.any fun d => d != '_'
  else if c.isUpper then p.isLower || p.isDigit || p.isUpper && next.any Char.isLower
  else if c.isDigit then p.isDigit || p == '_'
  else c.isLower && !p.isDigit

/-- Every character may follow the one in front of it. -/
def evenRest : Char → List Char → Bool
  | _, [] => true
  | p, c :: rest => follows p c rest.head? && evenRest c rest

/-- The identifier begins with a letter and goes on evenly. -/
def evenlyCased : List Char → Bool
  | [] => false
  | c :: rest => (c.isUpper || c.isLower) && evenRest c rest

/-- The kinds of characters exclude each other. -/
theorem kinds (c : Char) :
    (c.isUpper = true → c.isLower = false ∧ c.isDigit = false) ∧
      (c.isLower = true → c.isUpper = false ∧ c.isDigit = false) ∧
      (c.isDigit = true → c.isUpper = false ∧ c.isLower = false) := by
  simp only [Bool.eq_false_iff, ne_eq, isUpper_iff, isLower_iff, isDigit_iff]
  omega

/-- Behind a character that is no underscore, the library splits before the capitals alone exactly when
the next character may follow. -/
theorem boundary_eq_isUpper_iff {p c : Char} (hp : plain p = true) (hc : plain c = true) (hp' : p ≠ '_')
    (hc' : c ≠ '_') (next : Option Char) :
    boundary p c next = c.isUpper ↔ follows p c next = true := by
  obtain ⟨hpu, hpl, hpd⟩ := kinds p
  obtain ⟨hcu, hcl, hcd⟩ := kinds c
  have hpb : (p == '_') = false := by simpa using hp'
  have hcb : (c == '_') = false := by simpa using hc'
  simp only [plain, hpb, hcb, Bool.or_false, Bool.or_eq_true] at hp hc
  rw [follows, if_neg hc']
  rcases hc with (hcu' | hcl') | hcd'
  · obtain ⟨h1, h2⟩ := hcu hcu'
    rcases hp with (hpu' | hpl') | hpd'
    · simp [boundary, hcu', h1, h2, hpu', hpu hpu']
    · simp [boundary, hcu', h1, h2, hpl', hpl hpl']
    · simp [boundary, hcu', h1, h2, hpd', hpd hpd']
  · obtain ⟨h1, h2⟩ := hcl hcl'
    rcases hp with (hpu' | hpl') | hpd'
    · simp [boundary, hcl', h1, h2, hpu', hpu hpu']
    · simp [boundary, hcl', h1, h2, hpl', hpl hpl']
    · simp [boundary, hcl', h1, h2, hpd', hpd hpd']
  · obtain ⟨h1, h2⟩ := hcd hcd'
    rcases hp with (hpu' | hpl') | hpd'
    · simp [boundary, hcd', h1, h2, hpu', hpu hpu', hpb]
    · simp [boundary, hcd', h1, h2, hpl', hpl hpl', hpb]
    · simp [boundary, hcd', h1, h2, hpd', hpd hpd']

/-- Behind an underscore, everything but a capital and an underscore may follow. -/
theorem follows_underscore {c : Char} (hc : plain c = true) (hc' : c ≠ '_') (next : Option Char) :
    follows '_' c next = !c.isUpper := by
  obtain ⟨-, hcl, hcd⟩ := kinds c
  have hcb : (c == '_') = false := by simpa using hc'
  simp only [plain, hcb, Bool.or_false, Bool.or_eq_true] at hc
  rw [follows, if_neg hc']
  rcases hc with (hcu' | hcl') | hcd'
  · simp [hcu']
  · simp [hcl', hcl hcl']
  · simp [hcd', hcd hcd']

theorem emitStart_ne_underscore (s t : List Char) : emitStart s ≠ '_' :: t := by
  induction s with
  | nil => exact fun h => by cases h
  | cons c rest ih =>
    rw [emitStart]
    by_cases hc : c = '_'
    · rwa [if_pos hc]
    · rw [if_neg hc]
      intro h
      exact toLower_ne_underscore hc (List.cons.inj h).1

/-- The two passes write the same behind a character, and behind an underscore, exactly where the
identifier goes on evenly. -/
theorem emitRest_eq_iff {s : List Char} (hs : ∀ c ∈ s, plain c = true) :
    (∀ p, plain p = true → p ≠ '_' → (emitRest p false s = snakeRest s ↔ evenRest p s = true)) ∧
      (emitRest '_' true s = '_' :: snakeRest s ↔
        (s.head?.any fun d => d != '_') = true ∧ evenRest '_' s = true) := by
  induction s with
  | nil => exact ⟨fun p _ _ => iff_of_true rfl rfl, iff_of_false (by simp [emitRest]) (by simp)⟩
  | cons c rest ih =>
    have hc := hs c List.mem_cons_self
    obtain ⟨ihrest, ihunder⟩ := ih fun d hd => hs d (List.mem_cons_of_mem c hd)
    constructor
    · intro p hp hp'
      rw [emitRest, snakeRest, evenRest, Bool.and_eq_true]
      by_cases hu : c = '_'
      · subst hu
        rw [if_pos rfl, if_neg (by decide), ihunder, follows, if_pos rfl]
      · rw [if_neg hu, Bool.false_or, ← boundary_eq_isUpper_iff hp hc hp' hu]
        have hne := toLower_ne_underscore hu
        cases hup : c.isUpper with
        | true =>
          rw [if_pos rfl]
          cases hb : boundary p c rest.head? with
          | true => simp [ihrest c hc hu]
          | false =>
            rw [if_neg Bool.false_ne_true]
            exact iff_of_false (fun h => hne (List.cons.inj h).1) (by simp)
        | false =>
          rw [if_neg Bool.false_ne_true, toLower_of_not_upper hup]
          cases hb : boundary p c rest.head? with
          | true =>
            rw [if_pos rfl]
            exact iff_of_false (fun h => hu (List.cons.inj h).1.symm) (by simp)
          | false => simp [ihrest c hc hu]
    · rw [emitRest, snakeRest, evenRest, Bool.and_eq_true, List.head?_cons, Option.any_some]
      by_cases hu : c = '_'
      · subst hu
        rw [if_pos rfl, if_neg (by decide), emitRest_pending]
        refine iff_of_false (fun h => ?_) (by simp)
        by_cases hnil : emitStart rest = []
        · rw [hnil] at h
          cases h
        · rw [behind_of_ne hnil] at h
          exact emitStart_ne_underscore _ _ (List.cons.inj h).2
      · rw [if_neg hu, Bool.true_or, if_pos rfl, follows_underscore hc hu]
        have hne := toLower_ne_underscore hu
        cases hup : c.isUpper with
        | true =>
          rw [if_pos rfl]
          exact iff_of_false (fun h => hne (List.cons.inj (List.cons.inj h).2).1) (by simp)
        | false =>
          rw [if_neg Bool.false_ne_true, toLower_of_not_upper hup]
          simp [ihrest c hc hu, hu]

/-- **The two conversions agree** exactly on the evenly cased identifiers. -/
theorem snakeChars_eq_iff {s : List Char} (hs : ∀ c ∈ s, plain c = true)
    (hfirst : ∀ c ∈ s.head?, c.isDigit = false) (hne : s ≠ []) :
    snakeChars s = toSnakeChars s ↔ evenlyCased s = true := by
  rw [snakeChars_eq_emitStart]
  cases s with
  | nil => exact absurd rfl hne
  | cons c rest =>
    have hc := hs c List.mem_cons_self
    have hdigit := hfirst c rfl
    rw [emitStart, toSnakeChars, evenlyCased, Bool.and_eq_true]
    by_cases hu : c = '_'
    · subst hu
      rw [if_pos rfl]
      exact iff_of_false (emitStart_ne_underscore _ _) fun h => absurd h.1 (by decide)
    · have hrest := (emitRest_eq_iff fun d hd => hs d (List.mem_cons_of_mem c hd)).1 c hc hu
      have hub : (c == '_') = false := by simpa using hu
      have hletter : (c.isUpper || c.isLower) = true := by simpa [plain, hdigit, hub] using hc
      have hhead : (if c.isUpper = true then c.toLower else c) = c.toLower := by
        cases hup : c.isUpper with
        | true => rfl
        | false => exact (toLower_of_not_upper hup).symm
      rw [if_neg hu, hhead, List.cons.injEq, hrest, hletter]
      simp

end PvmContract.Scaffold
