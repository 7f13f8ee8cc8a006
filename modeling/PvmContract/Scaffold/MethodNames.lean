import PvmContract.Scaffold.SnakeCase
import PvmContract.Sol.Resolve

/-!
# Scaffolded methods and the functions they bind to

The scaffolder writes one Rust method for each function of a Solidity interface.
The contract macro later binds each method to the first function of the interface
whose name its rule accepts: the function's name is the `to_snake_case` of the
method's, or the `to_snake_case` of the function's name is the method's.

`binds_exactly_iff` says when every method finds the function it was written for:
each name has to be evenly cased and be no Rust keyword in snake case, and no two
names may have the same snake case.
-/

namespace PvmContract.Scaffold

open Data Sol

/-- `to_snake_case`. -/
def toSnakeCase (s : String) : String := String.ofList (toSnakeChars s.toList)

/-- `name.to_case(Case::Snake)`: the name of the method written for a function. -/
def nameSnake (name : String) : String := String.ofList (snakeChars name.toList)

/-- `is_valid_solidity_identifier`. -/
def isValidSolidityIdentifier (s : String) : Bool :=
  match s.toList with
  | [] => false
  | c :: rest =>
    (c.isAlpha || c == '_' || c == '$') && rest.all fun d => d.isAlphanum || d == '_' || d == '$'

/-- `is_rust_keyword`. -/
def isRustKeyword (s : String) : Bool :=
  ["as", "break", "const", "continue", "crate", "else", "enum", "extern", "false", "fn", "for", "if", "impl",
    "in", "let", "loop", "match", "mod", "move", "mut", "pub", "ref", "return", "self", "Self", "static",
    "struct", "super", "trait", "true", "type", "unsafe", "use", "where", "while", "async", "await", "dyn",
    "gen", "abstract", "become", "box", "do", "final", "macro", "override", "priv", "typeof", "unsized",
    "virtual", "yield", "try"].contains s

/-- A text that Rust reads as the name of a function. -/
def isRustIdentifier (s : String) : Bool :=
  match s.toList with
  | [] => false
  | c :: rest =>
    (c.isAlpha || c == '_') && (rest.all fun d => d.isAlphanum || d == '_') && s != "_" && !isRustKeyword s

/-- The rule of `parse_contract` without an explicit rename: a function's name matches a method's. -/
def nameMatches (rustFnName name : String) : Bool :=
  name == toSnakeCase rustFnName || toSnakeCase (SolIdent.print isRustKeyword name) == rustFnName

/-- The functions of an interface without overloads, in its order. -/
structure SolInterface where
  /-- The names. -/
  functions : List String
  /-- No name is overloaded. -/
  nodup : functions.Nodup
  /-- The names are identifiers. -/
  valid : ∀ f ∈ functions, isValidSolidityIdentifier f = true

namespace SolInterface

/-- `sol_func`: the function that a method is bound to. -/
def solFunc (I : SolInterface) (rustFnName : String) : Option String := I.functions.find? (nameMatches rustFnName)

/-- Every method is one in Rust, and is bound to the function it was written for. -/
def BindsExactly (I : SolInterface) : Prop :=
  ∀ f ∈ I.functions, isRustIdentifier (nameSnake f) = true ∧ I.solFunc (nameSnake f) = some f

end SolInterface

/-! ### Names -/

theorem toList_nameSnake (f : String) : (nameSnake f).toList = snakeChars f.toList := String.toList_ofList

theorem toList_toSnakeCase (f : String) : (toSnakeCase f).toList = toSnakeChars f.toList := String.toList_ofList

theorem toList_inj {s t : String} (h : s.toList = t.toList) : s = t := String.toList_inj.mp h

/-- No capital is left in the snake case of the library. -/
theorem not_isUpper_of_mem_emitRest {s : List Char} {p : Char} {pending : Bool} :
    ∀ c ∈ emitRest p pending s, c.isUpper = false := by
  induction s generalizing p pending with
  | nil => exact fun c hc => absurd hc List.not_mem_nil
  | cons d rest ih =>
    intro c hc
    rw [emitRest] at hc
    by_cases hd : d = '_'
    · rw [if_pos hd] at hc
      exact ih c hc
    · rw [if_neg hd] at hc
      split at hc
      · rcases List.mem_cons.mp hc with rfl | hc
        · rfl
        · rcases List.mem_cons.mp hc with rfl | hc
          · exact isUpper_toLower d
          · exact ih c hc
      · rcases List.mem_cons.mp hc with rfl | hc
        · exact isUpper_toLower d
        · exact ih c hc

theorem not_isUpper_of_mem_snakeChars {s : List Char} : ∀ c ∈ snakeChars s, c.isUpper = false := by
  rw [snakeChars_eq_emitStart]
  induction s with
  | nil => exact fun c hc => absurd hc List.not_mem_nil
  | cons d rest ih =>
    intro c hc
    rw [emitStart] at hc
    by_cases hd : d = '_'
    · rw [if_pos hd] at hc
      exact ih c hc
    · rw [if_neg hd] at hc
      rcases List.mem_cons.mp hc with rfl | hc
      · exact isUpper_toLower d
      · exact not_isUpper_of_mem_emitRest c hc

/-- The macro's conversion changes nothing where there is no capital. -/
theorem snakeRest_of_not_upper {s : List Char} (h : ∀ c ∈ s, c.isUpper = false) : snakeRest s = s := by
  induction s with
  | nil => rfl
  | cons c rest ih =>
    rw [snakeRest, h c List.mem_cons_self, if_neg Bool.false_ne_true,
      ih fun d hd => h d (List.mem_cons_of_mem c hd)]

theorem toSnakeChars_of_not_upper {s : List Char} (h : ∀ c ∈ s, c.isUpper = false) : toSnakeChars s = s := by
  cases s with
  | nil => rfl
  | cons c rest =>
    rw [toSnakeChars, h c List.mem_cons_self, if_neg Bool.false_ne_true,
      snakeRest_of_not_upper fun d hd => h d (List.mem_cons_of_mem c hd)]

/-- It leaves no capital, either. -/
theorem not_isUpper_of_mem_toSnakeChars {s : List Char} : ∀ c ∈ toSnakeChars s, c.isUpper = false := by
  have hrest : ∀ t : List Char, ∀ c ∈ snakeRest t, c.isUpper = false := by
    intro t
    induction t with
    | nil => exact fun c hc => absurd hc List.not_mem_nil
    | cons d rest ih =>
      intro c hc
      rw [snakeRest] at hc
      cases hd : d.isUpper with
      | true =>
        rw [hd, if_pos rfl] at hc
        rcases List.mem_cons.mp hc with rfl | hc
        · rfl
        · rcases List.mem_cons.mp hc with rfl | hc
          · exact isUpper_toLower d
          · exact ih c hc
      | false =>
        rw [hd, if_neg Bool.false_ne_true] at hc
        rcases List.mem_cons.mp hc with rfl | hc
        · exact hd
        · exact ih c hc
  cases s with
  | nil => exact fun c hc => absurd hc List.not_mem_nil
  | cons d rest =>
    intro c hc
    rcases List.mem_cons.mp hc with rfl | hc
    · cases hd : d.isUpper with
      | true => exact isUpper_toLower d
      | false => exact hd
    · exact hrest rest c hc

theorem toSnakeCase_nameSnake (f : String) : toSnakeCase (nameSnake f) = nameSnake f := by
  apply toList_inj
  rw [toList_toSnakeCase, toList_nameSnake, toSnakeChars_of_not_upper not_isUpper_of_mem_snakeChars]

theorem toSnakeCase_toSnakeCase (f : String) : toSnakeCase (toSnakeCase f) = toSnakeCase f := by
  apply toList_inj
  rw [toList_toSnakeCase, toList_toSnakeCase, toSnakeChars_of_not_upper not_isUpper_of_mem_toSnakeChars]

/-! ### Identifiers -/

theorem plain_or_dollar_of_valid {f : String} (h : isValidSolidityIdentifier f = true) :
    f.toList ≠ [] ∧ (∀ c ∈ f.toList.head?, c.isDigit = false) ∧
      ∀ c ∈ f.toList, plain c = true ∨ c = '$' := by
  rw [isValidSolidityIdentifier] at h
  cases hf : f.toList with
  | nil =>
    rw [hf] at h
    cases h
  | cons c rest =>
    simp only [hf, Bool.and_eq_true, List.all_eq_true, Bool.or_eq_true, beq_iff_eq] at h
    obtain ⟨hfirst, hrest⟩ := h
    have hchar : ∀ d : Char, (d.isAlphanum = true ∨ d = '_') ∨ d = '$' → plain d = true ∨ d = '$' := by
      intro d hd
      simpa [plain, Char.isAlphanum, isAlpha_eq, or_assoc] using hd
    refine ⟨List.cons_ne_nil c rest, fun d hd => ?_, fun d hd => ?_⟩
    · obtain rfl : c = d := Option.some.inj hd
      rcases hfirst with (halpha | rfl) | rfl
      · obtain ⟨hu, hl, -⟩ := kinds c
        rw [isAlpha_eq, Bool.or_eq_true] at halpha
        rcases halpha with h | h
        · exact (hu h).2
        · exact (hl h).2
      · rfl
      · rfl
    · rcases List.mem_cons.mp hd with rfl | hd
      · refine hchar d ?_
        rcases hfirst with (halpha | rfl) | rfl
        · exact .inl (.inl (by rw [Char.isAlphanum, halpha, Bool.true_or]))
        · exact .inl (.inr rfl)
        · exact .inr rfl
      · exact hchar d (hrest d hd)

/-- Evenly cased identifiers have no `$`. -/
theorem plain_of_evenlyCased {s : List Char} (h : evenlyCased s = true) : ∀ c ∈ s, plain c = true := by
  have hfollows : ∀ {p c : Char} {next : Option Char}, follows p c next = true → plain c = true := by
    intro p c next hc
    rw [follows] at hc
    by_cases hu : c = '_'
    · simp [plain, hu]
    · rw [if_neg hu] at hc
      cases hup : c.isUpper with
      | true => simp [plain, hup]
      | false =>
        rw [hup, if_neg Bool.false_ne_true] at hc
        cases hd : c.isDigit with
        | true => simp [plain, hd]
        | false =>
          rw [hd, if_neg Bool.false_ne_true, Bool.and_eq_true] at hc
          simp [plain, hc.1]
  have hrest : ∀ (t : List Char) (p : Char), evenRest p t = true → ∀ c ∈ t, plain c = true := by
    intro t
    induction t with
    | nil => exact fun p _ c hc => absurd hc List.not_mem_nil
    | cons d t ih =>
      intro p hp c hc
      rw [evenRest, Bool.and_eq_true] at hp
      rcases List.mem_cons.mp hc with rfl | hc
      · exact hfollows hp.1
      · exact ih d hp.2 c hc
  cases s with
  | nil => cases h
  | cons d t =>
    rw [evenlyCased, Bool.and_eq_true] at h
    intro c hc
    rcases List.mem_cons.mp hc with rfl | hc
    · rw [plain, h.1, Bool.true_or, Bool.true_or]
    · exact hrest t d h.2 c hc

/-- Every character but an underscore is in the snake case of the library. -/
theorem toLower_mem_snakeChars {s : List Char} {c : Char} (hc : c ∈ s) (hne : c ≠ '_') :
    c.toLower ∈ snakeChars s := by
  have hrest : ∀ (t : List Char) (p : Char) (pending : Bool), c ∈ t → c.toLower ∈ emitRest p pending t := by
    intro t
    induction t with
    | nil => exact fun _ _ h => absurd h List.not_mem_nil
    | cons d t ih =>
      intro p pending h
      rw [emitRest]
      by_cases hd : d = '_'
      · rw [if_pos hd]
        rcases List.mem_cons.mp h with rfl | h
        · exact absurd hd hne
        · exact ih _ _ h
      · rw [if_neg hd]
        rcases List.mem_cons.mp h with rfl | h
        · split <;> simp
        · split <;> simp [ih d false h]
  rw [snakeChars_eq_emitStart]
  induction s with
  | nil => cases hc
  | cons d t ih =>
    rw [emitStart]
    by_cases hd : d = '_'
    · rw [if_pos hd]
      rcases List.mem_cons.mp hc with rfl | hc
      · exact absurd hd hne
      · exact ih hc
    · rw [if_neg hd]
      rcases List.mem_cons.mp hc with rfl | hc
      · exact List.mem_cons_self
      · exact List.mem_cons_of_mem _ (hrest t d false hc)

theorem not_dollar_of_rust {f : String} (h : isRustIdentifier (nameSnake f) = true) : ∀ c ∈ f.toList, c ≠ '$' := by
  rintro c hc rfl
  have hmem : '$' ∈ snakeChars f.toList := toLower_mem_snakeChars hc (by decide)
  rw [← toList_nameSnake] at hmem
  rw [isRustIdentifier] at h
  cases hl : (nameSnake f).toList with
  | nil =>
    rw [hl] at hmem
    cases hmem
  | cons d rest =>
    simp only [hl, Bool.and_eq_true, List.all_eq_true] at h
    obtain ⟨⟨⟨hd, hrest⟩, -⟩, -⟩ := h
    rw [hl] at hmem
    rcases List.mem_cons.mp hmem with rfl | hmem
    · exact absurd hd (by decide)
    · exact absurd (hrest _ hmem) (by decide)

/-- What the macro's conversion writes. -/
theorem mem_toSnakeChars {s : List Char} {d : Char} (h : d ∈ toSnakeChars s) :
    d = '_' ∨ ∃ c ∈ s, d = c.toLower := by
  have hchar : ∀ c : Char, (if c.isUpper = true then c.toLower else c) = c.toLower := by
    intro c
    cases hup : c.isUpper with
    | true => rfl
    | false => exact (toLower_of_not_upper hup).symm
  have hrest : ∀ t : List Char, d ∈ snakeRest t → d = '_' ∨ ∃ c ∈ t, d = c.toLower := by
    intro t
    induction t with
    | nil => exact fun h => absurd h List.not_mem_nil
    | cons c t ih =>
      intro h
      have hsplit : d = '_' ∨ d = c.toLower ∨ d ∈ snakeRest t := by
        rw [snakeRest] at h
        cases hup : c.isUpper with
        | true => simpa [hup] using h
        | false =>
          rw [toLower_of_not_upper hup]
          right
          simpa [hup] using h
      rcases hsplit with hd | hd | hd
      · exact .inl hd
      · exact .inr ⟨c, List.mem_cons_self, hd⟩
      · rcases ih hd with hd | ⟨e, he, hd⟩
        · exact .inl hd
        · exact .inr ⟨e, List.mem_cons_of_mem c he, hd⟩
  cases s with
  | nil => cases h
  | cons c t =>
    rw [toSnakeChars, hchar] at h
    rcases List.mem_cons.mp h with hd | hd
    · exact .inr ⟨c, List.mem_cons_self, hd⟩
    · rcases hrest t hd with hd | ⟨e, he, hd⟩
      · exact .inl hd
      · exact .inr ⟨e, List.mem_cons_of_mem c he, hd⟩

theorem isLower_toLower_of_isUpper {c : Char} (h : c.isUpper = true) : c.toLower.isLower = true := by
  have hnat := toNat_toLower h
  have hle := isUpper_iff.mp h
  exact isLower_iff.mpr (by omega)

theorem isAlphanum_toLower {c : Char} (h : plain c = true) : (c.toLower.isAlphanum || c.toLower == '_') = true := by
  cases hup : c.isUpper with
  | true => simp [Char.isAlphanum, isAlpha_eq, isLower_toLower_of_isUpper hup]
  | false =>
    rw [toLower_of_not_upper hup]
    simpa [plain, hup, Char.isAlphanum, isAlpha_eq] using h

/-- An evenly cased name is the name of a Rust method, unless it is a keyword. -/
theorem isRustIdentifier_toSnakeCase {f : String} (h : evenlyCased f.toList = true)
    (hkey : isRustKeyword (toSnakeCase f) = false) : isRustIdentifier (toSnakeCase f) = true := by
  have hplain := plain_of_evenlyCased h
  have hchars : ∀ d ∈ toSnakeChars f.toList, (d.isAlphanum || d == '_') = true := by
    intro d hd
    rcases mem_toSnakeChars hd with rfl | ⟨c, hc, rfl⟩
    · rfl
    · exact isAlphanum_toLower (hplain c hc)
  cases hf : f.toList with
  | nil =>
    rw [hf] at h
    cases h
  | cons c rest =>
    have hl : (toSnakeCase f).toList = (if c.isUpper then c.toLower else c) :: snakeRest rest := by
      rw [toList_toSnakeCase, hf, toSnakeChars]
    rw [hf, evenlyCased, Bool.and_eq_true, Bool.or_eq_true] at h
    have hfirst : (if c.isUpper then c.toLower else c).isAlpha = true := by
      rw [isAlpha_eq]
      cases hup : c.isUpper with
      | true => simp [isLower_toLower_of_isUpper hup]
      | false =>
        rw [hup] at h
        have hlower : c.isLower = true := by simpa using h.1
        simp [hlower]
    have hne : toSnakeCase f ≠ "_" := by
      intro heq
      rw [heq] at hl
      have hhead := (List.cons.inj hl).1
      rw [← hhead] at hfirst
      exact absurd hfirst (by decide)
    have hall : (snakeRest rest).all (fun d => d.isAlphanum || d == '_') = true := by
      rw [List.all_eq_true]
      intro d hd
      refine hchars d ?_
      rw [← toList_toSnakeCase, hl]
      exact List.mem_cons_of_mem _ hd
    rw [isRustIdentifier, hl]
    simp only [hfirst, hall, hkey, Bool.true_or, Bool.true_and, Bool.not_false, Bool.and_true]
    simpa using hne

/-! ### Keywords -/

/-- The names of keywords stay keywords in both conversions. -/
theorem keyword_snake {f : String} (h : isRustKeyword f = true) :
    isRustKeyword (toSnakeCase f) = true ∧ isRustKeyword (nameSnake f) = true := by
  rw [isRustKeyword, List.contains_iff_mem] at h
  revert f
  decide +kernel

/-! ### Binding -/

/-- An identifier's two snake cases agree exactly when it is evenly cased. -/
theorem nameSnake_eq_iff {f : String} (hvalid : isValidSolidityIdentifier f = true)
    (hdollar : ∀ c ∈ f.toList, c ≠ '$') :
    nameSnake f = toSnakeCase f ↔ evenlyCased f.toList = true := by
  obtain ⟨hne, hfirst, hchars⟩ := plain_or_dollar_of_valid hvalid
  have hplain : ∀ c ∈ f.toList, plain c = true := fun c hc => (hchars c hc).resolve_right (hdollar c hc)
  rw [← snakeChars_eq_iff hplain hfirst hne]
  constructor
  · intro h
    rw [← toList_nameSnake, h, toList_toSnakeCase]
  · intro h
    apply toList_inj
    rw [toList_nameSnake, h, toList_toSnakeCase]

/-- A Rust name that the rule matches to the function it was made from is the function's snake case. -/
theorem nameSnake_eq_of_matches {f : String} (hrust : isRustIdentifier (nameSnake f) = true)
    (h : nameMatches (nameSnake f) f = true) : nameSnake f = toSnakeCase f := by
  have hkey : isRustKeyword f = false := by
    rw [Bool.eq_false_iff]
    intro hk
    rw [isRustIdentifier] at hrust
    cases hl : (nameSnake f).toList with
    | nil => simp [hl] at hrust
    | cons c rest => simp [hl, (keyword_snake hk).2] at hrust
  rw [nameMatches, Bool.or_eq_true, beq_iff_eq, beq_iff_eq, toSnakeCase_nameSnake, SolIdent.print, hkey,
    if_neg Bool.false_ne_true] at h
  rcases h with h | h
  · exact h ▸ (toSnakeCase_nameSnake f).symm
  · exact h.symm

namespace SolInterface

/-- The names are evenly cased, none is a keyword in snake case, and no two have the same snake case. -/
def EvenlyNamed (I : SolInterface) : Prop :=
  (∀ f ∈ I.functions, evenlyCased f.toList = true ∧ isRustKeyword (toSnakeCase f) = false) ∧
    ∀ f ∈ I.functions, ∀ g ∈ I.functions, toSnakeCase f = toSnakeCase g → f = g

/-- **Scaffolded methods bind to their functions** exactly where the interface is evenly named. -/
theorem binds_exactly_iff (I : SolInterface) : I.BindsExactly ↔ I.EvenlyNamed := by
  constructor
  · intro h
    have heq : ∀ f ∈ I.functions, nameSnake f = toSnakeCase f := fun f hf =>
      nameSnake_eq_of_matches (h f hf).1 (List.find?_some (h f hf).2)
    refine ⟨fun f hf => ⟨?_, ?_⟩, fun f hf g hg hfg => ?_⟩
    · exact (nameSnake_eq_iff (I.valid f hf) (not_dollar_of_rust (h f hf).1)).mp (heq f hf)
    · have hrust := (h f hf).1
      rw [heq f hf, isRustIdentifier] at hrust
      cases hl : (toSnakeCase f).toList with
      | nil => simp [hl] at hrust
      | cons c rest =>
        simp only [hl, Bool.and_eq_true] at hrust
        simpa using hrust.2
    · have hbound := (h f hf).2
      rw [heq f hf, hfg, ← heq g hg, (h g hg).2] at hbound
      exact (Option.some.inj hbound).symm
  · rintro ⟨heven, hdistinct⟩ f hf
    obtain ⟨hcased, hkey⟩ := heven f hf
    have hdollar : ∀ c ∈ f.toList, c ≠ '$' := by
      rintro c hc rfl
      exact absurd (plain_of_evenlyCased hcased _ hc) (by decide)
    have heq : nameSnake f = toSnakeCase f := (nameSnake_eq_iff (I.valid f hf) hdollar).mpr hcased
    have hnokey : ∀ g ∈ I.functions, isRustKeyword g = false := fun g hg =>
      Bool.eq_false_iff.mpr fun hk => by
        have hk' := (keyword_snake hk).1
        rw [(heven g hg).2] at hk'
        cases hk'
    refine ⟨heq ▸ isRustIdentifier_toSnakeCase hcased hkey, ?_⟩
    -- The function matches, and nothing else does.
    have hself : nameMatches (nameSnake f) f = true := by
      rw [nameMatches, SolIdent.print, hnokey f hf, if_neg Bool.false_ne_true, heq]
      simp
    have hother : ∀ g ∈ I.functions, nameMatches (nameSnake f) g = true → g = f := by
      intro g hg hmatch
      rw [nameMatches, Bool.or_eq_true, beq_iff_eq, beq_iff_eq, SolIdent.print, hnokey g hg,
        if_neg Bool.false_ne_true, toSnakeCase_nameSnake, heq] at hmatch
      refine hdistinct g hg f hf ?_
      rcases hmatch with h | h
      · rw [h, toSnakeCase_toSnakeCase]
      · exact h
    obtain ⟨g, hg⟩ := Option.isSome_iff_exists.mp (List.find?_isSome.mpr ⟨f, hf, hself⟩)
    rw [solFunc, hg, hother g (List.mem_of_find?_eq_some hg) (List.find?_some hg)]

/-- The method of `setURI` is bound to nothing. -/
theorem setURI_unbound :
    ∃ I : SolInterface, I.functions = ["setURI"] ∧ nameSnake "setURI" = "set_uri" ∧
      I.solFunc (nameSnake "setURI") = none ∧ ¬ I.BindsExactly := by
  have hnone : (["setURI"].find? (nameMatches (nameSnake "setURI"))) = none := by decide +kernel
  refine ⟨⟨["setURI"], by decide, by decide +kernel⟩, rfl, by decide +kernel, hnone, fun h => ?_⟩
  have hbound := (h "setURI" (by simp)).2
  rw [solFunc, hnone] at hbound
  cases hbound

/-- Capitals may meet where a word of one letter ends, but not in an acronym; a digit may not follow a letter. -/
example : evenlyCased "getURLOf".toList = false ∧ evenlyCased "aBCd".toList = true ∧
    evenlyCased "transfer2".toList = false := by decide +kernel

end SolInterface

end PvmContract.Scaffold
