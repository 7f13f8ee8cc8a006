import PvmContract.Cli.SdkTypes

/-!
# Reading type names back

`parse_type_str` on the name of a type of the SDK gives the descriptor of the type
(`inputOf_parseTypeStr`). The name of a tuple is split at the commas between its
components: the commas within a component are inside of its parentheses, so the split
passes over the component as a whole (`splitFrom_name`).
-/

namespace PvmContract.Cli

open Data PvmContract.Types Macros

/-! ### Characters of names -/

theorem alphanum_ne {c d : Char} (h : c.isAlphanum = true) (hd : d.isAlphanum = false) : c ≠ d := by
  rintro rfl
  rw [h] at hd
  cases hd

theorem isWhitespace_alphanum {c : Char} (h : c.isAlphanum = true) : isWhitespace c = false := by
  rw [Char.isAlphanum, isAlpha_eq, Bool.or_eq_true, Bool.or_eq_true, isUpper_iff, isLower_iff, isDigit_iff] at h
  simp [isWhitespace]
  omega

/-- The name of a type, with the unit type named as the SDK names it. -/
abbrev canonicalName (t : Ty) : Text := sdkName "unit".toList "unit".toList t

/-- The names of a list of types. -/
abbrev canonicalNames (ts : List Ty) : List Text := sdkNames "unit".toList "unit".toList ts

theorem alphanum_digits (n : ℕ) : ∀ c ∈ Nat.toDigits 10 n, c.isAlphanum = true := by
  intro c hc
  rw [Char.isAlphanum, isDigit_of_mem hc, Bool.or_true]

theorem alphanum_prim (p : Prim) : ∀ c ∈ p.abi.name.toList, c.isAlphanum = true := by
  rw [← List.all_eq_true]
  cases p <;> decide

theorem alphanum_bytesN (n : ℕ) : ∀ c ∈ "bytes".toList ++ Nat.toDigits 10 n, c.isAlphanum = true := by
  intro c hc
  rcases List.mem_append.mp hc with hc | hc
  · have hbytes : "bytes".toList.all Char.isAlphanum = true := by decide
    exact List.all_eq_true.mp hbytes c hc
  · exact alphanum_digits n c hc

/-! ### Splitting -/

theorem splitFrom_char {c : Char} (hopen : c ≠ '(') (hclose : c ≠ ')') (hcomma : c ≠ ',') (depth : ℕ)
    (current rest : Text) : splitFrom depth current (c :: rest) = splitFrom depth (current ++ [c]) rest := by
  rw [splitFrom, if_neg fun h => hcomma h.1]
  · exact hopen
  · exact hclose

theorem splitFrom_plain {t : Text} (h : ∀ c ∈ t, c ≠ '(' ∧ c ≠ ')' ∧ c ≠ ',') (depth : ℕ) (current rest : Text) :
    splitFrom depth current (t ++ rest) = splitFrom depth (current ++ t) rest := by
  induction t generalizing current with
  | nil => rw [List.nil_append, List.append_nil]
  | cons c t ih =>
    obtain ⟨⟨hopen, hclose, hcomma⟩, ht⟩ := List.forall_mem_cons.mp h
    rw [List.cons_append, splitFrom_char hopen hclose hcomma, ih ht, List.append_assoc, List.singleton_append]

theorem splitFrom_alphanum {t : Text} (h : ∀ c ∈ t, c.isAlphanum = true) (depth : ℕ) (current rest : Text) :
    splitFrom depth current (t ++ rest) = splitFrom depth (current ++ t) rest :=
  splitFrom_plain (fun c hc => ⟨alphanum_ne (h c hc) (by decide), alphanum_ne (h c hc) (by decide),
    alphanum_ne (h c hc) (by decide)⟩) depth current rest

theorem splitFrom_dims (n : ℕ) (depth : ℕ) (current rest : Text) :
    splitFrom depth current ('[' :: (Nat.toDigits 10 n ++ [']']) ++ rest) =
      splitFrom depth (current ++ '[' :: (Nat.toDigits 10 n ++ [']'])) rest := by
  refine splitFrom_plain (fun c hc => ?_) depth current rest
  rcases List.mem_cons.mp hc with rfl | hc
  · decide
  rcases List.mem_append.mp hc with hc | hc
  · have hal := alphanum_digits n c hc
    exact ⟨alphanum_ne hal (by decide), alphanum_ne hal (by decide), alphanum_ne hal (by decide)⟩
  · rw [List.mem_singleton.mp hc]
    decide

theorem splitFrom_brackets (depth : ℕ) (current rest : Text) :
    splitFrom depth current ("[]".toList ++ rest) = splitFrom depth (current ++ "[]".toList) rest := by
  refine splitFrom_plain (fun c hc => ?_) depth current rest
  rcases List.mem_cons.mp hc with rfl | hc
  · decide
  · rw [List.mem_singleton.mp hc]
    decide

/-- A comma within parentheses does not split. -/
theorem splitFrom_comma (depth : ℕ) (current rest : Text) :
    splitFrom (depth + 1) current (',' :: rest) = splitFrom (depth + 1) (current ++ [',']) rest := by
  rw [splitFrom, if_neg fun h => Nat.succ_ne_zero depth h.2]
  · decide
  · decide

/-- Parentheses around a text that is passed over are passed over. -/
theorem splitFrom_parens {ns : List Text} (h : ∀ depth current rest,
    splitFrom (depth + 1) current (commaJoin ns ++ rest) = splitFrom (depth + 1) (current ++ commaJoin ns) rest)
    (depth : ℕ) (current rest : Text) :
    splitFrom depth current (parens ns ++ rest) = splitFrom depth (current ++ parens ns) rest := by
  rw [parens, List.cons_append, List.append_assoc, splitFrom, h, List.singleton_append, splitFrom, Nat.add_sub_cancel]
  simp

mutual

/-- The split passes over the name of a type. -/
theorem splitFrom_name : (t : Ty) → ∀ depth current rest,
    splitFrom depth current (canonicalName t ++ rest) = splitFrom depth (current ++ canonicalName t) rest
  | .prim p => by
    rw [canonicalName, sdkName]
    exact splitFrom_alphanum (alphanum_prim p)
  | .unit => splitFrom_alphanum (List.all_eq_true.mp (by decide))
  | .bytesN n => by
    rw [canonicalName, sdkName]
    exact splitFrom_alphanum (alphanum_bytesN n)
  | .bytes => splitFrom_alphanum (List.all_eq_true.mp (by decide))
  | .string => splitFrom_alphanum (List.all_eq_true.mp (by decide))
  | .vec elem => by
    intro depth current rest
    rw [canonicalName, sdkName, List.append_assoc, splitFrom_name elem, splitFrom_brackets, List.append_assoc]
  | .array elem n => by
    intro depth current rest
    rw [canonicalName, sdkName, List.append_assoc, splitFrom_name elem, splitFrom_dims, List.append_assoc]
  | .tuple elems => by
    rw [canonicalName, sdkName]
    exact splitFrom_parens (splitFrom_names elems).2
  | .struct idents fields => by
    rw [canonicalName, sdkName]
    exact splitFrom_parens (splitFrom_names fields).2
  | .enum _ => by
    rw [canonicalName, sdkName]
    exact splitFrom_alphanum (List.all_eq_true.mp (by decide))

/-- The split passes over names within parentheses. -/
theorem splitFrom_names : (ts : List Ty) →
    (∀ depth current rest, splitFrom (depth + 1) current (commaRest (canonicalNames ts) ++ rest) =
        splitFrom (depth + 1) (current ++ commaRest (canonicalNames ts)) rest) ∧
      ∀ depth current rest, splitFrom (depth + 1) current (commaJoin (canonicalNames ts) ++ rest) =
        splitFrom (depth + 1) (current ++ commaJoin (canonicalNames ts)) rest
  | [] => by
    constructor
    · intro depth current rest
      rw [canonicalNames, sdkNames, commaRest, List.nil_append, List.append_nil]
    · intro depth current rest
      rw [canonicalNames, sdkNames, commaJoin, List.nil_append, List.append_nil]
  | t :: ts => by
    have ih := (splitFrom_names ts).1
    constructor
    · intro depth current rest
      rw [canonicalNames, sdkNames, commaRest, List.cons_append, List.append_assoc, splitFrom_comma, splitFrom_name t, ih]
      simp only [List.append_assoc, List.cons_append, List.nil_append]
    · intro depth current rest
      rw [canonicalNames, sdkNames, commaJoin, List.append_assoc, splitFrom_name t, ih, List.append_assoc]

end

/-! ### Nothing to trim -/

theorem trim_eq {t : Text} (h : ∀ c ∈ t, isWhitespace c = false) : trim t = t := by
  have hdrop : ∀ s : Text, (∀ c ∈ s, isWhitespace c = false) → s.dropWhile isWhitespace = s := by
    intro s hs
    cases s with
    | nil => rfl
    | cons c s => rw [List.dropWhile_cons, hs c List.mem_cons_self]; rfl
  rw [trim, hdrop t h, List.rdropWhile, hdrop t.reverse fun c hc => h c (List.mem_reverse.mp hc), List.reverse_reverse]

theorem isWhitespace_of_all {t : Text} (h : t.any isWhitespace = false) : ∀ c ∈ t, isWhitespace c = false := by
  intro c hc
  exact Bool.eq_false_iff.mpr fun hs => Bool.eq_false_iff.mp h (List.any_eq_true.mpr ⟨c, hc, hs⟩)

theorem isWhitespace_dims (n : ℕ) : ∀ c ∈ '[' :: (Nat.toDigits 10 n ++ [']']), isWhitespace c = false := by
  intro c hc
  rcases List.mem_cons.mp hc with rfl | hc
  · rfl
  rcases List.mem_append.mp hc with hc | hc
  · exact isWhitespace_alphanum (alphanum_digits n c hc)
  · rw [List.mem_singleton.mp hc]
    rfl

theorem isWhitespace_parens {ns : List Text} (h : ∀ c ∈ commaJoin ns, isWhitespace c = false) :
    ∀ c ∈ parens ns, isWhitespace c = false := by
  intro c hc
  rcases List.mem_cons.mp hc with rfl | hc
  · rfl
  rcases List.mem_append.mp hc with hc | hc
  · exact h c hc
  · rw [List.mem_singleton.mp hc]
    rfl

mutual

/-- Names have no white space. -/
theorem isWhitespace_name : (t : Ty) → ∀ c ∈ canonicalName t, isWhitespace c = false
  | .prim p => by
    rw [canonicalName, sdkName]
    exact fun c hc => isWhitespace_alphanum (alphanum_prim p c hc)
  | .unit => isWhitespace_of_all rfl
  | .bytesN n => by
    rw [canonicalName, sdkName]
    exact fun c hc => isWhitespace_alphanum (alphanum_bytesN n c hc)
  | .bytes => isWhitespace_of_all rfl
  | .string => isWhitespace_of_all rfl
  | .vec elem => by
    intro c hc
    rw [canonicalName, sdkName] at hc
    rcases List.mem_append.mp hc with hc | hc
    · exact isWhitespace_name elem c hc
    · exact isWhitespace_of_all rfl c hc
  | .array elem n => by
    intro c hc
    rw [canonicalName, sdkName] at hc
    rcases List.mem_append.mp hc with hc | hc
    · exact isWhitespace_name elem c hc
    · exact isWhitespace_dims n c hc
  | .tuple elems => by
    rw [canonicalName, sdkName]
    exact isWhitespace_parens (isWhitespace_names elems).2
  | .struct idents fields => by
    rw [canonicalName, sdkName]
    exact isWhitespace_parens (isWhitespace_names fields).2
  | .enum n => by
    rw [canonicalName, sdkName]
    exact isWhitespace_of_all rfl

/-- The same for a list of names. -/
theorem isWhitespace_names : (ts : List Ty) → (∀ c ∈ commaRest (canonicalNames ts), isWhitespace c = false) ∧
    ∀ c ∈ commaJoin (canonicalNames ts), isWhitespace c = false
  | [] => ⟨fun c hc => (nomatch hc), fun c hc => (nomatch hc)⟩
  | t :: ts => by
    have hjoin : ∀ c ∈ canonicalName t ++ commaRest (canonicalNames ts), isWhitespace c = false := by
      intro c hc
      rcases List.mem_append.mp hc with hc | hc
      · exact isWhitespace_name t c hc
      · exact (isWhitespace_names ts).1 c hc
    refine ⟨fun c hc => ?_, hjoin⟩
    rcases List.mem_cons.mp hc with rfl | hc
    · rfl
    · exact hjoin c hc

end

theorem trim_name (t : Ty) : trim (canonicalName t) = canonicalName t := trim_eq (isWhitespace_name t)

theorem name_ne_nil (t : Ty) : canonicalName t ≠ [] := by
  cases t with
  | prim p => cases p <;> decide
  | vec elem => exact List.append_ne_nil_of_right_ne_nil _ (by decide)
  | array elem n => exact List.append_ne_nil_of_right_ne_nil _ (List.cons_ne_nil _ _)
  | bytesN n => exact List.append_ne_nil_of_left_ne_nil (by decide) _
  | tuple elems => exact List.cons_ne_nil _ _
  | struct idents fields => exact List.cons_ne_nil _ _
  | enum n =>
    rw [canonicalName, sdkName]
    decide
  | _ => decide

theorem splitFrom_rest (ts : List Ty) {current : Text} (h : trim current ≠ []) :
    splitFrom 0 current (commaRest (canonicalNames ts)) = trim current :: canonicalNames ts := by
  induction ts generalizing current with
  | nil =>
    rw [canonicalNames, sdkNames, commaRest, splitFrom, if_neg h]
  | cons t ts ih =>
    have hname : trim (canonicalName t) ≠ [] := by
      rw [trim_name]
      exact name_ne_nil t
    rw [canonicalNames, sdkNames, commaRest, splitFrom, if_pos ⟨rfl, rfl⟩, if_neg h, splitFrom_name t, List.nil_append,
      ih hname, trim_name]
    · decide
    · decide

/-- The names of the components are split off. -/
theorem splitTopLevelParams_names (ts : List Ty) :
    splitTopLevelParams (commaJoin (canonicalNames ts)) = canonicalNames ts := by
  cases ts with
  | nil => rfl
  | cons t ts =>
    have hname : trim (canonicalName t) ≠ [] := by
      rw [trim_name]
      exact name_ne_nil t
    rw [canonicalNames, sdkNames, commaJoin, splitTopLevelParams, splitFrom_name t, List.nil_append,
      splitFrom_rest ts hname, trim_name]

/-! ### `parse_type_str` -/

theorem parseTypeStr_vec (name : String) (base : Text) : parseTypeStr name (base ++ "[]".toList) =
    .mk name ((parseTypeStr "" base).paramType ++ "[]") (parseTypeStr "" base).components := by
  have hstrip : stripSuffix "[]".toList (base ++ "[]".toList) = some base := stripSuffix_eq_some.mpr rfl
  rw [parseTypeStr]
  split
  · rename_i base' h
    rw [hstrip] at h
    obtain rfl := Option.some.inj h
    rfl
  · rename_i h
    rw [hstrip] at h
    cases h

theorem stripSuffix_brackets {front : Text} {c d : Char} (h : c ≠ '[' ∨ d ≠ ']') :
    stripSuffix "[]".toList (front ++ [c, d]) = none := by
  rw [Option.eq_none_iff_forall_not_mem]
  intro base hbase
  obtain ⟨-, heq⟩ := List.append_inj' (stripSuffix_eq_some.mp hbase) rfl
  obtain ⟨hc, hd⟩ := List.cons.inj heq
  rcases h with h | h
  · exact h hc
  · exact h (List.cons.inj hd).1

theorem parseTypeStr_fixed (name : String) (base : Text) (n : ℕ) :
    parseTypeStr name (base ++ '[' :: (Nat.toDigits 10 n ++ [']'])) =
      .mk name ((parseTypeStr "" base).paramType ++ String.ofList ('[' :: (Nat.toDigits 10 n ++ [']'])))
        (parseTypeStr "" base).components := by
  obtain ⟨digits, last, hdigits⟩ := List.eq_nil_or_concat'.{0} (Nat.toDigits 10 n) |>.resolve_left Nat.toDigits_ne_nil
  have hlast : last ≠ '[' := by
    rintro rfl
    have hdigit := isDigit_of_mem (n := n) (hdigits ▸ List.mem_append_right _ (List.mem_singleton_self _))
    cases hdigit
  have hstrip : stripSuffix "[]".toList (base ++ '[' :: (Nat.toDigits 10 n ++ [']'])) = none := by
    have hsplit : base ++ '[' :: (Nat.toDigits 10 n ++ [']']) = (base ++ '[' :: digits) ++ [last, ']'] := by
      rw [hdigits]
      simp
    rw [hsplit]
    exact stripSuffix_brackets (.inl hlast)
  have hbehind : '[' ∉ Nat.toDigits 10 n ++ [']'] := fun hc =>
    (List.mem_append.mp hc).elim (noSpecial_digits n).2 (by decide)
  have hfixed : fixedSuffix (base ++ '[' :: (Nat.toDigits 10 n ++ [']'])) =
      some (base, Nat.toDigits 10 n ++ [']']) := by
    have hclose : (base ++ '[' :: (Nat.toDigits 10 n ++ [']'])).getLast? = some ']' := by
      rw [← List.cons_append, ← List.append_assoc, List.getLast?_concat]
    rw [fixedSuffix, if_pos hclose, splitLast_append hbehind]
  rw [parseTypeStr]
  split
  · rename_i h
    rw [hstrip] at h
    cases h
  · split
    · rename_i h
      rw [hfixed] at h
      obtain ⟨rfl, rfl⟩ := Prod.mk.inj (Option.some.inj h)
      rfl
    · rename_i h
      rw [hfixed] at h
      cases h

theorem stripSuffix_last {t : Text} (h : t.getLast? ≠ some ']') :
    stripSuffix "[]".toList t = none ∧ fixedSuffix t = none := by
  constructor
  · rw [Option.eq_none_iff_forall_not_mem]
    intro base hbase
    refine h ?_
    rw [stripSuffix_eq_some.mp hbase]
    exact List.getLast?_append_of_ne_nil _ (by decide)
  · rw [fixedSuffix, if_neg h]

theorem parseTypeStr_tuple (name : String) (inner : Text) : parseTypeStr name ('(' :: (inner ++ [')'])) =
    .mk name "tuple" ((splitTopLevelParams inner).map fun t => parseTypeStr "" (trim t)) := by
  have hlast : ('(' :: (inner ++ [')'])).getLast? = some ')' := by rw [← List.cons_append, List.getLast?_concat]
  obtain ⟨hstrip, hfixed⟩ := stripSuffix_last (t := '(' :: (inner ++ [')'])) (by rw [hlast]; decide)
  rw [parseTypeStr]
  split
  · rename_i h
    rw [hstrip] at h
    cases h
  · split
    · rename_i h
      rw [hfixed] at h
      cases h
    · rw [dif_pos ⟨rfl, hlast⟩, List.tail_cons, List.dropLast_concat]
      exact congrArg _ (List.attach_map_val (f := fun t => parseTypeStr "" (trim t)))

theorem parseTypeStr_plain (name : String) {t : Text} (h : ∀ c ∈ t, c.isAlphanum = true) :
    parseTypeStr name t = .mk name (String.ofList t) [] := by
  have hlast : t.getLast? ≠ some ']' := by
    intro hlast
    exact alphanum_ne (h ']' (List.mem_of_getLast? hlast)) (by decide) rfl
  obtain ⟨hstrip, hfixed⟩ := stripSuffix_last hlast
  have hopen : ¬(t.head? = some '(' ∧ t.getLast? = some ')') := by
    rintro ⟨hopen, -⟩
    exact alphanum_ne (h '(' (List.mem_of_mem_head? hopen)) (by decide) rfl
  rw [parseTypeStr]
  split
  · rename_i h
    rw [hstrip] at h
    cases h
  · split
    · rename_i h
      rw [hfixed] at h
      cases h
    · rw [dif_neg hopen]

theorem inputOf_plain (name : String) {t : Text} (h : ∀ c ∈ t, c.isAlphanum = true) :
    inputOf (parseTypeStr name t) = .bare (some t) := by
  rw [parseTypeStr_plain name h, inputOf, String.toList_ofList]

theorem inputsOf_parse {ts : List Ty} (h : ∀ t ∈ ts, ∀ name, inputOf (parseTypeStr name (canonicalName t)) = descriptor t) :
    inputsOf ((canonicalNames ts).map fun t => parseTypeStr "" (trim t)) = descriptors ts := by
  induction ts with
  | nil => rfl
  | cons t ts ih =>
    obtain ⟨ht, hts⟩ := List.forall_mem_cons.mp h
    rw [canonicalNames, sdkNames, List.map_cons, inputsOf, ih hts, trim_name, ht, descriptors]

theorem inputOf_parse_tuple (name : String) {ts : List Ty} (hlen : 1 ≤ ts.length)
    (h : ∀ t ∈ ts, ∀ name, inputOf (parseTypeStr name (canonicalName t)) = descriptor t) :
    inputOf (parseTypeStr name (parens (canonicalNames ts))) = .composite (some "tuple".toList) (descriptors ts) := by
  have hinputs := inputsOf_parse h
  rw [parens, parseTypeStr_tuple, splitTopLevelParams_names,
    inputOf_tuple name (descriptors_ne_nil hlen hinputs), hinputs]

/-- **The name of a type is read back** as the descriptor of the type. -/
theorem inputOf_parseTypeStr {t : Ty} (h : t.Compiles = true) : ∀ name,
    inputOf (parseTypeStr name (canonicalName t)) = descriptor t := by
  refine Ty.induction_of_all (motive := fun t => ∀ name,
    inputOf (parseTypeStr name (canonicalName t)) = descriptor t) ?_ ?_ ?_ ?_ ?_ ?_ ?_ ?_ ?_ ?_ t h
  · intro p name
    rw [canonicalName, sdkName, descriptor]
    exact inputOf_plain name (alphanum_prim p)
  · intro _ name
    exact inputOf_plain name (List.all_eq_true.mp (by decide))
  · intro n _ name
    rw [canonicalName, sdkName, descriptor]
    exact inputOf_plain name (alphanum_bytesN n)
  · intro name
    exact inputOf_plain name (List.all_eq_true.mp (by decide))
  · intro name
    exact inputOf_plain name (List.all_eq_true.mp (by decide))
  · intro elem ih name
    rw [canonicalName, sdkName, parseTypeStr_vec, inputOf_addDims, ih, descriptor]
  · intro elem n _ ih name
    rw [canonicalName, sdkName, parseTypeStr_fixed, inputOf_addDims, String.toList_ofList, ih, descriptor]
  · intro elems hlen ih name
    simp only [Ty.compilesHere, Bool.and_eq_true, decide_eq_true_eq] at hlen
    rw [canonicalName, sdkName, descriptor]
    exact inputOf_parse_tuple name hlen.1 ih
  · intro idents fields hlen ih name
    simp only [Ty.compilesHere, decide_eq_true_eq] at hlen
    rw [canonicalName, sdkName, descriptor]
    exact inputOf_parse_tuple name hlen ih
  · intro n _ name
    rw [canonicalName, sdkName, descriptor]
    exact inputOf_plain name (List.all_eq_true.mp (by decide))

end PvmContract.Cli
