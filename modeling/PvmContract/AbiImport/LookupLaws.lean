import PvmContract.AbiImport.Implementations
import PvmContract.AbiImport.TranslationLaws

/-!
# Where the generated names lead

The name of an item begins with no small letter and has no colon, so it is never the name
of a primitive type, and a path to it is read as its name is. A path that is written for a
declared type leads to the item of that type wherever the compiler accepts it
(`lookup_of_names`).
-/

namespace PvmContract.AbiImport

open Data Sol Macros Scaffold

/-! ### Names -/

theorem toNat_toUpper {c : Char} (h : 'a'.val ≤ c.val ∧ c.val ≤ 'z'.val) : c.toUpper.toNat + 32 = c.toNat := by
  have hupper : c.toUpper = ⟨c.val + ('A'.val - 'a'.val), _⟩ := dif_pos h
  rw [hupper]
  have hle : 97 ≤ c.val.toNat := UInt32.le_iff_toNat_le.mp h.1
  have hge : c.val.toNat ≤ 122 := UInt32.le_iff_toNat_le.mp h.2
  have hdiff : ('A'.val - 'a'.val).toNat = 2 ^ 32 - 32 := by decide
  change (c.val + ('A'.val - 'a'.val)).toNat + 32 = c.val.toNat
  rw [UInt32.toNat_add, hdiff]
  omega

theorem isLower_toUpper (c : Char) : c.toUpper.isLower = false := by
  by_cases h : 'a'.val ≤ c.val ∧ c.val ≤ 'z'.val
  · have hnat := toNat_toUpper h
    have hge : c.val.toNat ≤ 122 := UInt32.le_iff_toNat_le.mp h.2
    rw [Bool.eq_false_iff]
    intro hl
    have hle := isLower_iff.mp hl
    change c.toNat ≤ 122 at hge
    omega
  · have hsame : c.toUpper = c := dif_neg h
    rw [hsame, Bool.eq_false_iff]
    intro hl
    have hle := isLower_iff.mp hl
    exact h ⟨UInt32.le_iff_toNat_le.mpr hle.1, UInt32.le_iff_toNat_le.mpr hle.2⟩

/-- The first character of a name in pascal case is no small letter. -/
theorem head_pascalChars (t : Text) : ∀ c ∈ (pascalChars true t).head?, c.isLower = false := by
  induction t with
  | nil => simp [pascalChars]
  | cons c t ih =>
    rw [pascalChars]
    by_cases hc : c = '_'
    · rw [if_pos hc]
      exact ih
    · rw [if_neg hc, if_pos rfl]
      intro d hd
      obtain rfl := Option.some.inj hd
      exact isLower_toUpper c

theorem not_mem_ident {t : Text} (h : isIdent t = true) : ':' ∉ t := by
  cases t with
  | nil => cases h
  | cons c cs =>
    rw [isIdent, Bool.and_eq_true, List.all_eq_true] at h
    intro hmem
    rcases List.mem_cons.mp hmem with rfl | hmem
    · cases h.1
    · have hcolon := h.2 ':' hmem
      cases hcolon

theorem formatIdent_eq_ok {s name : String} (h : formatIdent s = .ok name) :
    name = s ∧ ':' ∉ name.toList := by
  rw [formatIdent] at h
  split at h
  · cases h
  · rename_i cs hs
    split at h
    · rename_i hvalid
      obtain rfl := Except.ok.inj h
      rw [Bool.and_eq_true] at hvalid
      refine ⟨rfl, fun hmem => ?_⟩
      rw [hs] at hmem
      rcases List.mem_cons.mp hmem with hr | hmem
      · cases hr
      · rcases List.mem_cons.mp hmem with hhash | hmem
        · cases hhash
        · exact not_mem_ident hvalid.1 hmem
    · cases h
  · split at h
    · rename_i hvalid
      obtain rfl := Except.ok.inj h
      exact ⟨rfl, not_mem_ident hvalid⟩
    · cases h

namespace AbiFile

variable {F : AbiFile}

theorem not_mem_itemName {d : SolIdent} {name : String} (h : F.itemName d = .ok name) : ':' ∉ name.toList :=
  (formatIdent_eq_ok h).2

theorem head_itemName {d : SolIdent} {name : String} (h : F.itemName d = .ok name) :
    ∀ c ∈ name.toList.head?, c.isLower = false := by
  rw [(formatIdent_eq_ok h).1, toPascalCase, String.toList_ofList]
  exact head_pascalChars _

/-- No item has the name of a primitive type. -/
theorem primitive_itemName {d : SolIdent} {name : String} (h : F.itemName d = .ok name) :
    primitive name = none := by
  have hhead := head_itemName h
  unfold primitive
  split <;> first
    | rfl
    | cases hhead _ rfl

/-! ### Lookup -/

theorem mem_items {module : Option String} {name : String} {d : SolIdent} :
    d ∈ F.items module name ↔
      d ∈ F.customTypes.names ∧ F.moduleOf d = some module ∧ F.itemName d = .ok name := by
  have hname : (F.itemName d).toOption = some name ↔ F.itemName d = .ok name := by
    cases F.itemName d <;> simp [Except.toOption]
  rw [items, List.mem_filter, Bool.and_eq_true, beq_iff_eq, beq_iff_eq, hname]

/-- An item of the module is found unless there is another of its name. -/
theorem firstOf_of_mem {items : List SolIdent} {behind : Option Target} {d : SolIdent} {t : Target}
    (hd : d ∈ items) (h : firstOf items behind = some t) : t = .declared d := by
  match items, hd, h with
  | [name], hd, h =>
    obtain rfl := Option.some.inj h
    rw [List.mem_singleton.mp hd]

theorem firstOf_eq_declared {items : List SolIdent} {behind : Option Target} {d : SolIdent}
    (h : firstOf items behind = some (.declared d)) : items = [d] ∨ behind = some (.declared d) := by
  match items, h with
  | [], h => exact .inr h
  | [name], h =>
    obtain rfl := Target.declared.inj (Option.some.inj h)
    exact .inl rfl

theorem sdk_ne_declared {name : String} {d : SolIdent} :
    (exported name).map Target.ofPrim ≠ some (.declared d) := by
  cases exported name <;> simp [Target.ofPrim]

theorem lookupName_eq_declared {module : Option String} {name : String} {d : SolIdent}
    (h : F.lookupName module name = some (.declared d)) : ∃ m, F.items m name = [d] := by
  have hfile : firstOf (F.items none name) ((exported name).map Target.ofPrim) = some (.declared d) →
      ∃ m, F.items m name = [d] :=
    fun h => (firstOf_eq_declared h).elim (fun h => ⟨none, h⟩) fun h => absurd h sdk_ne_declared
  cases module with
  | none => exact hfile h
  | some m => exact (firstOf_eq_declared h).elim (fun h => ⟨some m, h⟩) hfile

/-- A path that leads to a declared type leads to the only item of its module that has the path's name. -/
theorem lookup_eq_declared {module : Option String} {p : RustPath} {d : SolIdent}
    (h : F.lookup module p = some (.declared d)) : ∃ m, F.items m p.name = [d] := by
  cases p with
  | bare name =>
    rw [lookup] at h
    split at h
    · cases h
    · exact lookupName_eq_declared h
  | inSuper name =>
    have hname : F.lookupName none name = some (.declared d) := h
    exact lookupName_eq_declared hname
  | inModule m name | inSuperModule m name =>
    exact (firstOf_eq_declared h).elim (fun h => ⟨some m, h⟩) nofun
  | string | bytes => cases h

/-- The item that a path leads to. -/
theorem item_of_lookup {module : Option String} {p : RustPath} {d : SolIdent}
    (h : F.lookup module p = some (.declared d)) :
    d ∈ F.customTypes.names ∧ F.itemName d = .ok p.name ∧
      ∃ m, F.moduleOf d = some m ∧ F.lookup m (.bare p.name) = some (.declared d) := by
  obtain ⟨m, hitems⟩ := lookup_eq_declared h
  have hmem : d ∈ F.items m p.name := by rw [hitems]; exact List.mem_singleton_self d
  obtain ⟨hnames, hmodule, hname⟩ := mem_items.mp hmem
  refine ⟨hnames, hname, m, hmodule, ?_⟩
  rw [lookup, primitive_itemName hname]
  cases m with
  | none =>
    change firstOf (F.items none p.name) _ = _
    rw [hitems]
    rfl
  | some m =>
    change firstOf (F.items (some m) p.name) _ = _
    rw [hitems]
    rfl

/-- A bare name that leads to no item leads to a built-in type. -/
theorem lookup_bare {module : Option String} {name : String} {t : Target}
    (h : F.lookup module (.bare name) = some t) : (∃ k, t = .ofPrim k) ∨ ∃ d, t = .declared d := by
  cases t with
  | declared d => exact .inr ⟨d, rfl⟩
  | builtin i =>
    refine .inl ?_
    have hsdk : (exported name).map Target.ofPrim = some (.builtin i) → ∃ k, Target.builtin i = .ofPrim k := by
      intro h
      obtain ⟨k, -, hk⟩ := Option.map_eq_some_iff.mp h
      exact ⟨k, hk.symm⟩
    have hfirst : ∀ items behind, firstOf items behind = some (.builtin i) → behind = some (.builtin i) := by
      intro items behind h
      match items, h with
      | [], h => exact h
      | [_], h => cases h
    rw [lookup] at h
    split at h
    · rename_i k hk
      exact ⟨k, (Option.some.inj h).symm⟩
    · cases module with
      | none => exact hsdk (hfirst _ _ h)
      | some m => exact hsdk (hfirst _ _ (hfirst _ _ h))

/-! ### Paths to declared types -/

variable {scope : Option SolIdent} {path : SolPath} {p : RustPath}

/-- Where the item for a declared type is, and how it is called. -/
theorem item_of_names (h : F.Names scope path p) :
    F.itemName path.last = .ok p.name ∧ ∃ s, F.scopeOf path.last = some s := by
  obtain ⟨resolution, name, hres, hname, hp⟩ := h
  have hpname : p.name = name := by
    cases resolution with
    | localScope | topLevel =>
      obtain rfl := Except.ok.inj hp
      rfl
    | qualified ns fromInterface =>
      obtain ⟨m, -, hp⟩ := ok_of_bind hp
      split at hp <;>
        · obtain rfl := Except.ok.inj hp
          rfl
  refine ⟨hpname ▸ hname, ?_⟩
  rw [resolve] at hres
  have hcontains : ∀ ns, F.contains ns path.last = true → ∃ s, F.scopeOf path.last = some s :=
    fun ns h => ⟨ns, beq_iff_eq.mp h⟩
  split at hres
  · split_ifs at hres with h1 h2
    · exact hcontains _ h1
    · exact hcontains _ ((Bool.and_eq_true _ _).mp h2).2
  · split_ifs at hres with h1
    exact hcontains _ h1
  · cases hres

/-- **A path that is written for a declared type leads to its item**, from the scope's module. -/
theorem lookup_of_names (h : F.Names scope path p) {module : Option String} (hscope : F.scopeModule scope = some module)
    (hnames : path.last ∈ F.customTypes.names) {t : Target} (ht : F.lookup module p = some t) :
    t = .declared path.last := by
  obtain ⟨resolution, name, hres, hname, hp⟩ := h
  have hmem : ∀ s m, F.contains s path.last = true → F.scopeModule s = some m → path.last ∈ F.items m name := by
    intro s m hs hm
    refine mem_items.mpr ⟨hnames, ?_, hname⟩
    rw [moduleOf, beq_iff_eq.mp hs]
    exact hm
  -- What the path is, by how the name was resolved.
  rw [resolve] at hres
  split at hres
  · split_ifs at hres with h1 h2
    · obtain rfl := Except.ok.inj hres
      obtain rfl := Except.ok.inj hp
      rw [lookup, primitive_itemName hname] at ht
      cases module with
      | none => exact firstOf_of_mem (hmem _ _ h1 hscope) ht
      | some m => exact firstOf_of_mem (hmem _ _ h1 hscope) ht
    · obtain rfl := Except.ok.inj hres
      obtain rfl := Except.ok.inj hp
      exact firstOf_of_mem (hmem none none ((Bool.and_eq_true _ _).mp h2).2 rfl) ht
  · rename_i ns hscopes
    split_ifs at hres with h1
    obtain rfl := Except.ok.inj hres
    obtain ⟨m, hm, hp⟩ := ok_of_bind hp
    have hmodule : F.scopeModule (some ns) = some (some m) := by rw [scopeModule, hm]; rfl
    split at hp <;>
      · obtain rfl := Except.ok.inj hp
        exact firstOf_of_mem (hmem _ _ h1 hmodule) ht
  · cases hres

end AbiFile

end PvmContract.AbiImport
