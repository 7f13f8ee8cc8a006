import PvmContract.AbiImport.SizeLaws
import PvmContract.Scaffold.ParamLayout

/-!
# The dynamicity predicates

Whether a type is dynamic is asked of the table of declarations, of the ABI JSON file, of
the syntax of the generated Rust type and of its implementation. They agree on every type
of a file exactly where the declared types that are spelled like a built-in type have the
built-in type's place (`predicates_agree_iff`): the syntax is read without resolving
names.
-/

namespace PvmContract.AbiImport

open Data Sol Macros Abi Scaffold PvmContract.Types

namespace AbiFile

/-- The answers for a type that is used in a scope: each is `b`, on a stack that is deep enough. -/
structure Agree (F : AbiFile) (scope : Option SolIdent) (ty : SolidityType) (b : Bool) : Prop where
  /-- `is_abi_dynamic`. -/
  table : ∃ n, ∀ depth ≥ n, F.customTypes.isAbiDynamic depth ty = some b
  /-- `param_is_dynamic`, on the description of the type in the ABI JSON file. -/
  json : ∀ name, ∃ n, ∀ depth ≥ n, ∃ param, F.customTypes.abiParam F.isKeyword depth name ty = some param ∧
    paramIsDynamic (inputOf param) = b
  /-- Without `alloc` the static types are written, and no others. -/
  gate : ∃ n, ∀ depth ≥ n, ∀ r, F.toRustType false depth scope ty = .ok r ↔
    F.toRustType true depth scope ty = .ok r ∧ b = false
  /-- `SolType::is_dynamic` of what is written, when it answers. -/
  folded : ∀ depth r, F.toRustType true depth scope ty = .ok r → ∀ c, (fromRustType r).isDynamic = some c → c = b
  /-- `IS_DYNAMIC` and `SLOT_SIZE` of what is written, and `SolType::head_size`, when it answers. -/
  constants : ∀ depth r, F.toRustType true depth scope ty = .ok r →
    ∀ alloc depth nesting i, F.implOf alloc depth nesting scope r = some i →
      i.codec.isDynamic = b ∧ ∀ n, (fromRustType r).headSize = some n → n = i.codec.slotSize

/-- There is an item for a declared type. -/
def Compiles (F : AbiFile) (d : SolIdent) : Prop :=
  ∃ scope name alloc depth nesting i, F.scopeOf d = some scope ∧ F.itemName d = .ok name ∧
    F.implOf alloc depth nesting scope (.path (.bare name)) = some i

/-- A declared type whose item is spelled like a built-in type is dynamic if that is, and takes one word if
there is an item for it. -/
def NamesFit (F : AbiFile) : Prop :=
  ∀ d β, F.Spelled d β → ∀ depth l, F.customTypes.layout depth (.custom ⟨[], d⟩) = some l →
    β.isDynamic = some l.dynamic ∧ (F.Compiles d → l.words = 1)

variable {F : AbiFile}

theorem NamesFit.dynamicFits (h : F.NamesFit) : F.DynamicFits :=
  fun d β hβ depth l hl => (h d β hβ depth l hl).1

/-- What a path leads to is an item that is found in its own module. -/
theorem compiles_of_lookup {alloc : Bool} {depth nesting : ℕ} {module : Option String} {p : RustPath}
    {d : SolIdent} {i : RustImpl} (h : F.lookup module p = some (.declared d))
    (hi : unroll (F.expandItem alloc depth) nesting d = some i) :
    ∃ scope, F.scopeOf d = some scope ∧ F.itemName d = .ok p.name ∧
      F.implOf alloc depth nesting scope (.path (.bare p.name)) = some i := by
  obtain ⟨-, hname, m, hmodule, hlookup⟩ := item_of_lookup h
  obtain ⟨scope, hscope, hm⟩ := Option.bind_eq_some_iff.mp hmodule
  refine ⟨scope, hscope, hname, ?_⟩
  rw [implOf, hm, Option.bind_some, rustImpl, hlookup]
  exact hi

/-! ### The items, however deep they are nested -/

/-- The items have the constants of their types' places if those that are spelled like built-in types take one
word. -/
theorem declaredFit_of_oneWord (hT : F.customTypes.Legal) (hF : F.DynamicFits) (alloc : Bool) (depth : ℕ)
    (hone : ∀ nesting, F.DeclaredFit (unroll (F.expandItem alloc depth) nesting) →
      F.OneWord (unroll (F.expandItem alloc depth) nesting)) (nesting : ℕ) :
    F.DeclaredFit (unroll (F.expandItem alloc depth) nesting) := by
  induction nesting with
  | zero => nofun
  | succ nesting ih => exact declaredFit_expandItem hT hF ih (hone nesting ih) alloc depth

theorem oneWord_of_namesFit (h : F.NamesFit) (alloc : Bool) (depth nesting : ℕ) :
    F.OneWord (unroll (F.expandItem alloc depth) nesting) := by
  intro module p d i hlookup hi β hβ depth' l hl
  obtain ⟨scope, hscope, hname, himpl⟩ := compiles_of_lookup hlookup hi
  exact (h d β (spelled_of_lookup hlookup hβ) depth' l hl).2
    ⟨scope, p.name, alloc, depth, nesting, i, hscope, hname, himpl⟩

/-! ### Sufficient -/

theorem isAbiDynamic_mono {T : CustomTypes} {n depth : ℕ} (hle : n ≤ depth) {ty : SolidityType} {b : Bool}
    (h : T.isAbiDynamic n ty = some b) : T.isAbiDynamic depth ty = some b := by
  induction hle with
  | refl => exact h
  | step _ ih => exact unroll_succ (isDynamic_mono T) ih

theorem ancestors_nil (T : CustomTypes) (ty : SolidityType) : T.Ancestors [] ty := fun _ hs => by cases hs

/-- The scaffolder's check has an answer on a stack that is deep enough. -/
theorem exists_abiParam {T : CustomTypes} (hT : T.Acyclic) (isKeyword : SolIdent → Bool) (name : String)
    (ty : SolidityType) : ∃ n, ∀ depth ≥ n, ∃ param, T.abiParam isKeyword depth name ty = some param := by
  have hacc := (CustomTypes.acc_calls_iff ty).mpr (CustomTypes.noAliasCycle_of_acyclic hT ty)
  obtain ⟨n, hn⟩ := exists_forall_of_acc (CustomTypes.isSome_typeToAbiParam isKeyword)
    (acc_of_map (f := Prod.snd) (CustomTypes.snd_mem_calls isKeyword) (c := (name, ⟨ty, []⟩)) hacc)
  exact ⟨n, fun depth hdepth => Option.isSome_iff_exists.mp (hn depth hdepth)⟩

/-- The predicates agree where the names fit. -/
theorem agree_of_namesFit (hT : F.customTypes.Legal) (h : F.NamesFit) (scope : Option SolIdent)
    {ty : SolidityType} (hty : F.customTypes.legal ty = true) : ∃ b, F.Agree scope ty b := by
  obtain ⟨n, hn⟩ := CustomTypes.exists_layout hT hty
  obtain ⟨l, hl⟩ := hn n (Nat.le_refl n)
  have htable : ∀ depth ≥ n, F.customTypes.isAbiDynamic depth ty = some l.dynamic := fun depth hdepth =>
    isAbiDynamic_mono hdepth (CustomTypes.isDynamic_of_layout hT.acyclic (ancestors_nil _ ty) hl)
  refine ⟨l.dynamic, ⟨n, htable⟩, fun name => ?_, ⟨n, fun depth hdepth r => ?_⟩, fun depth r hr c hc => ?_,
    fun depth r hr alloc depth' nesting i hi => ?_⟩
  · obtain ⟨k, hk⟩ := exists_abiParam hT.acyclic F.isKeyword name ty
    refine ⟨max n k, fun depth hdepth => ?_⟩
    obtain ⟨param, hparam⟩ := hk depth (Nat.le_trans (Nat.le_max_right n k) hdepth)
    have hle := Nat.le_trans (Nat.le_max_left n k) hdepth
    obtain ⟨l', hl'⟩ := hn depth hle
    refine ⟨param, hparam, ?_⟩
    rw [paramIsDynamic_of_layout hT F.isKeyword (ancestors_nil _ ty) hty hl' hparam]
    have htable' := CustomTypes.isDynamic_of_layout hT.acyclic (ancestors_nil _ ty) hl'
    exact Option.some.inj (htable'.symm.trans (htable depth hle))
  · rw [toRustType_noAlloc_iff, toRustType_alloc_iff, htable depth hdepth, Option.some_inj]
  · exact dynamic_of_fromRustType h.dynamicFits hl (toRustType_alloc_iff.mp hr) hc
  · obtain ⟨module, hscope, hi⟩ := Option.bind_eq_some_iff.mp hi
    have hone := oneWord_of_namesFit h alloc depth'
    have hdecl := declaredFit_of_oneWord hT h.dynamicFits alloc depth' (fun k _ => hone k) nesting
    obtain ⟨hfits, hhead⟩ := fits_of_written hT h.dynamicFits hdecl (hone nesting) hscope hty hl
      (toRustType_alloc_iff.mp hr) hi
    exact ⟨hfits.dynamic, fun k hk => (hhead k hk).trans hfits.slot.symm⟩

/-! ### Necessary -/

/-- A declared type in its own scope. -/
theorem written_of_itemName {d : SolIdent} {scope : Option SolIdent} {name : String}
    (hscope : F.scopeOf d = some scope) (hname : F.itemName d = .ok name) :
    F.Written scope (.custom ⟨[], d⟩) (.path (.bare name)) := by
  refine .custom ⟨.localScope, name, ?_, hname, rfl⟩
  rw [resolve, if_pos]
  rw [contains, hscope]
  exact beq_self_eq_true _

theorem legal_of_layout {T : CustomTypes} {depth : ℕ} {d : SolIdent} {l : HeadLayout}
    (h : T.layout depth (.custom ⟨[], d⟩) = some l) : T.legal (.custom ⟨[], d⟩) = true := by
  cases depth with
  | zero => cases h
  | succ depth =>
    rw [CustomTypes.layout, unroll, CustomTypes.layoutStep] at h
    rw [CustomTypes.legal]
    cases hd : T.get d with
    | none =>
      rw [hd] at h
      cases h
    | some decl => rfl

/-- An item of a type for which the predicates agree. -/
theorem Agree.headSize {d : SolIdent} {scope : Option SolIdent} {b : Bool} (h : F.Agree scope (.custom ⟨[], d⟩) b)
    {name : String} (hscope : F.scopeOf d = some scope) (hname : F.itemName d = .ok name) {β : SolType RustType}
    (hβ : readText name = some β) {alloc : Bool} {depth nesting : ℕ} {i : RustImpl}
    (hi : F.implOf alloc depth nesting scope (.path (.bare name)) = some i) : i.codec.slotSize = 32 := by
  have hr : F.toRustType true 0 scope _ = .ok _ := toRustType_alloc_iff.mpr (written_of_itemName hscope hname)
  refine ((h.constants 0 _ hr alloc depth nesting i hi).2 32 ?_).symm
  rw [fromRustType_path (p := .bare name) hβ]
  exact (readText_cases hβ).2

/-- The names fit where the predicates agree. -/
theorem namesFit_of_agree (hT : F.customTypes.Legal)
    (h : ∀ scope ty, F.customTypes.legal ty = true → ∃ b, F.Agree scope ty b) : F.NamesFit := by
  have hF : F.DynamicFits := by
    rintro d β ⟨scope, name, hscope, hname, hβ⟩ depth l hl
    obtain ⟨b, hb⟩ := h scope _ (legal_of_layout hl)
    obtain ⟨n, hn⟩ := hb.table
    have hlayout : F.customTypes.isAbiDynamic depth (.custom ⟨[], d⟩) = some l.dynamic :=
      CustomTypes.isDynamic_of_layout hT.acyclic (ancestors_nil _ _) hl
    have heq : b = l.dynamic := Option.some.inj ((hn _ (Nat.le_max_left n depth)).symm.trans
      (isAbiDynamic_mono (Nat.le_max_right n depth) hlayout))
    obtain ⟨c, hc⟩ := (readText_cases hβ).1
    have hr : F.toRustType true 0 scope _ = .ok _ := toRustType_alloc_iff.mpr (written_of_itemName hscope hname)
    rw [hc, hb.folded 0 _ hr c (by rw [fromRustType_path (p := .bare name) hβ, hc]), heq]
  have hdecl : ∀ alloc depth nesting, F.DeclaredFit (unroll (F.expandItem alloc depth) nesting) := by
    intro alloc depth nesting
    refine declaredFit_of_oneWord hT hF alloc depth (fun nesting hfit => ?_) nesting
    intro module p d i hlookup hi β hβ depth' l hl
    obtain ⟨scope, hscope, hname, himpl⟩ := compiles_of_lookup hlookup hi
    obtain ⟨b, hb⟩ := h scope _ (legal_of_layout hl)
    have hslot := hb.headSize hscope hname (readText_name (not_mem_itemName hname) hβ) himpl
    rw [(hfit d i hi depth' l hl).slot] at hslot
    omega
  rintro d β hβ depth l hl
  refine ⟨hF d β hβ depth l hl, ?_⟩
  rintro ⟨scope, name, alloc, depth', nesting, i, hscope, hname, hi⟩
  obtain ⟨scope', name', hscope', hname', hβ⟩ := hβ
  obtain rfl := Option.some.inj (hscope.symm.trans hscope')
  obtain rfl := Except.ok.inj (hname.symm.trans hname')
  obtain ⟨b, hb⟩ := h scope _ (legal_of_layout hl)
  have hslot := hb.headSize hscope hname hβ hi
  obtain ⟨module, hmodule, hi⟩ := Option.bind_eq_some_iff.mp hi
  have hlegal := legal_of_layout hl
  rw [CustomTypes.legal] at hlegal
  obtain ⟨decl, hd⟩ := Option.isSome_iff_exists.mp hlegal
  have hnames : F.Names scope ⟨[], d⟩ (.bare name) := by
    cases written_of_itemName hscope hname with
    | custom hp => exact hp
  rcases rustImpl_path hi with hlookup | ⟨d', hlookup, hi⟩
  · cases lookup_of_names hnames hmodule (CustomTypes.mem_names_of_get hd) hlookup
  · obtain rfl := Target.declared.inj (lookup_of_names hnames hmodule (CustomTypes.mem_names_of_get hd) hlookup)
    rw [(hdecl alloc depth' nesting _ i hi depth l hl).slot] at hslot
    omega

/-- **Where the predicates agree**: on every type in every scope, exactly where the names fit. -/
theorem predicates_agree_iff {F : AbiFile} (hF : F.customTypes.Legal) :
    (∀ scope ty, F.customTypes.legal ty = true → ∃ b, F.Agree scope ty b) ↔ F.NamesFit :=
  ⟨namesFit_of_agree hF, fun h scope _ hty => agree_of_namesFit hF h scope hty⟩

/-! ### A struct in a struct -/

section

variable {inner : SolIdent}

theorem nestedNames_nodup (hne : inner ≠ "Outer") : [inner, "Outer"].Nodup := by
  simpa using hne

/-- A struct of a name with a field of `uint256`, and `struct Outer` with a field `s` of that struct. -/
def nestedFile (inner : SolIdent) (hne : inner ≠ "Outer") : AbiFile where
  customTypes := ⟨[(inner, .struct [⟨some "x", .uint (some 256)⟩]),
    ("Outer", .struct [⟨some "s", .custom ⟨[], inner⟩⟩])], nestedNames_nodup hne⟩
  scopeOf d := if d = inner ∨ d = "Outer" then some none else none
  variants _ := 0
  isKeyword _ := false

variable {hne : inner ≠ "Outer"}

theorem nestedFile_get {d : SolIdent} {decl : CustomDef} (h : (nestedFile inner hne).customTypes.get d = some decl) :
    d = inner ∧ decl = .struct [⟨some "x", .uint (some 256)⟩] ∨
      d = "Outer" ∧ decl = .struct [⟨some "s", .custom ⟨[], inner⟩⟩] := by
  rw [CustomTypes.get, nestedFile, List.lookup_cons, List.lookup_cons, List.lookup_nil] at h
  split at h
  · exact .inl ⟨beq_iff_eq.mp ‹_›, (Option.some.inj h).symm⟩
  · split at h
    · exact .inr ⟨beq_iff_eq.mp ‹_›, (Option.some.inj h).symm⟩
    · cases h

theorem nestedFile_refers {a b : SolIdent} (h : (nestedFile inner hne).customTypes.Refers a b) :
    a = "Outer" ∧ b = inner := by
  obtain ⟨ty, hty, path, hpath, rfl⟩ := h
  rw [CustomTypes.typesOf] at hty
  split at hty
  · rename_i hd
    rcases nestedFile_get hd with ⟨-, hdecl⟩ | ⟨rfl, hdecl⟩
    · obtain rfl := CustomDef.struct.inj hdecl
      obtain rfl := List.mem_singleton.mp hty
      cases hpath
    · obtain rfl := CustomDef.struct.inj hdecl
      obtain rfl := List.mem_singleton.mp hty
      obtain rfl := List.mem_singleton.mp hpath
      exact ⟨rfl, rfl⟩
  · rename_i hd
    rcases nestedFile_get hd with ⟨-, hdecl⟩ | ⟨-, hdecl⟩ <;> cases hdecl
  · cases hty

theorem nestedFile_legal (hinner : (nestedFile inner hne).customTypes.legal (.custom ⟨[], inner⟩) = true) :
    (nestedFile inner hne).customTypes.Legal where
  acyclic a h := by
    obtain ⟨b, hfirst, -⟩ := Relation.TransGen.head'_iff.mp h
    obtain ⟨c, -, hlast⟩ := Relation.TransGen.tail'_iff.mp h
    exact hne ((nestedFile_refers hlast).2.symm.trans (nestedFile_refers hfirst).1)
  struct d fields h := by
    rcases nestedFile_get h with ⟨-, hdecl⟩ | ⟨-, hdecl⟩
    · obtain rfl := CustomDef.struct.inj hdecl
      exact ⟨nofun, fun ty hty => by rw [List.mem_singleton.mp hty]; rfl⟩
    · obtain rfl := CustomDef.struct.inj hdecl
      exact ⟨nofun, fun ty hty => by rw [List.mem_singleton.mp hty]; exact hinner⟩
  udt d underlying h := by
    rcases nestedFile_get h with ⟨-, hdecl⟩ | ⟨-, hdecl⟩ <;> cases hdecl

end

/-- `struct Point { uint256 x; }` in `struct Outer { Point s; }`. -/
def pointFile : AbiFile := nestedFile "Point" (by decide)

theorem pointFile_legal : pointFile.customTypes.Legal := nestedFile_legal rfl

/-- No item of the file is spelled like a built-in type. -/
theorem pointFile_namesFit : pointFile.NamesFit := by
  rintro d β ⟨scope, name, hscope, hname, hβ⟩
  have hd : d = "Point" ∨ d = "Outer" := by
    by_contra hother
    have hnone : pointFile.scopeOf d = none := if_neg hother
    rw [hnone] at hscope
    cases hscope
  rcases hd with rfl | rfl
  · obtain rfl : "Point" = name := Except.ok.inj hname
    cases hβ
  · obtain rfl : "Outer" = name := Except.ok.inj hname
    cases hβ

theorem predicates_agree_iff_pointFile :
    pointFile.NamesFit ∧
      ∀ scope ty, pointFile.customTypes.legal ty = true → ∃ b, pointFile.Agree scope ty b :=
  ⟨pointFile_namesFit, (predicates_agree_iff pointFile_legal).mpr pointFile_namesFit⟩

/-- `struct String { uint256 x; }` in `struct Outer { String s; }`. -/
def stringFile : AbiFile := nestedFile "String" (by decide)

theorem stringFile_legal : stringFile.customTypes.Legal := nestedFile_legal rfl

/-- `Outer` has no dynamic component, but its implementation says that it is dynamic: its field is read as
`string`. -/
theorem not_agree_stringFile :
    stringFile.customTypes.Legal ∧ stringFile.customTypes.legal (.custom ⟨[], "Outer"⟩) = true ∧
      stringFile.customTypes.isAbiDynamic 4 (.custom ⟨[], "Outer"⟩) = some false ∧
      (stringFile.implOf true 4 2 none (.path (.bare "Outer"))).map (fun i => i.codec.isDynamic) = some true ∧
      ¬ ∃ b, stringFile.Agree none (.custom ⟨[], "Outer"⟩) b := by
  have htable : stringFile.customTypes.isAbiDynamic 4 (.custom ⟨[], "Outer"⟩) = some false := by decide +kernel
  have himpl : (stringFile.implOf true 4 2 none (.path (.bare "Outer"))).map (fun i => i.codec.isDynamic) =
      some true := by rfl
  refine ⟨stringFile_legal, rfl, htable, himpl, ?_⟩
  rintro ⟨b, hb⟩
  obtain ⟨n, hn⟩ := hb.table
  obtain ⟨i, hi, hdyn⟩ := Option.map_eq_some_iff.mp himpl
  have htrue := (hb.constants 4 _ (by rfl) true 4 2 i hi).1
  have hfalse := isAbiDynamic_mono (Nat.le_max_right n 4) htable
  rw [hn _ (Nat.le_max_left n 4)] at hfalse
  rw [hdyn, Option.some.inj hfalse] at htrue
  cases htrue

end AbiFile

end PvmContract.AbiImport
