import PvmContract.AbiImport.LookupLaws
import PvmContract.Macros.DeriveLaws
import PvmContract.Sol.TypeLayout

/-!
# The constants of the generated types

What the macros read off a generated type and what its implementation says, compared with
the place of the Solidity type in a head. Both are right where each declared type whose
item is spelled like a built-in type has the built-in type's place (`DynamicFits`,
`OneWord`): for the syntax by induction on the type (`dynamic_of_fromRustType`), for the
implementations by induction on the type inside an induction on how deep the declared
types are nested (`fits_of_written`, `fits_expandItem`).
-/

namespace PvmContract.AbiImport

open Data Sol Macros Abi PvmContract.Types

/-- The constants of an implementation are those of a place. -/
structure Fits (l : HeadLayout) (c : SolCodec) : Prop where
  dynamic : c.isDynamic = l.dynamic
  slot : c.slotSize = 32 * l.words

theorem fits_prim (k : Prim) : Fits .word k.impl := by cases k <;> exact ⟨rfl, rfl⟩

theorem fits_array {l : HeadLayout} {c : SolCodec} (h : Fits l c) (n : ℕ) : Fits (l.repeated n) (Types.array c n) := by
  refine ⟨h.dynamic.trans (HeadLayout.repeated_dynamic l n).symm, ?_⟩
  change (if c.isDynamic then 32 else c.slotSize * n) = _
  rw [HeadLayout.repeated_words, h.dynamic, h.slot]
  split
  · rfl
  · rw [Nat.mul_assoc]

section

variable {ls : List HeadLayout} {cs : List SolCodec} (h : List.Forall₂ Fits ls cs)

include h

theorem any_isDynamic_fits : cs.any SolCodec.isDynamic = ls.any HeadLayout.dynamic := by
  induction h with
  | nil => rfl
  | cons hl _ ih => rw [List.any_cons, List.any_cons, hl.dynamic, ih]

theorem tupleHeadSize_fits : tupleHeadSize cs = 32 * (ls.map HeadLayout.words).sum := by
  induction h with
  | nil => rfl
  | cons hl _ ih => rw [tupleHeadSize_cons, hl.slot, ih, List.map_cons, List.sum_cons, Nat.mul_add]

theorem fits_tuple : Fits (.joined ls) (Types.tuple cs) := by
  have hany := any_isDynamic_fits h
  refine ⟨hany.trans (HeadLayout.joined_dynamic ls).symm, ?_⟩
  change (if cs.any SolCodec.isDynamic then 32 else tupleHeadSize cs) = _
  rw [HeadLayout.joined_words, hany, tupleHeadSize_fits h]
  split <;> rfl

end

/-- A struct has the constants of the tuple of its fields where the macros read the fields' sizes right. -/
theorem fits_struct (idents : List (Option String)) {ls : List HeadLayout} {fs : List Field}
    (hfolds : ∀ f ∈ fs, f.Folds) (h : List.Forall₂ Fits ls (implOf fs)) :
    Fits (.joined ls) (expandSolType idents fs) := by
  have htuple := fits_tuple h
  exact ⟨(isDynamic_expandSolType idents hfolds).trans htuple.dynamic,
    (slotSize_expandSolType idents hfolds).trans htuple.slot⟩

/-! ### Syntax -/

namespace AbiFile

variable {F : AbiFile} {scope : Option SolIdent}

/-- The item of a declared type is spelled like a built-in type. -/
def Spelled (F : AbiFile) (d : SolIdent) (β : SolType RustType) : Prop :=
  ∃ scope name, F.scopeOf d = some scope ∧ F.itemName d = .ok name ∧ readText name = some β

/-- A type that is spelled like a built-in type is dynamic if that is. -/
def DynamicFits (F : AbiFile) : Prop :=
  ∀ d β, F.Spelled d β → ∀ depth l, F.customTypes.layout depth (.custom ⟨[], d⟩) = some l →
    β.isDynamic = some l.dynamic

theorem layout_custom (T : CustomTypes) (depth : ℕ) (path : SolPath) :
    T.layout depth (.custom path) = T.layout depth (.custom ⟨[], path.last⟩) := by
  cases depth <;> rfl

theorem spelled_of_names {path : SolPath} {p : RustPath} (h : F.Names scope path p) {β : SolType RustType}
    (hβ : readText p.text = some β) : F.Spelled path.last β := by
  obtain ⟨hname, s, hs⟩ := item_of_names h
  exact ⟨s, p.name, hs, hname, readText_name (not_mem_itemName hname) hβ⟩

/-- The first letter of an integer type of a width. -/
theorem head_intIdent (letter : String) {size : Option ℕ} (h : size.getD 256 ≠ 256) :
    (intIdent letter size).toList = letter.toList ++ Nat.toDigits 10 (size.getD 256) := by
  rw [intIdent, if_neg h, String.toList_append, Nat.toString_eq_ofList_toDigits, String.toList_ofList]

/-- An item that is named like an integer type is named like one of 256 bits. -/
theorem readText_intIdent {letter : String} (hletter : letter = "i" ∨ letter = "u") {size : Option ℕ} {d : SolIdent}
    (h : F.itemName d = .ok (intIdent letter size)) :
    ∃ β : SolType RustType, readText (intIdent letter size) = some β ∧ β.isDynamic = some false := by
  by_cases hsize : size.getD 256 = 256
  · rw [intIdent, if_pos hsize, hsize]
    rcases hletter with rfl | rfl
    · exact ⟨.int 256, rfl, rfl⟩
    · exact ⟨.uint 256, rfl, rfl⟩
  · have hhead := head_itemName h
    rw [head_intIdent _ hsize] at hhead
    rcases hletter with rfl | rfl <;> cases hhead _ rfl

/-- The text of an integer type is no text of a dynamic type. -/
theorem static_intIdent {letter : String} (hletter : letter = "i" ∨ letter = "u") (size : Option ℕ)
    {β : SolType RustType} (h : readText (intIdent letter size) = some β) : β.isDynamic = some false := by
  obtain ⟨⟨b, hb⟩, -⟩ := readText_cases h
  cases b with
  | false => exact hb
  | true =>
    have hmem := text_of_dynamic h hb
    have hhead : ∀ s : String, intIdent letter size = s → s.toList.head? ∈ [some 'i', some 'I', some 'u', some 'U'] := by
      rintro s rfl
      rw [intIdent]
      rcases hletter with rfl | rfl <;> split <;> rw [String.toList_append] <;> first
        | exact .head _
        | exact .tail _ (.head _)
        | exact .tail _ (.tail _ (.head _))
        | exact .tail _ (.tail _ (.tail _ (.head _)))
    simp only [List.mem_cons, List.not_mem_nil, or_false] at hmem
    rcases hmem with h | h | h | h | h | h | h <;> exact absurd (hhead _ h) (by decide)

/-- A path that is read as a built-in type. -/
theorem fromRustType_path {p : RustPath} {β : SolType RustType} (h : readText p.text = some β) :
    fromRustType (.path p) = β := by
  rw [fromRustType, h]
  rfl

/-- A path that is read as no built-in type. -/
theorem fromRustType_custom {p : RustPath} (h : readText p.text = (none : Option (SolType RustType))) :
    fromRustType (.path p) = .custom (.path p) := by
  rw [fromRustType, h]
  rfl

/-- What the arguments of a tuple are put together to. -/
theorem fromRustType_ofArgs (args : List RustType) :
    fromRustType (.ofArgs args) = .tuple (args.map fromRustType) ∨ ∃ elem, args = [elem] ∧
      fromRustType (.ofArgs args) = .custom (.paren elem) := by
  match args with
  | [elem] => exact .inr ⟨elem, rfl, by rw [RustType.ofArgs, fromRustType]⟩
  | [] => exact .inl (by rw [RustType.ofArgs, fromRustType, fromRustTypes_eq_map]; nofun)
  | a :: b :: args => exact .inl (by rw [RustType.ofArgs, fromRustType, fromRustTypes_eq_map]; nofun)

/-- An array is read as `bytesN` or as an array of a fixed length. -/
theorem fromRustType_array (elem : RustType) (n : ℕ) :
    (fromRustType elem = .uint 8 ∧ fromRustType (.array elem n) = .bytes n) ∨
      fromRustType (.array elem n) = .fixedArray (fromRustType elem) n := by
  rw [fromRustType]
  split
  · exact .inl ⟨‹_›, rfl⟩
  · exact .inr rfl

/-! ### Bytes -/

/-- The literal `u8` is read as `uint8`; in parentheses it is read as no built-in type. -/
theorem fromRustType_of_isU8 {r : RustType} (h : isU8 r = true) :
    fromRustType r = .uint 8 ∨ (fromRustType r).isDynamic = none := by
  cases r with
  | path p =>
    obtain rfl := beq_iff_eq.mp h
    exact .inl rfl
  | paren elem => exact .inr rfl
  | _ => cases h

/-- Only the literal `u8` is read as `uint8`. -/
theorem isU8_of_fromRustType {r : RustType} (h : fromRustType r = .uint 8) : isU8 r = true := by
  cases r with
  | path p =>
    have hread : readText p.text = some (.uint 8 : SolType RustType) := by
      cases hread : readText p.text with
      | none =>
        rw [fromRustType_custom hread] at h
        cases h
      | some β => rw [← fromRustType_path hread, h]
    have htext := text_of_u8 hread
    have hcolon : ':' ∉ p.text.toList := by rw [htext]; decide
    cases p with
    | bare name =>
      obtain rfl : name = "u8" := htext
      rfl
    | _ => simp [RustPath.text] at hcolon
  | array elem n =>
    rcases fromRustType_array elem n with ⟨-, h'⟩ | h' <;>
      · rw [h'] at h
        cases h
  | _ =>
    rw [fromRustType] at h
    cases h

/-- `uint8` is the only unsigned type that is written `u8`. -/
theorem intIdent_eq_u8_iff {size : Option ℕ} : intIdent "u" size = "u8" ↔ size = some 8 := by
  constructor
  · intro htext
    by_cases hsize : size.getD 256 = 256
    · rw [intIdent, if_pos hsize, hsize] at htext
      exact absurd htext (by decide)
    · have hlist := head_intIdent "u" hsize
      rw [htext] at hlist
      have hdigits : Nat.toDigits 10 (size.getD 256) = Nat.toDigits 10 8 := (List.cons.inj hlist).2.symm
      have heq := congrArg (Nat.ofDigitChars 10 · 0) hdigits
      simp only [Nat.ofDigitChars_ten_toDigits] at heq
      cases size with
      | none => cases heq
      | some n => exact congrArg some heq
  · rintro rfl
    rfl

theorem intIdent_ne_u8 (size : Option ℕ) : intIdent "i" size ≠ "u8" := by
  intro htext
  by_cases hsize : size.getD 256 = 256
  · rw [intIdent, if_pos hsize, hsize] at htext
    exact absurd htext (by decide)
  · have hlist := head_intIdent "i" hsize
    rw [htext] at hlist
    cases (List.cons.inj hlist).1

/-- The literal `u8` is written for `uint8` alone. -/
theorem isU8_of_written {ty : SolidityType} {r : RustType} (h : F.Written scope ty r) : isU8 r = isByte ty := by
  induction ty using SolidityType.induction_on generalizing r with
  | uint size =>
    cases h
    simp [isU8, isByte, intIdent_eq_u8_iff]
  | int size =>
    cases h
    simp [isU8, isByte, intIdent_ne_u8]
  | tuple types ih =>
    cases h with
    | tuple hargs =>
      match types, hargs with
      | [], .nil => rfl
      | [ty], .cons harg .nil =>
        change isU8 (.paren _) = _
        rw [isU8, isByte]
        exact ih ty (by simp) harg
      | _ :: _ :: _, .cons _ (.cons _ _) => rfl
  | custom path =>
    cases h with
    | @custom _ p hp =>
      have hne : p ≠ .bare "u8" := by
        rintro rfl
        cases head_itemName (item_of_names hp).1 _ rfl
      simpa [isU8, isByte] using hne
  | array ty size ih => cases h <;> rfl
  | function text | mapping text => cases h
  | _ =>
    cases h
    rfl

/-- A list whose components are read right. -/
theorem anyDynamic_eq {types : List (SolType RustType)} {ls : List HeadLayout}
    (h : List.Forall₂ (fun ty l => ∀ b, ty.isDynamic = some b → b = l.dynamic) types ls) {b : Bool}
    (hb : SolType.anyDynamic types = some b) : b = ls.any HeadLayout.dynamic := by
  induction h generalizing b with
  | nil => exact (Option.some.inj hb).symm
  | cons hhead _ ih =>
    obtain ⟨c, hc, hb⟩ := Option.bind_eq_some_iff.mp hb
    obtain ⟨d, hd, hb⟩ := Option.bind_eq_some_iff.mp hb
    rw [← Option.some.inj hb, hhead c hc, ih hd, List.any_cons]

theorem headSizes_eq {types : List (SolType RustType)} {ls : List HeadLayout}
    (h : List.Forall₂ (fun ty l => ∀ n, ty.headSize = some n → n = 32 * l.words) types ls) {n : ℕ}
    (hn : SolType.headSizes types = some n) : n = 32 * (ls.map HeadLayout.words).sum := by
  induction h generalizing n with
  | nil => exact (Option.some.inj hn).symm
  | cons hhead _ ih =>
    obtain ⟨c, hc, hn⟩ := Option.bind_eq_some_iff.mp hn
    obtain ⟨d, hd, hn⟩ := Option.bind_eq_some_iff.mp hn
    rw [← Option.some.inj hn, hhead c hc, ih hd, List.map_cons, List.sum_cons, Nat.mul_add]

/-- **What the macros read off a generated type** says whether the Solidity type is dynamic. -/
theorem dynamic_of_fromRustType (hF : F.DynamicFits) {depth : ℕ} {ty : SolidityType} {l : HeadLayout}
    (hl : F.customTypes.layout depth ty = some l) {r : RustType} (h : F.Written scope ty r) {b : Bool}
    (hb : (fromRustType r).isDynamic = some b) : b = l.dynamic := by
  induction ty using SolidityType.induction_on generalizing depth l r b with
  | address | bool | fixedBytes size =>
    cases h
    rw [CustomTypes.layout_valueType rfl hl]
    exact (Option.some.inj hb).symm
  | string | bytes =>
    cases h
    cases depth with
    | zero => cases hl
    | succ depth =>
      rw [← Option.some.inj hl]
      exact (Option.some.inj hb).symm
  | int size | uint size =>
    cases h
    rw [CustomTypes.layout_valueType rfl hl]
    cases hread : readText (RustPath.bare (intIdent _ size)).text with
    | none =>
      rw [fromRustType_custom hread] at hb
      cases hb
    | some β =>
      rw [fromRustType_path hread, static_intIdent (by simp) size hread] at hb
      exact (Option.some.inj hb).symm
  | array ty size ih =>
    cases depth with
    | zero => cases hl
    | succ depth =>
      cases h with
      | unsized helem =>
        rw [← Option.some.inj hl]
        rw [fromRustType] at hb
        exact (Option.some.inj hb).symm
      | @sized _ elem n helem =>
        obtain ⟨l', hl', hl⟩ := Option.bind_eq_some_iff.mp hl
        obtain rfl := Option.some.inj hl
        rw [CustomTypes.sized_dynamic hl']
        rcases fromRustType_array elem n with ⟨hbyte, harray⟩ | harray
        · rw [harray] at hb
          obtain rfl := Option.some.inj hb
          exact ih hl' helem (by rw [hbyte]; rfl)
        · rw [harray] at hb
          exact ih hl' helem hb
  | tuple types ih =>
    cases depth with
    | zero => cases hl
    | succ depth =>
      cases h with
      | @tuple _ args hargs =>
        obtain ⟨ls, hls, hjoined⟩ := Option.bind_eq_some_iff.mp hl
        obtain rfl := Option.some.inj hjoined
        rw [HeadLayout.joined_dynamic]
        rcases fromRustType_ofArgs args with htuple | ⟨elem, -, hparen⟩
        · rw [htuple] at hb
          refine anyDynamic_eq ?_ hb
          rw [List.forall₂_map_left_iff]
          exact forall₂_of_common hargs (mapM_eq_some_iff.mp hls) fun ty hty r l' hr hl' b hb => ih ty hty hl' hr hb
        · rw [hparen] at hb
          cases hb
  | custom path =>
    cases h with
    | @custom _ p hp =>
      cases hread : readText p.text with
      | none =>
        rw [fromRustType_custom hread] at hb
        cases hb
      | some β =>
        rw [fromRustType_path hread] at hb
        have hβ := hF _ β (spelled_of_names hp hread) depth l (by rw [← layout_custom, hl])
        exact Option.some.inj (hb.symm.trans hβ)
  | function text | mapping text => cases h

/-! ### Implementations -/

variable {declared : SolIdent → Option RustImpl} {module : Option String}

/-- The items have the constants of the places of their types. -/
def DeclaredFit (F : AbiFile) (declared : SolIdent → Option RustImpl) : Prop :=
  ∀ d i, declared d = some i → ∀ depth l, F.customTypes.layout depth (.custom ⟨[], d⟩) = some l → Fits l i.codec

/-- An item that a path leads to and that is read as a built-in type is one word. -/
def OneWord (F : AbiFile) (declared : SolIdent → Option RustImpl) : Prop :=
  ∀ module p d i, F.lookup module p = some (.declared d) → declared d = some i →
    ∀ β : SolType RustType, readText p.text = some β →
      ∀ depth l, F.customTypes.layout depth (.custom ⟨[], d⟩) = some l → l.words = 1

theorem get_of_mem_names {T : CustomTypes} {d : SolIdent} (h : d ∈ T.names) : (T.get d).isSome = true := by
  rw [CustomTypes.names] at h
  rw [CustomTypes.get]
  generalize T.defs = defs at h ⊢
  induction defs with
  | nil => cases h
  | cons e defs ih =>
    rw [List.lookup_cons]
    cases he : d == e.1 with
    | true => rfl
    | false =>
      rw [List.map_cons, List.mem_cons] at h
      refine ih (h.resolve_left ?_)
      rintro rfl
      simp at he

/-- The item that a path leads to is spelled as the path is. -/
theorem spelled_of_lookup {p : RustPath} {d : SolIdent} (h : F.lookup module p = some (.declared d))
    {β : SolType RustType} (hβ : readText p.text = some β) : F.Spelled d β := by
  obtain ⟨-, hname, m, hmodule, -⟩ := item_of_lookup h
  obtain ⟨s, hs, -⟩ := Option.bind_eq_some_iff.mp hmodule
  exact ⟨s, p.name, hs, hname, readText_name (not_mem_itemName hname) hβ⟩

theorem rustImpl_path {p : RustPath} {i : RustImpl} (h : F.rustImpl declared module (.path p) = some i) :
    F.lookup module p = some (.builtin i) ∨ ∃ d, F.lookup module p = some (.declared d) ∧ declared d = some i := by
  rw [rustImpl] at h
  split at h
  · cases h
  · rename_i impl hlookup
    rw [← Option.some.inj h]
    exact .inl hlookup
  · rename_i d hlookup
    exact .inr ⟨d, hlookup, h⟩

theorem headSize_path {p : RustPath} {n : ℕ} (h : (fromRustType (.path p)).headSize = some n) :
    n = 32 ∧ ∃ β : SolType RustType, readText p.text = some β := by
  cases hread : readText p.text with
  | none =>
    rw [fromRustType_custom hread] at h
    cases h
  | some β =>
    rw [fromRustType_path hread, (readText_cases hread).2] at h
    exact ⟨(Option.some.inj h).symm, β, rfl⟩

theorem rustImpls_eq_some_iff {args : List RustType} {is : List RustImpl} :
    F.rustImpls declared module args = some is ↔
      List.Forall₂ (fun r i => F.rustImpl declared module r = some i) args is := by
  induction args generalizing is with
  | nil =>
    rw [rustImpls, List.forall₂_nil_left_iff]
    exact Option.some_inj.trans eq_comm
  | cons r args ih =>
    rw [rustImpls]
    constructor
    · intro h
      split at h
      · rename_i i hi
        obtain ⟨is', his, rfl⟩ := Option.map_eq_some_iff.mp h
        exact .cons hi (ih.mp his)
      · cases h
    · rintro (_ | ⟨hi, his⟩)
      rw [hi]
      dsimp only
      rw [ih.mpr his]
      rfl

/-- The components of a tuple together. -/
theorem fits_of_components {types : List SolidityType} {args : List RustType} {ls : List HeadLayout}
    {is : List RustImpl} {place : SolidityType → Option HeadLayout}
    (hargs : List.Forall₂ (F.Written scope) types args)
    (hls : List.Forall₂ (fun ty l => place ty = some l) types ls)
    (his : List.Forall₂ (fun r i => F.rustImpl declared module r = some i) args is)
    (h : ∀ ty ∈ types, ∀ r l i, F.Written scope ty r → place ty = some l →
      F.rustImpl declared module r = some i →
      Fits l i.codec ∧ ∀ n, (fromRustType r).headSize = some n → n = 32 * l.words) :
    List.Forall₂ Fits ls (is.map RustImpl.codec) ∧
      List.Forall₂ (fun ty l => ∀ n, SolType.headSize ty = some n → n = 32 * l.words)
        (args.map fromRustType) ls := by
  induction hargs generalizing ls is with
  | nil =>
    cases hls
    cases his
    exact ⟨.nil, .nil⟩
  | cons hr _ ih =>
    cases hls with
    | cons hl hls =>
      cases his with
      | cons hi his =>
        obtain ⟨hfits, hhead⟩ := h _ (by simp) _ _ _ hr hl hi
        obtain ⟨hfits', hheads⟩ := ih hls his fun ty hty => h ty (by simp [hty])
        exact ⟨.cons hfits hfits', .cons hhead hheads⟩

/-- What the macros read off an array of bytes. -/
theorem headSize_bytes {elem : RustType} (h : isU8 elem = true) {n k : ℕ}
    (hk : (fromRustType (.array elem n)).headSize = some k) : k = 32 := by
  rcases fromRustType_array elem n with ⟨-, harray⟩ | harray
  · rw [harray] at hk
    exact (Option.some.inj hk).symm
  · rcases fromRustType_of_isU8 h with hbyte | hcustom
    · rw [fromRustType, hbyte] at harray
      cases harray
    · rw [harray, SolType.headSize, hcustom] at hk
      cases hk

/-- What the macros read off an array of other types. -/
theorem headSize_repeated {elem : RustType} (h : ¬ isU8 elem = true) {l : HeadLayout}
    (hdyn : ∀ b, (fromRustType elem).isDynamic = some b → b = l.dynamic)
    (hhead : ∀ n, (fromRustType elem).headSize = some n → n = 32 * l.words) {n k : ℕ}
    (hk : (fromRustType (.array elem n)).headSize = some k) : k = 32 * (l.repeated n).words := by
  rcases fromRustType_array elem n with ⟨hbyte, -⟩ | harray
  · exact absurd (isU8_of_fromRustType hbyte) h
  · rw [harray, SolType.headSize] at hk
    obtain ⟨b, hb, hk⟩ := Option.bind_eq_some_iff.mp hk
    rw [HeadLayout.repeated_words, ← hdyn b hb]
    cases b with
    | true => exact (Option.some.inj hk).symm
    | false =>
      obtain ⟨m, hm, hk⟩ := Option.bind_eq_some_iff.mp hk
      rw [← Option.some.inj hk, hhead m hm, Nat.mul_assoc]
      rfl

/-- What the macros read off a tuple. -/
theorem headSize_joined {types : List (SolType RustType)} {ls : List HeadLayout}
    (hdyn : ∀ b, (SolType.tuple types).isDynamic = some b → b = (HeadLayout.joined ls).dynamic)
    (hheads : List.Forall₂ (fun ty l => ∀ n, SolType.headSize ty = some n → n = 32 * l.words) types ls) {k : ℕ}
    (hk : (SolType.tuple types).headSize = some k) : k = 32 * (HeadLayout.joined ls).words := by
  rw [SolType.headSize] at hk
  obtain ⟨b, hb, hk⟩ := Option.bind_eq_some_iff.mp hk
  have hb' := hdyn b hb
  rw [HeadLayout.joined_dynamic] at hb'
  rw [HeadLayout.joined_words, ← hb']
  cases b with
  | true => exact (Option.some.inj hk).symm
  | false => exact headSizes_eq hheads hk

/-- A tuple of two components or more. -/
theorem fits_of_tuple {types : List SolidityType} {r r' : RustType} {args : List RustType} {ls : List HeadLayout}
    {i : RustImpl} {place : SolidityType → Option HeadLayout}
    (hargs : List.Forall₂ (F.Written scope) types (r :: r' :: args))
    (hls : List.Forall₂ (fun ty l => place ty = some l) types ls)
    (h : ∀ ty ∈ types, ∀ r l i, F.Written scope ty r → place ty = some l →
      F.rustImpl declared module r = some i →
      Fits l i.codec ∧ ∀ n, (fromRustType r).headSize = some n → n = 32 * l.words)
    (hdyn : ∀ b, (fromRustType (.ofArgs (r :: r' :: args))).isDynamic = some b → b = (HeadLayout.joined ls).dynamic)
    (hi : F.rustImpl declared module (.ofArgs (r :: r' :: args)) = some i) :
    Fits (.joined ls) i.codec ∧
      ∀ n, (fromRustType (.ofArgs (r :: r' :: args))).headSize = some n → n = 32 * (HeadLayout.joined ls).words := by
  change F.rustImpl declared module (.tuple (r :: r' :: args)) = some i at hi
  change ∀ b, (fromRustType (.tuple (r :: r' :: args))).isDynamic = some b → _ at hdyn
  change _ ∧ ∀ n, (fromRustType (.tuple (r :: r' :: args))).headSize = some n → _
  rw [fromRustType, fromRustTypes_eq_map] at hdyn ⊢
  rw [rustImpl] at hi
  split at hi
  · cases hi
  · rename_i his
    cases rustImpls_eq_some_iff.mp his
  · rename_i is _ his
    split_ifs at hi
    obtain rfl := Option.some.inj hi
    obtain ⟨hfits, hheads⟩ := fits_of_components hargs hls (rustImpls_eq_some_iff.mp his) h
    exact ⟨fits_tuple hfits, fun k => headSize_joined hdyn hheads⟩

/-- An array of a fixed length, once its elements are known. -/
theorem fits_of_sized {ty : SolidityType} {elem : RustType} {n : ℕ} (helem : F.Written scope ty elem) {l : HeadLayout}
    (hdyn : ∀ b, (fromRustType elem).isDynamic = some b → b = l.dynamic)
    (h : ∀ {i : RustImpl}, F.rustImpl declared module elem = some i →
      Fits l i.codec ∧ ∀ n, (fromRustType elem).headSize = some n → n = 32 * l.words)
    {i : RustImpl} (hi : F.rustImpl declared module (.array elem n) = some i) :
    Fits (if isByte ty then .word else l.repeated n) i.codec ∧
      ∀ k, (fromRustType (.array elem n)).headSize = some k →
        k = 32 * (if isByte ty then HeadLayout.word else l.repeated n).words := by
  rw [rustImpl, isU8_of_written helem] at hi
  by_cases hbyte : isByte ty = true
  · rw [if_pos hbyte] at hi ⊢
    split_ifs at hi
    obtain rfl := Option.some.inj hi
    exact ⟨⟨rfl, rfl⟩, fun k hk => headSize_bytes ((isU8_of_written helem).trans hbyte) hk⟩
  · rw [if_neg hbyte] at hi ⊢
    split at hi
    · rename_i i' hi'
      split_ifs at hi
      obtain rfl := Option.some.inj hi
      obtain ⟨hfits, hhead⟩ := h hi'
      have hnot : ¬ isU8 elem = true := by rwa [isU8_of_written helem]
      exact ⟨fits_array hfits n, fun k hk => headSize_repeated hnot hdyn hhead hk⟩
    · cases hi

/-- A name that is written for a declared type. -/
theorem fits_of_names (hdecl : F.DeclaredFit declared) (hone : F.OneWord declared)
    (hscope : F.scopeModule scope = some module) {path : SolPath} {p : RustPath} (hp : F.Names scope path p)
    {depth : ℕ} {l : HeadLayout} (hty : F.customTypes.legal (.custom path) = true)
    (hl : F.customTypes.layout depth (.custom path) = some l) {i : RustImpl}
    (hi : F.rustImpl declared module (.path p) = some i) :
    Fits l i.codec ∧ ∀ n, (fromRustType (.path p)).headSize = some n → n = 32 * l.words := by
  rw [CustomTypes.legal] at hty
  have hnames : path.last ∈ F.customTypes.names := by
    obtain ⟨d, hd⟩ := Option.isSome_iff_exists.mp hty
    exact CustomTypes.mem_names_of_get hd
  rcases rustImpl_path hi with hlookup | ⟨d, hlookup, hd⟩
  · cases lookup_of_names hp hscope hnames hlookup
  · obtain rfl := Target.declared.inj (lookup_of_names hp hscope hnames hlookup)
    rw [layout_custom] at hl
    refine ⟨hdecl _ i hd depth l hl, fun n hn => ?_⟩
    obtain ⟨rfl, β, hβ⟩ := headSize_path hn
    rw [hone module p _ i hlookup hd β hβ depth l hl]

section

variable (hT : F.customTypes.Legal) (hF : F.DynamicFits) (hdecl : F.DeclaredFit declared)
  (hone : F.OneWord declared)

include hT hF hdecl hone

/-- A name of a type of one word: whatever it leads to is one word. -/
theorem fits_word {name : String} {i : RustImpl}
    (hname : ∀ d, F.itemName d = .ok name → ∃ β : SolType RustType, readText name = some β ∧
      β.isDynamic = some false)
    (h : F.rustImpl declared module (.path (.bare name)) = some i) : Fits .word i.codec := by
  rcases rustImpl_path h with hlookup | ⟨d, hlookup, hd⟩
  · rcases lookup_bare hlookup with ⟨k, hk⟩ | ⟨d, hd⟩
    · obtain rfl := Target.builtin.inj hk
      exact fits_prim k
    · cases hd
  -- An item of the file that stands in front of the built-in type.
  · obtain ⟨hnames, hitem, -⟩ := item_of_lookup hlookup
    obtain ⟨β, hβ, hstatic⟩ := hname d hitem
    have hlegal : F.customTypes.legal (.custom ⟨[], d⟩) = true := get_of_mem_names hnames
    obtain ⟨depth, hdepth⟩ := CustomTypes.exists_layout hT hlegal
    obtain ⟨l, hl⟩ := hdepth depth (Nat.le_refl depth)
    have hdyn := hF d β (spelled_of_lookup hlookup hβ) depth l hl
    have hwords := hone module _ d i hlookup hd β hβ depth l hl
    rw [← HeadLayout.eq_word (Option.some.inj (hdyn.symm.trans hstatic)) hwords]
    exact hdecl d i hd depth l hl

/-- **What a generated type implements** has the constants of the Solidity type's place, and so has what the
macros read off it. -/
theorem fits_of_written (hscope : F.scopeModule scope = some module) {depth : ℕ} {ty : SolidityType}
    {l : HeadLayout} (hty : F.customTypes.legal ty = true) (hl : F.customTypes.layout depth ty = some l)
    {r : RustType} (h : F.Written scope ty r) {i : RustImpl} (hi : F.rustImpl declared module r = some i) :
    Fits l i.codec ∧ ∀ n, (fromRustType r).headSize = some n → n = 32 * l.words := by
  induction ty using SolidityType.induction_on generalizing depth l r i with
  | address =>
    cases h
    rw [CustomTypes.layout_valueType rfl hl]
    exact ⟨fits_word hT hF hdecl hone (fun _ _ => ⟨.address, rfl, rfl⟩) hi, fun n hn => (headSize_path hn).1⟩
  | bool =>
    cases h
    rw [CustomTypes.layout_valueType rfl hl]
    exact ⟨fits_word hT hF hdecl hone (fun _ _ => ⟨.bool, rfl, rfl⟩) hi, fun n hn => (headSize_path hn).1⟩
  | fixedBytes size =>
    cases h
    rw [CustomTypes.layout_valueType rfl hl]
    rw [rustImpl, if_pos (show isU8 (.path (.bare "u8")) = true from rfl)] at hi
    split_ifs at hi
    obtain rfl := Option.some.inj hi
    exact ⟨⟨rfl, rfl⟩, fun n hn => (Option.some.inj hn).symm⟩
  | string | bytes =>
    cases h
    cases depth with
    | zero => cases hl
    | succ depth =>
      rw [← Option.some.inj hl]
      obtain rfl := Option.some.inj hi
      exact ⟨⟨rfl, rfl⟩, fun n hn => (headSize_path hn).1⟩
  | int size | uint size =>
    cases h
    rw [CustomTypes.layout_valueType rfl hl]
    refine ⟨fits_word hT hF hdecl hone (fun d hd => ?_) hi, fun n hn => (headSize_path hn).1⟩
    exact readText_intIdent (by simp) hd
  | array ty size ih =>
    cases depth with
    | zero => cases hl
    | succ depth =>
      cases h with
      | @unsized _ elem helem =>
        rw [CustomTypes.legal] at hty
        rw [← Option.some.inj hl]
        obtain ⟨i', -, rfl⟩ := Option.map_eq_some_iff.mp hi
        refine ⟨⟨rfl, rfl⟩, fun n hn => ?_⟩
        rw [fromRustType] at hn
        exact (Option.some.inj hn).symm
      | @sized _ elem n helem =>
        rw [CustomTypes.legal, Bool.and_eq_true] at hty
        obtain ⟨l', hl', hl⟩ := Option.bind_eq_some_iff.mp hl
        obtain rfl := Option.some.inj hl
        exact fits_of_sized helem (fun b => dynamic_of_fromRustType hF hl' helem) (ih hty.2 hl' helem) hi
  | tuple types ih =>
    cases depth with
    | zero => cases hl
    | succ depth =>
      have hdyn := fun b => dynamic_of_fromRustType (b := b) hF hl h
      cases h with
      | @tuple _ args hargs =>
        rw [CustomTypes.legal, Bool.and_eq_true, decide_eq_true_eq, CustomTypes.legals_iff] at hty
        obtain ⟨ls, hls, hl⟩ := Option.bind_eq_some_iff.mp hl
        obtain rfl := Option.some.inj hl
        rw [mapM_eq_some_iff] at hls
        cases hargs with
        | nil => exact absurd rfl hty.1
        | cons hr hargs' =>
          cases hargs' with
          | nil =>
            cases hls with
            | cons hl' hnil =>
              cases hnil
              rw [HeadLayout.joined_singleton]
              exact ⟨(ih _ (by simp) (hty.2 _ (by simp)) hl' hr hi).1, fun n hn => by cases hn⟩
          | @cons _ r' _ args hr' hargs' =>
            exact fits_of_tuple (.cons hr (.cons hr' hargs')) hls
              (fun ty hmem r l i hr hl hi => ih ty hmem (hty.2 ty hmem) hl hr hi) hdyn hi
  | custom path =>
    cases h with
    | custom hp => exact fits_of_names hdecl hone hscope hp hty hl hi
  | function text | mapping text => cases h

/-- A field whose type is read right. -/
theorem folds_deriveField {alloc : Bool} {depth' : ℕ} (hscope : F.scopeModule scope = some module)
    {field : VariableDeclaration} {f : Field}
    (hf : F.deriveField declared module alloc depth' scope field = some f) {depth : ℕ} {l : HeadLayout}
    (hty : F.customTypes.legal field.ty = true) (hl : F.customTypes.layout depth field.ty = some l) :
    f.Folds ∧ Fits l f.impl := by
  rw [deriveField] at hf
  split at hf
  · cases hf
  · rename_i rust hrust
    obtain ⟨i, hi, hf⟩ := Option.bind_eq_some_iff.mp hf
    obtain ⟨sol, hsol, rfl⟩ := Option.map_eq_some_iff.mp hf
    have hwritten := written_of_toRustType hrust
    obtain ⟨hfits, hhead⟩ := fits_of_written hT hF hdecl hone hscope hty hl hwritten hi
    obtain ⟨hdyn, hsize⟩ := SolType.sizes_mapCustom _ hsol
    refine ⟨⟨fun b hb => ?_, fun hstatic => ?_⟩, hfits⟩
    · rw [hdyn] at hb
      exact hfits.dynamic.trans (dynamic_of_fromRustType hF hl hwritten hb).symm
    · rw [hdyn] at hstatic
      obtain ⟨n, hn⟩ := Option.isSome_iff_exists.mp (SolType.isSome_headSize _ hstatic)
      have hfalse : i.codec.isDynamic = false :=
        hfits.dynamic.trans (dynamic_of_fromRustType hF hl hwritten hstatic).symm
      rw [hsize, hn, hhead n hn, ← hfits.slot, SolCodec.slotSize_static hfalse]

/-- **An item has the constants of its type's place** if the items that it is made of have those of theirs. -/
theorem declaredFit_expandItem (alloc : Bool) (depth : ℕ) : F.DeclaredFit (F.expandItem alloc depth declared) := by
  intro d i hi depth' l hl
  obtain ⟨scope, -, hi⟩ := Option.bind_eq_some_iff.mp hi
  obtain ⟨module, hscope, hi⟩ := Option.bind_eq_some_iff.mp hi
  cases depth' with
  | zero => cases hl
  | succ depth' =>
    rw [CustomTypes.layout, unroll, CustomTypes.layoutStep] at hl
    split at hi
    · cases hi
    · rename_i hd
      rw [hd] at hl
      split_ifs at hi
      rw [← Option.some.inj hi, ← Option.some.inj hl]
      exact ⟨rfl, rfl⟩
    · rename_i underlying hd
      rw [hd] at hl
      rw [CustomTypes.layout_valueType (hT.udt _ _ hd) hl]
      split at hi
      · obtain ⟨i', -, rfl⟩ := Option.map_eq_some_iff.mp hi
        exact ⟨rfl, rfl⟩
      · cases hi
    · rename_i fields hd
      rw [hd] at hl
      obtain ⟨ls, hls, hl⟩ := Option.bind_eq_some_iff.mp hl
      obtain ⟨fs, hfs, hi⟩ := Option.bind_eq_some_iff.mp hi
      split_ifs at hi
      rw [← Option.some.inj hi, ← Option.some.inj hl]
      have hlegal := (hT.struct _ _ hd).2
      rw [mapM_eq_some_iff, fieldTypes, List.forall₂_map_left_iff] at hls
      have hfields : List.Forall₂ (fun l f => Field.Folds f ∧ Fits l f.impl) ls fs :=
        forall₂_of_common hls (mapM_eq_some_iff.mp hfs) fun field hmem l f hl hf =>
          folds_deriveField hT hF hdecl hone hscope hf (hlegal _ (List.mem_map_of_mem hmem)) hl
      have hfits : List.Forall₂ Fits ls (Macros.implOf fs) := by
        rw [Macros.implOf, List.forall₂_map_right_iff]
        exact hfields.imp fun _ _ h => h.2
      exact fits_struct _ ((List.forall₂_and_left _ _).mp hfields.flip).1 hfits

end

end AbiFile

end PvmContract.AbiImport
