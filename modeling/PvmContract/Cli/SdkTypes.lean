import PvmContract.Cli.DescriptorNames
import PvmContract.Macros.Universe

/-!
# Descriptors of the SDK types

The descriptor that the SDK writes for a type, and the `SOL_NAME` of the type as a text.
The name is put together twice: by the trait implementations, and for the fields of a
derived struct by the macro, from syntax. The two differ in the unit type, which has the
name `unit` and is an empty tuple to the macro (`sdkName`).

The canonical name of the descriptor is the `SOL_NAME` unless a struct has the unit type
in it (`canonicalType_descriptor`).
-/

namespace PvmContract.Cli

open Data PvmContract.Types Macros

/-! ### Names -/

mutual

/-- The `SOL_NAME` of a type, with the name of the unit type, and its name within a struct. -/
def sdkName (unitName inStruct : Text) : Ty → Text
  | .prim p => p.abi.name.toList
  | .unit => unitName
  | .bytesN n => "bytes".toList ++ Nat.toDigits 10 n
  | .bytes => "bytes".toList
  | .string => "string".toList
  | .vec elem => sdkName unitName inStruct elem ++ "[]".toList
  | .array elem n => sdkName unitName inStruct elem ++ '[' :: (Nat.toDigits 10 n ++ [']'])
  | .tuple elems => parens (sdkNames unitName inStruct elems)
  | .struct _ fields => parens (sdkNames inStruct inStruct fields)
  | .enum _ => "uint8".toList

/-- The names of a list of types. -/
def sdkNames (unitName inStruct : Text) : List Ty → List Text
  | [] => []
  | t :: ts => sdkName unitName inStruct t :: sdkNames unitName inStruct ts

end

mutual

/-- How many unit types the macro reads in a type, which is itself in a struct or not. -/
def units (inStruct : Bool) : Ty → ℕ
  | .unit => if inStruct then 1 else 0
  | .vec elem => units inStruct elem
  | .array elem _ => units inStruct elem
  | .tuple elems => unitsList inStruct elems
  | .struct _ fields => unitsList true fields
  | _ => 0

/-- `units` of a list of types. -/
def unitsList (inStruct : Bool) : List Ty → ℕ
  | [] => 0
  | t :: ts => units inStruct t + unitsList inStruct ts

end

theorem toList_toString (n : ℕ) : (toString n).toList = Nat.toDigits 10 n := by
  rw [Nat.toString_eq_ofList_toDigits, String.toList_ofList]

theorem commaJoin_eq_intercalate (ts : List Text) : commaJoin ts = [','].intercalate ts := by
  cases ts with
  | nil => rfl
  | cons t ts =>
    rw [commaJoin]
    induction ts generalizing t with
    | nil => simp [commaRest]
    | cons u ts ih =>
      rw [commaRest, ih u]
      simp

theorem toList_tupleName (ns : List String) : ("(" ++ ",".intercalate ns ++ ")").toList = parens (ns.map String.toList) := by
  rw [parens, commaJoin_eq_intercalate]
  simp

theorem solName_prim (p : Prim) : p.impl.solName = some p.abi.name := by cases p <;> rfl

theorem solTypeName_prim (p : Prim) : solTypeName p.sol = some p.abi.name := by cases p <;> rfl

/-- Each name of a list is made of the names of the types. -/
theorem map_toList_names {Ts : List (Option String)} {ns : List String} {ts : List Ty} {unitName inStruct : Text}
    (hns : Ts = ns.map some) (hts : List.Forall₂ (fun T t => ∀ s, T = some s → s.toList = sdkName unitName inStruct t) Ts ts) :
    ns.map String.toList = sdkNames unitName inStruct ts := by
  subst hns
  induction ns generalizing ts with
  | nil =>
    cases hts
    rfl
  | cons n ns ih =>
    cases hts with
    | cons h hs => rw [List.map_cons, sdkNames, h n rfl, ih hs]

theorem forall₂_of_mem {α : Type} {f : Ty → α} {R : α → Ty → Prop} {ts : List Ty} (h : ∀ t ∈ ts, R (f t) t) :
    List.Forall₂ R (ts.map f) ts := by
  induction ts with
  | nil => exact .nil
  | cons t ts ih =>
    obtain ⟨ht, hts⟩ := List.forall_mem_cons.mp h
    exact .cons ht (ih hts)

theorem rusts_eq_map (ts : List Ty) : Ty.rusts ts = ts.map Ty.rust := by
  induction ts with
  | nil => rfl
  | cons t ts ih => rw [Ty.rusts, ih, List.map_cons]

theorem solTypeNames_eq_some {types : List (SolType SolCodec)} {ns : List String} (h : solTypeNames types = some ns) :
    types.map solTypeName = ns.map some := by
  induction types generalizing ns with
  | nil =>
    obtain rfl := Option.some.inj h
    rfl
  | cons ty types ih =>
    rw [solTypeNames] at h
    obtain ⟨n, hn, h⟩ := Option.bind_eq_some_iff.mp h
    obtain ⟨ns', hns, h⟩ := Option.bind_eq_some_iff.mp h
    obtain rfl := Option.some.inj h
    rw [List.map_cons, List.map_cons, hn, ih hns]

/-- What the macro reads as the name of a type. -/
theorem toList_solTypeName {t : Ty} (h : t.Compiles = true) : ∀ s, solTypeName t.rust.sol = some s →
    s.toList = sdkName "()".toList "()".toList t := by
  have htuple : ∀ ts : List Ty, (∀ t ∈ ts, ∀ s, solTypeName t.rust.sol = some s →
      s.toList = sdkName "()".toList "()".toList t) → ∀ s,
      (solTypeNames ((Ty.rusts ts).map Field.sol)).map (fun ns => "(" ++ ",".intercalate ns ++ ")") = some s →
      s.toList = parens (sdkNames "()".toList "()".toList ts) := by
    intro ts ih s hs
    obtain ⟨ns, hns, rfl⟩ := Option.map_eq_some_iff.mp hs
    have hnames := solTypeNames_eq_some hns
    rw [rusts_eq_map, List.map_map, List.map_map] at hnames
    rw [toList_tupleName, map_toList_names hnames (forall₂_of_mem fun t ht s => ih t ht s)]
  refine Ty.induction_of_all (motive := fun t => ∀ s, solTypeName t.rust.sol = some s →
    s.toList = sdkName "()".toList "()".toList t) ?_ ?_ ?_ ?_ ?_ ?_ ?_ ?_ ?_ ?_ t h
  · intro k s hs
    have hk : solTypeName k.sol = some s := hs
    rw [solTypeName_prim k] at hk
    rw [← Option.some.inj hk, sdkName]
  · intro _ s hs
    obtain rfl := Option.some.inj hs
    decide
  · intro n _ s hs
    obtain rfl := Option.some.inj (show some ("bytes" ++ toString n) = some s from hs)
    rw [String.toList_append, toList_toString, sdkName]
  · intro s hs
    obtain rfl := Option.some.inj hs
    rfl
  · intro s hs
    obtain rfl := Option.some.inj hs
    rfl
  · intro elem ih s hs
    have harr : solTypeName (.array elem.rust.sol) = some s := hs
    rw [solTypeName_array] at harr
    obtain ⟨n, hn, rfl⟩ := Option.map_eq_some_iff.mp harr
    rw [String.toList_append, ih n hn, sdkName]
  · intro elem n _ ih s hs
    have harr : solTypeName (.fixedArray elem.rust.sol n) = some s := hs
    rw [solTypeName_fixedArray] at harr
    obtain ⟨name, hname, rfl⟩ := Option.map_eq_some_iff.mp harr
    rw [String.toList_append, String.toList_append, String.toList_append, ih name hname, toList_toString, sdkName]
    rfl
  · intro elems _ ih s hs
    have htup : solTypeName (.tuple ((Ty.rusts elems).map Field.sol)) = some s := hs
    rw [solTypeName_tuple] at htup
    exact htuple elems ih s htup
  · intro idents fields _ ih s hs
    have hstruct : (expandSolType idents (Ty.rusts fields)).solName = some s := hs
    have hname : (expandSolType idents (Ty.rusts fields)).solName = buildSolName (Ty.rusts fields) := by
      rw [expandSolType]
      split <;> rfl
    rw [hname, buildSolName_eq] at hstruct
    exact htuple fields ih s hstruct
  · intro n _ s hs
    obtain rfl := Option.some.inj (show some "uint8" = some s from hs)
    rfl

/-- The `SOL_NAME` of a type. -/
theorem toList_solName {t : Ty} (h : t.Compiles = true) : ∀ s, t.impl.solName = some s →
    s.toList = sdkName "unit".toList "()".toList t := by
  refine Ty.induction_of_all (motive := fun t => t.Compiles = true → ∀ s, t.impl.solName = some s →
    s.toList = sdkName "unit".toList "()".toList t) ?_ ?_ ?_ ?_ ?_ ?_ ?_ ?_ ?_ ?_ t h h
  · intro k _ s hs
    have hk : k.impl.solName = some s := hs
    rw [solName_prim k] at hk
    rw [← Option.some.inj hk, sdkName]
  · intro _ _ s hs
    obtain rfl := Option.some.inj (show some "unit" = some s from hs)
    rfl
  · intro n _ _ s hs
    obtain ⟨a, ha, rfl⟩ := constStr_append_eq_some
      (show ConstStr.append (ConstStr.new "bytes" "") (toString n) = some s from hs)
    rw [constStr_new_eq_some ha, String.toList_append, String.toList_append, toList_toString, sdkName]
    rfl
  · intro _ s hs
    obtain rfl := Option.some.inj (show some "bytes" = some s from hs)
    rfl
  · intro _ s hs
    obtain rfl := Option.some.inj (show some "string" = some s from hs)
    rfl
  · intro elem ih hc s hs
    obtain ⟨n, hn, hnew⟩ := Option.bind_eq_some_iff.mp
      (show (elem.impl.solName.bind fun a => ConstStr.new a "[]") = some s from hs)
    rw [constStr_new_eq_some hnew, String.toList_append, ih (Ty.all_vec hc) n hn, sdkName]
  · intro elem n _ ih hc s hs
    obtain ⟨a, ha, rfl⟩ := constStr_append_eq_some (show ConstStr.append (ConstStr.appendUsize
      (elem.impl.solName.bind fun a => ConstStr.new a "[") n) "]" = some s from hs)
    obtain ⟨b, hb, rfl⟩ := constStr_append_eq_some ha
    obtain ⟨name, hname, hnew⟩ := Option.bind_eq_some_iff.mp hb
    rw [constStr_new_eq_some hnew, String.toList_append, String.toList_append, String.toList_append, ih (Ty.all_array hc) name hname,
      toList_toString, sdkName, List.append_assoc, List.append_assoc]
    rfl
  · intro elems _ ih hc s hs
    obtain ⟨ns, hns, rfl⟩ := tupleName_eq_some (show tupleName (implOf (Ty.rusts elems)) = some s from hs)
    rw [rusts_eq_map, List.map_map, List.map_map] at hns
    rw [toList_tupleName, map_toList_names hns (forall₂_of_mem fun t ht s => ih t ht (Ty.all_tuple hc t ht) s), sdkName]
  · intro idents fields _ _ hc s hs
    exact toList_solTypeName hc s hs
  · intro n _ _ s hs
    obtain rfl := Option.some.inj (show some "uint8" = some s from hs)
    rfl

/-! ### Descriptors -/

/-- Dimensions behind the type text of a descriptor. -/
def addDims (dims : Text) : AbiInput → AbiInput
  | .bare solType => .bare (solType.map (· ++ dims))
  | .composite solType components => .composite (solType.map (· ++ dims)) components

mutual

/-- The descriptor of a type, as it is read. -/
def descriptor : Ty → AbiInput
  | .prim p => .bare (some p.abi.name.toList)
  | .unit => .bare (some "unit".toList)
  | .bytesN n => .bare (some ("bytes".toList ++ Nat.toDigits 10 n))
  | .bytes => .bare (some "bytes".toList)
  | .string => .bare (some "string".toList)
  | .vec elem => addDims "[]".toList (descriptor elem)
  | .array elem n => addDims ('[' :: (Nat.toDigits 10 n ++ [']'])) (descriptor elem)
  | .tuple elems => .composite (some "tuple".toList) (descriptors elems)
  | .struct _ fields => .composite (some "tuple".toList) (descriptors fields)
  | .enum _ => .bare (some "uint8".toList)

/-- The descriptors of a list of types. -/
def descriptors : List Ty → List AbiInput
  | [] => []
  | t :: ts => descriptor t :: descriptors ts

end

theorem inputOf_addDims (name : String) (inner : AbiParam) (dims : String) :
    inputOf (.mk name (inner.paramType ++ dims) inner.components) = addDims dims.toList (inputOf inner) := by
  obtain ⟨_, paramType, components⟩ := inner
  cases components with
  | nil => simp [inputOf, addDims, AbiParam.paramType, AbiParam.components]
  | cons c cs => simp [inputOf, addDims, AbiParam.paramType, AbiParam.components]

theorem inputOf_tuple (name : String) {components : List AbiParam} (hne : components ≠ []) :
    inputOf (.mk name "tuple" components) = .composite (some "tuple".toList) (inputsOf components) := by
  cases components with
  | nil => exact absurd rfl hne
  | cons c cs => rw [inputOf, inputsOf]

theorem inputOf_ofSolName {solName : Option String} {s : String} (h : solName = some s) (name : String) :
    ∃ param, AbiParam.ofSolName solName name = some param ∧ inputOf param = .bare (some s.toList) :=
  ⟨.mk name s [], by rw [AbiParam.ofSolName, h]; rfl, rfl⟩

/-- The descriptor of each component of a tuple. -/
theorem exists_mapM_abiParam {ts : List Ty}
    (h : ∀ t ∈ ts, ∀ name, ∃ param, t.impl.abiParam name = some param ∧ inputOf param = descriptor t) :
    ∃ params, ((implOf (Ty.rusts ts)).mapM fun T : SolCodec => T.abiParam "") = some params ∧
      inputsOf params = descriptors ts := by
  induction ts with
  | nil => exact ⟨[], rfl, rfl⟩
  | cons t ts ih =>
    obtain ⟨ht, hts⟩ := List.forall_mem_cons.mp h
    obtain ⟨param, hparam, hinput⟩ := ht ""
    obtain ⟨params, hparams, hinputs⟩ := ih hts
    refine ⟨param :: params, ?_, by rw [inputsOf, hinput, hinputs, descriptors]⟩
    change (t.impl :: implOf (Ty.rusts ts)).mapM _ = _
    rw [List.mapM_cons, hparam, hparams]
    rfl

/-- The descriptor of each field of a struct. -/
theorem exists_componentParams {ts : List Ty}
    (h : ∀ t ∈ ts, ∀ name, ∃ param, t.impl.abiParam name = some param ∧ inputOf param = descriptor t)
    (idents : List (Option String)) :
    ∃ params, componentParams idents (Ty.rusts ts) = some params ∧ inputsOf params = descriptors ts := by
  induction ts generalizing idents with
  | nil => exact ⟨[], rfl, rfl⟩
  | cons t ts ih =>
    obtain ⟨ht, hts⟩ := List.forall_mem_cons.mp h
    obtain ⟨param, hparam, hinput⟩ := ht (fieldParamName (idents.head?.getD none))
    obtain ⟨params, hparams, hinputs⟩ := ih hts idents.tail
    refine ⟨param :: params, ?_, by rw [inputsOf, hinput, hinputs, descriptors]⟩
    rw [Ty.rusts, componentParams, hparam, hparams]
    rfl

theorem descriptors_ne_nil {ts : List Ty} (h : 1 ≤ ts.length) {params : List AbiParam}
    (hparams : inputsOf params = descriptors ts) : params ≠ [] := by
  rintro rfl
  cases ts with
  | nil => exact absurd h (by simp)
  | cons t ts => cases hparams

/-- `abi_param` of a type writes the descriptor of the type. -/
theorem exists_abiParam {t : Ty} (h : t.Compiles = true) : ∀ name, ∃ param, t.impl.abiParam name = some param ∧
    inputOf param = descriptor t := by
  refine Ty.induction_of_all (motive := fun t => ∀ name, ∃ param, t.impl.abiParam name = some param ∧
    inputOf param = descriptor t) ?_ ?_ ?_ ?_ ?_ ?_ ?_ ?_ ?_ ?_ t h
  · intro k name
    have hk : k.impl.abiParam = AbiParam.ofSolName k.impl.solName := by cases k <;> rfl
    obtain ⟨param, hparam, hinput⟩ := inputOf_ofSolName (solName_prim k) name
    exact ⟨param, (congrFun hk name).trans hparam, hinput⟩
  · intro _ name
    exact inputOf_ofSolName rfl name
  · intro n hn name
    have hsmall : ∀ n ≤ 32, bytesNName n = some ("bytes" ++ "" ++ toString n) := by decide +kernel
    have hname : bytesNName n = some ("bytes" ++ "" ++ toString n) := by
      simp only [Ty.compilesHere, Bool.and_eq_true, decide_eq_true_eq] at hn
      exact hsmall n hn.2
    obtain ⟨param, hparam, hinput⟩ := inputOf_ofSolName hname name
    refine ⟨param, hparam, ?_⟩
    rw [hinput, String.toList_append, toList_toString]
    rfl
  · intro name
    exact inputOf_ofSolName rfl name
  · intro name
    exact inputOf_ofSolName rfl name
  · intro elem ih name
    obtain ⟨inner, hinner, hinput⟩ := ih ""
    refine ⟨.mk name (inner.paramType ++ "[]") inner.components, ?_, ?_⟩
    · show (elem.impl.abiParam "").map _ = _
      rw [hinner]
      rfl
    · rw [inputOf_addDims, hinput, descriptor]
  · intro elem n _ ih name
    obtain ⟨inner, hinner, hinput⟩ := ih ""
    refine ⟨.mk name (inner.paramType ++ "[" ++ toString n ++ "]") inner.components, ?_, ?_⟩
    · show (elem.impl.abiParam "").map _ = _
      rw [hinner]
      rfl
    · rw [String.append_assoc, String.append_assoc, inputOf_addDims, hinput, descriptor, String.toList_append,
        String.toList_append, toList_toString]
      rfl
  · intro elems hlen ih name
    obtain ⟨params, hparams, hinputs⟩ := exists_mapM_abiParam ih
    have hpos : 1 ≤ elems.length := by
      simp only [Ty.compilesHere, Bool.and_eq_true, decide_eq_true_eq] at hlen
      exact hlen.1
    refine ⟨.mk name "tuple" params, ?_, ?_⟩
    · show ((implOf (Ty.rusts elems)).mapM fun T : SolCodec => T.abiParam "").map _ = _
      rw [hparams]
      rfl
    · rw [inputOf_tuple name (descriptors_ne_nil hpos hinputs), hinputs, descriptor]
  · intro idents fields hlen ih name
    obtain ⟨params, hparams, hinputs⟩ := exists_componentParams ih idents
    have hpos : 1 ≤ fields.length := by
      simpa only [Ty.compilesHere, decide_eq_true_eq] using hlen
    have hparam : (expandSolType idents (Ty.rusts fields)).abiParam = structAbiParam idents (Ty.rusts fields) := by
      rw [expandSolType]
      split <;> rfl
    refine ⟨.mk name "tuple" params, ?_, ?_⟩
    · show (expandSolType idents (Ty.rusts fields)).abiParam name = _
      rw [hparam, structAbiParam, hparams]
      rfl
    · rw [inputOf_tuple name (descriptors_ne_nil hpos hinputs), hinputs, descriptor]
  · intro n _ name
    exact ⟨.mk name "uint8" [], rfl, rfl⟩

/-! ### Canonical names -/

theorem canonicalType_addDims {d : AbiInput} {c behind : Text} (h : canonicalType d = .ok c) :
    canonicalType (addDims ('[' :: behind) d) = .ok (c ++ '[' :: behind) := by
  cases d with
  | bare solType =>
    cases solType with
    | none => cases h
    | some t => exact canonicalFrom_append h
  | composite solType components =>
    cases solType with
    | none => cases h
    | some t => exact canonicalFrom_append h

mutual

/-- The canonical name of a descriptor. -/
theorem canonicalType_descriptor : (t : Ty) →
    canonicalType (descriptor t) = .ok (sdkName "unit".toList "unit".toList t)
  | .prim p => by
    refine canonicalFrom_plain ?_
    cases p <;> decide
  | .unit => rfl
  | .bytesN n => by
    rw [descriptor, canonicalType, sdkName]
    refine canonicalFrom_plain fun h => ?_
    rw [(parts_of_base fun hc => (List.mem_append.mp hc).elim (by decide) (noSpecial_digits n).2).1] at h
    simp at h
  | .bytes => rfl
  | .string => rfl
  | .vec elem => canonicalType_addDims (canonicalType_descriptor elem)
  | .array elem n => canonicalType_addDims (canonicalType_descriptor elem)
  | .tuple elems => by
    rw [descriptor, canonicalType, canonicalTypes_descriptors elems, sdkName]
    exact (canonicalFrom_tuple rfl).mpr ⟨_, rfl, (List.append_nil _).symm⟩
  | .struct idents fields => by
    rw [descriptor, canonicalType, canonicalTypes_descriptors fields, sdkName]
    exact (canonicalFrom_tuple rfl).mpr ⟨_, rfl, (List.append_nil _).symm⟩
  | .enum _ => rfl

/-- The canonical names of the descriptors of a list of types. -/
theorem canonicalTypes_descriptors : (ts : List Ty) →
    canonicalTypes (descriptors ts) = .ok (sdkNames "unit".toList "unit".toList ts)
  | [] => rfl
  | t :: ts => by
    rw [descriptors, canonicalTypes, canonicalType_descriptor t, canonicalTypes_descriptors ts, sdkNames]
    rfl

end

mutual

/-- The name of the unit type is two characters longer than the empty tuple. -/
theorem length_sdkName (inStruct : Bool) : (t : Ty) →
    (sdkName (if inStruct then "()".toList else "unit".toList) "()".toList t).length + 2 * units inStruct t =
      (sdkName "unit".toList "unit".toList t).length
  | .prim p => by simp [sdkName, units]
  | .unit => by cases inStruct <;> rfl
  | .bytesN n => by simp [sdkName, units]
  | .bytes => rfl
  | .string => rfl
  | .vec elem => by
    have ih := length_sdkName inStruct elem
    rw [sdkName, sdkName, units, List.length_append, List.length_append]
    omega
  | .array elem n => by
    have ih := length_sdkName inStruct elem
    rw [sdkName, sdkName, units, List.length_append, List.length_append]
    omega
  | .tuple elems => by
    have ih := (length_sdkNames inStruct elems).2
    rw [sdkName, sdkName, units, parens, parens, List.length_cons, List.length_cons, List.length_append,
      List.length_append]
    omega
  | .struct idents fields => by
    have ih := (length_sdkNames true fields).2
    rw [if_pos rfl] at ih
    rw [sdkName, sdkName, units, parens, parens, List.length_cons, List.length_cons, List.length_append,
      List.length_append]
    omega
  | .enum _ => rfl

/-- The same for a list of types. -/
theorem length_sdkNames (inStruct : Bool) : (ts : List Ty) →
    (commaRest (sdkNames (if inStruct then "()".toList else "unit".toList) "()".toList ts)).length +
        2 * unitsList inStruct ts = (commaRest (sdkNames "unit".toList "unit".toList ts)).length ∧
      (commaJoin (sdkNames (if inStruct then "()".toList else "unit".toList) "()".toList ts)).length +
        2 * unitsList inStruct ts = (commaJoin (sdkNames "unit".toList "unit".toList ts)).length
  | [] => ⟨rfl, rfl⟩
  | t :: ts => by
    have iht := length_sdkName inStruct t
    have ihts := (length_sdkNames inStruct ts).1
    simp only [sdkNames, commaRest, commaJoin, unitsList, List.length_cons, List.length_append]
    exact ⟨by omega, by omega⟩

end

mutual

/-- Without a unit type in a struct the names are the same. -/
theorem sdkName_of_units (b : Bool) : (t : Ty) → units b t = 0 →
    sdkName (if b then "()".toList else "unit".toList) "()".toList t = sdkName "unit".toList "unit".toList t
  | .prim p, _ => by rw [sdkName, sdkName]
  | .unit, h => by
    cases b with
    | true => cases h
    | false => rfl
  | .bytesN n, _ => by rw [sdkName, sdkName]
  | .bytes, _ => rfl
  | .string, _ => rfl
  | .vec elem, h => by rw [sdkName, sdkName, sdkName_of_units b elem h]
  | .array elem n, h => by rw [sdkName, sdkName, sdkName_of_units b elem h]
  | .tuple elems, h => by rw [sdkName, sdkName, sdkNames_of_units b elems h]
  | .struct idents fields, h => by
    have ih := sdkNames_of_units true fields h
    rw [if_pos rfl] at ih
    rw [sdkName, sdkName, ih]
  | .enum _, _ => rfl

/-- The same for a list of types. -/
theorem sdkNames_of_units (b : Bool) : (ts : List Ty) → unitsList b ts = 0 →
    sdkNames (if b then "()".toList else "unit".toList) "()".toList ts = sdkNames "unit".toList "unit".toList ts
  | [], _ => rfl
  | t :: ts, h => by
    rw [unitsList, Nat.add_eq_zero_iff] at h
    rw [sdkNames, sdkNames, sdkName_of_units b t h.1, sdkNames_of_units b ts h.2]

end

end PvmContract.Cli
