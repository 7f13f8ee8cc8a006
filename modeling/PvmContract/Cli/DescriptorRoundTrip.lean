import PvmContract.Cli.ParseNames

/-!
# Descriptors and names

The results on type descriptors put together: the descriptor of a type of the SDK and the
name of the type are each turned into the name by the tool, and what the tool makes of a
descriptor that the SDK has not written.
-/

namespace PvmContract.Cli

open Data PvmContract.Types Macros

mutual

/-- Integer types have a width behind them, of whatever text. -/
def ExplicitWidths : AbiInput → Prop
  | .bare solType => ∀ t ∈ solType, baseOf t ≠ "uint".toList ∧ baseOf t ≠ "int".toList
  | .composite solType components => ∀ t ∈ solType, baseOf t ≠ "uint".toList ∧ baseOf t ≠ "int".toList ∧
    (baseOf t = "tuple".toList → AllExplicitWidths components)

/-- `ExplicitWidths` of each descriptor of a list. -/
def AllExplicitWidths : List AbiInput → Prop
  | [] => True
  | d :: ds => ExplicitWidths d ∧ AllExplicitWidths ds

end

/-- The canonical name of a type's descriptor is the `SOL_NAME` if no struct in the type has a unit type in
it. -/
theorem sdkName_eq_iff {t : Ty} :
    canonicalName t = sdkName "unit".toList "()".toList t ↔ units false t = 0 := by
  constructor
  · intro h
    have hlen : (sdkName "unit".toList "()".toList t).length + 2 * units false t = (canonicalName t).length :=
      length_sdkName false t
    rw [h] at hlen
    omega
  · intro h
    exact (sdkName_of_units false t h).symm

/-- The descriptor of a type, and what is read from the name of the type, have the name of the type as the
canonical name. -/
theorem sdk_names_iff {t : Ty} (h : t.Compiles = true) {s : String} (hs : t.impl.solName = some s) (name : String) :
    (∃ param, t.impl.abiParam name = some param ∧ canonicalType (inputOf param) = .ok s.toList) ∧
      canonicalType (inputOf (parseTypeStr name s.toList)) = .ok s.toList ↔ units false t = 0 := by
  obtain ⟨param, hparam, hinput⟩ := exists_abiParam h name
  have hname := toList_solName h s hs
  have hfirst : (∃ param, t.impl.abiParam name = some param ∧ canonicalType (inputOf param) = .ok s.toList) ↔
      canonicalName t = s.toList := by
    constructor
    · rintro ⟨param', hparam', hcanon⟩
      rw [hparam] at hparam'
      obtain rfl := Option.some.inj hparam'
      rw [hinput, canonicalType_descriptor] at hcanon
      exact Except.ok.inj hcanon
    · intro heq
      exact ⟨param, hparam, by rw [hinput, canonicalType_descriptor, ← heq]⟩
  rw [hfirst, ← sdkName_eq_iff, ← hname]
  constructor
  · exact And.left
  · intro heq
    refine ⟨heq, ?_⟩
    rw [← heq, inputOf_parseTypeStr h, canonicalType_descriptor]

/-- What holds of the two readings of any descriptor: no panic, and where both succeed and the widths are
explicit, the same name. -/
theorem same_name_iff (d : AbiInput) :
    (abiToDynSolType d ≠ .error .panic ∧
      (ExplicitWidths d → ∀ c y, canonicalType d = .ok c → abiToDynSolType d = .ok y → y.name = c)) ↔
    NoPanic d ∧ (ExplicitWidths d → Accepted d → Written d) := by
  refine and_congr noPanic_iff (forall_congr' fun _ => ?_)
  constructor
  · intro h haccepted
    obtain ⟨y, hy⟩ := accepted_iff.mpr haccepted
    obtain ⟨c, hc⟩ := canonicalType_of_accepted haccepted
    exact (name_eq_iff ⟨hy, hc⟩).mp (h c y hc hy)
  · intro h c y hc hy
    exact (name_eq_iff ⟨hy, hc⟩).mpr (h (accepted_iff.mp ⟨y, hy⟩))

/-- **Descriptors round-trip** exactly where no struct has a unit type in it, the canonical name is found
without a panic, and the two readings of a descriptor agree without a panic exactly when there is a slice
behind each bracket that is read and the texts that are read are written as the names of what is read. -/
theorem descriptors_round_trip_iff {t : Ty} (ht : t.Compiles = true) {s : String}
    (hs : t.impl.solName = some s) (name : String) (d : AbiInput) :
    ((∃ param, t.impl.abiParam name = some param ∧ canonicalType (inputOf param) = .ok s.toList) ∧
        canonicalType (inputOf (parseTypeStr name s.toList)) = .ok s.toList ↔ units false t = 0) ∧
      canonicalType d ≠ .error .panic ∧
      (abiToDynSolType d ≠ .error .panic ∧
          (ExplicitWidths d → ∀ c y, canonicalType d = .ok c → abiToDynSolType d = .ok y → y.name = c) ↔
        NoPanic d ∧ (ExplicitWidths d → Accepted d → Written d)) := by
  refine ⟨?_, canonicalType_ne_panic d, same_name_iff d⟩
  exact sdk_names_iff ht hs name

/-- A vector of pairs and a plain description: the name of the vector comes back from its descriptor and from
the name itself, and the description is not read with a panic. -/
theorem round_trip_pairs :
    let t := Ty.vec (.tuple [.prim .u8, .bytesN 4]);
    let d := AbiInput.bare (some "bool".toList);
    canonicalType (inputOf (parseTypeStr "x" "(uint8,bytes4)[]".toList)) = .ok "(uint8,bytes4)[]".toList ∧
      (∃ param, t.impl.abiParam "x" = some param ∧ canonicalType (inputOf param) = .ok "(uint8,bytes4)[]".toList) ∧
      canonicalType d ≠ .error .panic := by
  intro t d
  have hname : t.impl.solName = some "(uint8,bytes4)[]" := by decide +kernel
  obtain ⟨hsdk, hpanic, -⟩ := descriptors_round_trip_iff rfl hname "x" d
  obtain ⟨hparam, htext⟩ := hsdk.mpr rfl
  exact ⟨htext, hparam, hpanic⟩

/-- A type text that ends in a bracket makes the slice panic, and a size with a leading zero is encoded as
another type than the signature names. -/
theorem bracket_panics_and_zero_diverges :
    abiToDynSolType (.bare (some "uint256[".toList)) = .error .panic ∧
      let d := AbiInput.bare (some "uint256[03]".toList);
      ExplicitWidths d ∧ canonicalType d = .ok "uint256[03]".toList ∧
        ∃ y, abiToDynSolType d = .ok y ∧ y.name = "uint256[3]".toList := by
  refine ⟨?_, ?_, rfl, .fixedArray (.uint 256) 3, ?_, rfl⟩
  · have hnil : '[' ∉ ([] : Text) := by decide
    have hdim : dynText none ("uint256".toList ++ '[' :: []) = _ := dynText_dim hnil
    exact hdim
  · rw [ExplicitWidths]
    intro t ht
    rw [← Option.some.inj ht]
    decide
  · have hbehind : '[' ∉ "03]".toList := by decide
    have hdim : dynText none ("uint256".toList ++ '[' :: "03]".toList) = _ := dynText_dim hbehind
    refine hdim.trans ?_
    rw [dynText_base (by decide)]
    rfl

end PvmContract.Cli
