import PvmContract.Data.Reach
import PvmContract.Sol.Resolve

/-!
# When expansion ends

The three expanding functions make the same recursive calls (`calls`), so whether
they end is one question. A struct is marked while it is expanded and cannot be
entered twice; a value type is not. What is left to go wrong is a value type that
comes back to itself through value types alone: `NoAliasCycle` says that none is in
reach of a type, and `acc_calls_iff` that expansion ends exactly then. The parser does
not let a value type name another one (`Parsed`), so the tables that it makes have no
such cycle, and on them expansion always ends (`expansion_ends`).

Where no declaration comes back to itself at all, the marks are never met, and the
canonical name is the text of the full expansion (`resolve_eq_expand`).
-/

namespace PvmContract.Sol

open Data Relation

namespace CustomTypes

variable (T : CustomTypes)

/-- A declaration names another one. -/
def Refers (a b : SolIdent) : Prop := ∃ ty ∈ T.typesOf a, ∃ path ∈ ty.customs, path.last = b

/-- A value type names another declaration. -/
def Aliases (a b : SolIdent) : Prop :=
  ∃ underlying, T.get a = some (.udt underlying) ∧ ∃ path ∈ underlying.customs, path.last = b

/-- No declaration comes back to itself. -/
def Acyclic : Prop := ∀ a, ¬ TransGen T.Refers a a

/-- No value type in reach of a type comes back to itself through value types alone. -/
def NoAliasCycle (ty : SolidityType) : Prop :=
  ∀ path ∈ ty.customs, ∀ a, ReflTransGen T.Refers path.last a → ¬ TransGen T.Aliases a a

/-- The recursive calls of the three functions. -/
def calls : Call → List Call
  | ⟨.array ty _, active⟩ => [⟨ty, active⟩]
  | ⟨.tuple types, active⟩ => types.map fun ty => ⟨ty, active⟩
  | ⟨.custom path, active⟩ =>
    if path.last ∈ active then []
    else
      match T.get path.last with
      | some (.udt underlying) => [⟨underlying, active⟩]
      | some (.struct fields) => (fieldTypes fields).map fun ty => ⟨ty, path.last :: active⟩
      | _ => []
  | _ => []

variable {T}

theorem Aliases.refers {a b : SolIdent} (h : T.Aliases a b) : T.Refers a b := by
  obtain ⟨underlying, ha, hb⟩ := h
  exact ⟨underlying, by simp [typesOf, ha], hb⟩

theorem Refers.mem_names {a b : SolIdent} (h : T.Refers a b) : a ∈ T.names := by
  obtain ⟨ty, hty, -⟩ := h
  rw [typesOf] at hty
  split at hty
  · rename_i ha
    exact mem_names_of_get ha
  · rename_i ha
    exact mem_names_of_get ha
  · cases hty

theorem NoAliasCycle.of_mem {ty ty' : SolidityType} (h : T.NoAliasCycle ty)
    (hsub : ∀ path ∈ ty'.customs, path ∈ ty.customs) : T.NoAliasCycle ty' :=
  fun path hp => h path (hsub path hp)

/-- What a declaration in reach is made of reaches no more. -/
theorem NoAliasCycle.typesOf {path : SolPath} {ty : SolidityType} (h : T.NoAliasCycle (.custom path))
    (hty : ty ∈ T.typesOf path.last) : T.NoAliasCycle ty := by
  intro p hp a ha
  exact h path (by simp [SolidityType.customs]) a (.head ⟨ty, hty, p, hp, rfl⟩ ha)

/-! ### What each body asks of its calls -/

theorem isSome_tupleName {rec : Call → Option String} {types : List SolidityType} {active : List SolIdent} :
    (tupleName rec types active).isSome = true ↔ ∀ ty ∈ types, (rec ⟨ty, active⟩).isSome = true := by
  rw [tupleName, ← isSome_mapM_iff]
  cases types.mapM fun ty => rec ⟨ty, active⟩ with
  | none => rfl
  | some inner => rfl

/-- `canonical_name` makes all its calls and answers when they do. -/
theorem isSome_resolve_iff (rec : Call → Option String) (c : Call) :
    (T.resolve rec c).isSome = true ↔ ∀ b ∈ T.calls c, (rec b).isSome = true := by
  obtain ⟨ty, active⟩ := c
  cases ty with
  | array ty size =>
    rw [resolve, calls, List.forall_mem_singleton]
    cases rec ⟨ty, active⟩ with
    | none => rfl
    | some inner => cases size <;> rfl
  | tuple types =>
    rw [resolve, calls, isSome_tupleName, List.forall_mem_map]
  | custom path =>
    rw [resolve, calls]
    by_cases hmem : path.last ∈ active
    · simp [hmem]
    · simp only [hmem, if_false]
      cases hd : T.get path.last with
      | none => simp
      | some d =>
        cases d with
        | enum => simp
        | udt underlying => rw [List.forall_mem_singleton]
        | struct fields =>
          dsimp only
          rw [isSome_tupleName, List.forall_mem_map]
  | _ => simp [resolve, calls]

/-- `is_abi_dynamic` answers when its calls do: it may not need them all. -/
theorem isSome_isDynamic (rec : Call → Option Bool) (c : Call)
    (h : ∀ b ∈ T.calls c, (rec b).isSome = true) : (T.isDynamic rec c).isSome = true := by
  obtain ⟨ty, active⟩ := c
  cases ty with
  | array ty size =>
    rw [calls, List.forall_mem_singleton] at h
    cases size with
    | none => rfl
    | some n => exact h
  | tuple types =>
    rw [calls, List.forall_mem_map] at h
    exact isSome_anyM h
  | custom path =>
    rw [calls] at h
    rw [isDynamic]
    by_cases hmem : path.last ∈ active
    · simp [hmem]
    · simp only [hmem, if_false] at h ⊢
      cases hd : T.get path.last with
      | none => rfl
      | some d =>
        rw [hd] at h
        cases d with
        | enum => rfl
        | udt underlying => exact h _ (by simp)
        | struct fields =>
          dsimp only at h
          rw [List.forall_mem_map] at h
          exact isSome_anyM h
  | _ => rfl

/-- The calls of `type_to_abi_param`, with the names. -/
def paramCalls (T : CustomTypes) (isKeyword : SolIdent → Bool) : String × Call → List (String × Call)
  | (_, ⟨.array ty _, active⟩) => [("", ⟨ty, active⟩)]
  | (_, ⟨.tuple types, active⟩) => types.map fun ty => ("", ⟨ty, active⟩)
  | (name, ⟨.custom path, active⟩) =>
    if path.last ∈ active then []
    else
      match T.get path.last with
      | some (.udt underlying) => [(name, ⟨underlying, active⟩)]
      | some (.struct fields) =>
        fields.map fun field => (paramName isKeyword field.name, ⟨field.ty, path.last :: active⟩)
      | _ => []
  | _ => []

/-- Its calls are the calls of the other two. -/
theorem snd_mem_calls (isKeyword : SolIdent → Bool) (c : String × Call) :
    ∀ d ∈ paramCalls T isKeyword c, d.2 ∈ T.calls c.2 := by
  obtain ⟨name, ty, active⟩ := c
  intro d hd
  cases ty with
  | array ty size =>
    rw [paramCalls, List.mem_singleton] at hd
    rw [hd]
    exact List.mem_singleton_self _
  | tuple types =>
    rw [paramCalls, List.mem_map] at hd
    obtain ⟨ty, hty, rfl⟩ := hd
    exact List.mem_map.mpr ⟨ty, hty, rfl⟩
  | custom path =>
    rw [paramCalls] at hd
    rw [calls]
    by_cases hmem : path.last ∈ active
    · rw [if_pos hmem] at hd
      cases hd
    · rw [if_neg hmem] at hd ⊢
      cases hg : T.get path.last with
      | none =>
        rw [hg] at hd
        cases hd
      | some e =>
        rw [hg] at hd
        cases e with
        | enum => cases hd
        | udt underlying =>
          rw [List.mem_singleton.mp hd]
          exact List.mem_singleton_self _
        | struct fields =>
          dsimp only at hd ⊢
          obtain ⟨field, hfield, rfl⟩ := List.mem_map.mp hd
          exact List.mem_map.mpr ⟨field.ty, List.mem_map_of_mem hfield, rfl⟩
  | _ => cases hd

/-- `type_to_abi_param` answers when its calls do. -/
theorem isSome_typeToAbiParam (isKeyword : SolIdent → Bool) (rec : String × Call → Option AbiParam)
    (c : String × Call) (h : ∀ b ∈ paramCalls T isKeyword c, (rec b).isSome = true) :
    (T.typeToAbiParam isKeyword rec c).isSome = true := by
  obtain ⟨name, ty, active⟩ := c
  cases ty with
  | array ty size =>
    rw [paramCalls, List.forall_mem_singleton] at h
    obtain ⟨inner, hinner⟩ := Option.isSome_iff_exists.mp h
    simp [typeToAbiParam, hinner]
  | tuple types =>
    rw [paramCalls, List.forall_mem_map] at h
    obtain ⟨inner, hinner⟩ := Option.isSome_iff_exists.mp (isSome_mapM_iff.mpr h)
    rw [typeToAbiParam, hinner]
    rfl
  | custom path =>
    rw [paramCalls] at h
    rw [typeToAbiParam]
    by_cases hmem : path.last ∈ active
    · simp [hmem]
    · simp only [hmem, if_false] at h ⊢
      cases hd : T.get path.last with
      | none => rfl
      | some d =>
        rw [hd] at h
        cases d with
        | enum => rfl
        | udt underlying => exact h _ (by simp)
        | struct fields =>
          dsimp only at h ⊢
          rw [List.forall_mem_map] at h
          obtain ⟨inner, hinner⟩ := Option.isSome_iff_exists.mp (isSome_mapM_iff.mpr h)
          rw [hinner]
          rfl
  | _ => rfl

/-! ### When the calls end -/

/-- A type's calls end when those of the names in it do. -/
theorem acc_of_customs (ty : SolidityType) (active : List SolIdent)
    (h : ∀ path ∈ ty.customs, Acc (CalledBy T.calls) ⟨.custom path, active⟩) :
    Acc (CalledBy T.calls) ⟨ty, active⟩ := by
  revert h
  refine @SolidityType.induction_on (fun ty => (∀ path ∈ ty.customs,
    Acc (CalledBy T.calls) ⟨.custom path, active⟩) → Acc (CalledBy T.calls) ⟨ty, active⟩)
    ?_ ?_ ?_ ?_ ?_ ?_ ?_ ?_ ?_ ?_ ?_ ?_ ty
  case refine_8 =>
    intro ty size ih h
    refine Acc.intro _ fun c hc => ?_
    rw [List.mem_singleton.mp hc]
    exact ih h
  case refine_9 =>
    intro types ih h
    refine Acc.intro _ fun c hc => ?_
    obtain ⟨ty, hty, rfl⟩ := List.mem_map.mp hc
    exact ih ty hty fun path hp => h path (SolidityType.mem_customsOf.mpr ⟨ty, hty, hp⟩)
  case refine_12 => exact fun path h => h path (List.mem_singleton_self path)
  all_goals
    intros
    exact Acc.intro _ fun c hc => absurd hc List.not_mem_nil

/-- The calls of a name that reaches no cycle of value types end, whatever is being expanded. The
outer induction is on the structs not entered yet, the inner one follows the value types. -/
theorem acc_custom (n : ℕ) : ∀ (active : List SolIdent) (path : SolPath), unmarked T.names active = n →
    T.NoAliasCycle (.custom path) → Acc (CalledBy T.calls) ⟨.custom path, active⟩ := by
  induction n using Nat.strongRecOn with
  | ind n ih =>
    intro active path hn hpath
    have halias : Acc (fun b a => T.Aliases a b) path.last := by
      refine acc_of_no_cycle T.names (fun a b hab => hab.refers.mem_names) fun b hb => ?_
      refine hpath path (by simp [SolidityType.customs]) b ?_
      exact ReflTransGen.mono (fun _ _ => Aliases.refers) _ _ hb
    generalize hname : path.last = name at halias
    induction halias generalizing path with
    | intro name _ ihalias =>
      refine Acc.intro _ fun c hc => ?_
      rw [CalledBy, calls] at hc
      by_cases hmem : path.last ∈ active
      · rw [if_pos hmem] at hc
        cases hc
      · rw [if_neg hmem] at hc
        cases hd : T.get path.last with
        | none =>
          rw [hd] at hc
          cases hc
        | some d =>
          rw [hd] at hc
          cases d with
          | enum => cases hc
          | udt underlying =>
            rw [List.mem_singleton.mp hc]
            have hty : underlying ∈ T.typesOf path.last := by simp [typesOf, hd]
            refine acc_of_customs underlying active fun p hp => ?_
            refine ihalias p.last ?_ p ((hpath.typesOf hty).of_mem ?_) rfl
            · exact hname ▸ ⟨underlying, hd, p, hp, rfl⟩
            · exact fun q hq => List.mem_singleton.mp hq ▸ hp
          | struct fields =>
            obtain ⟨ty, hty, rfl⟩ := List.mem_map.mp hc
            have hin : ty ∈ T.typesOf path.last := by simpa [typesOf, hd] using hty
            refine acc_of_customs ty _ fun p hp => ih _ ?_ _ p rfl ((hpath.typesOf hin).of_mem ?_)
            · rw [← hn]
              exact unmarked_cons_lt (mem_names_of_get hd) hmem
            · exact fun q hq => List.mem_singleton.mp hq ▸ hp

theorem get_eq_of_cycle {a : SolIdent} (ha : TransGen T.Aliases a a) : ∃ u, T.get a = some (.udt u) := by
  obtain ⟨b, ⟨u, hu, -⟩, -⟩ := TransGen.head'_iff.mp ha
  exact ⟨u, hu⟩

/-- A cycle of value types avoids every mark on structs. -/
theorem exists_walk_of_cycle {a : SolIdent} (ha : TransGen T.Aliases a a) {active : List SolIdent}
    (hactive : ∀ s ∈ active, ∀ u, T.get s ≠ some (.udt u)) :
    ∃ b, T.Aliases a b ∧ b ∉ active ∧ ReflTransGen (Avoiding T.Refers active) b a := by
  obtain ⟨u, hu⟩ := get_eq_of_cycle ha
  obtain ⟨b, hab, hba⟩ := TransGen.head'_iff.mp ha
  -- Every element of the cycle is a value type.
  have hudt : ∀ x, ReflTransGen T.Aliases x a → x ∉ active := by
    intro x hx hmem
    rcases ReflTransGen.cases_head hx with rfl | ⟨z, ⟨v, hv, -⟩, -⟩
    · exact hactive _ hmem u hu
    · exact hactive _ hmem v hv
  refine ⟨b, hab, hudt b hba, ?_⟩
  clear hab
  induction hba using ReflTransGen.head_induction_on with
  | refl => exact .refl
  | head hxy hya ih => exact .head ⟨hxy.refers, hudt _ hya⟩ ih

/-- From a name that is not being expanded, a walk that reaches a cycle of value types can be followed
by the calls: they do not end. The marks on the way are structs, so no value type is ever marked. -/
theorem not_acc_of_cycle {a : SolIdent} (ha : TransGen T.Aliases a a) {c : Call}
    (hacc : Acc (CalledBy T.calls) c) (hactive : ∀ s ∈ c.active, ∀ u, T.get s ≠ some (.udt u)) :
    ∀ path ∈ c.ty.customs, path.last ∉ c.active →
      ¬ ReflTransGen (Avoiding T.Refers c.active) path.last a := by
  induction hacc with
  | intro c _ ih =>
    obtain ⟨ty, active⟩ := c
    intro path hpath hmem hwalk
    cases ty with
    | array ty size => exact ih ⟨ty, active⟩ (List.mem_singleton_self _) hactive path hpath hmem hwalk
    | tuple types =>
      obtain ⟨ty, hty, hp⟩ := SolidityType.mem_customsOf.mp hpath
      exact ih ⟨ty, active⟩ (List.mem_map.mpr ⟨ty, hty, rfl⟩) hactive path hp hmem hwalk
    | custom path' =>
      obtain rfl := List.mem_singleton.mp hpath
      obtain ⟨ua, hua⟩ := get_eq_of_cycle ha
      have hcalls : ∀ d ∈ T.calls ⟨.custom path, active⟩, CalledBy T.calls d ⟨.custom path, active⟩ :=
        fun d hd => hd
      have hstep := exists_step_avoiding hwalk
      rw [calls, if_neg hmem] at hcalls
      cases hd : T.get path.last with
      | none =>
        rcases hstep with heq | ⟨b, ⟨⟨ty, hty, -⟩, -⟩, -⟩
        · rw [← heq, hua] at hd
          cases hd
        · simp [typesOf, hd] at hty
      | some d =>
        rw [hd] at hcalls
        cases d with
        | enum =>
          rcases hstep with heq | ⟨b, ⟨⟨ty, hty, -⟩, -⟩, -⟩
          · rw [← heq, hua] at hd
            cases hd
          · simp [typesOf, hd] at hty
        | udt underlying =>
          have hcall := hcalls ⟨underlying, active⟩ (List.mem_singleton_self _)
          rcases hstep with heq | ⟨b, ⟨⟨ty, hty, p, hp, rfl⟩, hb⟩, hrest⟩
          · obtain ⟨b, ⟨u, hu, p, hp, rfl⟩, hback⟩ := exists_walk_of_cycle ha hactive
            rw [heq, hd] at hu
            cases hu
            exact ih _ hcall hactive p hp hback.1 hback.2
          · have hin : ty = underlying := by simpa [typesOf, hd] using hty
            subst hin
            have hweak : ∀ s ∈ active, s ∈ path.last :: active := fun s hs => List.mem_cons_of_mem _ hs
            refine ih _ hcall hactive p hp (fun h => hb (hweak _ h)) ?_
            exact ReflTransGen.mono (fun _ _ => Avoiding.mono hweak) _ _ hrest
        | struct fields =>
          rcases hstep with heq | ⟨b, ⟨⟨ty, hty, p, hp, rfl⟩, hb⟩, hrest⟩
          · rw [← heq, hua] at hd
            cases hd
          · have hin : ty ∈ fieldTypes fields := by simpa [typesOf, hd] using hty
            refine ih _ (hcalls _ (List.mem_map.mpr ⟨ty, hin, rfl⟩)) (fun s hs u hu => ?_) p hp hb hrest
            rcases List.mem_cons.mp hs with rfl | hs
            · rw [hd] at hu
              cases hu
            · exact hactive s hs u hu
    | _ => cases hpath

/-- **The calls end** exactly where no value type in reach comes back to itself. -/
theorem acc_calls_iff (ty : SolidityType) : Acc (CalledBy T.calls) ⟨ty, []⟩ ↔ T.NoAliasCycle ty := by
  constructor
  · intro hacc path hpath a hreach ha
    refine not_acc_of_cycle ha hacc (by simp) path hpath List.not_mem_nil ?_
    exact ReflTransGen.mono (fun _ _ h => ⟨h, List.not_mem_nil⟩) _ _ hreach
  · intro h
    refine acc_of_customs ty [] fun path hpath => acc_custom _ [] path rfl (h.of_mem fun p hp => ?_)
    rwa [List.mem_singleton.mp hp]

theorem noAliasCycle_of_acyclic (hT : T.Acyclic) (ty : SolidityType) : T.NoAliasCycle ty :=
  fun _ _ a _ ha => hT a (TransGen.mono (fun _ _ => Aliases.refers) _ _ ha)

/-! ### Full expansion -/

/-- The structs being expanded lead to the names that are still to be expanded. -/
def Ancestors (T : CustomTypes) (active : List SolIdent) (ty : SolidityType) : Prop :=
  ∀ s ∈ active, ∀ path ∈ ty.customs, TransGen T.Refers s path.last

/-- The names in a declaration are below the structs above it, and below the declaration. -/
theorem Ancestors.typesOf {active : List SolIdent} {path : SolPath} {ty : SolidityType}
    (h : T.Ancestors active (.custom path)) (hty : ty ∈ T.typesOf path.last) :
    T.Ancestors (path.last :: active) ty := by
  intro s hs p hp
  have hrefers : T.Refers path.last p.last := ⟨ty, hty, p, hp, rfl⟩
  rcases List.mem_cons.mp hs with rfl | hs
  · exact .single hrefers
  · exact (h s hs path (by simp [SolidityType.customs])).tail hrefers

theorem Ancestors.mono {active active' : List SolIdent} {ty : SolidityType} (h : T.Ancestors active ty)
    (hsub : ∀ s ∈ active', s ∈ active) : T.Ancestors active' ty := fun s hs => h s (hsub s hs)

/-- Where no declaration comes back to itself, the canonical name is the text of the full expansion. -/
theorem resolve_eq_expand (hT : T.Acyclic) (depth : ℕ) {ty : SolidityType} {active : List SolIdent}
    (h : T.Ancestors active ty) :
    unroll T.resolve depth ⟨ty, active⟩ = (T.expand depth ty).map SolidityType.text := by
  induction depth generalizing ty active with
  | zero => rfl
  | succ depth ih =>
    rw [expand, unroll, unroll]
    -- A list of types, as the components of a tuple or the fields of a struct.
    have hlist : ∀ (types : List SolidityType) (active : List SolIdent),
        (∀ ty ∈ types, T.Ancestors active ty) →
        tupleName (unroll T.resolve depth) types active =
          ((types.mapM (unroll T.expandStep depth)).map SolidityType.tuple).map SolidityType.text := by
      intro types active htypes
      rw [tupleName, mapM_eq_map fun ty hty => ih (htypes ty hty)]
      change ((types.mapM (unroll T.expandStep depth)).map _).bind _ = _
      cases types.mapM (unroll T.expandStep depth) with
      | none => rfl
      | some es => simp [SolidityType.text, SolidityType.texts_eq_map]
    cases ty with
    | array ty size =>
      have hinner := @ih ty active h
      rw [expand] at hinner
      rw [resolve, expandStep, hinner]
      cases unroll T.expandStep depth ty with
      | none => rfl
      | some e => cases size <;> rfl
    | tuple types =>
      refine (hlist types active fun ty hty s hs path hp => ?_).trans ?_
      · exact h s hs path (SolidityType.mem_customsOf.mpr ⟨ty, hty, hp⟩)
      · rw [expandStep]
        cases types.mapM (unroll T.expandStep depth) <;> rfl
    | custom path =>
      have hmem : path.last ∉ active := fun hs => hT _ (h _ hs path (by simp [SolidityType.customs]))
      rw [resolve, expandStep, if_neg hmem]
      cases hd : T.get path.last with
      | none => rfl
      | some d =>
        cases d with
        | enum => rfl
        | udt underlying =>
          have hty : underlying ∈ T.typesOf path.last := by simp [CustomTypes.typesOf, hd]
          exact ih ((h.typesOf hty).mono fun s hs => List.mem_cons_of_mem _ hs)
        | struct fields =>
          have htypes : T.typesOf path.last = fieldTypes fields := by simp [CustomTypes.typesOf, hd]
          refine (hlist (fieldTypes fields) _ fun ty hty => h.typesOf (htypes ▸ hty)).trans ?_
          dsimp only
          cases (fieldTypes fields).mapM (unroll T.expandStep depth) <;> rfl
    | int size => cases size <;> rfl
    | uint size => cases size <;> rfl
    | _ => rfl

/-- No declared name is left in a full expansion. -/
theorem expanded_of_expand {depth : ℕ} {ty e : SolidityType} (h : T.expand depth ty = some e) :
    T.Expanded e := by
  induction depth generalizing ty e with
  | zero => cases h
  | succ depth ih =>
    rw [expand, unroll] at h
    have hlist : ∀ (types : List SolidityType) {es : List SolidityType},
        types.mapM (unroll T.expandStep depth) = some es → T.Expanded (.tuple es) := by
      intro types es hes path hpath
      obtain ⟨e, he, hp⟩ := SolidityType.mem_customsOf.mp hpath
      obtain ⟨ty, -, hty⟩ := exists_of_mem_mapM hes he
      exact ih hty path hp
    cases ty with
    | array ty size =>
      obtain ⟨inner, hinner, h⟩ := Option.bind_eq_some_iff.mp h
      obtain rfl := Option.some.inj h
      exact @ih ty inner hinner
    | tuple types =>
      obtain ⟨es, hes, h⟩ := Option.bind_eq_some_iff.mp h
      obtain rfl := Option.some.inj h
      exact hlist types hes
    | custom path =>
      rw [expandStep] at h
      cases hd : T.get path.last with
      | none =>
        rw [hd] at h
        obtain rfl := Option.some.inj h
        exact fun p hp => List.mem_singleton.mp hp ▸ hd
      | some d =>
        rw [hd] at h
        cases d with
        | enum =>
          obtain rfl := Option.some.inj h
          exact fun p hp => absurd hp List.not_mem_nil
        | udt underlying => exact ih h
        | struct fields =>
          obtain ⟨es, hes, h⟩ := Option.bind_eq_some_iff.mp h
          obtain rfl := Option.some.inj h
          exact hlist _ hes
    | _ =>
      obtain rfl := Option.some.inj h
      exact fun p hp => absurd hp List.not_mem_nil

/-- Without cycles the full expansion is found, and the canonical name is its text. -/
theorem exists_expand (hT : T.Acyclic) (ty : SolidityType) :
    ∃ depth e, T.expand depth ty = some e ∧ T.canonicalName depth ty = some e.text := by
  have hacc := (acc_calls_iff ty).mpr (noAliasCycle_of_acyclic hT ty)
  obtain ⟨depth, hdepth⟩ := terminates_of_acc (fun rec c => (isSome_resolve_iff rec c).mpr) hacc
  have heq : unroll T.resolve depth ⟨ty, []⟩ = (T.expand depth ty).map SolidityType.text :=
    resolve_eq_expand hT depth (by simp [Ancestors])
  rw [heq, Option.isSome_map] at hdepth
  obtain ⟨e, he⟩ := Option.isSome_iff_exists.mp hdepth
  refine ⟨depth, e, he, ?_⟩
  rw [canonicalName, heq, he]
  rfl

/-- For a table of declarations and a type, the canonical name, the dynamicity and the ABI parameter are
found, and without cycles the name is that of a type with no declared name left in it, exactly where no value
type in reach comes back to itself. -/
theorem ends_iff (T : CustomTypes) (isKeyword : SolIdent → Bool) (ty : SolidityType) :
    ((∃ depth, (T.canonicalName depth ty).isSome = true) ∧
      (∃ depth, (T.isAbiDynamic depth ty).isSome = true) ∧
      (∀ name, ∃ depth, (T.abiParam isKeyword depth name ty).isSome = true) ∧
      (T.Acyclic → ∃ depth e, T.expand depth ty = some e ∧ T.canonicalName depth ty = some e.text ∧
        T.Expanded e)) ↔
    T.NoAliasCycle ty := by
  constructor
  · rintro ⟨hname, -, -, -⟩
    exact (acc_calls_iff ty).mp (acc_of_terminates (fun rec c => (isSome_resolve_iff rec c).mp) hname)
  · intro h
    have hacc := (acc_calls_iff ty).mpr h
    refine ⟨?_, ?_, fun name => ?_, fun hT => ?_⟩
    · exact terminates_of_acc (fun rec c => (isSome_resolve_iff rec c).mpr) hacc
    · exact terminates_of_acc isSome_isDynamic hacc
    · exact terminates_of_acc (isSome_typeToAbiParam isKeyword)
        (acc_of_map (f := Prod.snd) (snd_mem_calls isKeyword) (c := (name, ⟨ty, []⟩)) hacc)
    · obtain ⟨depth, e, he, hname⟩ := exists_expand hT ty
      exact ⟨depth, e, he, hname, expanded_of_expand he⟩

/-- In a table that comes from the parser no value type names a declaration. -/
theorem noAliasCycle_of_parsed {items : List (SolIdent × CustomDef)} (hparsed : Parsed items)
    (hT : visitItems default items = .ok T) (ty : SolidityType) : T.NoAliasCycle ty := by
  intro path _ a _ ha
  obtain ⟨b, ⟨underlying, hget, p, hp, -⟩, -⟩ := TransGen.head'_iff.mp ha
  rcases mem_items_of_visitItems hT (mem_defs_of_get hget) with hdefault | hitem
  · exact absurd hdefault List.not_mem_nil
  · rw [hparsed a underlying hitem] at hp
    exact absurd hp List.not_mem_nil

/-- **Expansion of declared types.** For the table of a parsed file and a type, whatever cycles there are, the
canonical name, the dynamicity and the ABI parameter are found. Without cycles the name is that of the full
expansion, in which no declared name is left. -/
theorem expansion_ends {items : List (SolIdent × CustomDef)} (hparsed : Parsed items) {T : CustomTypes}
    (hT : visitItems default items = .ok T) (isKeyword : SolIdent → Bool) (ty : SolidityType) :
    (∃ depth, (T.canonicalName depth ty).isSome = true) ∧
      (∃ depth, (T.isAbiDynamic depth ty).isSome = true) ∧
      (∀ name, ∃ depth, (T.abiParam isKeyword depth name ty).isSome = true) ∧
      (T.Acyclic → ∃ depth e, T.expand depth ty = some e ∧ T.canonicalName depth ty = some e.text ∧
        T.Expanded e) :=
  (ends_iff T isKeyword ty).mpr (noAliasCycle_of_parsed hparsed hT ty)

/-- `struct Order { Book book; Price price; }`, `struct Book { Order[] orders; }`, `type Price is uint128;`. -/
def bookItems : List (SolIdent × CustomDef) :=
  [("Order", .struct [⟨some "book", .custom ⟨[], "Book"⟩⟩, ⟨some "price", .custom ⟨[], "Price"⟩⟩]),
   ("Book", .struct [⟨some "orders", .array (.custom ⟨[], "Order"⟩) none⟩]),
   ("Price", .udt (.uint (some 128)))]

theorem expansion_ends_book :
    ∃ T, visitItems default bookItems = .ok T ∧
      ∃ depth, (T.canonicalName depth (.custom ⟨[], "Order"⟩)).isSome = true := by
  have hparsed : Parsed bookItems := by
    intro name underlying h
    simp only [bookItems, List.mem_cons, Prod.mk.injEq, reduceCtorEq, and_false, false_or, CustomDef.udt.injEq,
      List.not_mem_nil, or_false] at h
    rw [h.2]
    rfl
  have hT : visitItems default bookItems = .ok ⟨bookItems.reverse, by decide⟩ := rfl
  exact ⟨_, hT, (expansion_ends hparsed hT (fun _ => false) (.custom ⟨[], "Order"⟩)).1⟩

/-- Structs that name each other end: a struct that is being expanded keeps its bare name. -/
example : (⟨[("A", .struct [⟨some "b", .custom ⟨[], "B"⟩⟩, ⟨some "v", .uint (some 64)⟩]),
    ("B", .struct [⟨some "a", .custom ⟨[], "A"⟩⟩])], by decide⟩ : CustomTypes).canonicalName 5
    (.custom ⟨[], "A"⟩) = some "((A),uint64)" := by decide +kernel

end CustomTypes

end PvmContract.Sol
