import PvmContract.Macros.UniverseLaws
import PvmContract.Types.UncheckedLaws

/-!
# How far the unchecked decoders read

`Ty.reach` is the number of bytes that the unchecked decoder of a type reads from
its offset on, and `Ty.unchecked` is the law of the unchecked decoders of all
types: they read these bytes and no others, and return what the checked ones do.
-/

namespace PvmContract.Macros

open Data Run PvmContract.Types

/-! ### The static expansion -/

/-- What the checked static expansion returns, the sequence of unchecked decoders returns. -/
theorem staticRead_confirms {Ts : List SolCodec} {g : List UInt8 → ℕ → Option (Types.Fields Ts)} {r : ℕ}
    (h : UncheckedFields Ts g r) {p : Profile} {input : List UInt8} {off ho : ℕ} {vals : Types.Fields Ts}
    (hs : IsSlice input) (hin : Inside input (off + ho) r) (hret : Returns (staticRead p input off Ts ho) vals) :
    g input (off + ho) = some vals := by
  induction h generalizing ho with
  | nil => exact congrArg some (returns_pure.mp hret)
  | @cons T Ts f r g s hf hd head tail ih =>
    rw [staticRead] at hret
    obtain ⟨pos, hpos, hret⟩ := returns_bind.mp hret
    obtain ⟨val, hval, hret⟩ := returns_bind.mp hret
    obtain ⟨vals', hvals, hret⟩ := returns_bind.mp hret
    have hin' : Inside input (off + ho) r := hin.mono (k := 0) fun _ => by omega
    have hs' := hs
    unfold IsSlice at hs'
    have hhead := head.confirms_at hs hin' (fun hr => by
      rcases hin' with h0 | hle
      · omega
      · exact usize_of_returns hpos (by omega)) hval
    rw [SolCodec.slotSize_static hd] at hin ⊢
    have htail : g input (off + (ho + T.headSize)) = some vals' := ih (by
      rw [← Nat.add_assoc]
      exact hin.mono fun hs => by rw [if_neg (by omega)]; exact Nat.le_max_right _ _) hvals
    rw [← Nat.add_assoc] at htail
    change (f input (off + ho)).bind (fun val => (g input (off + ho + T.headSize)).bind fun vals =>
      some (val, vals)) = some vals
    rw [hhead, Option.bind_some, htail]
    exact congrArg some (returns_pure.mp hret)

/-- **Structs**: a struct reads as far as the tuple of its fields. -/
theorem unchecked_expandStatic (idents : List (Option String)) {fields : List Field}
    {g : List UInt8 → ℕ → Option (Types.Fields (implOf fields))} {r : ℕ} (h : UncheckedFields (implOf fields) g r) :
    (expandStatic idents fields).decodeUnchecked = some (fun input off => g input (off + 0)) ∧
      Unchecked (expandStatic idents fields) (fun input off => g input (off + 0)) r := by
  constructor
  · change (staticUnchecked (implOf fields)).map _ = _
    rw [staticUnchecked_eq h.static, h.tupleUnchecked_eq]
    rfl
  · exact ⟨h.extent, fun _ _ off _ hs hin hret => staticRead_confirms h hs (show Inside _ (off + 0) r from hin) hret⟩

/-- A tuple has an unchecked decoder only if its fields have theirs. -/
theorem isSome_of_tupleUnchecked {Ts : List SolCodec} (h : (tupleUnchecked Ts).isSome = true) :
    ∀ T ∈ Ts, T.decodeUnchecked.isSome = true := by
  induction Ts with
  | nil => simp
  | cons T Ts ih =>
    rw [tupleUnchecked] at h
    cases hf : T.decodeUnchecked with
    | none => simp [hf] at h
    | some f =>
      cases hg : tupleUnchecked Ts with
      | none => simp [hf, hg] at h
      | some g =>
        intro T' hT'
        rcases List.mem_cons.mp hT' with rfl | hT'
        · rw [hf, Option.isSome_some]
        · exact ih (by rw [hg, Option.isSome_some]) T' hT'

theorem isSome_of_staticUnchecked {Ts : List SolCodec} (h : (staticUnchecked Ts).isSome = true) :
    ∀ T ∈ Ts, T.decodeUnchecked.isSome = true := by
  induction Ts with
  | nil => simp
  | cons T Ts ih =>
    rw [staticUnchecked] at h
    cases hf : T.decodeUnchecked with
    | none => simp [hf] at h
    | some f =>
      cases hg : staticUnchecked Ts with
      | none => simp [hf, hg] at h
      | some g =>
        intro T' hT'
        rcases List.mem_cons.mp hT' with rfl | hT'
        · rw [hf, Option.isSome_some]
        · exact ih (by rw [hg, Option.isSome_some]) T' hT'

namespace Ty

mutual

/-- How far the unchecked decoder of a type reads. -/
def reach : Ty → ℕ
  | unit => 0
  | array elem n => arrayReach elem.impl.slotSize (reach elem) 0 n
  | tuple elems => reachs elems
  | struct _ fields => reachs fields
  | _ => 32

/-- How far the unchecked decoders of a sequence read. -/
def reachs : List Ty → ℕ
  | [] => 0
  | t :: ts => max (reach t) (if reachs ts = 0 then 0 else t.impl.slotSize + reachs ts)

end

theorem uncheckedFields {ts : List Ty}
    (h : ∀ t ∈ ts, ∀ f, t.impl.decodeUnchecked = some f → t.impl.isDynamic = false ∧ Unchecked t.impl f (reach t))
    (hsome : ∀ T ∈ impls ts, T.decodeUnchecked.isSome = true) :
    ∃ g, UncheckedFields (impls ts) g (reachs ts) := by
  induction ts with
  | nil => exact ⟨_, .nil⟩
  | cons t ts ih =>
    obtain ⟨f, hf⟩ := Option.isSome_iff_exists.mp (hsome t.impl List.mem_cons_self)
    obtain ⟨hd, hu⟩ := h t List.mem_cons_self f hf
    obtain ⟨g, hg⟩ := ih (fun t' ht' => h t' (List.mem_cons_of_mem _ ht')) fun T hT =>
      hsome T (List.mem_cons_of_mem _ hT)
    exact ⟨_, .cons hf hd hu hg⟩

theorem of_impl {c d : SolCodec} {r : ℕ} (hcd : c = d)
    (h : ∀ f, d.decodeUnchecked = some f → d.isDynamic = false ∧ Unchecked d f r) :
    ∀ f, c.decodeUnchecked = some f → c.isDynamic = false ∧ Unchecked c f r := by
  subst hcd
  exact h

/-- **Every unchecked decoder** reads as far as `reach`, and confirms the checked one. -/
theorem unchecked {t : Ty} (h : t.Compiles = true) :
    ∀ f, t.impl.decodeUnchecked = some f → t.impl.isDynamic = false ∧ Unchecked t.impl f (reach t) := by
  refine induction_of_all (motive := fun t => ∀ f, t.impl.decodeUnchecked = some f →
      t.impl.isDynamic = false ∧ Unchecked t.impl f (reach t)) (fun k f hf => ?_) (fun _ f hf => ?_)
    (fun n hn f hf => ?_) (fun f hf => absurd hf (Option.some_ne_none f).symm) (fun f hf => absurd hf (Option.some_ne_none f).symm)
    (fun _ _ f hf => absurd hf (Option.some_ne_none f).symm) (fun elem n _ ih f hf => ?_) (fun elems _ ih g hg => ?_)
    (fun idents fields _ ih f hf => ?_) (fun _ _ f hf => absurd hf (Option.some_ne_none f).symm) t h
  · cases k <;> obtain rfl := Option.some.inj hf <;> first
      | exact ⟨rfl, unchecked_staticType reads_getByte (by omega) (by omega)⟩
      | exact ⟨rfl, unchecked_staticType reads_getPair (by omega) (by omega)⟩
      | exact ⟨rfl, unchecked_staticType (reads_getLow (by omega)) (by omega) (by omega)⟩
      | exact ⟨rfl, unchecked_staticType (reads_getRangeAt (by omega)) (by omega) (by omega)⟩
  · obtain rfl := Option.some.inj hf
    exact ⟨rfl, unchecked_unit⟩
  · obtain rfl := Option.some.inj hf
    simp [compilesHere] at hn
    exact ⟨rfl, unchecked_bytesN (by omega) (by omega)⟩
  · obtain ⟨f', hf', hloop⟩ := Option.map_eq_some_iff.mp hf
    obtain ⟨hd, hu⟩ := ih f' hf'
    obtain rfl := hloop
    exact ⟨hd, unchecked_array hu hd n⟩
  · have hsome := isSome_of_tupleUnchecked (Option.isSome_of_eq_some hg)
    obtain ⟨g', hfields⟩ := uncheckedFields ih hsome
    obtain rfl := Option.some.inj (hg.symm.trans hfields.tupleUnchecked_eq)
    exact ⟨hfields.static, Types.unchecked_tuple hfields⟩
  · cases hn : needsDynamic (rusts fields) with
    | true =>
      have himpl : (struct idents fields).impl = expandDynamic idents (rusts fields) := if_pos hn
      refine of_impl himpl (fun f hf => absurd hf (Option.some_ne_none f).symm) f hf
    | false =>
      have himpl : (struct idents fields).impl = expandStatic idents (rusts fields) := if_neg (by simp [hn])
      refine of_impl himpl (fun f hf => ?_) f hf
      obtain ⟨f', hf', -⟩ := Option.map_eq_some_iff.mp hf
      obtain ⟨g, hfields⟩ := uncheckedFields ih (isSome_of_staticUnchecked (Option.isSome_of_eq_some hf'))
      obtain ⟨hdec, hu⟩ := unchecked_expandStatic idents hfields
      obtain rfl := Option.some.inj (hf.symm.trans hdec)
      exact ⟨rfl, hu⟩

end Ty

end PvmContract.Macros
