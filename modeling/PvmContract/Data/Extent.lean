import PvmContract.Data.Buffer

/-!
# How far a reader reads

A reader takes a value out of a buffer at an offset, and fails only where it
reaches out of bounds. `Extent g r` says that `g` looks at the `r` bytes from its
offset on and at no others: it succeeds where they are in the buffer, fails where
the last word of them is not, and depends on nothing else. The rules compute the
extent of a sequence of readers.
-/

namespace PvmContract.Data

/-- The `r` bytes from `off` on are in the input. Where nothing is read, the offset does not matter. -/
def Inside (input : List UInt8) (off r : ℕ) : Prop := r = 0 ∨ off + r ≤ input.length

theorem Inside.mono {input : List UInt8} {off k r s : ℕ} (h : Inside input off s) (hle : 0 < r → k + r ≤ s) :
    Inside input (off + k) r := by
  rcases Nat.eq_zero_or_pos r with h0 | hpos
  · exact .inl h0
  · have hks := hle hpos
    rcases h with h0 | hin
    · omega
    · exact .inr (by omega)

/-- **The extent of a reader**: `g` reads `r` bytes, the last of them in the last of the words. -/
structure Extent {α : Type} (g : List UInt8 → ℕ → Option α) (r : ℕ) : Prop where
  /-- It succeeds where these bytes are in the input. -/
  inside : ∀ input off, Inside input off r → ∃ a, g input off = some a
  /-- It reaches out of bounds where the last word is not in the input. -/
  outside : ∀ input off, 0 < r → input.length + 32 ≤ off + r → g input off = none
  /-- The same bytes give the same value. -/
  congr : ∀ input input' off off', Inside input off r → Inside input' off' r →
    (input.drop off).take r = (input'.drop off').take r → g input off = g input' off'

/-- The bytes of a part agree when those of the whole do. -/
theorem take_drop_congr {input input' : List UInt8} {off off' k r s : ℕ} (hle : k + r ≤ s)
    (h : (input.drop off).take s = (input'.drop off').take s) :
    (input.drop (off + k)).take r = (input'.drop (off' + k)).take r := by
  have hpart : ∀ (bs : List UInt8) (i : ℕ), (bs.drop (i + k)).take r = (((bs.drop i).take s).drop k).take r := by
    intro bs i
    rw [List.drop_take, List.drop_drop, List.take_take, Nat.min_eq_left (by omega)]
  rw [hpart, hpart, h]

namespace Extent

variable {α β : Type} {g : List UInt8 → ℕ → Option α} {g' : List UInt8 → ℕ → Option β} {r s : ℕ}

/-- The same reader in another form. -/
theorem of_eq {h : List UInt8 → ℕ → Option α} (hg : Extent g r) (heq : ∀ input off, h input off = g input off) :
    Extent h r := by
  rw [show h = g from funext fun input => funext fun off => heq input off]
  exact hg

/-- A reader that reads nothing. -/
theorem pure (a : α) : Extent (fun _ _ => some a) 0 where
  inside _ _ _ := ⟨a, rfl⟩
  outside _ _ h0 := absurd h0 (lt_irrefl 0)
  congr _ _ _ _ _ _ _ := rfl

/-- Some bytes of a word. -/
theorem getRange {skip k : ℕ} (hk : 0 < k) (h32 : skip + k ≤ 32) :
    Extent (fun input off => Data.getRange input (off + skip) (off + (skip + k))) 32 where
  inside input off hin := by
    rcases hin with h0 | hin
    · omega
    · exact ⟨_, getRange_eq_some_iff.mpr ⟨by omega, by omega, rfl⟩⟩
  outside input off _ hout := by
    unfold Data.getRange
    rw [if_neg (by omega)]
  congr input input' off off' hin hin' h := by
    have hsub : ∀ i : ℕ, i + (skip + k) - (i + skip) = k := fun i => by omega
    unfold Data.getRange
    rw [hsub, hsub, take_drop_congr h32 h]
    rcases hin with h0 | hin
    · omega
    · rcases hin' with h0 | hin'
      · omega
      · rw [if_pos (by omega), if_pos (by omega)]

/-- What is done with the value does not change the extent. -/
theorem map (h : Extent g r) (f : α → β) : Extent (fun input off => (g input off).map f) r where
  inside input off hin := by
    obtain ⟨a, ha⟩ := h.inside input off hin
    exact ⟨f a, by rw [ha, Option.map_some]⟩
  outside input off hr hout := by rw [h.outside input off hr hout, Option.map_none]
  congr input input' off off' hin hin' hbytes := by rw [h.congr input input' off off' hin hin' hbytes]

/-- A reader `k` bytes further on. -/
theorem shift (h : Extent g r) (k : ℕ) :
    Extent (fun input off => g input (off + k)) (if r = 0 then 0 else k + r) where
  inside input off hin := by
    refine h.inside input _ (hin.mono fun hr => ?_)
    rw [if_neg (by omega)]
  outside input off hr hout := by
    split_ifs at hr hout with h0
    · omega
    · exact h.outside input _ (by omega) (by omega)
  congr input input' off off' hin hin' hbytes := by
    by_cases h0 : r = 0
    · subst h0
      exact h.congr input input' _ _ (.inl rfl) (.inl rfl) rfl
    · rw [if_neg h0] at hin hin' hbytes
      exact h.congr input input' _ _ (hin.mono fun _ => le_refl _) (hin'.mono fun _ => le_refl _)
        (take_drop_congr (le_refl _) hbytes)

/-- Two readers at the same offset. -/
theorem seq (h : Extent g r) (h' : Extent g' s) :
    Extent (fun input off => (g input off).bind fun a => (g' input off).map fun b => (a, b)) (max r s) where
  inside input off hin := by
    obtain ⟨a, ha⟩ := h.inside input off (hin.mono (k := 0) fun _ => by omega)
    obtain ⟨b, hb⟩ := h'.inside input off (hin.mono (k := 0) fun _ => by omega)
    exact ⟨(a, b), by rw [ha, hb]; rfl⟩
  outside input off hr hout := by
    by_cases hle : r ≤ s
    · rw [Nat.max_eq_right hle] at hr hout
      rw [h'.outside input off hr hout]
      cases g input off <;> rfl
    · rw [Nat.max_eq_left (by omega)] at hr hout
      rw [h.outside input off hr hout]
      rfl
  congr input input' off off' hin hin' hbytes := by
    have hg := h.congr input input' off off' (hin.mono (k := 0) fun _ => by omega)
      (hin'.mono (k := 0) fun _ => by omega) (take_drop_congr (k := 0) (by omega) hbytes)
    have hg' := h'.congr input input' off off' (hin.mono (k := 0) fun _ => by omega)
      (hin'.mono (k := 0) fun _ => by omega) (take_drop_congr (k := 0) (by omega) hbytes)
    rw [hg, hg']

end Extent

end PvmContract.Data
