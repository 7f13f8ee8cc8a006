import PvmContract.Data.Extent
import PvmContract.Types.PrimitiveLaws
import PvmContract.Types.Sequences

/-!
# The unchecked decoders

`Unchecked` relates the two decoders of a type: the unchecked one reads `r` bytes
from its offset on, and where these are in the input it returns what the checked
one returns, if that returns anything. The rules follow the positions that arrays,
tuples and structs compute. Without overflow checks a position may be reduced
modulo `2 ^ 64`; then nothing is read there, since what is read is in the input.
-/

namespace PvmContract.Types

open Data Run

/-- **The unchecked decoder of a type**: it reads `r` bytes, and confirms the checked one. -/
structure Unchecked (T : SolCodec) (f : List UInt8 → ℕ → Option T.Carrier) (r : ℕ) : Prop where
  extent : Extent f r
  /-- What the checked decoder returns, the unchecked one does as well. -/
  confirms : ∀ p input off v, IsSlice input → Inside input off r →
    Returns (T.decodeAt p input off) v → f input off = some v

/-- Where the position is taken modulo `2 ^ 64`, the value is the one at the exact position. -/
theorem Unchecked.confirms_at {T : SolCodec} {f : List UInt8 → ℕ → Option T.Carrier} {r : ℕ}
    (h : Unchecked T f r) {p : Profile} {input : List UInt8} {pos q : ℕ} {v : T.Carrier} (hs : IsSlice input)
    (hin : Inside input pos r) (hpos : 0 < r → q = pos) (hret : Returns (T.decodeAt p input q) v) :
    f input pos = some v := by
  rcases Nat.eq_zero_or_pos r with rfl | hr
  · rw [← h.confirms p input q v hs (.inl rfl) hret]
    exact h.extent.congr input input pos q (.inl rfl) (.inl rfl) rfl
  · rw [hpos hr] at hret
    exact h.confirms p input pos v hs hin hret

/-- Plain arithmetic that returns gives the exact result where that fits. -/
theorem usize_of_returns {p : Profile} {n m : ℕ} (h : Returns (p.usize n) m) (hn : n < 2 ^ 64) : m = n := by
  rw [usize_of_lt hn] at h
  exact (returns_pure.mp h).symm

/-! ### One word -/

theorem unchecked_staticType {C : Type} {name : String} {encodeFn : C → List UInt8 → Option (List UInt8)}
    {get : Profile → List UInt8 → ℕ → Run (List UInt8)}
    {getUnchecked : List UInt8 → ℕ → Option (List UInt8)} {convert : List UInt8 → C} {skip k top : ℕ}
    (hget : Reads get getUnchecked skip k top) (hk : 0 < k) (h32 : skip + k ≤ 32) :
    Unchecked (staticType C name encodeFn get getUnchecked convert)
      (fun input offset => (getUnchecked input offset).map convert) 32 where
  extent := by
    have hext : Extent getUnchecked 32 := by
      rw [show getUnchecked = fun input off => getRange input (off + skip) (off + (skip + k)) from
        funext fun input => funext fun off => hget.unchecked input off]
      exact .getRange hk h32
    exact hext.map convert
  confirms p input off v hs hin hret := by
    have htop := hget.top_le
    unfold IsSlice at hs
    have hlt : off + top < 2 ^ 64 := by
      rcases hin with h0 | hin <;> omega
    have hret' : Returns (convert <$> get .checked input off) v := by
      cases p with
      | checked => exact hret
      | wrapping =>
        have hsafe := ((hget.safe 0 input off).mpr hlt).no_panic
        have hret' : Returns (convert <$> get .wrapping input off) v := hret
        rwa [hget.agrees input off hsafe] at hret'
    obtain ⟨bs, hbs, hv⟩ := returns_bind.mp (map_eq_andThen convert _ ▸ hret')
    change (getUnchecked input off).map convert = some v
    rw [hget.unchecked, ((hget.returns input off bs).mp hbs).2]
    exact congrArg some (returns_pure.mp hv)

theorem unchecked_bytesN {n : ℕ} (hn : 0 < n) (h32 : n ≤ 32) :
    Unchecked (bytesN n) (fun input offset => (uncheckedRange 0 n input offset).map (toByteArr n)) 32 :=
  have h : Unchecked (staticType (ByteArr n) "" (fun val => padRight val.1) (getRangeAt n)
      (uncheckedRange 0 n) (toByteArr n)) (fun input offset => (uncheckedRange 0 n input offset).map (toByteArr n))
      32 := unchecked_staticType (reads_getRangeAt h32) hn (by omega)
  ⟨h.extent, h.confirms⟩

theorem unchecked_unit : Unchecked unit (fun _ _ => some ()) 0 where
  extent := .pure ()
  confirms _ _ _ _ _ _ _ := rfl

/-! ### `[T; N]` -/

/-- What `n` elements from index `i` on read, behind the start of the array. -/
def arrayReach (slot r i n : ℕ) : ℕ := if n = 0 ∨ r = 0 then 0 else (i + n - 1) * slot + r

theorem arrayReach_succ (slot r i n : ℕ) :
    arrayReach slot r i (n + 1) = max (if r = 0 then 0 else i * slot + r) (arrayReach slot r (i + 1) n) := by
  have hi : i * slot ≤ (i + n) * slot := Nat.mul_le_mul_right slot (by omega)
  rcases Nat.eq_zero_or_pos n with rfl | hn
  · simp [arrayReach]
  · rw [arrayReach, arrayReach, show i + 1 + n - 1 = i + n by omega, show i + (n + 1) - 1 = i + n by omega]
    by_cases h0 : r = 0
    · simp [h0]
    · rw [if_neg (by omega), if_neg h0, if_neg (by omega), Nat.max_eq_right (by omega)]

section Arrays

variable {T : SolCodec} {f : List UInt8 → ℕ → Option T.Carrier} {r : ℕ} (h : Unchecked T f r)
  (hd : T.isDynamic = false)

include h hd

theorem extent_arrayReadUnchecked (i n : ℕ) :
    Extent (fun input off => arrayReadUnchecked T f input off i n) (arrayReach T.slotSize r i n) := by
  induction n generalizing i with
  | zero => exact .pure _
  | succ n ih =>
    rw [arrayReach_succ]
    refine (((h.extent.shift (i * T.slotSize)).seq (ih (i + 1))).map fun vs =>
      (⟨vs.1 :: vs.2.1, by rw [List.length_cons, vs.2.2]⟩ : {vs : List T.Carrier // vs.length = n + 1})).of_eq
      fun input off => ?_
    rw [arrayReadUnchecked, hd]
    cases f input (off + i * T.slotSize) with
    | none => rfl
    | some v => cases arrayReadUnchecked T f input off (i + 1) n <;> rfl

theorem arrayRead_confirms {p : Profile} {input : List UInt8} {off i n : ℕ}
    {vs : {vs : List T.Carrier // vs.length = n}} (hs : IsSlice input)
    (hin : Inside input off (arrayReach T.slotSize r i n)) (hret : Returns (arrayRead T p input off i n) vs) :
    arrayReadUnchecked T f input off i n = some vs := by
  induction n generalizing i with
  | zero => rw [arrayReadUnchecked, returns_pure.mp hret]
  | succ n ih =>
    rw [arrayReach_succ] at hin
    have hhead : Inside input (off + i * T.slotSize) r := hin.mono fun hr => by
      rw [if_neg (by omega)]
      exact Nat.le_max_left _ _
    have htail : Inside input off (arrayReach T.slotSize r (i + 1) n) :=
      hin.mono (k := 0) fun _ => by omega
    rw [arrayRead] at hret
    obtain ⟨v, hv, hret⟩ := returns_bind.mp hret
    obtain ⟨rest, hrest, hret⟩ := returns_bind.mp hret
    obtain ⟨k, hk, hv⟩ := returns_bind.mp hv
    obtain ⟨ho, hho, hv⟩ := returns_bind.mp hv
    rw [checkedSum_pair] at hho
    obtain ⟨-, rfl⟩ := returns_checkedAdd.mp hho
    rw [hd] at hv
    unfold IsSlice at hs
    have helem := h.confirms_at hs hhead (q := off + k) (fun hr => by
      rcases hhead with h0 | hle
      · omega
      · rw [usize_of_returns hk (by omega)]) hv
    rw [arrayReadUnchecked, hd, if_neg Bool.false_ne_true, helem, ih htail hrest]
    exact congrArg some (returns_pure.mp hret)

/-- **Arrays**: the last element reads the furthest. -/
theorem unchecked_array (n : ℕ) :
    Unchecked (array T n) (fun input offset => arrayReadUnchecked T f input offset 0 n)
      (arrayReach T.slotSize r 0 n) where
  extent := extent_arrayReadUnchecked h hd 0 n
  confirms _ _ _ _ hs hin hret := arrayRead_confirms h hd hs hin hret

end Arrays

/-! ### Tuples -/

/-- The static fields of a tuple, the unchecked decoder made of theirs, and how far it reads. -/
inductive UncheckedFields : (Ts : List SolCodec) → (List UInt8 → ℕ → Option (Fields Ts)) → ℕ → Prop
  | nil : UncheckedFields [] (fun _ _ => some ()) 0
  | cons {T Ts f r g s} : T.decodeUnchecked = some f → T.isDynamic = false → Unchecked T f r →
      UncheckedFields Ts g s →
      UncheckedFields (T :: Ts)
        (fun input ho => do
          let val ← f input ho
          let vals ← g input (ho + T.slotSize)
          pure (val, vals))
        (max r (if s = 0 then 0 else T.slotSize + s))

namespace UncheckedFields

variable {Ts : List SolCodec} {g : List UInt8 → ℕ → Option (Fields Ts)} {r : ℕ}

theorem tupleUnchecked_eq (h : UncheckedFields Ts g r) : tupleUnchecked Ts = some g := by
  induction h with
  | nil => rfl
  | cons hf hd head tail ih =>
    rw [tupleUnchecked, hf, ih]
    rfl

theorem static (h : UncheckedFields Ts g r) : Ts.any SolCodec.isDynamic = false := by
  induction h with
  | nil => rfl
  | cons hf hd head tail ih => rw [List.any_cons, hd, ih, Bool.or_false]

theorem extent (h : UncheckedFields Ts g r) : Extent g r := by
  induction h with
  | nil => exact .pure ()
  | @cons T Ts f r g s hf hd head tail ih =>
    refine (head.extent.seq (ih.shift T.slotSize)).of_eq fun input off => ?_
    cases f input off with
    | none => rfl
    | some val =>
      change (g input (off + T.slotSize)).bind _ = (g input (off + T.slotSize)).map _
      cases g input (off + T.slotSize) <;> rfl

theorem tupleRead_confirms (h : UncheckedFields Ts g r) {p : Profile} {input : List UInt8} {off ho : ℕ}
    {vals : Fields Ts} (hs : IsSlice input) (hin : Inside input ho r)
    (hret : Returns (tupleRead p input off Ts ho) vals) : g input ho = some vals := by
  induction h generalizing ho with
  | nil => exact congrArg some (returns_pure.mp hret)
  | @cons T Ts f r g s hf hd head tail ih =>
    rw [tupleRead] at hret
    obtain ⟨val, hval, hret⟩ := returns_bind.mp hret
    obtain ⟨ho', hho, hret⟩ := returns_bind.mp hret
    rw [checkedSum_pair] at hho
    obtain ⟨-, rfl⟩ := returns_checkedAdd.mp hho
    obtain ⟨vals', hvals, hret⟩ := returns_bind.mp hret
    rw [tupleReadField, hd, if_neg Bool.false_ne_true] at hval
    have hhead := head.confirms p input ho val hs (hin.mono (k := 0) fun _ => by omega) hval
    have htail := ih (hin.mono fun hs => by rw [if_neg (by omega)]; exact Nat.le_max_right _ _) hvals
    change (f input ho).bind (fun val => (g input (ho + T.slotSize)).bind fun vals => some (val, vals)) = some vals
    rw [hhead, Option.bind_some, htail]
    exact congrArg some (returns_pure.mp hret)

end UncheckedFields

/-- **Tuples** of static fields. -/
theorem unchecked_tuple {Ts : List SolCodec} {g : List UInt8 → ℕ → Option (Fields Ts)} {r : ℕ}
    (h : UncheckedFields Ts g r) : Unchecked (tuple Ts) g r where
  extent := h.extent
  confirms _ _ _ _ hs hin hret := h.tupleRead_confirms hs hin hret

end PvmContract.Types
