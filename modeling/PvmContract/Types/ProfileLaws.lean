import PvmContract.Types.PrimitiveLaws
import PvmContract.Types.SequenceLaws

/-!
# The build profile does not matter where nothing panics

Each implementation is `ProfileFree` when its components are: a run of the
checked build that does not panic is, step by step, also the run of the wrapping
build. So what is proved of the checked build, a returned value or the absence
of panics, holds of a build without overflow checks.
-/

namespace PvmContract.Types

open Data Run

theorem profileFree_unit : ProfileFree unit := ⟨fun _ _ => .refl _, fun _ _ => .refl _⟩

theorem profileFree_bytesN {n : ℕ} (h : n ≤ 32) : ProfileFree (bytesN n) :=
  have hfree : ProfileFree (staticType (ByteArr n) "" (fun val => padRight val.1) (getRangeAt n)
      (uncheckedRange 0 n) (toByteArr n)) := profileFree_staticType _ (reads_getRangeAt h)
  ⟨hfree.decodeAt, hfree.decodeTail⟩

theorem profileFree_Bytes : ProfileFree Bytes := ⟨fun _ _ => .refl _, fun _ _ => .refl _⟩

theorem profileFree_string : ProfileFree string := ⟨fun _ _ => .refl _, fun _ _ => .refl _⟩

section

variable {T : SolCodec} (h : ProfileFree T) (input : List UInt8)

include h

theorem agrees_tupleReadField (off ho : ℕ) :
    Agrees (tupleReadField T .checked input off ho) (tupleReadField T .wrapping input off ho) := by
  unfold tupleReadField
  split
  · exact .bind (.refl _) fun _ _ => .bind (.refl _) fun _ _ => h.decodeTail input _
  · exact h.decodeAt input ho

theorem agrees_arrayReadElem (off i : ℕ) :
    Agrees (arrayReadElem T .checked input off i) (arrayReadElem T .wrapping input off i) :=
  .bind (.umul _ _) fun _ _ => .bind (.refl _) fun ho _ => agrees_tupleReadField h input off ho

theorem agrees_arrayRead (off i n : ℕ) :
    Agrees (arrayRead T .checked input off i n) (arrayRead T .wrapping input off i n) := by
  induction n generalizing i with
  | zero => exact .refl _
  | succ n ih =>
    exact .bind (agrees_arrayReadElem h input off i) fun _ _ => .bind (ih (i + 1)) fun _ _ => .refl _

theorem profileFree_array (n : ℕ) : ProfileFree (array T n) :=
  ⟨fun input off => agrees_arrayRead h input off 0 n, fun input off => agrees_arrayRead h input off 0 n⟩

theorem agrees_vecReadStatic (pos n : ℕ) :
    Agrees (vecReadStatic T .checked input pos n) (vecReadStatic T .wrapping input pos n) := by
  induction n generalizing pos with
  | zero => exact .refl _
  | succ n ih =>
    exact .bind (h.decodeAt input pos) fun _ _ => .bind (.refl _) fun pos' _ =>
      .bind (ih pos') fun _ _ => .refl _

theorem agrees_vecTail (off : ℕ) : Agrees (vecTail T .checked input off) (vecTail T .wrapping input off) := by
  refine .bind (.refl _) fun len _ => ?_
  split
  · exact .refl _
  refine .bind (.refl _) fun _ _ => .bind (.refl _) fun start _ => ?_
  split_ifs with hd
  · rw [vecReadDynamic_eq hd, vecReadDynamic_eq hd]
    exact .bind (agrees_arrayRead h input start 0 len) fun _ _ => .refl _
  · exact agrees_vecReadStatic h input start len

theorem profileFree_Vec : ProfileFree (Vec T) :=
  ⟨fun input _ => .bind (.refl _) fun _ _ => agrees_vecTail h input _,
    fun input off => agrees_vecTail h input off⟩

end

theorem agrees_tupleRead {Ts : List SolCodec} (h : ∀ T ∈ Ts, ProfileFree T) (input : List UInt8)
    (off ho : ℕ) :
    Agrees (tupleRead .checked input off Ts ho) (tupleRead .wrapping input off Ts ho) := by
  induction Ts generalizing ho with
  | nil => exact .refl _
  | cons T Ts ih =>
    exact .bind (agrees_tupleReadField (h T (by simp)) input off ho) fun _ _ => .bind (.refl _) fun ho' _ =>
      .bind (ih (fun T' hT' => h T' (by simp [hT'])) ho') fun _ _ => .refl _

theorem profileFree_tuple {Ts : List SolCodec} (h : ∀ T ∈ Ts, ProfileFree T) : ProfileFree (tuple Ts) :=
  ⟨fun input off => agrees_tupleRead h input off off, fun input off => agrees_tupleRead h input off off⟩

end PvmContract.Types
