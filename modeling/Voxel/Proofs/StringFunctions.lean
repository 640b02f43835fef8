/-
Module: Voxel.Proofs.StringFunctions
Layer: Proofs
Purpose: `strstr` finds the first occurrence. A round ends with the answer for its place; when it ends
  because the haystack does, the rest is shorter than the needle, so that no later place is left either.
  `memmove` copies a range of bytes onto every other one. Downwards and upwards the invariant is the range of
  the destination that holds the original bytes of the source; the comparisons of the addresses choose the
  direction in which no byte is overwritten before it is read.
Trusted boundary: none
Main exports: Decides, strstrInner_decides, strstr_returns, strstr_first, moveDown_copied, moveUp_copied,
  memmove_copies
-/
import Voxel.Kernel.Strings
import Voxel.Lib.Format
import Voxel.Lib.Occurrence

namespace Voxel.Proofs

open Voxel.Lib Voxel.Kernel

/-! ## strstr -/

/-- What the end of a round says about the needle `b` and the rest of the haystack. -/
def Decides (rest b : CString) : StrstrRound → Prop
  | .found => b <+: rest
  | .ended => rest.length < b.length
  | .differs => rest ≠ [] ∧ ¬b <+: rest

/-- One more character that is equal changes nothing. -/
theorem Decides.cons {rest b : CString} {round : StrstrRound} (c : BitVec 8)
    (decides : Decides rest b round) : Decides (c :: rest) (c :: b) round := by
  cases round with
  | found => exact List.cons_prefix_cons.mpr ⟨rfl, decides⟩
  | ended => exact Nat.succ_lt_succ decides
  | differs =>
      exact ⟨List.cons_ne_nil c rest, fun stands => decides.2 (List.cons_prefix_cons.mp stands).2⟩

/-- The inner loop reads neither string behind its terminator, and it decides about the place. -/
theorem strstrInner_decides (rest : CString) {b : CString} (isString : IsCString b)
    (restIsString : IsCString rest) :
    ∃ round, strstrInner (terminated rest) (terminated b) = some round ∧ Decides rest b round := by
  induction b generalizing rest with
  | nil => exact ⟨.found, by cases rest <;> rfl, List.nil_prefix⟩
  | cons c b inductionHypothesis =>
      have more : c ≠ nul := isString.head_ne
      cases rest with
      | nil => exact ⟨.ended, by rw [terminated_cons]; exact if_neg more, Nat.succ_pos _⟩
      | cons d rest =>
          have goesOn : d ≠ nul := restIsString.head_ne
          rw [terminated_cons, terminated_cons, strstrInner, if_neg more, if_neg goesOn]
          by_cases same : d = c
          · obtain ⟨round, ends, decides⟩ :=
              inductionHypothesis rest isString.tail restIsString.tail
            rw [if_neg (not_not_intro same), same]
            exact ⟨round, ends, decides.cons c⟩
          · refine ⟨.differs, if_pos same, List.cons_ne_nil d rest, fun stands => same ?_⟩
            exact (List.cons_prefix_cons.mp stands).1.symm

/-- The outer loop goes on as long as a round does not decide. -/
theorem strstr_returns {a b : CString} (aIsString : IsCString a) (bIsString : IsCString b) :
    ∃ found, Kernel.strstr (terminated a) (terminated b) = some found ∧ FirstOccurrence b a found := by
  induction a with
  | nil =>
      obtain ⟨round, ends, decides⟩ := strstrInner_decides [] bIsString aIsString
      have ends' : strstrInner (nul :: []) (terminated b) = some round := ends
      show ∃ found, Kernel.strstr (nul :: []) (terminated b) = some found ∧ _
      rw [Kernel.strstr, ends']
      cases round with
      | found => exact ⟨_, rfl, .here decides⟩
      | ended => exact ⟨_, rfl, .of_short decides⟩
      | differs => exact absurd rfl decides.1
  | cons c a inductionHypothesis =>
      obtain ⟨round, ends, decides⟩ := strstrInner_decides (c :: a) bIsString aIsString
      rw [terminated_cons] at ends ⊢
      rw [Kernel.strstr, ends]
      cases round with
      | found => exact ⟨_, rfl, .here decides⟩
      | ended => exact ⟨_, rfl, .of_short decides⟩
      | differs =>
          obtain ⟨found, returned, first⟩ := inductionHypothesis aIsString.tail
          exact ⟨_, congrArg (Option.map _) returned, first.later decides.2⟩

/-- `strstr` returns the place where the second string first occurs in the first one, its front if the
second string is empty, and the null pointer if it does not occur. The memory ends with the terminators. -/
theorem strstr_first {a b : CString} (aIsString : IsCString a) (bIsString : IsCString b) :
    ∃ found, Kernel.strstr (terminated a) (terminated b) = some found ∧
      Libc.strstr (terminated a) (terminated b) = some found ∧ FirstOccurrence b a found := by
  obtain ⟨found, returned, first⟩ := strstr_returns aIsString bIsString
  exact ⟨found, returned, returned, first⟩

/-- The needle `aab` in `aaab`, whose first two characters are a partial match at the front. -/
theorem strstr_first_overlapping :
    ∃ found,
      Kernel.strstr (terminated [0x61, 0x61, 0x61, 0x62]) (terminated [0x61, 0x61, 0x62]) = some found ∧
      Libc.strstr (terminated [0x61, 0x61, 0x61, 0x62]) (terminated [0x61, 0x61, 0x62]) = some found ∧
      FirstOccurrence ([0x61, 0x61, 0x62] : CString) [0x61, 0x61, 0x61, 0x62] found :=
  strstr_first (by unfold IsCString; decide) (by unfold IsCString; decide)

/-! ## memmove -/

variable {original now : ByteMemory} {dst src n : BitVec 64}

/-- `i >= 0` on an index that is an offset of less than `2^63`. -/
theorem slt_zero_of_small {i : BitVec 64} (small : i.toNat < 2 ^ 63) : i.slt 0 = false := by
  rw [BitVec.slt, BitVec.toInt_eq_toNat_of_lt (by omega)]
  simp

/-- The loop downwards, with the bytes from `left` on copied: no byte of the source lies above the index
at which it is read. -/
theorem moveDown_copied {size left : Nat} (small : size < 2 ^ 63) (inside : dst.toNat + size ≤ 2 ^ 64)
    (unwritten : ∀ i < size, ∀ k < size, i < k → src + BitVec.ofNat 64 i ≠ dst + BitVec.ofNat 64 k)
    (atMost : left ≤ size) (copies : RangeCopied original dst src left size now) :
    ∃ final, Settles (fun fuel => moveDown dst src fuel (BitVec.ofNat 64 left - 1) now) final ∧
      RangeCopied original dst src 0 size final := by
  induction left generalizing now with
  | zero =>
      refine ⟨now, ⟨1, fun fuel enough => ?_⟩, copies⟩
      obtain ⟨fuel, rfl⟩ := Nat.exists_eq_add_of_le' enough
      rfl
  | succ left inductionHypothesis =>
      have before : BitVec.ofNat 64 (left + 1) - 1 = BitVec.ofNat 64 left := by
        rw [BitVec.ofNat_add]
        exact BitVec.add_sub_cancel _ _
      have positive : (BitVec.ofNat 64 left).slt 0 = false := by
        apply slt_zero_of_small
        rw [BitVec.toNat_ofNat, Nat.mod_eq_of_lt (by omega)]
        omega
      have next := copies.step left size left inside (Nat.le_succ left) (Nat.le_refl _)
        (by omega) (by omega) fun k above below => unwritten left (by omega) k below above
      obtain ⟨final, settles, whole⟩ := inductionHypothesis (by omega) next
      refine ⟨final, settles.round fun fuel => ?_, whole⟩
      rw [before, moveDown, if_neg (Bool.eq_false_iff.mp positive)]

/-- The loop upwards, with the bytes before `done` copied: no byte of the source lies below the index at
which it is read. -/
theorem moveUp_copied {done : Nat} (inside : dst.toNat + n.toNat ≤ 2 ^ 64)
    (unwritten : ∀ i < n.toNat, ∀ k < i, src + BitVec.ofNat 64 i ≠ dst + BitVec.ofNat 64 k)
    (atMost : done ≤ n.toNat) (copies : RangeCopied original dst src 0 done now) :
    ∃ final, Settles (fun fuel => moveUp dst src n fuel (BitVec.ofNat 64 done) now) final ∧
      RangeCopied original dst src 0 n.toNat final := by
  have value : (BitVec.ofNat 64 done).toNat = done := by
    rw [BitVec.toNat_ofNat, Nat.mod_eq_of_lt (Nat.lt_of_le_of_lt atMost n.isLt)]
  induction left : n.toNat - done generalizing done now with
  | zero =>
      have atEnd : done = n.toNat := by omega
      refine ⟨now, ⟨1, fun fuel enough => ?_⟩, atEnd ▸ copies⟩
      obtain ⟨fuel, rfl⟩ := Nat.exists_eq_add_of_le' enough
      have stops : ¬BitVec.ofNat 64 done < n := by
        rw [BitVec.lt_def, value]
        omega
      exact if_neg stops
  | succ left inductionHypothesis =>
      have more : done < n.toNat := by omega
      have goesOn : BitVec.ofNat 64 done < n := by rwa [BitVec.lt_def, value]
      have next := copies.step 0 (done + 1) done (by omega) (Nat.le_refl 0)
        (Nat.le_succ done) (by omega) (by omega) fun k _ => unwritten done more k
      have value' : (BitVec.ofNat 64 (done + 1)).toNat = done + 1 := by
        rw [BitVec.toNat_ofNat, Nat.mod_eq_of_lt (Nat.lt_of_le_of_lt more n.isLt)]
      obtain ⟨final, settles, whole⟩ := inductionHypothesis more next value' (by omega)
      refine ⟨final, settles.round fun fuel => ?_, whole⟩
      rw [moveUp, if_pos goesOn, Nat.succ_eq_add_one, BitVec.ofNat_add]
      rfl

/-- After `memmove` the destination holds what the source held before, and all other bytes are unchanged,
whichever way the two ranges overlap. -/
theorem memmove_copies (m : ByteMemory) {dst src n : BitVec 64} (small : n.toNat < 2 ^ 63)
    (dstInside : dst.toNat + n.toNat ≤ 2 ^ 64) (srcInside : src.toNat + n.toNat ≤ 2 ^ 64) :
    ∃ final, Settles (fun fuel => Kernel.memmove fuel m dst src n) (final, dst) ∧
      Settles (fun fuel => Libc.memmove fuel m dst src n) (final, dst) ∧
      RangeCopied m dst src 0 n.toNat final := by
  suffices moves : ∃ final, Settles (fun fuel => Kernel.memmove fuel m dst src n) (final, dst) ∧
      RangeCopied m dst src 0 n.toNat final by
    obtain ⟨final, settles, copies⟩ := moves
    exact ⟨final, settles, settles, copies⟩
  unfold Kernel.memmove
  by_cases nothing : src = dst ∨ n = 0
  · simp only [if_pos nothing]
    refine ⟨m, .some _, fun k _ below => ?_, fun _ _ => rfl⟩
    rcases nothing with same | empty
    · rw [same]
    · rw [empty] at below
      exact absurd below (Nat.not_lt_zero k)
  simp only [if_neg nothing]
  obtain ⟨different, some_⟩ := not_or.mp nothing
  by_cases down : src < dst ∧ dst - src < n
  · simp only [if_pos down]
    have below := BitVec.lt_def.mp down.1
    obtain ⟨final, settles, copies⟩ := @moveDown_copied m m dst src n.toNat n.toNat small dstInside
      (fun i inside k inside' above => offset_ne (by omega) (by omega) (by omega)) (Nat.le_refl _)
      (rangeCopied_none m dst src n.toNat)
    rw [BitVec.ofNat_toNat, BitVec.setWidth_eq] at settles
    exact ⟨final, settles.map fun m => (m, dst), copies⟩
  simp only [if_neg down]
  by_cases up : dst < src ∧ src - dst < n
  · simp only [if_pos up]
    have above := BitVec.lt_def.mp up.1
    obtain ⟨final, settles, copies⟩ := moveUp_copied dstInside
      (fun i inside k before => offset_ne (by omega) (by omega) (by omega)) (Nat.zero_le _)
      (rangeCopied_none m dst src 0)
    exact ⟨final, settles.map fun m => (m, dst), copies⟩
  simp only [if_neg up]
  -- The two ranges have no byte in common, or only the direction upwards is left.
  refine ⟨_, .some _, rangeCopied_copyUp dstInside fun i inside k before => ?_⟩
  apply offset_ne (by omega) (by omega)
  rcases Nat.lt_trichotomy src.toNat dst.toNat with below | same | above
  · have far := BitVec.not_lt.mp fun near => down ⟨BitVec.lt_def.mpr below, near⟩
    rw [BitVec.le_def, BitVec.toNat_sub_of_le (BitVec.le_def.mpr (Nat.le_of_lt below))] at far
    omega
  · exact absurd (BitVec.eq_of_toNat_eq same) different
  · omega

/-- Eight bytes moved up by three. -/
theorem memmove_copies_overlapping :
    ∃ final,
      Settles (fun fuel => Kernel.memmove fuel (fun a => a.setWidth 8) 0x1003 0x1000 8) (final, 0x1003) ∧
      Settles (fun fuel => Libc.memmove fuel (fun a => a.setWidth 8) 0x1003 0x1000 8) (final, 0x1003) ∧
      RangeCopied (fun a => a.setWidth 8) 0x1003 0x1000 0 (8 : BitVec 64).toNat final :=
  memmove_copies _ (by decide) (by decide) (by decide)

end Voxel.Proofs
