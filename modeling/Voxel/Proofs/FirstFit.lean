/-
Module: Voxel.Proofs.FirstFit
Layer: Proofs
Purpose: The search for a run of free frames starts at the hint `lowest_available`. Every call keeps the
  frames below the hint locked, so the search finds the first run of the whole bitmap, from the state
  that `mmu_init` leaves on.
Trusted boundary: none
Main exports: FreeRun, HintSound, request_frames_least, first_fit
-/
import Mathlib.Order.Bounds.Defs
import Voxel.Kernel.FrameRuns

namespace Voxel.Proofs

open Voxel.Kernel

/-! ## Runs of free frames -/

/-- The frames from `i` on exist and are free. -/
def FreeRun (m : FrameMap) (n i : Nat) : Prop :=
  ∀ j < n, i + j < m.nFrames ∧ m.locked (i + j) = false

/-- The body of the search accepts the runs. -/
theorem freeRun_iff (m : FrameMap) (n i : Nat) :
    ((List.range n).all fun j => !mmuProbeFrame m (i + j)) = true ↔ FreeRun m n i := by
  rw [List.all_eq_true]
  constructor
  · intro free j inside
    have probed := free j (List.mem_range.mpr inside)
    unfold mmuProbeFrame at probed
    split at probed
    · cases probed
    · exact ⟨by omega, by simpa using probed⟩
  · intro run j member
    obtain ⟨inside, free⟩ := run j (List.mem_range.mp member)
    unfold mmuProbeFrame
    rw [if_neg (by omega), free]
    rfl

/-- What a search that succeeds has found. -/
theorem mmuRequestFrames_some {m : FrameMap} {n i : Nat} :
    mmuRequestFrames m n = some i ↔
      (m.lowestAvailable ≤ i ∧ i < m.nFrames) ∧ FreeRun m n i ∧
        ∀ k, m.lowestAvailable ≤ k → k < i → ¬ FreeRun m n k := by
  unfold mmuRequestFrames
  rw [List.find?_range'_eq_some, freeRun_iff, List.mem_range'_1]
  constructor
  · rintro ⟨run, inside, earlier⟩
    refine ⟨by omega, run, fun k low high free => ?_⟩
    have rejected := earlier k low high
    rw [(freeRun_iff m n k).mpr free] at rejected
    cases rejected
  · rintro ⟨inside, run, earlier⟩
    refine ⟨run, by omega, fun k low high => ?_⟩
    rw [Bool.not_eq_true']
    exact Bool.eq_false_iff.mpr fun free => earlier k low high ((freeRun_iff m n k).mp free)

/-- A search that fails has tried every frame from the hint on. -/
theorem mmuRequestFrames_none {m : FrameMap} {n : Nat} :
    mmuRequestFrames m n = none ↔
      ∀ i, m.lowestAvailable ≤ i → i < m.nFrames → ¬ FreeRun m n i := by
  unfold mmuRequestFrames
  rw [List.find?_eq_none]
  constructor
  · intro rejected i low high free
    exact rejected i (by rw [List.mem_range'_1]; omega) ((freeRun_iff m n i).mpr free)
  · intro none i member free
    rw [List.mem_range'_1] at member
    exact none i member.1 (by omega) ((freeRun_iff m n i).mp free)

/-! ## The hint -/

/-- Every frame below the hint is locked. `n_frames` counts pages of 64-bit addresses. -/
structure HintSound (m : FrameMap) : Prop where
  below : ∀ f < m.lowestAvailable, m.locked f = true
  small : m.nFrames < 2 ^ 52

/-- With a sound hint the search finds the first run of the bitmap. -/
theorem request_frames_least {m : FrameMap} (hint : HintSound m) {n : Nat} (positive : 0 < n) :
    (∀ i, mmuRequestFrames m n = some i ↔ IsLeast {k | FreeRun m n k} i) ∧
      (mmuRequestFrames m n = none ↔ ∀ i, ¬ FreeRun m n i) := by
  have after : ∀ {i}, FreeRun m n i → m.lowestAvailable ≤ i ∧ i < m.nFrames := by
    intro i run
    obtain ⟨inside, free⟩ := run 0 positive
    rw [Nat.add_zero] at inside free
    refine ⟨?_, inside⟩
    by_contra low
    rw [hint.below i (by omega)] at free
    cases free
  constructor
  · intro i
    rw [mmuRequestFrames_some]
    constructor
    · rintro ⟨-, run, earlier⟩
      refine ⟨run, fun k free => ?_⟩
      by_contra smaller
      exact earlier k (after free).1 (by omega) free
    · rintro ⟨run, least⟩
      refine ⟨after run, run, fun k _ smaller free => ?_⟩
      have bound := least free
      omega
  · rw [mmuRequestFrames_none]
    exact ⟨fun none i run => none i (after run).1 (after run).2 run, fun none i _ _ => none i⟩

/-! ## What the calls keep -/

theorem lockAddress_nFrames (m : FrameMap) (frameAddr : BitVec 64) :
    (lockAddress m frameAddr).nFrames = m.nFrames := mmuLockFrame_nFrames _ _

theorem lockAddress_lowestAvailable (m : FrameMap) (frameAddr : BitVec 64) :
    (lockAddress m frameAddr).lowestAvailable = m.lowestAvailable := by
  unfold lockAddress mmuLockFrame
  split <;> rfl

/-- Locking keeps the hint sound. -/
theorem HintSound.lock {m : FrameMap} (hint : HintSound m) (frameAddr : BitVec 64) :
    HintSound (lockAddress m frameAddr) where
  below := by
    intro f low
    rw [lockAddress_lowestAvailable] at low
    exact mmuLockFrame_keeps (hint.below f low)
  small := by
    rw [lockAddress_nFrames]
    exact hint.small

theorem HintSound.lockRun {m : FrameMap} (hint : HintSound m) (base : BitVec 64) (count : Nat) :
    HintSound (lockRun base count m) := by
  induction count with
  | zero => exact hint
  | succ count inductionHypothesis => exact inductionHypothesis.lock _

/-- A release below the hint becomes the hint. -/
theorem HintSound.release {m : FrameMap} (hint : HintSound m) (frameAddr : BitVec 64) :
    HintSound (releaseAddress m frameAddr) := by
  refine ⟨?_, by rw [releaseAddress, mmuReleaseFrame_nFrames]; exact hint.small⟩
  unfold releaseAddress mmuReleaseFrame
  split
  · dsimp only
    intro f low
    split at low
    · rw [Function.update_of_ne (by omega)]
      exact hint.below f (by omega)
    · rw [Function.update_of_ne (by omega)]
      exact hint.below f low
  · exact hint.below

/-- The frame number of the address of a frame. -/
theorem frameAddress_toNat {frame : Nat} (small : frame < 2 ^ 52) :
    (BitVec.ofNat 64 frame <<< 12).toNat / 4096 = frame := by
  rw [BitVec.toNat_shiftLeft, BitVec.toNat_ofNat, Nat.shiftLeft_eq]
  omega

/-- The first free frame is taken, and the hint goes behind it. -/
theorem HintSound.allocateFrame {m : FrameMap} (hint : HintSound m) :
    HintSound (allocateFrameCall m).2 := by
  unfold allocateFrameCall
  split
  · exact hint.lock _
  rename_i frame m' requested
  obtain ⟨free, inside, rfl⟩ := mmuRequestFrame_spec requested
  have small := hint.small
  unfold mmuRequestFrame at requested
  dsimp only at requested
  split at requested
  · cases requested
  rename_i found search
  cases requested
  rw [List.find?_range'_eq_some] at search
  obtain ⟨-, -, earlier⟩ := search
  dsimp only
  refine ⟨?_, by rw [lockAddress_nFrames]; exact small⟩
  intro f low
  rw [lockAddress_lowestAvailable] at low
  change f < frame + 1 at low
  rw [lockAddress, frameAddress_toNat (by omega)]
  by_cases isFrame : f = frame
  · rw [isFrame, @mmuLockFrame_locked { m with lowestAvailable := frame + 1 } frame inside,
      Function.update_self]
  · refine mmuLockFrame_keeps ?_
    change m.locked f = true
    by_cases searched : 32 * (m.lowestAvailable / 32) ≤ f
    · have rejected := earlier f searched (by omega)
      simpa using rejected
    · exact hint.below f (by omega)

theorem HintSound.apply {m : FrameMap} (hint : HintSound m) (op : FrameOp) : HintSound (op.apply m) := by
  cases op with
  | lock frameAddr => exact hint.lock frameAddr
  | release frameAddr => exact hint.release frameAddr
  | allocateFrame => exact hint.allocateFrame
  | allocateFrames n => exact hint.lockRun _ n

theorem HintSound.foldl {m : FrameMap} (hint : HintSound m) (ops : List FrameOp) :
    HintSound (ops.foldl FrameOp.apply m) := by
  induction ops generalizing m with
  | nil => exact hint
  | cons op ops inductionHypothesis => exact inductionHypothesis (hint.apply op)

/-- What `mmu_init` leaves. -/
theorem mmuInitFrames_hint (memSize : BitVec 64) (marked : List (BitVec 64))
    (firstPage frameBytes taken : Nat) :
    HintSound (mmuInitFrames memSize marked firstPage frameBytes taken) := by
  have released : ∀ {m : FrameMap}, HintSound m → HintSound (marked.foldl releaseAddress m) := by
    intro m hint
    induction marked generalizing m with
    | nil => exact hint
    | cons frameAddr marked inductionHypothesis => exact inductionHypothesis (hint.release frameAddr)
  refine HintSound.foldl (HintSound.lockRun (released ⟨fun f low => ?_, ?_⟩) _ _) _
  · rfl
  · dsimp only
    rw [BitVec.toNat_ushiftRight, Nat.shiftRight_eq_div_pow]
    have bound := memSize.isLt
    omega

/-- In every state that the calls reach from `mmu_init`, `mmu_request_frames` finds the first run of
free frames, and fails exactly if there is none. -/
theorem first_fit (memSize : BitVec 64) (marked : List (BitVec 64)) (firstPage frameBytes taken : Nat)
    (ops : List FrameOp) (n : Nat) (positive : 0 < n) :
    (∀ i, mmuRequestFrames
        (ops.foldl FrameOp.apply (mmuInitFrames memSize marked firstPage frameBytes taken)) n = some i ↔
      IsLeast {k | FreeRun
        (ops.foldl FrameOp.apply (mmuInitFrames memSize marked firstPage frameBytes taken)) n k} i) ∧
    (mmuRequestFrames
        (ops.foldl FrameOp.apply (mmuInitFrames memSize marked firstPage frameBytes taken)) n = none ↔
      ∀ i, ¬ FreeRun
        (ops.foldl FrameOp.apply (mmuInitFrames memSize marked firstPage frameBytes taken)) n i) :=
  request_frames_least ((mmuInitFrames_hint memSize marked firstPage frameBytes taken).foldl ops) positive

/-- The first of four marked frames is the kernel's and the next one is allocated: a run of two starts
at frame 2. -/
theorem first_fit_example :
    0 < 2 ∧ IsLeast {k | FreeRun ([FrameOp.allocateFrame].foldl FrameOp.apply
      (mmuInitFrames 0x20000 [0, 0x1000, 0x2000, 0x3000] 0x800 8 0)) 2 k} 2 :=
  ⟨by decide, ((first_fit 0x20000 [0, 0x1000, 0x2000, 0x3000] 0x800 8 0 [.allocateFrame] 2
    (by decide)).1 2).mp (by decide)⟩

end Voxel.Proofs
