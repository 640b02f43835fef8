/-
Module: Voxel.Kernel.Frames
Layer: Kernel
Purpose: The frame bitmap of `kernel/cpu/mmu.c`: one bit for each physical frame, set while the frame
  is in use, and the hint `lowest_available` at which a search starts. Frames are named by their
  number; every caller passes an address that is a multiple of the page size.
Trusted boundary: human-reviewed spec
Main exports: FrameMap, mmuLockFrame, mmuReleaseFrame, mmuProbeFrame, mmuRequestFrame,
  mmuRequestFrames
-/
import Mathlib.Logic.Function.Basic

namespace Voxel.Kernel

/-- `frames`, `n_frames` and `lowest_available`. -/
structure FrameMap where
  nFrames : Nat
  locked : Nat → Bool
  lowestAvailable : Nat

/-- `mmu_lock_frame`. -/
def mmuLockFrame (m : FrameMap) (frame : Nat) : FrameMap :=
  if frame < m.nFrames then { m with locked := Function.update m.locked frame true } else m

/-- `mmu_release_frame`. -/
def mmuReleaseFrame (m : FrameMap) (frame : Nat) : FrameMap :=
  if frame < m.nFrames then
    { m with
      locked := Function.update m.locked frame false
      lowestAvailable := if frame < m.lowestAvailable then frame else m.lowestAvailable }
  else m

/-- `mmu_probe_frame`: a frame past the end counts as used. -/
def mmuProbeFrame (m : FrameMap) (frame : Nat) : Bool :=
  if m.nFrames ≤ frame then true else m.locked frame

/-- `mmu_request_frames`: the first frame, from the hint on, that starts a run of `n` free ones. The
bitmap does not change; the callers lock what they take. -/
def mmuRequestFrames (m : FrameMap) (n : Nat) : Option Nat :=
  (List.range' m.lowestAvailable (m.nFrames - m.lowestAvailable)).find? fun i =>
    (List.range n).all fun j => !mmuProbeFrame m (i + j)

/-- `mmu_request_frame`: the first free frame, searched from the 32-bit word of the hint up to the
last whole word of the bitmap. `none` is the result `(uintptr_t) -1`. -/
def mmuRequestFrame (m : FrameMap) : Option (Nat × FrameMap) :=
  let first := 32 * (m.lowestAvailable / 32)
  match (List.range' first (32 * (m.nFrames / 32) - first)).find? fun f => !m.locked f with
  | none => none
  | some out => some (out, { m with lowestAvailable := out + 1 })

@[simp] theorem mmuLockFrame_nFrames (m : FrameMap) (frame : Nat) :
    (mmuLockFrame m frame).nFrames = m.nFrames := by
  unfold mmuLockFrame
  split <;> rfl

@[simp] theorem mmuReleaseFrame_nFrames (m : FrameMap) (frame : Nat) :
    (mmuReleaseFrame m frame).nFrames = m.nFrames := by
  unfold mmuReleaseFrame
  split <;> rfl

theorem mmuLockFrame_locked {m : FrameMap} {frame : Nat} (inside : frame < m.nFrames) :
    (mmuLockFrame m frame).locked = Function.update m.locked frame true := by
  rw [mmuLockFrame, if_pos inside]

/-- Locking never unlocks. -/
theorem mmuLockFrame_keeps {m : FrameMap} {frame f : Nat} (locked : m.locked f = true) :
    (mmuLockFrame m frame).locked f = true := by
  unfold mmuLockFrame
  split
  · by_cases same : f = frame
    · simp [same]
    · simpa [same] using locked
  · exact locked

theorem mmuLockFrame_of_ne (m : FrameMap) {frame f : Nat} (different : f ≠ frame) :
    (mmuLockFrame m frame).locked f = m.locked f := by
  unfold mmuLockFrame
  split
  · exact Function.update_of_ne different _ _
  · rfl

theorem mmuReleaseFrame_of_ne (m : FrameMap) {frame f : Nat} (different : f ≠ frame) :
    (mmuReleaseFrame m frame).locked f = m.locked f := by
  unfold mmuReleaseFrame
  split
  · exact Function.update_of_ne different _ _
  · rfl

/-- A requested frame exists and is free; only the hint moves. -/
theorem mmuRequestFrame_spec {m m' : FrameMap} {frame : Nat}
    (requested : mmuRequestFrame m = some (frame, m')) :
    m.locked frame = false ∧ frame < m.nFrames ∧ m' = { m with lowestAvailable := frame + 1 } := by
  unfold mmuRequestFrame at requested
  dsimp only at requested
  split at requested
  · cases requested
  · rename_i out found
    cases requested
    have free := List.find?_some found
    have member := List.mem_of_find?_eq_some found
    rw [List.mem_range'_1] at member
    exact ⟨by simpa using free, by omega, rfl⟩

/-- A run of requested frames is free. -/
theorem mmuRequestFrames_spec {m : FrameMap} {n first : Nat}
    (requested : mmuRequestFrames m n = some first) :
    ∀ j < n, m.locked (first + j) = false ∧ first + j < m.nFrames := by
  intro j inside
  have free := List.find?_some requested
  simp only [List.all_eq_true, List.mem_range, Bool.not_eq_true', mmuProbeFrame] at free
  have probed := free j inside
  split at probed
  · cases probed
  · rename_i bound
    exact ⟨probed, by omega⟩

end Voxel.Kernel
