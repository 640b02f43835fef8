/-
Module: Voxel.Kernel.Alloc
Layer: Kernel
Purpose: The kernel heap of `kernel/lib/alloc.c`: every block is a run of frames of its own, taken from
  the bitmap of `kernel/cpu/mmu.c`. The frame of its `struct alloc_info` stands for the address.
Trusted boundary: human-reviewed spec
Main exports: HeapBlock, malloc, free, realloc, mmuAllocateFrame
-/
import Mathlib.Algebra.Group.Nat.Defs
import Voxel.Kernel.Frames

namespace Voxel.Kernel

/-- The size of a page and of a block of a file. -/
def blockSize : Nat := 0x1000

/-- `sizeof(struct alloc_info)`. -/
def allocInfo : Nat := 24

/-- A block of memory: its first frame and what `struct alloc_info` says about its size, in frames. -/
structure HeapBlock where
  first : Nat
  pages : Nat
  deriving Repr, DecidableEq

/-- The frames of a block. -/
def HeapBlock.Holds (b : HeapBlock) (frame : Nat) : Prop :=
  b.first ≤ frame ∧ frame < b.first + b.pages

/-- The number of frames for a block of `size` bytes and its `struct alloc_info`. -/
def mallocPages (size : Nat) : Nat := (size + allocInfo + (blockSize - 1)) / blockSize

/-- `mmu_lock_frame` for a run of frames. -/
def lockFrames (m : FrameMap) (first : Nat) : Nat → FrameMap
  | 0 => m
  | pages + 1 => mmuLockFrame (lockFrames m first pages) (first + pages)

/-- `mmu_release_frame` for a run of frames. -/
def releaseFrames (m : FrameMap) (first : Nat) : Nat → FrameMap
  | 0 => m
  | pages + 1 => mmuReleaseFrame (releaseFrames m first pages) (first + pages)

/-- `malloc`; `none` if there is no run of free frames that is long enough. A request of 2^42 bytes, whose
number of pages does not fit in the `int` of `mmu_request_frames`, counts as one of these. -/
def malloc (m : FrameMap) (size : Nat) : Option (HeapBlock × FrameMap) :=
  if 2 ^ 42 ≤ size then none
  else
    (mmuRequestFrames m (mallocPages size)).map fun first =>
      ({ first := first, pages := mallocPages size }, lockFrames m first (mallocPages size))

/-- `free`. -/
def free (m : FrameMap) (b : HeapBlock) : FrameMap := releaseFrames m b.first b.pages

/-- `realloc` of a block to a size that is not zero. -/
def realloc (m : FrameMap) (b : HeapBlock) (size : Nat) : Option (HeapBlock × FrameMap) :=
  (malloc m size).map fun result => (result.1, free result.2 b)

/-- `mmu_allocate_frame`; `none` if there is no free frame. -/
def mmuAllocateFrame (m : FrameMap) : Option (Nat × FrameMap) :=
  (mmuRequestFrame m).map fun result => (result.1, mmuLockFrame result.2 result.1)

/-! ## What an allocation does to the bitmap -/

@[simp] theorem lockFrames_nFrames (m : FrameMap) (first pages : Nat) :
    (lockFrames m first pages).nFrames = m.nFrames := by
  induction pages with
  | zero => rfl
  | succ pages inductionHypothesis => rw [lockFrames, mmuLockFrame_nFrames, inductionHypothesis]

@[simp] theorem releaseFrames_nFrames (m : FrameMap) (first pages : Nat) :
    (releaseFrames m first pages).nFrames = m.nFrames := by
  induction pages with
  | zero => rfl
  | succ pages inductionHypothesis => rw [releaseFrames, mmuReleaseFrame_nFrames, inductionHypothesis]

theorem lockFrames_locks {m : FrameMap} {first pages : Nat} (inside : first + pages ≤ m.nFrames) :
    ∀ f, first ≤ f → f < first + pages → (lockFrames m first pages).locked f = true := by
  induction pages with
  | zero =>
      intro f low high
      omega
  | succ pages inductionHypothesis =>
      intro f low high
      have bound : first + pages < (lockFrames m first pages).nFrames := by
        rw [lockFrames_nFrames]
        omega
      by_cases last : f = first + pages
      · rw [lockFrames, mmuLockFrame_locked bound, last, Function.update_self]
      · exact mmuLockFrame_keeps (inductionHypothesis (by omega) f low (by omega))

/-- Frames outside the run stay as they are. -/
theorem lockFrames_of_not_mem (m : FrameMap) {first pages f : Nat}
    (outside : ¬ (first ≤ f ∧ f < first + pages)) :
    (lockFrames m first pages).locked f = m.locked f := by
  induction pages with
  | zero => rfl
  | succ pages inductionHypothesis =>
      rw [lockFrames, mmuLockFrame_of_ne _ (by omega)]
      exact inductionHypothesis (by omega)

/-- Frames outside the run stay as they are. -/
theorem releaseFrames_of_not_mem (m : FrameMap) {first pages f : Nat}
    (outside : ¬ (first ≤ f ∧ f < first + pages)) :
    (releaseFrames m first pages).locked f = m.locked f := by
  induction pages with
  | zero => rfl
  | succ pages inductionHypothesis =>
      rw [releaseFrames, mmuReleaseFrame_of_ne _ (by omega)]
      exact inductionHypothesis (by omega)

theorem mallocPages_pos (size : Nat) : 0 < mallocPages size :=
  Nat.div_pos (by unfold blockSize allocInfo; omega) (by decide)

/-- The block was free and is locked now; every other frame is as before. -/
theorem malloc_spec {m m' : FrameMap} {size : Nat} {b : HeapBlock}
    (allocated : malloc m size = some (b, m')) :
    b.pages = mallocPages size ∧
      m'.nFrames = m.nFrames ∧
      (∀ f, b.Holds f → m.locked f = false ∧ m'.locked f = true ∧ f < m.nFrames) ∧
      ∀ f, ¬ b.Holds f → m'.locked f = m.locked f := by
  unfold malloc at allocated
  split at allocated
  · cases allocated
  rw [Option.map_eq_some_iff] at allocated
  obtain ⟨first, requested, same⟩ := allocated
  cases same
  have free := mmuRequestFrames_spec requested
  have last := free (mallocPages size - 1) (by have := mallocPages_pos size; omega)
  have bound : first + mallocPages size ≤ m.nFrames := by
    have := mallocPages_pos size
    omega
  refine ⟨rfl, lockFrames_nFrames _ _ _, ?_, fun f outside => lockFrames_of_not_mem m outside⟩
  rintro f ⟨low, high⟩
  have place : first + (f - first) = f := by
    change first ≤ f at low
    omega
  have freeHere := free (f - first) (by change f < first + mallocPages size at high; omega)
  rw [place] at freeHere
  exact ⟨freeHere.1, lockFrames_locks bound f low high, freeHere.2⟩

/-- Releasing a block leaves every other frame as it is. -/
theorem free_of_not_mem (m : FrameMap) {b : HeapBlock} {f : Nat} (outside : ¬ b.Holds f) :
    (free m b).locked f = m.locked f :=
  releaseFrames_of_not_mem m outside

@[simp] theorem free_nFrames (m : FrameMap) (b : HeapBlock) : (free m b).nFrames = m.nFrames :=
  releaseFrames_nFrames _ _ _

/-- The frame was free and is locked now; every other frame is as before. -/
theorem mmuAllocateFrame_spec {m m' : FrameMap} {frame : Nat}
    (allocated : mmuAllocateFrame m = some (frame, m')) :
    m'.nFrames = m.nFrames ∧ m.locked frame = false ∧ m'.locked frame = true ∧
      frame < m.nFrames ∧ ∀ f, f ≠ frame → m'.locked f = m.locked f := by
  unfold mmuAllocateFrame at allocated
  rw [Option.map_eq_some_iff] at allocated
  obtain ⟨⟨found, requestMap⟩, requested, same⟩ := allocated
  cases same
  obtain ⟨free, bound, rfl⟩ := mmuRequestFrame_spec requested
  have inside : found < ({ m with lowestAvailable := found + 1 } : FrameMap).nFrames := bound
  refine ⟨mmuLockFrame_nFrames _ _, free, ?_, bound, ?_⟩
  · rw [mmuLockFrame_locked inside, Function.update_self]
  · intro f different
    rw [mmuLockFrame_locked inside, Function.update_of_ne different]

end Voxel.Kernel
