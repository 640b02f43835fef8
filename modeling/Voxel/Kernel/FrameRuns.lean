/-
Module: Voxel.Kernel.FrameRuns
Layer: Kernel
Purpose: The calls that take frames from the bitmap, with what they do when the search fails: the index
  `(uintptr_t) -1` goes on through the shifts and sums of 64 bits. `mmu_allocate_frame` and
  `mmu_allocate_frames` of `kernel/cpu/mmu.c`, `malloc` of `kernel/lib/alloc.c`, and what `mmu_init`
  does to the bitmap. Then the bitmap as it is stored: 32-bit words, and frame addresses of 64 bits.
Trusted boundary: human-reviewed spec
Main exports: lockAddress, releaseAddress, allocateFrameCall, allocateFramesCall, mallocCall, FrameOp,
  FrameOp.apply, mmuInitFrames, FrameWords, mmuLockFrameWord, mmuReleaseFrameWord, mmuRequestFrameWord
-/
import Voxel.Kernel.Alloc

namespace Voxel.Kernel

/-! ## Addresses -/

/-- `mmu_lock_frame`, for any address. -/
def lockAddress (m : FrameMap) (frameAddr : BitVec 64) : FrameMap :=
  mmuLockFrame m (frameAddr.toNat / 4096)

/-- `mmu_release_frame`, for any address. -/
def releaseAddress (m : FrameMap) (frameAddr : BitVec 64) : FrameMap :=
  mmuReleaseFrame m (frameAddr.toNat / 4096)

/-- The frames from an address on, each locked: `mmu_lock_frame(base + i * 0x1000)` for `i < count`. -/
def lockRun (base : BitVec 64) : Nat → FrameMap → FrameMap
  | 0, m => m
  | count + 1, m => lockAddress (lockRun base count m) (base + BitVec.ofNat 64 (4096 * count))

/-- `(uintptr_t) -1`, the result of a search that fails. -/
def noFrame : BitVec 64 := -1

/-- A frame number as the result of a search. -/
def frameResult : Option Nat → BitVec 64
  | none => noFrame
  | some frame => BitVec.ofNat 64 frame

/-! ## mmu_allocate_frame and mmu_allocate_frames -/

/-- `mmu_allocate_frame`. -/
def allocateFrameCall (m : FrameMap) : BitVec 64 × FrameMap :=
  match mmuRequestFrame m with
  | none => (noFrame, lockAddress m (noFrame <<< 12))
  | some (frame, m) => (BitVec.ofNat 64 frame, lockAddress m (BitVec.ofNat 64 frame <<< 12))

/-- `mmu_allocate_frames`. -/
def allocateFramesCall (m : FrameMap) (n : Nat) : BitVec 64 × FrameMap :=
  let index := frameResult (mmuRequestFrames m n)
  (index, lockRun (index <<< 12) n m)

/-! ## malloc -/

/-- `HIGH_MAP_REGION`: `mmu_from_physical` sets these bits. -/
def highMapRegion : BitVec 64 := 0xFFFFFF8000000000

/-- `size + sizeof(struct alloc_info)`, rounded up to whole pages. -/
def roundedSize (size : BitVec 64) : BitVec 64 :=
  let size := size + 24
  if size % 0x1000 ≠ 0 then size - size % 0x1000 + 0x1000 else size

/-- `pages`. -/
def pageCount (size : BitVec 64) : Nat := (roundedSize size / 0x1000).toNat

/-- The number of pages as an `int`; a search for less than one frame ends at the hint. -/
def searchedPages (size : BitVec 64) : Nat := ((BitVec.ofNat 32 (pageCount size)).toInt).toNat

/-- What `malloc` returns for a block that starts at a physical address. -/
def blockPointer (ptr : BitVec 64) : BitVec 64 := (ptr ||| highMapRegion) + 24

/-- `malloc`: the pointer that it returns, and the bitmap. -/
def mallocCall (m : FrameMap) (size : BitVec 64) : BitVec 64 × FrameMap :=
  let ptr := frameResult (mmuRequestFrames m (searchedPages size)) <<< 12
  (blockPointer ptr, lockRun ptr (pageCount size) m)

/-! ## The bitmap from mmu_init on -/

/-- The calls that change the bitmap. -/
inductive FrameOp
  | lock (frameAddr : BitVec 64)
  | release (frameAddr : BitVec 64)
  | allocateFrame
  | allocateFrames (n : Nat)

/-- One call. -/
def FrameOp.apply (m : FrameMap) : FrameOp → FrameMap
  | .lock frameAddr => lockAddress m frameAddr
  | .release frameAddr => releaseAddress m frameAddr
  | .allocateFrame => (allocateFrameCall m).2
  | .allocateFrames n => (allocateFramesCall m n).2

/-- The bitmap that `mmu_init` leaves: all frames are locked, then the callback `memory_marker` releases
those that exist, the ones of the kernel are locked, and `taken` frames go to the pages of
`mem_refcounts` and their tables. -/
def mmuInitFrames (memSize : BitVec 64) (marked : List (BitVec 64)) (firstPage frameBytes : Nat)
    (taken : Nat) : FrameMap :=
  let all : FrameMap :=
    { nFrames := (memSize >>> 12).toNat, locked := fun _ => true, lowestAvailable := 0 }
  let released := marked.foldl releaseAddress all
  let locked := lockRun 0 ((firstPage + frameBytes + 4095) / 4096) released
  (List.replicate taken FrameOp.allocateFrame).foldl FrameOp.apply locked

/-! ## The bitmap as it is stored -/

/-- `frames`, `n_frames` and `lowest_available`. -/
structure FrameWords where
  frames : Nat → BitVec 32
  nFrames : BitVec 64
  lowestAvailable : BitVec 64

/-- `bit_index`. -/
def bitIndex (b : BitVec 64) : BitVec 64 := b >>> 5

/-- `bit_offset`. -/
def bitOffset (b : BitVec 64) : BitVec 64 := b &&& 0x1F

/-- `1U << offset`. -/
def bitMask (offset : Nat) : BitVec 32 := 1 <<< offset

/-- `mmu_lock_frame`. -/
def mmuLockFrameWord (b : FrameWords) (frameAddr : BitVec 64) : FrameWords :=
  if frameAddr < b.nFrames * 0x1000 then
    let frame := frameAddr >>> 12
    let index := (bitIndex frame).toNat
    let offset := (bitOffset frame).toNat
    { b with frames := Function.update b.frames index (b.frames index ||| bitMask offset) }
  else b

/-- `mmu_release_frame`. -/
def mmuReleaseFrameWord (b : FrameWords) (frameAddr : BitVec 64) : FrameWords :=
  if frameAddr < b.nFrames * 0x1000 then
    let frame := frameAddr >>> 12
    let index := (bitIndex frame).toNat
    let offset := (bitOffset frame).toNat
    { b with
      frames := Function.update b.frames index (b.frames index &&& ~~~(bitMask offset))
      lowestAvailable := if frame < b.lowestAvailable then frame else b.lowestAvailable }
  else b

/-- `mmu_probe_frame`. -/
def mmuProbeFrameWord (b : FrameWords) (frameAddr : BitVec 64) : Bool :=
  if b.nFrames * 0x1000 ≤ frameAddr then true
  else
    let frame := frameAddr >>> 12
    b.frames (bitIndex frame).toNat &&& bitMask (bitOffset frame).toNat ≠ 0

/-- `mmu_request_frames`. The result is an index or `(uintptr_t) -1`. -/
def mmuRequestFramesWord (b : FrameWords) (n : Nat) : BitVec 64 :=
  frameResult
    ((List.range' b.lowestAvailable.toNat (b.nFrames.toNat - b.lowestAvailable.toNat)).find? fun i =>
      (List.range n).all fun j => !mmuProbeFrameWord b (0x1000 * BitVec.ofNat 64 (i + j)))

/-- The inner loop of `mmu_request_frame`: the first clear bit of a word. -/
def firstClearBit (word : BitVec 32) : Option Nat :=
  (List.range 32).find? fun j => word &&& bitMask j = 0

/-- `mmu_request_frame`: the words from the one of the hint on, up to the one of `n_frames`. -/
def mmuRequestFrameWord (b : FrameWords) : BitVec 64 × FrameWords :=
  let first := (bitIndex b.lowestAvailable).toNat
  let last := (bitIndex b.nFrames).toNat
  let found := (List.range' first (last - first)).findSome? fun i =>
    if b.frames i ≠ 0xFFFFFFFF then
      (firstClearBit (b.frames i)).map fun j => (BitVec.ofNat 64 i <<< 5) + BitVec.ofNat 64 j
    else none
  match found with
  | none => (noFrame, b)
  | some out => (out, { b with lowestAvailable := out + 1 })

/-- The bitmap frame by frame. -/
def FrameWords.map (b : FrameWords) : FrameMap where
  nFrames := b.nFrames.toNat
  locked := fun f => (b.frames (f / 32)).getLsbD (f % 32)
  lowestAvailable := b.lowestAvailable.toNat

end Voxel.Kernel
