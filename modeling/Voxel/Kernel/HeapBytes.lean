/-
Module: Voxel.Kernel.HeapBytes
Layer: Kernel
Purpose: The kernel heap of `kernel/lib/alloc.c` down to its bytes. A block is a run of frames in the direct
  map that starts with `struct alloc_info`; `free` and `realloc` read the size of a block from there.
  The owners of blocks are in the state of a run, not in the kernel's.
Trusted boundary: human-reviewed spec
Main exports: KernelHeap, KernelHeap.malloc, KernelHeap.free, KernelHeap.realloc, HeapCall, HeapState,
  HeapState.next
-/
import Voxel.Kernel.FrameRuns
import Voxel.Lib.ByteMemory

namespace Voxel.Kernel

open Voxel.Lib

/-- `ALLOC_MAGIC`. -/
def allocMagic : BitVec 64 := 0xA77C

/-- The frame bitmap and the memory of the kernel by virtual address. -/
structure KernelHeap where
  frames : FrameMap
  memory : ByteMemory

/-- `mmu_release_frame(base + i * 0x1000)` for `i < count`. -/
def releaseRun (base : BitVec 64) : Nat → FrameMap → FrameMap
  | 0, m => m
  | count + 1, m => releaseAddress (releaseRun base count m) (base + BitVec.ofNat 64 (4096 * count))

/-- The fields of `struct alloc_info`. -/
def allocInfoFields (ptr size : BitVec 64) : List ByteMemory.Field :=
  [⟨0, 2, allocMagic⟩, ⟨8, 8, ptr⟩, ⟨16, 8, size⟩]

/-- `memcpy`. -/
def copyBytes (memory : ByteMemory) (dest src : BitVec 64) (n : Nat) : ByteMemory :=
  fun a => if (a - dest).toNat < n then memory (src + (a - dest)) else memory a

namespace KernelHeap

/-- `malloc`. -/
def malloc (h : KernelHeap) (size : BitVec 64) : BitVec 64 × KernelHeap :=
  let ptr := frameResult (mmuRequestFrames h.frames (searchedPages size)) <<< 12
  (blockPointer ptr,
    { frames := lockRun ptr (pageCount size) h.frames
      memory := h.memory.storeFields (ptr ||| highMapRegion) (allocInfoFields ptr size) })

/-- `free`; without the magic number it prints a message and returns. -/
def free (h : KernelHeap) (ptr : BitVec 64) : KernelHeap :=
  if ptr = 0 then h
  else
    let info := ptr - 24
    if h.memory.load info 2 ≠ allocMagic then h
    else
      let phys := h.memory.load (info + 8) 8
      let size := h.memory.load (info + 16) 8
      { h with frames := releaseRun phys (pageCount size) h.frames }

/-- `realloc`. The new block is there before the magic number of the old one is looked at. -/
def realloc (h : KernelHeap) (ptr s : BitVec 64) : BitVec 64 × KernelHeap :=
  if ptr = 0 then (0, h)
  else if s = 0 then (0, h.free ptr)
  else
    let allocated := h.malloc s
    let info := ptr - 24
    if allocated.2.memory.load info 2 ≠ allocMagic then (0, allocated.2)
    else
      let size := allocated.2.memory.load (info + 16) 8
      let toCopy := if size < s then size else s
      let copied := { allocated.2 with
        memory := copyBytes allocated.2.memory allocated.1 ptr toCopy.toNat }
      (allocated.1, copied.free ptr)

/-- A store of the kernel. -/
def store (h : KernelHeap) (address : BitVec 64) (value : BitVec 8) : KernelHeap :=
  { h with memory := Function.update h.memory address value }

end KernelHeap

/-! ## Calls on the heap -/

/-- The calls of the owners of blocks. -/
inductive HeapCall
  | malloc (size : BitVec 64)
  | free (ptr : BitVec 64)
  | realloc (ptr size : BitVec 64)
  | store (ptr : BitVec 64) (offset : Nat) (value : BitVec 8)

/-- The heap and the live blocks: for each pointer the size that was asked for. -/
structure HeapState where
  heap : KernelHeap
  live : BitVec 64 → Option (BitVec 64)

/-- One call. -/
def HeapState.next (s : HeapState) : HeapCall → HeapState
  | .malloc size =>
      let result := s.heap.malloc size
      ⟨result.2, Function.update s.live result.1 (some size)⟩
  | .free ptr => ⟨s.heap.free ptr, Function.update s.live ptr none⟩
  | .realloc ptr size =>
      let result := s.heap.realloc ptr size
      let rest := Function.update s.live ptr none
      ⟨result.2, if size = 0 then rest else Function.update rest result.1 (some size)⟩
  | .store ptr offset value => ⟨s.heap.store (ptr + BitVec.ofNat 64 offset) value, s.live⟩

end Voxel.Kernel
