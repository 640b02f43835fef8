/-
Module: Voxel.Kernel.Multiboot
Layer: Kernel
Purpose: The memory map of the boot loader: `multiboot_initialize` and `multiboot_memory_marker` of
  `kernel/kmain.c`, and the sizes that `mmu_init` of `kernel/cpu/mmu.c` computes from them. The map is the
  list of the entries that the loops visit.
Trusted boundary: human-reviewed spec
Main exports: MemoryMapEntry, Multiboot, multibootMemoryMarker, multibootInitialize, frameBytes, mmuInitBoot
-/
import Voxel.Kernel.FrameRuns

namespace Voxel.Kernel

/-! ## The boot loader -/

/-- `MULTIBOOT_FLAG_MODS`. -/
def multibootFlagMods : BitVec 32 := 0x008

/-- `MULTIBOOT_FLAG_MMAP`. -/
def multibootFlagMmap : BitVec 32 := 0x040

/-- `MULTIBOOT_MEMORY_AVAILABLE`. -/
def multibootMemoryAvailable : BitVec 32 := 1

/-- `multiboot_memory_map_t`. -/
structure MemoryMapEntry where
  addr : BitVec 64
  len : BitVec 64
  type : BitVec 32
  deriving Repr, DecidableEq

/-- `struct multiboot`, with the entries of the map and `mod_end` of the modules. -/
structure Multiboot where
  flags : BitVec 32
  mmapAddr : BitVec 32
  mmapLength : BitVec 32
  mmap : List MemoryMapEntry
  modEnds : List (BitVec 32)

/-- `PAGE_SIZE_MASK`. -/
def pageSizeMask : BitVec 64 := 0xFFFFFFFFFFFFF000

/-- An address that is rounded up to a page. -/
def pageCeil (a : BitVec 64) : BitVec 64 := (a + 0xFFF) &&& pageSizeMask

/-! ## multiboot_memory_marker -/

/-- The loop over an entry: the addresses that it releases. Each round adds a page, so there are fewer than
`2 ^ 52` of them. -/
def markLoop (stop : BitVec 64) : Nat → BitVec 64 → List (BitVec 64)
  | 0, _ => []
  | rounds + 1, base => if base < stop then base :: markLoop stop rounds (base + 0x1000) else []

/-- What an entry releases. -/
def MemoryMapEntry.marked (entry : MemoryMapEntry) : List (BitVec 64) :=
  if entry.type = multibootMemoryAvailable then
    markLoop (entry.addr + (entry.len &&& pageSizeMask)) (2 ^ 52) entry.addr
  else []

/-- `multiboot_memory_marker`: the calls of `mmu_release_frame`. -/
def multibootMemoryMarker (multiboot : Multiboot) : List (BitVec 64) :=
  multiboot.mmap.flatMap MemoryMapEntry.marked

/-! ## multiboot_initialize -/

/-- `highest_valid_address`. -/
def highestValidAddress (mmap : List MemoryMapEntry) : BitVec 64 :=
  mmap.foldl (fun highest entry =>
    if entry.type = multibootMemoryAvailable ∧ entry.len ≠ 0 ∧ highest < entry.addr + entry.len - 1 then
      entry.addr + entry.len - 1
    else highest) 0

/-- The larger one of two addresses. -/
def raise (highest address : BitVec 64) : BitVec 64 := if highest < address then address else highest

/-- `multiboot_initialize`: `highest_valid_address` and `highest_kernel_address`; `imageEnd` is `&end`. -/
def multibootInitialize (multiboot : Multiboot) (imageEnd : BitVec 32) : BitVec 64 × BitVec 64 :=
  let highestKernelAddress := imageEnd.setWidth 64
  if multiboot.flags &&& multibootFlagMmap = 0 then (0, highestKernelAddress)
  else
    let highestKernelAddress :=
      raise highestKernelAddress (multiboot.mmapAddr.setWidth 64 + multiboot.mmapLength.setWidth 64)
    let highestKernelAddress :=
      if multiboot.flags &&& multibootFlagMods = 0 then highestKernelAddress
      else multiboot.modEnds.foldl
        (fun highest modEnd => raise highest (modEnd.setWidth 64)) highestKernelAddress
    (highestValidAddress multiboot.mmap, pageCeil highestKernelAddress)

/-! ## mmu_init -/

/-- `frame_bytes`: `bit_index(n_frames * 8)`, rounded up to a page. -/
def frameBytes (nFrames : BitVec 64) : BitVec 64 := pageCeil ((nFrames * 8) >>> 5)

/-- The bitmap that `mmu_init` leaves at boot, after it has taken frames itself. -/
def mmuInitBoot (multiboot : Multiboot) (imageEnd : BitVec 32) (taken : Nat) : FrameMap :=
  let (memSize, firstPage) := multibootInitialize multiboot imageEnd
  mmuInitFrames memSize (multibootMemoryMarker multiboot) (pageCeil firstPage).toNat
    (frameBytes (memSize >>> 12)).toNat taken

end Voxel.Kernel
