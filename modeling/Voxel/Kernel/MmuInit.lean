/-
Module: Voxel.Kernel.MmuInit
Layer: Kernel
Purpose: The directories of the boot: the one of `kernel/boot.s`, and the one that `mmu_init` of
  `kernel/cpu/mmu.c` builds in the static tables of the kernel image, with the pages that it takes for the
  reference counts.
Trusted boundary: human-reviewed spec
Main exports: ImageTable, ImageTables, bootPages, mmuInitTables, heapPage, mmuInit
-/
import Voxel.Kernel.FrameRuns
import Voxel.Kernel.Mmu
import Voxel.Kernel.Multiboot

namespace Voxel.Kernel

open Voxel.Lib

/-! ## The static tables -/

/-- The frames in which the static arrays of tables begin. -/
structure ImageTables where
  initialPages : Nat
  highBasePml : Nat
  heapBasePml : Nat
  heapBasePd : Nat
  heapBasePt : Nat
  lowBasePmls : Nat
  twomHighPds : Nat

/-- One table of 512 entries of the arrays. -/
inductive ImageTable where
  | initialPages (i : Fin 3)
  | highBasePml
  | heapBasePml
  | heapBasePd
  | heapBasePt (i : Fin 3)
  | lowBasePmls (i : Fin 34)
  | twomHighPds (i : Fin 64)
deriving DecidableEq

/-- The frame of a table: the tables of an array follow each other. -/
def ImageTables.frame (image : ImageTables) : ImageTable → Nat
  | .initialPages i => image.initialPages + i
  | .highBasePml => image.highBasePml
  | .heapBasePml => image.heapBasePml
  | .heapBasePd => image.heapBasePd
  | .heapBasePt i => image.heapBasePt + i
  | .lowBasePmls i => image.lowBasePmls + i
  | .twomHighPds i => image.twomHighPds + i

/-! ## The words -/

/-- `address | KERNEL_PML_ACCESS`. -/
def kernelWord (address : BitVec 64) : BitVec 64 := address ||| 0x03

/-- `address | LARGE_PAGE_BIT | KERNEL_PML_ACCESS`. -/
def largeWord (address : BitVec 64) : BitVec 64 := address ||| 0x80 ||| 0x03

/-- `(uintptr_t) &table`: the image is at its physical addresses. -/
def tableAddress (frame : Nat) : BitVec 64 := BitVec.ofNat 64 frame <<< 12

/-- `size_t` values. -/
def sizeT (i : Nat) : BitVec 64 := BitVec.ofNat 64 i

/-! ## boot.s -/

/-- `low_pages`: the pages of the image up to `&end`. -/
def lowPages (imageEnd : BitVec 64) : BitVec 64 := pageCeil imageEnd >>> 12

/-- `pd_count`. -/
def pdCount (imageEnd : BitVec 64) : Nat := ((lowPages imageEnd + 0x1FF) >>> 9).toNat

/-- The loop that shows the first 64 GiB with large pages. -/
def mapHigh (image : ImageTables) (m : Mmu) : Mmu :=
  foldRange (fun i m =>
    let m := m.setWord image.highBasePml (Fin.ofNat 512 i) (kernelWord (tableAddress (image.twomHighPds + i)))
    foldRange (fun j m =>
      m.setWord (image.twomHighPds + i) (Fin.ofNat 512 j) (largeWord ((sizeT i <<< 30) + (sizeT j <<< 21))))
      0 512 m) 0 64 m

/-- The loop that shows the kernel image at its physical addresses. -/
def mapLow (image : ImageTables) (count : Nat) (m : Mmu) : Mmu :=
  foldRange (fun j m =>
    let m := m.setWord (image.lowBasePmls + 1) (Fin.ofNat 512 j)
      (kernelWord (tableAddress (image.lowBasePmls + (j + 2))))
    foldRange (fun i m =>
      m.setWord (image.lowBasePmls + (j + 2)) (Fin.ofNat 512 i)
        (kernelWord (0x200000 * sizeT j + 0x1000 * sizeT i))) 0 512 m) 0 count m

/-- The loop that shows the bitmap at the start of the kernel heap: entry `i` of `heap_base_pt`, an array of
three tables. -/
def mapBitmap (image : ImageTables) (firstPage : BitVec 64) (framePages : Nat) (m : Mmu) : Mmu :=
  foldRange (fun i m =>
    m.setWord (image.heapBasePt + i / 512) (Fin.ofNat 512 i) (kernelWord (firstPage + (sizeT i <<< 12))))
    0 framePages m

/-- The tables of `mmu_init`. -/
def mmuInitTables (image : ImageTables) (imageEnd firstPage : BitVec 64) (framePages : Nat) (m : Mmu) : Mmu :=
  let m := m.setWord image.initialPages 511 (kernelWord (tableAddress image.highBasePml))
  let m := m.setWord image.initialPages 510 (kernelWord (tableAddress image.heapBasePml))
  let m := mapHigh image m
  let m := m.setWord image.lowBasePmls 0 (tableWord (image.lowBasePmls + 1))
  let m := mapLow image (pdCount imageEnd) m
  -- nothing is at the null pointer
  let m := m.setWord (image.lowBasePmls + 2) 0 0
  let m := m.setWord image.initialPages 0 (tableWord image.lowBasePmls)
  let m := m.setWord image.heapBasePml 0 (kernelWord (tableAddress image.heapBasePd))
  let m := m.setWord image.heapBasePd 0 (kernelWord (tableAddress image.heapBasePt))
  let m := m.setWord image.heapBasePd 1 (kernelWord (tableAddress (image.heapBasePt + 1)))
  let m := m.setWord image.heapBasePd 2 (kernelWord (tableAddress (image.heapBasePt + 2)))
  mapBitmap image firstPage framePages m

end Voxel.Kernel
