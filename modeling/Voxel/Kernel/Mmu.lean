/-
Module: Voxel.Kernel.Mmu
Layer: Kernel
Purpose: The page tables of `kernel/cpu/mmu.c`. Physical memory is an array of frames of 512 words; a
  `pagemap_entry_t*` is the frame of a table and an index into it, and `mmu_from_physical` (the direct
  map) is how the kernel reaches a frame by its number. `none` as the result of a whole operation is a
  page fault of the kernel: with no free frame it clears or copies at an address that is not mapped.
Trusted boundary: human-reviewed spec
Main exports: Mmu, mmuAllocateFrameEx, mmuLookupFrame, mmuLookupFrameFrom, copyPage, freePage,
  mmuClone, mmuFree, mmuCountUser, mmuCopyOnWrite
-/
import Voxel.Kernel.Frames
import Voxel.Kernel.PageEntry
import Voxel.Lib.Loop
import Voxel.Lib.ByteMemory

namespace Voxel.Kernel

open Voxel.Lib

/-- The state of the memory management: the bitmap, `mem_refcounts`, the words of every frame and the
frame of `current_pml`. -/
structure Mmu where
  frames : FrameMap
  memRefcounts : Nat → BitVec 8
  phys : Nat → Fin 512 → BitVec 64
  currentPml : Nat

namespace Mmu

/-- The entry at an index of a table. -/
def entry (m : Mmu) (table : Nat) (i : Fin 512) : PagemapEntry := .ofWord (m.phys table i)

/-- `*(uint64_t*) &table[i] = word`. -/
def setWord (m : Mmu) (table : Nat) (i : Fin 512) (word : BitVec 64) : Mmu :=
  { m with phys := Function.update m.phys table (Function.update (m.phys table) i word) }

/-- Assign the bit-fields of an entry. -/
def setEntry (m : Mmu) (table : Nat) (i : Fin 512) (e : PagemapEntry) : Mmu :=
  m.setWord table i e.toWord

/-- Overwrite a whole frame. -/
def setFrame (m : Mmu) (frame : Nat) (words : Fin 512 → BitVec 64) : Mmu :=
  { m with phys := Function.update m.phys frame words }

/-- `mmu_lock_frame`. -/
def lockFrame (m : Mmu) (frame : Nat) : Mmu := { m with frames := mmuLockFrame m.frames frame }

/-- `mmu_release_frame`. -/
def releaseFrame (m : Mmu) (frame : Nat) : Mmu :=
  { m with frames := mmuReleaseFrame m.frames frame }

/-- `mem_refcounts[frame] = count`. -/
def setRefcount (m : Mmu) (frame : Nat) (count : BitVec 8) : Mmu :=
  { m with memRefcounts := Function.update m.memRefcounts frame count }

/-- `mmu_request_frame` on the whole state. -/
def requestFrame (m : Mmu) : Option (Nat × Mmu) :=
  match mmuRequestFrame m.frames with
  | none => none
  | some (frame, frames) => some (frame, { m with frames := frames })

end Mmu

/-! ## Addresses -/

/-- `page_addr`: the canonical bits of an address without the offset in the page. -/
def pageAddr (virtAddr : BitVec 64) : Nat := ((virtAddr &&& 0xFFFFFFFFFFFF#64) >>> 12).toNat

/-- `pml4_entry`, `pdp_entry`, `pd_entry` and `pt_entry`, masked with `ENTRY_MASK`. -/
def pml4Entry (virtAddr : BitVec 64) : Fin 512 := Fin.ofNat 512 (pageAddr virtAddr >>> 27)

def pdpEntry (virtAddr : BitVec 64) : Fin 512 := Fin.ofNat 512 (pageAddr virtAddr >>> 18)

def pdEntry (virtAddr : BitVec 64) : Fin 512 := Fin.ofNat 512 (pageAddr virtAddr >>> 9)

def ptEntry (virtAddr : BitVec 64) : Fin 512 := Fin.ofNat 512 (pageAddr virtAddr)

/-! ## Mapping and looking up -/

/-- The `MMU_FLAG_*` bits. -/
def mmuFlagKernel : BitVec 32 := 0x01

def mmuFlagWritable : BitVec 32 := 0x02

def mmuFlagNocache : BitVec 32 := 0x04

def mmuFlagWritethrough : BitVec 32 := 0x08

def mmuFlagSpec : BitVec 32 := 0x10

def mmuFlagNoexecute : BitVec 32 := 0x20

/-- `(flags & flag) ? 1 : 0`. -/
def hasFlag (flags flag : BitVec 32) : Bool := flags &&& flag != 0

/-- The first part of `mmu_allocate_frame_ex`: an entry without a page gets a fresh frame. A failed
request leaves `(uintptr_t) -1` in the 28 bits of the page. -/
def allocatePage (m : Mmu) (table : Nat) (i : Fin 512) : Mmu :=
  if (m.entry table i).page = 0 then
    match m.requestFrame with
    | some (index, m') =>
        (m'.lockFrame index).setEntry table i
          { m.entry table i with page := BitVec.ofNat 28 index }
    | none => m.setEntry table i { m.entry table i with page := BitVec.allOnes 28 }
  else m

/-- The entry `mmu_allocate_frame_ex` leaves: everything but `page`, `cow` and the unused bits is set
from the flags. -/
def flaggedEntry (e : PagemapEntry) (flags : BitVec 32) : PagemapEntry :=
  { e with
    present := true
    writable := hasFlag flags mmuFlagWritable
    user := !hasFlag flags mmuFlagKernel
    nocache := hasFlag flags mmuFlagNocache
    writethrough := hasFlag flags mmuFlagWritethrough
    size := hasFlag flags mmuFlagSpec
    noexec := hasFlag flags mmuFlagNoexecute }

/-- `mmu_allocate_frame_ex`: an entry that still holds a page keeps it. -/
def mmuAllocateFrameEx (m : Mmu) (table : Nat) (i : Fin 512) (flags : BitVec 32) : Mmu :=
  let allocated := allocatePage m table i
  allocated.setEntry table i (flaggedEntry (allocated.entry table i) flags)

/-- A fresh cleared table behind an entry: request, lock, `memset`, link. -/
def makeTable (m : Mmu) (table : Nat) (i : Fin 512) : Option (Nat × Mmu) :=
  match m.requestFrame with
  | none => none
  | some (newPage, m') =>
      some (newPage,
        ((m'.lockFrame newPage).setFrame newPage fun _ => 0).setWord table i (tableWord newPage))

/-- The `if (!table[i].present)` of `mmu_lookup_frame`; `false` is the early `return 0`. -/
def ensureTable (m : Mmu) (make : Bool) (table : Nat) (i : Fin 512) : Option (Bool × Mmu) :=
  if (m.entry table i).present then some (true, m)
  else if make then (makeTable m table i).map fun made => (true, made.2)
  else some (false, m)

/-- `mmu_lookup_frame`: the entry for an address below `current_pml`, or a null pointer. With
`MMU_GET_MAKE` missing tables are made on the way. -/
def mmuLookupFrame (m : Mmu) (virtAddr : BitVec 64) (make : Bool) :
    Option (Option (Nat × Fin 512) × Mmu) :=
  let root := m.currentPml
  match ensureTable m make root (pml4Entry virtAddr) with
  | none => none
  | some (false, m) => some (none, m)
  | some (true, m) =>
    let pdp := (m.entry root (pml4Entry virtAddr)).page.toNat
    match ensureTable m make pdp (pdpEntry virtAddr) with
    | none => none
    | some (false, m) => some (none, m)
    | some (true, m) =>
      if (m.entry pdp (pdpEntry virtAddr)).size then some (none, m)
      else
        let pd := (m.entry pdp (pdpEntry virtAddr)).page.toNat
        match ensureTable m make pd (pdEntry virtAddr) with
        | none => none
        | some (false, m) => some (none, m)
        | some (true, m) =>
          if (m.entry pd (pdEntry virtAddr)).size then some (none, m)
          else some (some ((m.entry pd (pdEntry virtAddr)).page.toNat, ptEntry virtAddr), m)

/-- `mmu_lookup_frame_from`. -/
def mmuLookupFrameFrom (m : Mmu) (pml : Nat) (virtAddr : BitVec 64) : Option (Nat × Fin 512) :=
  if !(m.entry pml (pml4Entry virtAddr)).present then none
  else
    let pdp := (m.entry pml (pml4Entry virtAddr)).page.toNat
    if !(m.entry pdp (pdpEntry virtAddr)).present then none
    else if (m.entry pdp (pdpEntry virtAddr)).size then none
    else
      let pd := (m.entry pdp (pdpEntry virtAddr)).page.toNat
      if !(m.entry pd (pdEntry virtAddr)).present then none
      else if (m.entry pd (pdEntry virtAddr)).size then none
      else some ((m.entry pd (pdEntry virtAddr)).page.toNat, ptEntry virtAddr)

/-! ## Reference counts -/

/-- `_refcount_increase`: true when the count was not raised. -/
def refcountIncrease (m : Mmu) (frame : Nat) : Bool × Mmu :=
  if m.frames.nFrames ≤ frame then (true, m)
  else if m.memRefcounts frame = 255 then (true, m)
  else (false, m.setRefcount frame (m.memRefcounts frame + 1))

/-- `_refcount_decrease`: the new count, or -1 for a count that is already 0. -/
def refcountDecrease (m : Mmu) (frame : Nat) : Int × Mmu :=
  if m.frames.nFrames ≤ frame then (-1, m)
  else if m.memRefcounts frame = 0 then (-1, m)
  else
    let count := m.memRefcounts frame - 1
    (count.toNat, m.setRefcount frame count)

/-! ## Copying and freeing an address space -/

/-- `_copy_page`. The private copy made when the count is full is not locked. -/
def copyPage (m : Mmu) (tableIn tableOut : Nat) (index : Fin 512) : Option Mmu :=
  let page := (m.entry tableIn index).page.toNat
  if (m.entry tableIn index).writable then
    if m.memRefcounts page ≠ 0 then some m
    else
      let counted := m.setRefcount page 2
      let shared := counted.setEntry tableIn index
        { m.entry tableIn index with writable := false, cow := true }
      some (shared.setWord tableOut index (shared.phys tableIn index))
  else
    match refcountIncrease m page with
    | (true, m) =>
        match m.requestFrame with
        | none => none
        | some (newPage, m) =>
            let copied := m.setFrame newPage (m.phys page)
            some (copied.setEntry tableOut index
              { PagemapEntry.zero with
                present := true
                user := true
                page := BitVec.ofNat 28 newPage
                writable := true
                cow := false })
    | (false, m) => some (m.setWord tableOut index (m.phys tableIn index))

/-- `_free_page`. -/
def freePage (m : Mmu) (table : Nat) (index : Fin 512) : Mmu :=
  let page := (m.entry table index).page.toNat
  if (m.entry table index).writable then m.releaseFrame page
  else
    match refcountDecrease m page with
    | (count, m) => if count = 0 then m.releaseFrame page else m

/-- One entry of the innermost loop of `mmu_clone`. -/
def clonePageEntry (tableIn tableOut : Nat) (m : Mmu) (l : Fin 512) : Option Mmu :=
  if (m.entry tableIn l).present then
    if (m.entry tableIn l).user then copyPage m tableIn tableOut l
    else some (m.setWord tableOut l (m.phys tableIn l))
  else some m

/-- The nested loops of `mmu_clone`: at level 0 the entries are pages, above it they are tables, and
the loops over `pml`, `pdp_in` and `pd_in` are the same code. -/
def cloneTable (level count : Nat) (tableIn tableOut : Nat) (m : Mmu) : Option Mmu :=
  match level with
  | 0 => forRange (fun i m => clonePageEntry tableIn tableOut m (Fin.ofNat 512 i)) 0 count m
  | level + 1 =>
      forRange (fun i m =>
        if (m.entry tableIn (Fin.ofNat 512 i)).present then
          let inner := (m.entry tableIn (Fin.ofNat 512 i)).page.toNat
          match makeTable m tableOut (Fin.ofNat 512 i) with
          | none => none
          | some (newPage, m) => cloneTable level 512 inner newPage m
        else some m) 0 count m

/-- `mmu_clone`: the lower half is copied, the upper half is shared. -/
def mmuClone (m : Mmu) (pml : Option Nat) : Option (Nat × Mmu) :=
  let pml := pml.getD m.currentPml
  match m.requestFrame with
  | none => none
  | some (newPage, m) =>
      let pml4Out := (m.lockFrame newPage).setFrame newPage fun i =>
        if i.val < 256 then 0 else m.phys pml i
      (cloneTable 3 256 pml newPage pml4Out).map fun cloned => (newPage, cloned)

/-- The nested loops of `mmu_free`: pages are freed, and every table after what is below it. -/
def freeTable (level count : Nat) (table : Nat) (m : Mmu) : Mmu :=
  match level with
  | 0 =>
      foldRange (fun i m =>
        if (m.entry table (Fin.ofNat 512 i)).present && (m.entry table (Fin.ofNat 512 i)).user then
          freePage m table (Fin.ofNat 512 i)
        else m) 0 count m
  | level + 1 =>
      foldRange (fun i m =>
        if (m.entry table (Fin.ofNat 512 i)).present then
          let inner := (m.entry table (Fin.ofNat 512 i)).page.toNat
          (freeTable level 512 inner m).releaseFrame inner
        else m) 0 count m

/-- `mmu_free`; a null pointer is ignored. -/
def mmuFree (m : Mmu) (pml : Option Nat) : Mmu :=
  match pml with
  | none => m
  | some pml => (freeTable 3 256 pml m).releaseFrame pml

/-- `mmu_count_user`. The frame of `pd` is taken from an entry of `pml` at the index into `pdp`. The sum
is far below `2^64`. -/
def mmuCountUser (m : Mmu) (pml : Nat) : Nat :=
  foldRange (fun i out =>
    if (m.entry pml (Fin.ofNat 512 i)).present then
      let pdp := (m.entry pml (Fin.ofNat 512 i)).page.toNat
      foldRange (fun j out =>
        if (m.entry pdp (Fin.ofNat 512 j)).present then
          let pd := (m.entry pml (Fin.ofNat 512 j)).page.toNat
          foldRange (fun k out =>
            if (m.entry pd (Fin.ofNat 512 k)).present then
              let pt := (m.entry pd (Fin.ofNat 512 k)).page.toNat
              foldRange (fun l out =>
                if (m.entry pt (Fin.ofNat 512 l)).present && (m.entry pt (Fin.ofNat 512 l)).user then
                  out + 1
                else out) 0 512 (out + 1)
            else out) 0 512 (out + 1)
        else out) 0 512 (out + 1)
    else out) 0 256 0

/-- `mmu_copy_on_write`: the result is false for a resolved fault. A null entry is read at address 0,
which is not mapped. -/
def mmuCopyOnWrite (m : Mmu) (address : BitVec 64) : Option (Bool × Mmu) :=
  match mmuLookupFrame m address false with
  | none => none
  | some (none, _) => none
  | some (some (table, i), m) =>
      if (m.entry table i).cow = false then some (true, m)
      else
        match refcountDecrease m (m.entry table i).page.toNat with
        | (count, m) =>
            -- `uint8_t refs` takes the low byte of the result
            if BitVec.ofInt 8 count = 0 then
              some (false, m.setEntry table i { m.entry table i with writable := true, cow := false })
            else
              match m.requestFrame with
              | none => none
              | some (freshFrame, m) =>
                  let copied := (m.lockFrame freshFrame).setFrame freshFrame
                    (m.phys (m.entry table i).page.toNat)
                  some (false, copied.setEntry table i
                    { copied.entry table i with
                      page := BitVec.ofNat 28 freshFrame
                      writable := true
                      cow := false })

end Voxel.Kernel
