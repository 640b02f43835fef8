/-
Module: Voxel.Kernel.ElfLoad
Layer: Kernel
Purpose: The loading loop of `elf_exec` of `kernel/lib/elf.c`, as the list of the pages that it maps and the
  bytes that it stores. What `read_fs` stores is a parameter: the file is not in the memory of the process.
  The loop over the pages of a segment may go on for ever, so it is followed for a number of rounds. What an
  action does to the page tables and the frames is a step of the memory management. With the stack, and with
  `sys_sbrk` and the stores of the program, this is all that puts bytes into the memory of a process; the
  blocks of the kernel heap that `execve` takes are left out.
Trusted boundary: human-reviewed spec
Main exports: ElfPhdr, ElfFile, ElfFile.phdrs, LoadAction, mapLoop, loadSegment, loadSegments,
  ElfFile.loadActions, ElfFile.imageHeap, kernelStore, loadStep, ExecCall, ExecCall.actions, execSpace,
  ProcessSpace, SpaceCall, ProcessSpace.step
-/
import Voxel.Kernel.Heap
import Voxel.Kernel.UserStack
import Voxel.Lib.LittleEndian
import Voxel.Lib.PagedMemory
import Voxel.Lib.Run

namespace Voxel.Kernel

open Voxel.Lib

/-- `PT_LOAD`. -/
def ptLoad : BitVec 32 := 1

/-- `sizeof(Elf64_Phdr)`. -/
def sizeofElfPhdr : BitVec 64 := 56

/-- The fields of `Elf64_Phdr` that the loader reads. -/
structure ElfPhdr where
  type : BitVec 32
  offset : BitVec 64
  vaddr : BitVec 64
  filesz : BitVec 64
  memsz : BitVec 64
deriving Repr, DecidableEq

/-- The fields at their places in the structure. -/
def ElfPhdr.ofBytes (bytes : Nat → BitVec 8) : ElfPhdr where
  type := BitVec.ofNat 32 (leNat bytes 0 4)
  offset := BitVec.ofNat 64 (leNat bytes 8 8)
  vaddr := BitVec.ofNat 64 (leNat bytes 16 8)
  filesz := BitVec.ofNat 64 (leNat bytes 32 8)
  memsz := BitVec.ofNat 64 (leNat bytes 40 8)

/-- A file as the loader sees it: the bytes of `header`, what `read_fs` stores for an offset and a size, and
what was on the stack in the place of `phdr`, for every round of the loop. -/
structure ElfFile where
  header : Nat → BitVec 8
  read : BitVec 64 → BitVec 64 → List (BitVec 8)
  stackBytes : Nat → Nat → BitVec 8

namespace ElfFile

variable (f : ElfFile)

/-- `e_phoff`. -/
def phoff : BitVec 64 := BitVec.ofNat 64 (leNat f.header 32 8)

/-- `e_phentsize`, as an `int`. -/
def phentsize : BitVec 32 := BitVec.ofNat 32 (leNat f.header 54 2)

/-- `e_phnum`. -/
def phnum : Nat := leNat f.header 56 2

/-- `header.e_phoff + header.e_phentsize * i`; the product is one of `int`s. -/
def phdrOffset (i : Nat) : BitVec 64 := f.phoff + (f.phentsize * BitVec.ofNat 32 i).signExtend 64

/-- `phdr` in a round of the loop. -/
def phdr (i : Nat) : ElfPhdr :=
  .ofBytes fun k => (f.read (f.phdrOffset i) sizeofElfPhdr).getD k (f.stackBytes i k)

/-- The headers in their order. -/
def phdrs : List ElfPhdr := (List.range f.phnum).map f.phdr

end ElfFile

/-! ## The loop -/

/-- Mapping the page of an address for the process, or storing a byte. -/
abbrev LoadAction := PageAction (BitVec 64)

/-- `for (j = first; j < last; j += 0x1000)`, for a number of rounds; `false` if the loop goes on after
them. -/
def mapLoop (last : BitVec 64) : Nat → BitVec 64 → List LoadAction × Bool
  | 0, _ => ([], false)
  | rounds + 1, j =>
      if j < last then
        let rest := mapLoop last rounds (j + 0x1000)
        (.mapPage j :: rest.1, rest.2)
      else ([], true)

/-- `read_fs` to an address. -/
def storeContent (base : BitVec 64) (bytes : List (BitVec 8)) : List LoadAction :=
  bytes.mapIdx fun k value => .store (base + BitVec.ofNat 64 k) value

/-- `for (j = p_filesz; j < p_memsz; ++j) *(char*)(p_vaddr + j) = 0;`. -/
def storeZeros (p : ElfPhdr) : List LoadAction :=
  (List.range (p.memsz.toNat - p.filesz.toNat)).map fun k =>
    .store (p.vaddr + (p.filesz + BitVec.ofNat 64 k)) 0

/-- A round of the loop over the headers. -/
def loadSegment (f : ElfFile) (rounds : Nat) (p : ElfPhdr) : List LoadAction × Bool :=
  if p.type = ptLoad then
    let pages := mapLoop (p.vaddr + p.memsz) rounds p.vaddr
    if pages.2 then (pages.1 ++ (storeContent p.vaddr (f.read p.offset p.filesz) ++ storeZeros p), true)
    else pages
  else ([], true)

/-- The loop over the headers; it does not get behind a segment whose pages have no end. -/
def loadSegments (f : ElfFile) (rounds : Nat) : List ElfPhdr → List LoadAction × Bool
  | [] => ([], true)
  | p :: rest =>
      let segment := loadSegment f rounds p
      if segment.2 then
        let others := loadSegments f rounds rest
        (segment.1 ++ others.1, others.2)
      else segment

/-- `heap_base` after a header. -/
def heapBase (base : BitVec 64) (p : ElfPhdr) : BitVec 64 :=
  if p.type = ptLoad ∧ base < p.vaddr + p.memsz then p.vaddr + p.memsz else base

namespace ElfFile

variable (f : ElfFile)

/-- What the loop has done after a number of rounds of each inner loop, and whether it has come to its
end. -/
def loadActions (rounds : Nat) : List LoadAction × Bool := loadSegments f rounds f.phdrs

/-- `image.heap`. -/
def imageHeap : BitVec 64 := (f.phdrs.foldl heapBase 0 + 0xFFF) &&& ~~~0xFFF

end ElfFile

/-! ## The memory -/

/-- A store of the kernel into the user half; a page that is not present, or not writable, is a fault. -/
def kernelStore (m : Mmu) (address : BitVec 64) (value : BitVec 8) : Option Mmu :=
  match mmuLookupFrameFrom m m.currentPml address with
  | none => none
  | some (table, i) =>
      if (m.entry table i).present && (m.entry table i).writable then
        some (storeByte m (m.entry table i).page.toNat address value)
      else none

/-- An action: the two calls of the loop over the pages are those of an iteration of `sys_sbrk`. -/
def loadStep (m : Mmu) : LoadAction → Option Mmu
  | .mapPage address => sbrkPage address m
  | .store address value => kernelStore m address value

/-! ## The calls -/

/-- The loop over the pages of the stack. -/
def stackPages : List LoadAction :=
  (mapLoop userstackTop (userstackSize / 0x1000 + 1) (userstackTop - BitVec.ofNat 64 userstackSize)).1

/-- The bytes of the pushes, in order; no push stores over another one. -/
def stackStores (s : UserStack) : List LoadAction :=
  s.stores.flatMap fun store => (List.range store.2).map fun k =>
    .store (store.1 + BitVec.ofNat 64 k) (s.memory (store.1 + BitVec.ofNat 64 k))

/-- What a call of `execve` loads. -/
structure ExecCall where
  file : ElfFile
  argv : List CString
  envp : List CString
  uid : BitVec 32

/-- What `elf_exec` does to the new directory, and whether its loops have come to their ends. -/
def ExecCall.actions (call : ExecCall) (rounds : Nat) : List LoadAction × Bool :=
  let loaded := call.file.loadActions rounds
  let stack := (elfStack call.argv call.envp call.uid ⟨userstackTop, fun _ => 0, []⟩).stack
  (loaded.1 ++ (stackPages ++ stackStores stack), loaded.2)

/-- The new directory: the one of the kernel is cloned, and the one of the process is freed. -/
def execSpace (kernelPml : Nat) (m : Mmu) : Option Mmu :=
  (mmuClone { m with currentPml := kernelPml } none).map fun cloned =>
    mmuFree { cloned.2 with currentPml := cloned.1 } (some m.currentPml)

/-- The memory of the current process: `current_pml`, the directory of the kernel and `image.heap`. -/
structure ProcessSpace where
  mmu : Mmu
  kernelPml : Nat
  heap : BitVec 64

/-- The calls that change it, and the stores of the program. The loops of an `execve` are followed for a
number of rounds. -/
inductive SpaceCall where
  | sbrk (size : BitVec 64)
  | execve (call : ExecCall) (rounds : Nat)
  | write (address : BitVec 64) (value : BitVec 8)

/-- A call; `none` is a fault, or a loop without an end in the rounds. -/
def ProcessSpace.step (s : ProcessSpace) : SpaceCall → Option ProcessSpace
  | .sbrk size =>
      (sysSbrk s.mmu s.heap size).map fun called => { s with mmu := called.2.2, heap := called.2.1 }
  | .execve call rounds =>
      if (call.actions rounds).2 then
        ((execSpace s.kernelPml s.mmu).bind fun m => Run.exec loadStep m (call.actions rounds).1).map fun m =>
          { s with mmu := m, heap := call.file.imageHeap }
      else none
  | .write address value =>
      if userHalf address then
        (userWrite s.mmu s.mmu.currentPml address value).map fun m => { s with mmu := m }
      else none

end Voxel.Kernel
