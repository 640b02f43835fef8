/-
Module: Voxel.Kernel.Heap
Layer: Kernel
Purpose: `sys_sbrk` of `kernel/sys/syscall.c`, alone and as a step of all processes. The break
  `image.heap` is page aligned from `elf_exec` on, so the counter of the loop, which goes up by whole
  pages, meets the new break exactly.
Trusted boundary: human-reviewed spec
Main exports: sysSbrk, sbrkStep, Heaps, HeapOp, Heaps.step
-/
import Voxel.Kernel.Memory

namespace Voxel.Kernel

open Voxel.Lib

/-- `-EINVAL`. -/
def einval : BitVec 64 := -22

/-- One iteration: `mmu_allocate_frame_ex` on the entry that `mmu_lookup_frame` makes or finds. A null
entry, below a large page, is a fault of the kernel. -/
def sbrkPage (address : BitVec 64) (m : Mmu) : Option Mmu :=
  match mmuLookupFrame m address true with
  | some (some (table, i), m) => some (mmuAllocateFrameEx m table i mmuFlagWritable)
  | _ => none

/-- The iterations of `for (i = out; i < out + size; i += 0x1000)`, on unsigned numbers. -/
def sbrkPages (heap size : BitVec 64) : Nat :=
  if heap < heap + size then ((heap + size).toNat - heap.toNat + 0xFFF) / 0x1000 else 0

/-- The address of an iteration. -/
def sbrkAddress (heap : BitVec 64) (k : Nat) : BitVec 64 := heap + BitVec.ofNat 64 (0x1000 * k)

/-- `sys_sbrk`, below `current_pml`: the result, the new break and the memory. -/
def sysSbrk (m : Mmu) (heap size : BitVec 64) : Option (BitVec 64 × BitVec 64 × Mmu) :=
  if size &&& 0xFFF ≠ 0 then some (einval, heap, m)
  else
    (forRange (fun k m => sbrkPage (sbrkAddress heap k) m) 0 (sbrkPages heap size) m).map fun m =>
      (heap, heap + size, m)

/-- A call of `sys_sbrk` by the process of `current_pml`, with the break it left before. -/
def sbrkStep (s : Mmu × BitVec 64) (size : BitVec 64) : Option (Mmu × BitVec 64) :=
  (sysSbrk s.1 s.2 size).map fun called => (called.2.2, called.2.1)

/-- The memory and the break of every process. -/
structure Heaps where
  memory : Memory
  heap : Nat → BitVec 64

/-- The operations. -/
inductive HeapOp where
  | sbrk (root : Nat) (size : BitVec 64)
  | fork (parent child : Nat)
  | write (root : Nat) (address : BitVec 64) (value : BitVec 8)
deriving DecidableEq

/-- The new break stays in the heap area. -/
def inArea (base top : Nat) (heap size : BitVec 64) : Bool :=
  base ≤ heap.toNat + size.toInt ∧ heap.toNat + size.toInt ≤ top

namespace Heaps

/-- `sys_sbrk` of a live process. -/
def sbrk (base top : Nat) (s : Heaps) (root : Nat) (size : BitVec 64) : Option Heaps :=
  if root ∈ s.memory.live ∧ inArea base top (s.heap root) size then
    match sysSbrk { s.memory.mmu with currentPml := root } (s.heap root) size with
    | none => none
    | some (_, heap, m) =>
        some { memory := { s.memory with mmu := m }, heap := Function.update s.heap root heap }
  else none

/-- One operation; a fork hands its break to the child. -/
def step (base top : Nat) (s : Heaps) : HeapOp → Option Heaps
  | .sbrk root size => s.sbrk base top root size
  | .fork parent child =>
      (s.memory.fork parent child).map fun memory =>
        { memory := memory, heap := Function.update s.heap child (s.heap parent) }
  | .write root address value =>
      (s.memory.write root address value).map fun memory => { s with memory := memory }

theorem sbrk_eq_some {base top : Nat} {s t : Heaps} {root : Nat} {size : BitVec 64} :
    s.sbrk base top root size = some t → root ∈ s.memory.live ∧
      inArea base top (s.heap root) size = true ∧ ∃ result heap m,
        sysSbrk { s.memory.mmu with currentPml := root } (s.heap root) size =
          some (result, heap, m) ∧
        t = { memory := { s.memory with mmu := m }, heap := Function.update s.heap root heap } := by
  unfold sbrk
  intro grown
  split at grown
  · rename_i allowed
    split at grown
    · cases grown
    · rename_i result heap m called
      cases grown
      exact ⟨allowed.1, allowed.2, result, heap, m, called, rfl⟩
  · cases grown

theorem step_sbrk {base top : Nat} {s : Heaps} {root : Nat} {size result heap : BitVec 64} {m : Mmu}
    (member : root ∈ s.memory.live) (inside : inArea base top (s.heap root) size = true)
    (called : sysSbrk { s.memory.mmu with currentPml := root } (s.heap root) size =
      some (result, heap, m)) :
    s.step base top (.sbrk root size) =
      some { memory := { s.memory with mmu := m }, heap := Function.update s.heap root heap } := by
  rw [step, sbrk, if_pos ⟨member, inside⟩, called]

theorem step_fork {base top : Nat} {s : Heaps} {parent child : Nat} {m : Mmu}
    (member : parent ∈ s.memory.live) (cloned : mmuClone s.memory.mmu (some parent) = some (child, m)) :
    s.step base top (.fork parent child) =
      some { memory := ⟨m, insert child s.memory.live⟩
             heap := Function.update s.heap child (s.heap parent) } := by
  rw [step, Memory.fork_eq_some.mpr ⟨member, m, cloned, rfl⟩]
  rfl

end Heaps

end Voxel.Kernel
