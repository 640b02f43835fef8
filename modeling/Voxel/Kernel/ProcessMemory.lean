/-
Module: Voxel.Kernel.ProcessMemory
Layer: Kernel
Purpose: The frames of a process: what `fork`, `spawn_process`, `process_exit` and `process_delete` of
  `kernel/sys/process.c` take and give back, with `tree_insert_value` and `tree_destroy_and_merge` of
  `kernel/lib/tree.c` and `strdup` of `kernel/lib/string.c`. The queues and flags of the same functions are
  in `Voxel.Kernel.Process`. The contents of the blocks are left out; opening and closing a node takes and
  gives back no frame. `none` is a request for frames that finds none.
Trusted boundary: human-reviewed spec
Main exports: ForkParent, ProcessMemory, ProcessMemory.spawnProcess, ProcessMemory.fork,
  ProcessMemory.processExit, ProcessMemory.processDelete, ProcessMemory.churn
-/
import Voxel.Kernel.FrameRuns
import Voxel.Kernel.Mmu
import Voxel.Lib.CString

namespace Voxel.Kernel

open Voxel.Lib

/-! ## Sizes -/

/-- `sizeof(process_t)`. -/
def sizeofProcess : Nat := 216

/-- `sizeof(fs_node_t)`. -/
def sizeofFsNode : Nat := 448

/-- `sizeof(tree_t)` and `sizeof(struct tree_child)`. -/
def sizeofTree : Nat := 24

/-! ## Pointers that may be null -/

/-- A `malloc` that is skipped where there is nothing to hold. -/
def mallocIf (m : FrameMap) : Option Nat → Option (Option HeapBlock × FrameMap)
  | none => some (none, m)
  | some size => (malloc m size).map fun result => (some result.1, result.2)

/-- `strdup`. -/
def strdup (m : FrameMap) (str : Option CString) : Option (Option HeapBlock × FrameMap) :=
  mallocIf m (str.map fun s => s.length + 1)

/-- A node that is copied if the pointer to it is not null. -/
def mallocNode (m : FrameMap) (node : Bool) : Option (Option HeapBlock × FrameMap) :=
  mallocIf m (if node then some sizeofFsNode else none)

/-- The loop of `spawn_process` over the descriptor table. -/
def mallocNodes (m : FrameMap) : List Bool → Option (List (Option HeapBlock) × FrameMap)
  | [] => some ([], m)
  | node :: nodes =>
      (mallocNode m node).bind fun copied =>
        (mallocNodes copied.2 nodes).map fun rest => (copied.1 :: rest.1, rest.2)

/-- `free`, which ignores a null pointer. -/
def freeIf (m : FrameMap) (b : Option HeapBlock) : FrameMap := b.elim m (free m)

/-! ## The kernel stack -/

/-- `mmu_lock_frame(stack - 0x1000 * i)` for `i = 1 … count`. -/
def lockStack (stack : BitVec 64) : Nat → FrameMap → FrameMap
  | 0, m => m
  | count + 1, m => lockAddress (lockStack stack count m) (stack - BitVec.ofNat 64 (0x1000 * (count + 1)))

/-- `mmu_release_frame(stack - 0x1000 * i)` for `i = 1 … count`. -/
def releaseStack (stack : BitVec 64) : Nat → FrameMap → FrameMap
  | 0, m => m
  | count + 1, m =>
      releaseAddress (releaseStack stack count m) (stack - BitVec.ofNat 64 (0x1000 * (count + 1)))

/-- The nine frames of the kernel stack: they are locked by their physical addresses, and `image.stack` is the
address of their end in the direct map. -/
def requestStack (m : FrameMap) : Option (BitVec 64 × FrameMap) :=
  (mmuRequestFrames m 9).map fun first =>
    let stack := (BitVec.ofNat 64 first <<< 12) + 0x9000
    (stack ||| highMapRegion, lockStack stack 9 m)

/-! ## The process -/

/-- What a parent hands on: its strings, whether it has a `pwd_node`, for each slot of `fds` up to
`fd_capacity` whether there is a node in it, its directory, and whether it has a `tree_entry`. -/
structure ForkParent where
  name : Option CString
  pwd : Option CString
  pwdNode : Bool
  fds : List Bool
  fdLength : Nat
  treeEntry : Bool
  pageDirectory : Nat

/-- The memory of a process: the blocks its `process_t` points to, and the one of the record itself. -/
structure ProcessMemory where
  process : HeapBlock
  name : Option HeapBlock
  pwd : Option HeapBlock
  pwdNode : Option HeapBlock
  fds : HeapBlock
  fdNodes : List (Option HeapBlock)
  fdLength : Nat
  treeEntry : HeapBlock
  treeChild : Option HeapBlock
  stack : BitVec 64
  pageDirectory : Nat

namespace ProcessMemory

/-- `spawn_process`, for the directory that `fork` gives to the new process. -/
def spawnProcess (m : FrameMap) (parent : ForkParent) (pageDirectory : Nat) :
    Option (ProcessMemory × FrameMap) := do
  let process ← malloc m sizeofProcess
  let name ← strdup process.2 parent.name
  let stack ← requestStack name.2
  let pwd ← strdup stack.2 parent.pwd
  let pwdNode ← mallocNode pwd.2 parent.pwdNode
  let fds ← malloc pwdNode.2 (parent.fds.length * 8)
  let fdNodes ← mallocNodes fds.2 parent.fds
  let treeEntry ← malloc fdNodes.2 sizeofTree
  let treeChild ← mallocIf treeEntry.2 (if parent.treeEntry then some sizeofTree else none)
  some
    ({ process := process.1
       name := name.1
       pwd := pwd.1
       pwdNode := pwdNode.1
       fds := fds.1
       fdNodes := fdNodes.1
       fdLength := parent.fdLength
       treeEntry := treeEntry.1
       treeChild := treeChild.1
       stack := stack.1
       pageDirectory := pageDirectory },
      treeChild.2)

/-- `fork`. -/
def fork (m : Mmu) (parent : ForkParent) : Option (ProcessMemory × Mmu) := do
  let cloned ← mmuClone m (some parent.pageDirectory)
  let spawned ← spawnProcess cloned.2.frames parent cloned.1
  some (spawned.1, { cloned.2 with frames := spawned.2 })

/-- `process_exit`: the nodes of the open descriptors are freed. -/
def processExit (m : FrameMap) (p : ProcessMemory) : ProcessMemory × FrameMap :=
  ({ p with
      fdNodes := (p.fdNodes.take p.fdLength).map (fun _ => none) ++ p.fdNodes.drop p.fdLength },
    (p.fdNodes.take p.fdLength).foldl freeIf m)

/-- `tree_destroy_and_merge` for an entry without children: its value, the link of the parent and the entry
are freed, with or without a parent. -/
def treeDestroy (m : FrameMap) (p : ProcessMemory) : FrameMap :=
  free (freeIf (free m p.process) p.treeChild) p.treeEntry

/-- `process_delete`. The record is freed with the tree entry and once more at the end; it stays readable. -/
def processDelete (m : Mmu) (p : ProcessMemory) : Mmu :=
  let frames := treeDestroy m.frames p
  let frames := free (freeIf (freeIf frames p.name) p.pwd) p.fds
  let frames := releaseStack p.stack 9 frames
  let freed := mmuFree { m with frames := frames } (some p.pageDirectory)
  { freed with frames := free freed.frames p.process }

/-- A child that is forked, exits and is reaped. -/
def churn (m : Mmu) (parent : ForkParent) : Option Mmu := do
  let forked ← fork m parent
  let exited := processExit forked.2.frames forked.1
  some (processDelete { forked.2 with frames := exited.2 } exited.1)

end ProcessMemory

end Voxel.Kernel
