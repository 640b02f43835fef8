/-
Module: Voxel.Kernel.FdTable
Layer: Kernel
Purpose: The descriptor tables of `kernel/sys/process.c` with their blocks of the kernel heap: an array of
  `fd_capacity` pointers of which `fd_length` are in use. `malloc` and `realloc` do not clear the array. The
  table of a new process is made by `spawn_init` or by `spawn_process`. What `sys_open` opens is an argument;
  opening and closing a node does not change the node or its table. `none` is a request for frames that finds
  none, a process that is not there, or a store outside an array.
Trusted boundary: human-reviewed spec
Main exports: FdSlot, FdTable, FdTables, FdTables.spawnInit, FdTables.appendProcessFd, FdTables.sysOpen,
  FdTables.sysClose, FdTables.processDup2, FdTables.sysExecve, FdTables.spawnProcess
-/
import Mathlib.Logic.Function.Basic
import Voxel.Kernel.ProcessMemory

namespace Voxel.Kernel

/-- An entry of `fds`: never written since the array was allocated, null, or a pointer to a node, with the
block and the contents of the node. -/
inductive FdSlot (Node : Type)
  | unassigned
  | null
  | node (block : HeapBlock) (contents : Node)
  deriving Repr, DecidableEq

/-- `fds`, `fd_capacity` and `fd_length` of a process. The list is the whole array, up to `fd_capacity`. -/
structure FdTable (Node : Type) where
  block : HeapBlock
  fds : List (FdSlot Node)
  fdLength : Nat
  deriving Repr, DecidableEq

/-- The bitmap of the frames, and the tables of the processes. -/
structure FdTables (Node : Type) where
  frames : FrameMap
  tables : Nat → Option (FdTable Node)

namespace FdTables

variable {Node : Type} (s : FdTables Node)

/-- `sizeof(fs_node_t*)`. -/
def sizeofPointer : Nat := 8

/-- Overwrite the table of a process. -/
def setTable (p : Nat) (t : FdTable Node) : FdTables Node :=
  { s with tables := Function.update s.tables p (some t) }

/-- An `int` that is passed as a `long`. -/
def intOf (fd : BitVec 64) : Int := (fd.setWidth 32).toInt

/-! ## Tables -/

/-- The first table. -/
def initTable (fds : HeapBlock) : FdTable Node :=
  { block := fds, fds := List.replicate 32 .unassigned, fdLength := 0 }

/-- The table that `spawn_init` makes for the process 1. -/
def spawnInit (m : FrameMap) : Option (FdTables Node) :=
  (malloc m (sizeofPointer * 32)).map fun fds =>
    { frames := fds.2, tables := Function.update (fun _ => none) 1 (some (initTable fds.1)) }

/-- `append_process_fd`. -/
def appendProcessFd (p : Nat) (block : HeapBlock) (contents : Node) : Option (Nat × FdTables Node) :=
  match s.tables p with
  | none => none
  | some t =>
      let grown :=
        if t.fdLength = t.fds.length then
          (realloc s.frames t.block (sizeofPointer * (t.fds.length + 64))).map fun fds =>
            ({ t with block := fds.1, fds := t.fds ++ List.replicate 64 .unassigned }, fds.2)
        else some (t, s.frames)
      grown.map fun (t, frames) =>
        (t.fdLength,
          { s with frames := frames }.setTable p
            { t with fds := t.fds.set t.fdLength (.node block contents), fdLength := t.fdLength + 1 })

/-- `get_process_fd`, for a descriptor that is cut to an `int`. -/
def getProcessFd (p : Nat) (fd : BitVec 64) : Option (HeapBlock × Node) :=
  match s.tables p with
  | none => none
  | some t =>
      if (t.fdLength : Int) ≤ intOf fd ∨ intOf fd < 0 then none
      else
        match t.fds[(intOf fd).toNat]? with
        | some (.node block contents) => some (block, contents)
        | _ => none

/-- Write an entry of the array of a process. -/
def store (p i : Nat) (slot : FdSlot Node) : Option (FdTables Node) :=
  match s.tables p with
  | none => none
  | some t => if i < t.fds.length then some (s.setTable p { t with fds := t.fds.set i slot }) else none

/-! ## Calls -/

/-- `sys_open`: the node that it opens gets a block and a descriptor; with `none` it returns an error. -/
def sysOpen (p : Nat) (opened : Option Node) : Option (FdTables Node) :=
  match opened with
  | none => some s
  | some contents =>
      (malloc s.frames sizeofFsNode).bind fun node =>
        ({ s with frames := node.2 }.appendProcessFd p node.1 contents).map Prod.snd

/-- `sys_close`. The entry is taken from the `int`, but the store goes to the `long`. -/
def sysClose (p : Nat) (fd : BitVec 64) : Option (FdTables Node) :=
  match s.getProcessFd p fd with
  | none => some s
  | some (block, _) =>
      if fd.toInt = intOf fd then { s with frames := free s.frames block }.store p (intOf fd).toNat .null
      else none

/-- The block of a node, given back. -/
def freeSlot (m : FrameMap) : FdSlot Node → FrameMap
  | .node block _ => free m block
  | _ => m

/-- The entry of a node that was closed. -/
def closeSlot : FdSlot Node → FdSlot Node
  | .node _ _ => .null
  | slot => slot

/-- `process_dup2`. A node that is copied over itself is freed first, but it stays readable. -/
def processDup2 (p : Nat) (source target : BitVec 64) : Option (FdTables Node) :=
  match s.getProcessFd p source, s.tables p with
  | some (_, contents), some t =>
      if intOf target = -1 then
        (malloc s.frames sizeofFsNode).bind fun node =>
          ({ s with frames := node.2 }.appendProcessFd p node.1 contents).map Prod.snd
      else if (t.fdLength : Int) ≤ intOf target ∨ intOf target < 0 then some s
      else
        let frames := freeSlot s.frames (t.fds.getD (intOf target).toNat .null)
        (malloc frames sizeofFsNode).bind fun node =>
          { s with frames := node.2 }.store p (intOf target).toNat (.node node.1 contents)
  | _, _ => some s

/-- The loop of `sys_execve` over the descriptors from 3 on, and the new `fd_length`. A call that fails
earlier leaves the table as it is. -/
def sysExecve (p : Nat) : Option (FdTables Node) :=
  match s.tables p with
  | none => none
  | some t =>
      some ({ s with frames := ((t.fds.take t.fdLength).drop 3).foldl freeSlot s.frames }.setTable p
        { t with
          fds := t.fds.mapIdx fun i slot => if 3 ≤ i ∧ i < t.fdLength then closeSlot slot else slot
          fdLength := min t.fdLength 3 })

/-- The loop of `spawn_process` over the table of the parent. `stale` says what an entry that was never
written makes of the test and the `memcpy`: no node, or a copy of the bytes that it happens to point to. -/
def copySlots (stale : Nat → Option Node) :
    Nat → List (FdSlot Node) → FrameMap → Option (List (FdSlot Node) × FrameMap)
  | _, [], m => some ([], m)
  | i, slot :: rest, m =>
      let copied :=
        match slot with
        | .unassigned => stale i
        | .null => none
        | .node _ contents => some contents
      match copied with
      | none => (copySlots stale (i + 1) rest m).map fun done => (.null :: done.1, done.2)
      | some contents =>
          (malloc m sizeofFsNode).bind fun node =>
            (copySlots stale (i + 1) rest node.2).map fun done =>
              (.node node.1 contents :: done.1, done.2)

/-- The table that `spawn_process` makes for a new process. -/
def spawnProcess (parent child : Nat) (stale : Nat → Option Node) : Option (FdTables Node) :=
  match s.tables parent, s.tables child with
  | some t, none =>
      (malloc s.frames (sizeofPointer * t.fds.length)).bind fun fds =>
        (copySlots stale 0 t.fds fds.2).map fun copied =>
          { s with frames := copied.2 }.setTable child
            { block := fds.1, fds := copied.1, fdLength := t.fdLength }
  | _, _ => none

end FdTables

end Voxel.Kernel
