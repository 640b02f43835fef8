/-
Module: Voxel.Kernel.Execve
Layer: Kernel
Purpose: `sys_execve` of `kernel/sys/syscall.c` and the checks at the start of `elf_exec` of
  `kernel/lib/elf.c`, up to the point where the loader takes over; how the vectors of a program are read, and
  `_kopen` of `kernel/sys/fs/vfs.c` with the blocks it takes from the kernel heap: the copy of the string, the
  copy of the root, and the node that every lookup returns. Loops that look for a null run on fuel; `none` is
  an access outside a string or a request for frames that finds none. The verdicts of `validate_ptr` are not
  looked at; opening and closing a node takes and gives back no frame.
Trusted boundary: human-reviewed spec
Main exports: stringAt, countVector, KernelVector, copyVector, NodeTree.kopenBlocks, ExecImage, ExecProcess,
  ExecState, ExecResult, elfExec, sysExecve
-/
import Voxel.Kernel.FileCalls
import Voxel.Kernel.ProcessMemory
import Voxel.Kernel.Vfs
import Voxel.Lib.ByteMemory

namespace Voxel.Kernel

open Voxel.Lib

/-! ## The vectors of a program -/

/-- `strlen`, from a character on. -/
def strlenAt (memory : ByteMemory) (s : BitVec 64) : Nat → Nat → Option Nat
  | 0, _ => none
  | fuel + 1, len =>
      if memory (s + BitVec.ofNat 64 len) = nul then some len else strlenAt memory s fuel (len + 1)

/-- The characters that `memcpy` copies, without the terminator. -/
def bytesAt (memory : ByteMemory) (s : BitVec 64) (len : Nat) : CString :=
  (List.range len).map fun i => memory (s + BitVec.ofNat 64 i)

/-- The string at a pointer. -/
def stringAt (memory : ByteMemory) (fuel : Nat) (s : BitVec 64) : Option CString :=
  (strlenAt memory s fuel 0).map (bytesAt memory s)

/-- `argv[i]`. -/
def vectorEntry (memory : ByteMemory) (argv : BitVec 64) (i : Nat) : BitVec 64 :=
  memory.load (argv + BitVec.ofNat 64 (8 * i)) 8

/-- `while (argv[argc]) argc++`. -/
def countVector (memory : ByteMemory) (argv : BitVec 64) : Nat → Nat → Option Nat
  | 0, _ => none
  | fuel + 1, argc =>
      if vectorEntry memory argv argc = 0 then some argc else countVector memory argv fuel (argc + 1)

/-- A vector in the kernel heap: its own block, and the strings with theirs. -/
structure KernelVector where
  vector : HeapBlock
  strings : List (HeapBlock × CString)

/-- The loop that copies `count` strings, from an index on. -/
def copyStrings (memory : ByteMemory) (fuel : Nat) (argv : BitVec 64) :
    Nat → Nat → FrameMap → Option (List (HeapBlock × CString) × FrameMap)
  | 0, _, m => some ([], m)
  | count + 1, i, m =>
      (stringAt memory fuel (vectorEntry memory argv i)).bind fun s =>
        (malloc m (s.length + 1)).bind fun block =>
          (copyStrings memory fuel argv count (i + 1) block.2).map fun rest =>
            ((block.1, s) :: rest.1, rest.2)

/-- The copy of a vector with its strings. -/
def copyVector (memory : ByteMemory) (fuel : Nat) (argv : BitVec 64) (argc : Nat) (m : FrameMap) :
    Option (KernelVector × FrameMap) :=
  (malloc m (8 * (argc + 1))).bind fun vector =>
    (copyStrings memory fuel argv argc 0 vector.2).map fun strings =>
      ({ vector := vector.1, strings := strings.1 }, strings.2)

/-! ## kopen and its blocks -/

/-- The file systems as a program loader sees them. No code of the kernel sets `ptr`; `read` has the bytes
that the callback of a node stores for an offset and a size. -/
structure NodeTree (Node : Type) extends Vfs Node where
  noPtr : ∀ node, ptr node = none
  read : Node → Nat → Nat → CString

/-- A node that was found, in a block of its own. -/
def allocNode {Node : Type} (m : FrameMap) : Option Node → Option (Option (Node × HeapBlock) × FrameMap)
  | none => some (none, m)
  | some node => (malloc m sizeofFsNode).map fun result => (some (node, result.1), result.2)

namespace NodeTree

variable {Node : Type}

/-- The loop of `_kopen` without `OPEN_FLAG_PARENT`; `nameBlock` holds the string that is edited. -/
def kopenLoopBlocks (t : NodeTree Node) (nameBlock : HeapBlock) :
    Nat → CString → Nat → Nat → Node × HeapBlock → FrameMap → Option (Option (Node × HeapBlock) × FrameMap)
  | 0, _, _, _, _, _ => none
  | rest + 1, name, nodename, p, wd, m =>
      let token := charAt name p
      if token = slash ∨ token = nul then
        let cut := name.set p nul
        let found :=
          match t.getMountpoint (cstringAt cut 0) with
          | some node => some node
          | none => t.finddirFs wd.1 (cstringAt cut nodename)
        match allocNode m found with
        | none => none
        | some node =>
            let next :=
              if charAt cut nodename = nul then (some wd, freeIf node.2 (node.1.map Prod.snd))
              else (node.1, free node.2 wd.2)
            match next.1 with
            | none => some (none, free next.2 nameBlock)
            | some wd =>
                if token = nul then some (some wd, free next.2 nameBlock)
                else
                  match rest with
                  | 0 => none
                  | rest + 1 =>
                      kopenLoopBlocks t nameBlock rest (cut.set p slash) (p + 1) (p + 2) wd next.2
      else kopenLoopBlocks t nameBlock rest name nodename (p + 1) wd m

/-- `kopen` of a string that is not null. -/
def kopenBlocks (t : NodeTree Node) (m : FrameMap) (filename : CString) :
    Option (Option (Node × HeapBlock) × FrameMap) :=
  (malloc m (filename.length + 1)).bind fun name =>
    let nodename := Vfs.leadingSlashes filename
    match t.fsRoot with
    | none => some (none, free name.2 name.1)
    | some root =>
        (malloc name.2 sizeofFsNode).bind fun copy =>
          if charAt filename nodename = nul then some (some (root, copy.1), free copy.2 name.1)
          else
            match stripBack slash filename.length filename with
            | none => none
            | some stripped =>
                t.kopenLoopBlocks name.1 (filename.length + 1 - nodename) stripped nodename nodename
                  (root, copy.1) copy.2

end NodeTree

/-- `-ENOENT`, as a `long`. -/
def negNoentLong : BitVec 64 := -2

/-! ## The calling process -/

/-- `image_t`. -/
structure ExecImage where
  entry : BitVec 64
  heap : BitVec 64
  stack : BitVec 64
  userstack : BitVec 64
  deriving Repr, DecidableEq

/-- The fields of `current_process` that `execve` is about. -/
structure ExecProcess where
  fds : List (Option HeapBlock)
  fdLength : Nat
  image : ExecImage
  pageDirectory : Nat
  deriving Repr, DecidableEq

/-- The memory of the machine and the calling process. -/
structure ExecState where
  mmu : Mmu
  process : ExecProcess

/-- Overwrite the bitmap. -/
def ExecState.setFrames (s : ExecState) (frames : FrameMap) : ExecState :=
  { s with mmu := { s.mmu with frames := frames } }

/-- The call returns to its caller, or the loader goes on with the file, its header and the two vectors. -/
inductive ExecResult (Node : Type)
  | returned (value : BitVec 64) (s : ExecState)
  | loads (file : Node × HeapBlock) (header : Nat → BitVec 8) (kargv kenvp : KernelVector) (s : ExecState)

/-! ## The checks of elf_exec -/

/-- `sizeof(Elf64_Header)`. -/
def sizeofElfHeader : Nat := 64

/-- A byte of `header`: what `read_fs` does not store is what was on the stack. -/
def elfHeaderByte {Node : Type} (t : NodeTree Node) (stackBytes : Nat → BitVec 8) (file : Node) (i : Nat) :
    BitVec 8 :=
  (t.read file 0 sizeofElfHeader).getD i (stackBytes i)

/-- `e_ident[0 … 3]` are `ELFMAG0` to `ELFMAG3`. -/
def elfMagic (header : Nat → BitVec 8) : Bool :=
  header 0 = 0x7F ∧ header 1 = 0x45 ∧ header 2 = 0x4C ∧ header 3 = 0x46

/-- `e_type`. -/
def elfType (header : Nat → BitVec 8) : BitVec 16 := header 17 ++ header 16

/-- `elf_exec` up to `mmu_set_directory(0)`. Only a wrong magic number frees the node. -/
def elfExec {Node : Type} (t : NodeTree Node) (stackBytes : Nat → BitVec 8) (file : Node × HeapBlock)
    (kargv kenvp : KernelVector) (s : ExecState) : ExecResult Node :=
  let header := elfHeaderByte t stackBytes file.1
  if elfMagic header = false then .returned 0 (s.setFrames (free s.mmu.frames file.2))
  else if header 4 ≠ 2 then .returned 0 s
  else if elfType header ≠ 2 then .returned 0 s
  else .loads file header kargv kenvp s

/-! ## sys_execve -/

/-- The loop over the descriptors from 3 on, and the new `fd_length`. -/
def closeDescriptors (p : ExecProcess) (m : FrameMap) : ExecProcess × FrameMap :=
  ({ p with
      fds := p.fds.mapIdx fun i node => if 3 ≤ i ∧ i < p.fdLength then none else node
      fdLength := min p.fdLength 3 },
    ((p.fds.take p.fdLength).drop 3).foldl freeIf m)

/-- The number of entries of `envp`; a null pointer has none. -/
def countEnvironment (memory : ByteMemory) (fuel : Nat) (envp : BitVec 64) : Option Nat :=
  if envp = 0 then some 0 else countVector memory envp fuel 0

/-- `sys_execve`, for a program with this memory. `none` is a loop without end, an access outside a path or a
request for frames that finds none. -/
def sysExecve {Node : Type} (t : NodeTree Node) (stackBytes : Nat → BitVec 8) (memory : ByteMemory)
    (fuel : Nat) (s : ExecState) (file argv envp : BitVec 64) : Option (ExecResult Node) :=
  if file = 0 ∨ argv = 0 then some (.returned negFault s)
  else
    (stringAt memory fuel file).bind fun path =>
      (t.kopenBlocks s.mmu.frames path).bind fun opened =>
        match opened.1 with
        | none => some (.returned negNoentLong (s.setFrames opened.2))
        | some node =>
            (countVector memory argv fuel 0).bind fun argc =>
              (countEnvironment memory fuel envp).bind fun envc =>
                (copyVector memory fuel argv argc opened.2).bind fun kargv =>
                  -- without entries this is `kenvp = malloc(sizeof(char*))`
                  (copyVector memory fuel envp envc kargv.2).map fun kenvp =>
                    let closed := closeDescriptors s.process kenvp.2
                    elfExec t stackBytes node kargv.1 kenvp.1
                      ({ s with process := closed.1 }.setFrames closed.2)

end Voxel.Kernel
