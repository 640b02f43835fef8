/-
Module: Voxel.Kernel.FileCalls
Layer: Kernel
Purpose: `sys_seek` and `sys_write` of `kernel/sys/syscall.c` on descriptors of tmpfs files. A descriptor
  is the part of its `fs_node_t` that the two calls read. The verdict of `mmu_validate_user` on a buffer
  is a parameter.
Trusted boundary: human-reviewed spec
Main exports: Descriptor, FileTable, getProcessFd, FileTable.sysSeek, FileTable.sysWrite
-/
import Voxel.Kernel.Tmpfs

namespace Voxel.Kernel

open Voxel.Lib

/-- `FS_CHARDEVICE`. -/
def fsChardevice : BitVec 32 := 0x04

/-- `FS_PIPE`. -/
def fsPipe : BitVec 32 := 0x10

/-- `-EBADF`, as a `long`. -/
def negBadf : BitVec 64 := -9

/-- `-ESPIPE`. -/
def negSpipe : BitVec 64 := -29

/-- `-EFAULT`. -/
def negFault : BitVec 64 := -14

/-- `-EACCES`. -/
def negAcces : BitVec 64 := -13

/-- The node of a descriptor: `length` is a copy that was made when the file was opened, `device` names
the file. -/
structure Descriptor where
  flags : BitVec 32
  length : BitVec 32
  userOffset : BitVec 64
  userMode : BitVec 32
  device : Nat
  deriving Repr, DecidableEq

/-- The tmpfs and the descriptors of the current process. -/
structure FileTable where
  tmpfs : Tmpfs
  fds : List (Option Descriptor)

/-- `get_process_fd`; the calls pass a `long`, which is cut to an `int`. -/
def getProcessFd (fds : List (Option Descriptor)) (fd : BitVec 64) : Option Descriptor :=
  let fd := (fd.setWidth 32).toInt
  if (fds.length : Int) ≤ fd ∨ fd < 0 then none else (fds[fd.toNat]?).join

/-- `write_fs`: a link has no `write` callback. -/
def writeFs (t : Tmpfs) (node : Descriptor) (offset size : Nat) (buffer : Nat → BitVec 8) :
    Option (Nat × Tmpfs) :=
  match t.files node.device with
  | none => none
  | some file =>
      if file.target.isSome then some (0, t) else t.writeTmpfs node.device offset size buffer

namespace FileTable

/-- Store the position of a descriptor. -/
def setOffset (s : FileTable) (fd : BitVec 64) (node : Descriptor) (offset : BitVec 64) : FileTable :=
  { s with fds := s.fds.set (fd.setWidth 32).toNat (some { node with userOffset := offset }) }

/-- `sys_seek`. -/
def sysSeek (s : FileTable) (fd offset whence : BitVec 64) : BitVec 64 × FileTable :=
  match getProcessFd s.fds fd with
  | none => (negBadf, s)
  | some node =>
      if node.flags &&& (fsPipe ||| fsChardevice) ≠ 0 then (negSpipe, s)
      else if whence = 0 then (offset, s.setOffset fd node offset)
      else if whence = 1 then
        (node.userOffset + offset, s.setOffset fd node (node.userOffset + offset))
      else if whence = 2 then
        (node.length.setWidth 64 + offset, s.setOffset fd node (node.length.setWidth 64 + offset))
      else (BitVec.ofInt 64 negInval, s)

/-- What `sys_write` checks before it writes: the node, or the error that is returned. -/
def writeNode (validate : BitVec 64 → BitVec 64 → Bool) (s : FileTable) (fd ptr len : BitVec 64) :
    Except (BitVec 64) Descriptor :=
  match getProcessFd s.fds fd with
  | none => .error negBadf
  | some node =>
      if validate ptr len = false then .error (BitVec.ofInt 64 negInval)
      else if len ≠ 0 ∧ ptr = 0 then .error negFault
      else if node.userMode &&& 0o2 = 0 then .error negAcces
      else .ok node

/-- `sys_write`; `buffer` has the bytes behind `ptr`. -/
def sysWrite (validate : BitVec 64 → BitVec 64 → Bool) (s : FileTable) (fd ptr len : BitVec 64)
    (buffer : Nat → BitVec 8) : Option (BitVec 64 × FileTable) :=
  match s.writeNode validate fd ptr len with
  | .error e => some (e, s)
  | .ok node =>
      match writeFs s.tmpfs node node.userOffset.toNat len.toNat buffer with
      | none => none
      | some (written, tmpfs) =>
          let out := BitVec.ofNat 64 written
          let after := { s with tmpfs := tmpfs }
          some (out, if 0 < out.toInt then after.setOffset fd node (node.userOffset + out) else after)

end FileTable

end Voxel.Kernel
