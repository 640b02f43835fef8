/-
Module: Voxel.Kernel.Readlink
Layer: Kernel
Purpose: `sys_readlink` with the two callbacks that it can reach: `readlink_tmpfs` and
  `readlink_dev_tty`, with the lengths as the unsigned numbers of the source and with every byte that is
  stored. `behind` has the bytes behind the terminator of the string that is copied. The verdict of
  `mmu_validate_user` and the node that `kopen` finds are arguments.
Trusted boundary: human-reviewed spec
Main exports: readlinkTmpfs, DescriptorType, ttyLinkName, readlinkDevTty, LinkNode, LinkNode.target,
  sysReadlink
-/
import Voxel.Lib.Format
import Voxel.Lib.TracedMemory
import Voxel.Kernel.StatCalls
import Voxel.Kernel.FileCalls

namespace Voxel.Kernel

open Voxel.Lib

/-- What lies at a pointer to a string: its characters, the terminator, and then anything. -/
def stringBytes (s : CString) (behind : Nat → BitVec 8) (i : Nat) : BitVec 8 :=
  if i ≤ s.length then charAt s i else behind i

/-- `strlen`. -/
def strlen (s : CString) : BitVec 64 := BitVec.ofNat 64 s.length

/-- `readlink_tmpfs`. -/
def readlinkTmpfs (f : TmpfsFile) (behind : Nat → BitVec 8) (buf size : BitVec 64) (m : TracedMemory) :
    BitVec 64 × TracedMemory :=
  match f.target with
  | none => (-1, m)
  | some (target, _) =>
      if size < strlen target + 1 then
        (size - 2, (m.memcpy buf (stringBytes target behind) (size - 1)).put (buf + (size - 1)) nul)
      else (strlen target, m.memcpy buf (stringBytes target behind) (strlen target + 1))

/-- A node in a descriptor table: a terminal with its name, or one whose `ioctl` does not answer
`IOCTL_TYPE_TTY`. -/
inductive DescriptorType where
  | terminal (name : Int)
  | other
  deriving Repr, DecidableEq

/-- The loop of `readlink_dev_tty` over the first three descriptors, and `fill_name`. -/
def ttyLinkName (fds : List (Option DescriptorType)) : CString :=
  match (fds.take 3).findSome? fun | some (.terminal name) => some name | _ => none with
  | none => "/dev/null".toList.map chr
  | some name => "/dev/pts/".toList.map chr ++ itoa name

/-- `readlink_dev_tty`. -/
def readlinkDevTty (fds : List (Option DescriptorType)) (behind : Nat → BitVec 8) (buf size : BitVec 64)
    (m : TracedMemory) : BitVec 64 × TracedMemory :=
  let name := ttyLinkName fds
  let len := strlen name + 1
  if size < len then
    (size - 1, (m.memcpy buf (stringBytes name behind) size).put (buf + (size - 1)) nul)
  else (len - 1, m.memcpy buf (stringBytes name behind) len)

/-- A node of tmpfs that is no directory, or `/dev/tty`. -/
inductive LinkNode where
  | tmpfs (f : TmpfsFile)
  | devTty
  deriving Repr, DecidableEq

/-- The target of a link, if the node is one. -/
def LinkNode.target (fds : List (Option DescriptorType)) : LinkNode → Option CString
  | .tmpfs f => f.target.map Prod.fst
  | .devTty => some (ttyLinkName fds)

/-- `readlink_fs` of these nodes. -/
def readlinkFs (fds : List (Option DescriptorType)) (behind : Nat → BitVec 8) (buf size : BitVec 64)
    (m : TracedMemory) : LinkNode → BitVec 64 × TracedMemory
  | .tmpfs f => readlinkTmpfs f behind buf size m
  | .devTty => readlinkDevTty fds behind buf size m

/-- `sys_readlink`. -/
def sysReadlink (valid : Bool) (node : Option LinkNode) (fds : List (Option DescriptorType))
    (behind : Nat → BitVec 8) (ptr len : BitVec 64) (m : TracedMemory) : BitVec 64 × TracedMemory :=
  if valid = false then (negFault, m)
  else
    match node with
    | none => (BitVec.ofInt 64 negNoent, m)
    | some node => readlinkFs fds behind ptr len m node

end Voxel.Kernel
