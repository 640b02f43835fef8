/-
Module: Voxel.Kernel.Dup2
Layer: Kernel
Purpose: `process_dup2` of `kernel/sys/process.c` on the memory of the nodes: the entries of a
  descriptor table are pointers, and a freed node keeps its bytes until its block is allocated again.
  `open` and `close` of a node act on what the nodes share, like the map of terminals. The blocks that
  the code reads, writes, allocates and frees are listed in the order of the source; `none` says that
  `malloc` cannot return this block.
Trusted boundary: human-reviewed spec
Main exports: NodeHooks, NodeTable, NodeTable.getProcessFd, NodeTable.appendProcessFd,
  NodeTable.cloneNode, NodeTable.closeEntry, NodeTable.processDup2, ptyHooks
-/
import Mathlib.Logic.Function.Basic
import Voxel.Lib.Ownership

namespace Voxel.Kernel

open Voxel.Lib

/-- `open_fs` and `close_fs`: what the callbacks of a node do to what the nodes share. -/
structure NodeHooks (Node Devices : Type) where
  openFs : Node → Devices → Devices
  closeFs : Node → Devices → Devices

/-- The descriptor table of a process and the memory that its entries point to. The list has `fd_length`
entries; a null pointer is `none`. -/
structure NodeTable (Node Devices : Type) where
  fds : List (Option Nat)
  fdCapacity : Nat
  contents : Nat → Node
  live : Nat → Bool
  devices : Devices

namespace NodeTable

variable {Node Devices : Type} (s : NodeTable Node Devices) (hooks : NodeHooks Node Devices)

/-- The pointer in an entry of the table. -/
def entry (i : Nat) : Option Nat := (s.fds[i]?).join

/-- `fd` is the number of an entry; `fd_length` is unsigned. -/
def IsSlot (fd : BitVec 32) : Prop := fd.toNat < s.fds.length ∧ 0 ≤ fd.toInt

instance (fd : BitVec 32) : Decidable (s.IsSlot fd) := inferInstanceAs (Decidable (_ ∧ _))

/-- `get_process_fd`. -/
def getProcessFd (fd : BitVec 32) : Option Nat := if s.IsSlot fd then s.entry fd.toNat else none

/-- `append_process_fd`. `realloc` keeps the entries. -/
def appendProcessFd (node : Nat) : Int × NodeTable Node Devices :=
  ((BitVec.ofNat 32 s.fds.length).toInt,
    { s with
      fds := s.fds ++ [some node]
      fdCapacity := if s.fds.length = s.fdCapacity then s.fdCapacity + 64 else s.fdCapacity })

/-- `malloc` and `memcpy`: a copy of a node in the block that `malloc` returns. -/
def cloneNode (node clone : Nat) : Option (List (BlockAccess Nat) × NodeTable Node Devices) :=
  if s.live clone then none
  else
    some ([.alloc clone, .read node, .write clone],
      { s with
        contents := Function.update s.contents clone (s.contents node)
        live := Function.update s.live clone true })

/-- `open_fs` of a node. -/
def openNode (node : Nat) : List (BlockAccess Nat) × NodeTable Node Devices :=
  ([.read node], { s with devices := hooks.openFs (s.contents node) s.devices })

/-- `close_fs` and `free` of the node in an entry, if there is one. The entry itself stays. -/
def closeEntry (i : Nat) : List (BlockAccess Nat) × NodeTable Node Devices :=
  match s.entry i with
  | none => ([], s)
  | some oldnode =>
      ([.read oldnode, .free oldnode],
        { s with
          devices := hooks.closeFs (s.contents oldnode) s.devices
          live := Function.update s.live oldnode false })

/-- Write an entry. -/
def setEntry (i node : Nat) : NodeTable Node Devices := { s with fds := s.fds.set i (some node) }

/-- `process_dup2`: what it returns, what it does to the blocks, and the table behind it. -/
def processDup2 (source target : BitVec 32) (clone : Nat) :
    Option (Int × List (BlockAccess Nat) × NodeTable Node Devices) :=
  match s.getProcessFd source with
  | none => some (-1, [], s)
  | some node =>
      if target = -1 then
        (s.cloneNode node clone).map fun cloned =>
          let opened := cloned.2.openNode hooks clone
          let appended := opened.2.appendProcessFd clone
          (appended.1, cloned.1 ++ opened.1, appended.2)
      else if ¬ s.IsSlot target then some (-1, [], s)
      else
        let closed := s.closeEntry hooks target.toNat
        (closed.2.cloneNode node clone).map fun cloned =>
          let opened := (cloned.2.setEntry target.toNat clone).openNode hooks clone
          (target.toInt, closed.1 ++ (cloned.1 ++ opened.1), opened.2)

end NodeTable

/-- The callbacks of a terminal: `open_pty_slave` does nothing, and `close_pty_slave` takes the terminal
with its name out of the map if it has one. Here a node is its terminal, and the map has the names. -/
def ptyHooks : NodeHooks Int (List Int) where
  openFs _ names := names
  closeFs name names := if name = 0 then names else names.erase name

end Voxel.Kernel
