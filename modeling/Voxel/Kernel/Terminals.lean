/-
Module: Voxel.Kernel.Terminals
Layer: Kernel
Purpose: The names of the terminals in `/dev/pts`: `pty_map` of `kernel/sys/fs/dev/tty.c` with its functions,
  `finddir_pty` and the callback `close_pty_slave`, and the calls that open, copy and close descriptors, or
  open a path for a moment only. What the calls do to descriptors and tmpfs is that of the file calls; the
  nodes that a call hands to `close_fs` are given beside it, in their order. `malloc` and `realloc` always
  succeed.
Trusted boundary: human-reviewed spec
Main exports: atoi, Terminal, ptyAdd, ptyRemove, ptyGet, finddirPty, TerminalFiles, closePtySlave,
  TerminalCall, TerminalCall.closed, TerminalFiles.step
-/
import Voxel.Kernel.StatCalls
import Voxel.Lib.Format

namespace Voxel.Kernel

open Voxel.Lib

/-! ## atoi -/

/-- `toupper`. -/
def toupper (c : BitVec 8) : BitVec 8 := if 0x61 ≤ c ∧ c ≤ 0x7A then c - 0x20 else c

/-- `alphabet` of `atoi`. -/
def atoiAlphabet : CString := "0123456789ABCDEFGHIJKLMNOPQRSTUVWXYZ".toList.map chr

/-- The characters that `atoi` skips. -/
def atoiSkipped : CString := [0x09, 0x0A, 0x0B, 0x0C, 0x0D, 0x20, 0x2B, 0x5F]

/-- The loop of `atoi`. -/
def atoiLoop (radix : Nat) : CString → Bool → BitVec 64 → BitVec 64
  | [], sign, res => if sign then -res else res
  | c :: rest, sign, res =>
      if c = 0x2D then atoiLoop radix rest true res
      else if atoiSkipped.contains c then atoiLoop radix rest sign res
      else
        match atoiAlphabet.idxOf? (toupper c) with
        | none => if sign then -res else res
        | some pos =>
            if radix ≤ pos then if sign then -res else res
            else atoiLoop radix rest sign (res * BitVec.ofNat 64 radix + BitVec.ofNat 64 pos)

/-- `atoi`. -/
def atoi (buf : CString) (radix : Nat) : BitVec 64 :=
  if radix < 2 ∨ 36 < radix then -4 else atoiLoop radix buf false 0

/-! ## pty_map -/

/-- A `pty_t`: its address, the `index` that `pty_new` gets, and the attributes of `slave`. -/
structure Terminal where
  address : Nat
  index : BitVec 32
  slave : Attributes
  deriving Repr, DecidableEq

/-- `name`: an `int` that is stored as an `intptr_t`. -/
def Terminal.name (pty : Terminal) : Int := pty.index.toInt

/-- An entry of `pty_map`. -/
structure PtyMapEntry where
  index : Int
  pty : Terminal
  deriving Repr, DecidableEq

/-- `pty_add`. -/
def ptyAdd (ptyMap : List PtyMapEntry) (pty : Terminal) : List PtyMapEntry :=
  ptyMap ++ [{ index := pty.name, pty := pty }]

/-- `pty_remove`: the first entry with this index. -/
def ptyRemove (ptyMap : List PtyMapEntry) (index : Int) : List PtyMapEntry :=
  ptyMap.eraseP fun entry => entry.index = index

/-- `pty_get`. -/
def ptyGet (ptyMap : List PtyMapEntry) (index : Int) : Option Terminal :=
  (ptyMap.find? fun entry => entry.index = index).map PtyMapEntry.pty

/-- What `readdir_pty` reads of an entry. -/
def PtyMapEntry.listed (entry : PtyMapEntry) : PtyEntry := { index := entry.index, name := entry.pty.name }

/-- `finddir_pty`; the node that it copies is `slave` of the terminal. -/
def finddirPty (ptyMap : List PtyMapEntry) (name : CString) : Option Terminal :=
  if name.length < 1 then none else ptyGet ptyMap (atoi name 10).toInt

/-- `/dev/pts/` and a number. -/
def ptsPath (index : BitVec 32) : CString := "/dev/pts/".toList.map chr ++ itoa index.toInt

/-- `tty_fill_name`. -/
def ttyFillName (pty : Terminal) : CString := ptsPath pty.index

/-! ## State -/

/-- The nodes that are not of tmpfs: `pty_dir`, the slaves, and those of other file systems. -/
inductive TerminalNode (Other : Type)
  | ptyDir
  | slave (pty : Terminal)
  | other (node : Other)

/-- The files and descriptors, and `pty_map`. In the file tree `files.mounts` only speaks for nodes of other
file systems. -/
structure TerminalFiles (Other : Type) where
  files : OpenFiles (TerminalNode Other)
  ptyMap : List PtyMapEntry

namespace TerminalFiles

variable {Other : Type} (s : TerminalFiles Other)

/-- `finddir` of a node. -/
def finddirNode : TerminalNode Other → Option (CString → Option (TerminalNode Other × Attributes))
  | .ptyDir => some fun name => (finddirPty s.ptyMap name).map fun pty => (.slave pty, pty.slave)
  | .slave _ => none
  | .other node => s.files.mounts.finddir (.other node)

/-- `flags` of a node. -/
def flagsNode : TerminalNode Other → BitVec 32
  | .ptyDir => fsDirectory
  | .slave _ => fsChardevice
  | .other node => s.files.mounts.flags (.other node)

/-- `length` of a node. -/
def lengthNode : TerminalNode Other → BitVec 32
  | .ptyDir => 0
  | .slave _ => 0
  | .other node => s.files.mounts.length (.other node)

/-- The files, with what `kopen` finds in `/dev/pts` now. -/
def view : OpenFiles (TerminalNode Other) :=
  { s.files with
    mounts :=
      { s.files.mounts with finddir := s.finddirNode, flags := s.flagsNode, length := s.lengthNode } }

/-- `kopen`. -/
def kopen (path : CString) (flags : BitVec 64) : Option (Option (OpenNode (TerminalNode Other))) :=
  s.view.kopen path flags

end TerminalFiles

/-! ## close_fs -/

/-- `close_fs`, as far as it has to do with `pty_map`: the callback `close_pty_slave`. -/
def closePtySlave {Other : Type} (ptyMap : List PtyMapEntry) (node : OpenNode (TerminalNode Other)) :
    List PtyMapEntry :=
  match node.device with
  | .foreign (.slave pty) => if pty.name ≠ 0 then ptyRemove ptyMap pty.name else ptyMap
  | _ => ptyMap

/-- Whether `sys_open` closes the node that it found, because it returns an error. -/
def openCloses {Foreign : Type} (who : Credentials) (flags : BitVec 64) (node : OpenNode Foreign) : Bool :=
  if flagSet flags oCreat && flagSet flags oExcl then true
  else if OpenFiles.opensToRead flags && !checkPermission who node.attributes 0o4 then true
  else if OpenFiles.opensToWrite flags && !checkPermission who node.attributes 0o2 then true
  -- these two errors free the node, but do not close it
  else if OpenFiles.opensToWrite flags && flagSet node.flags fsDirectory then false
  else if flagSet flags oDirectory && !flagSet node.flags fsDirectory then false
  else if flagSet flags oTrunc && !OpenFiles.opensToWrite flags then true
  else flagSet flags oCreat && flagSet node.flags fsDirectory

/-! ## Calls -/

/-- The calls of the processes. `fork`, `exit` and `exec` stand for their loops over the descriptors; the
paths of the others are those of terminals. -/
inductive TerminalCall
  | sysOpen (p : Nat) (who : Credentials) (index : BitVec 32) (flags mode : BitVec 64)
  | sysClose (p : Nat) (fd : BitVec 64)
  | processDup2 (p : Nat) (source target : BitVec 64)
  | fork (parent child : Nat)
  | exit (p : Nat)
  | exec (p : Nat)
  | sysAccess (index : BitVec 32)
  | sysStatf (index : BitVec 32) (ptr : BitVec 64)

namespace TerminalCall

variable {Other : Type} (s : TerminalFiles Other)

/-- The node that `process_dup2` puts a copy in the place of. -/
def replaced (p : Nat) (source target : BitVec 64) : Option (OpenNode (TerminalNode Other)) :=
  match s.files.getProcessFd p source with
  | none => none
  | some _ =>
      let fd := (target.setWidth 32).toInt
      if fd = -1 ∨ ((s.files.fds p).length : Int) ≤ fd ∨ fd < 0 then none
      else ((s.files.fds p)[fd.toNat]?).join

/-- The nodes that a call hands to `close_fs`. -/
def closed : TerminalCall → List (OpenNode (TerminalNode Other))
  | .sysOpen _ who index flags _ => (s.kopen (ptsPath index) flags).join.toList.filter (openCloses who flags)
  | .sysClose p fd => (s.files.getProcessFd p fd).toList
  | .processDup2 p source target => (replaced s p source target).toList
  | .fork _ _ => []
  | .exit p => (s.files.fds p).reduceOption
  | .exec p => ((s.files.fds p).drop 3).reduceOption
  | .sysAccess index => (s.kopen (ptsPath index) 0).join.toList
  | .sysStatf index ptr => if ptr = 0 then [] else (s.kopen (ptsPath index) 0).join.toList

/-- The descriptors and tmpfs after a call. A new process has no descriptors of its own. -/
def moved : TerminalCall → Option (OpenFiles (TerminalNode Other))
  | .sysOpen p who index flags mode => (s.view.sysOpen p who (some (ptsPath index)) flags mode).map Prod.snd
  | .sysClose p fd => some (s.view.sysClose p fd).2
  | .processDup2 p source target => some (s.view.processDup2 p source target).2
  | .fork parent child =>
      if (s.files.fds child).isEmpty then some (s.view.spawnFds parent child) else none
  | .exit p => some (s.view.exitFds p)
  | .exec p => some (s.view.execFds p)
  | .sysAccess index => (s.kopen (ptsPath index) 0).map fun _ => s.view
  | .sysStatf index ptr => if ptr = 0 then some s.view else (s.kopen (ptsPath index) 0).map fun _ => s.view

end TerminalCall

/-- The state after a call. -/
def TerminalFiles.step {Other : Type} (s : TerminalFiles Other) (call : TerminalCall) :
    Option (TerminalFiles Other) :=
  (call.moved s).map fun after =>
    { files := { s.files with tmpfs := after.tmpfs, fds := after.fds }
      ptyMap := (call.closed s).foldl closePtySlave s.ptyMap }

end Voxel.Kernel
