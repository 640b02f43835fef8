/-
Module: Voxel.Kernel.OpenFiles
Layer: Kernel
Purpose: The system calls on files of `kernel/sys/syscall.c` and the descriptor tables of
  `kernel/sys/process.c`, for all processes at once. A descriptor is a copy of a node: a node of tmpfs
  names its structure and keeps the length that the structure had when it was opened. What a callback of
  another file system answers and the verdict of `mmu_validate_user` are arguments of the calls. The heap
  blocks of nodes and tables are left out, and so are the entries of a table behind `fd_length`.
Trusted boundary: human-reviewed spec
Main exports: OpenNode, Mounts, OpenFiles, OpenFiles.sysOpen, OpenFiles.sysRead, OpenFiles.sysWrite,
  OpenFiles.sysSeek, OpenFiles.sysStat, OpenFiles.processDup2, OpenFiles.sysUnlink
-/
import Voxel.Kernel.PathCreate
import Voxel.Kernel.Tmpfs
import Voxel.Kernel.FileCalls

namespace Voxel.Kernel

open Voxel.Lib

/-! ## Flags and errors -/

/-- `FS_FILE`. -/
def fsFile : BitVec 32 := 0x01

/-- `FS_DIRECTORY`. -/
def fsDirectory : BitVec 32 := 0x02

/-- `FS_BLOCKDEVICE`. -/
def fsBlockdevice : BitVec 32 := 0x08

/-- `FS_SYMLINK`. -/
def fsSymlink : BitVec 32 := 0x20

/-- `O_WRONLY`. -/
def oWronly : BitVec 64 := 0x0001

/-- `O_RDWR`. -/
def oRdwr : BitVec 64 := 0x0002

/-- `O_APPEND`. -/
def oAppend : BitVec 64 := 0x0008

/-- `O_CREAT`. -/
def oCreat : BitVec 64 := 0x0200

/-- `O_TRUNC`. -/
def oTrunc : BitVec 64 := 0x0400

/-- `O_EXCL`. -/
def oExcl : BitVec 64 := 0x0800

/-- `O_DIRECTORY`. -/
def oDirectory : BitVec 64 := 0x8000

/-- `OPEN_FLAG_PARENT`, which a caller of `sys_open` can set as well. -/
def openFlagParent : BitVec 64 := 0x10000000

/-- `-ENOTDIR`. -/
def negNotdir : BitVec 64 := -20

/-- `-EISDIR`. -/
def negIsdir : BitVec 64 := -21

/-- `flags & flag`. -/
def flagSet {w : Nat} (flags flag : BitVec w) : Bool := flags &&& flag ≠ 0

/-! ## Nodes -/

/-- What the file tree has besides tmpfs: the copy of the root, the mounted nodes, and the nodes of other
file systems with what `kopen` finds in them. None of it changes here, and no mounted node is one of
tmpfs. -/
structure Mounts (Foreign : Type) where
  root : Nat
  rootAttributes : Attributes
  mountpoints : List (CString × Foreign × Attributes)
  finddir : Foreign → Option (CString → Option (Foreign × Attributes))
  flags : Foreign → BitVec 32
  length : Foreign → BitVec 32

namespace Mounts

variable {Foreign : Type} (mounts : Mounts Foreign) (t : Tmpfs)

/-- The file tree. -/
def fileSystem : FileSystem Foreign where
  tmpfs := t
  fsRoot := { device := .tmpfs (.dir mounts.root), attributes := mounts.rootAttributes }
  mountpoints := mounts.mountpoints.map fun mount =>
    (mount.1, { device := .foreign mount.2.1, attributes := mount.2.2 })
  foreignFinddir := mounts.finddir

/-- `flags` of a node: those of `tmpfs_from_file`, `tmpfs_from_link` and `tmpfs_from_dir`. -/
def deviceFlags : Device Foreign → BitVec 32
  | .tmpfs (.file f) =>
      if ((t.files f).bind TmpfsFile.target).isSome then fsFile ||| fsSymlink else fsFile
  | .tmpfs (.dir _) => fsDirectory
  | .foreign node => mounts.flags node

/-- `length` of a node, an `uint32_t`. -/
def deviceLength : Device Foreign → BitVec 32
  | .tmpfs (.file f) => BitVec.ofNat 32 (((t.files f).map TmpfsFile.length).getD 0)
  | .tmpfs (.dir _) => 0
  | .foreign node => mounts.length node

/-- No node of tmpfs is a pipe or a device. -/
theorem deviceFlags_seekable (entry : TmpfsEntry) :
    mounts.deviceFlags t (.tmpfs entry) &&& (fsPipe ||| fsChardevice) = 0 := by
  cases entry with
  | dir d =>
      rw [deviceFlags]
      decide
  | file f =>
      rw [deviceFlags]
      split <;> decide

end Mounts

/-- An `fs_node_t` in a descriptor table: what the calls read of it. -/
structure OpenNode (Foreign : Type) where
  device : Device Foreign
  attributes : Attributes
  flags : BitVec 32
  length : BitVec 32
  userOffset : BitVec 64
  userMode : BitVec 32
  seekable : ∀ entry, device = .tmpfs entry → flags &&& (fsPipe ||| fsChardevice) = 0

/-- tmpfs, the rest of the file tree, and `fds` of every process. -/
structure OpenFiles (Foreign : Type) where
  tmpfs : Tmpfs
  mounts : Mounts Foreign
  fds : Nat → List (Option (OpenNode Foreign))

namespace OpenFiles

variable {Foreign : Type} (s : OpenFiles Foreign)

/-- The file tree of a state. -/
def system : FileSystem Foreign := s.mounts.fileSystem s.tmpfs

/-- The node that `kopen` makes. -/
def openNode (node : FsNode Foreign) : OpenNode Foreign where
  device := node.device
  attributes := node.attributes
  flags := s.mounts.deviceFlags s.tmpfs node.device
  length := s.mounts.deviceLength s.tmpfs node.device
  userOffset := 0
  userMode := 0
  seekable entry isEntry := by
    rw [isEntry]
    exact s.mounts.deviceFlags_seekable s.tmpfs entry

/-- `kopen`. -/
def kopen (path : CString) (flags : BitVec 64) : Option (Option (OpenNode Foreign)) :=
  (s.system.vfs.kopen path (flagSet flags openFlagParent)).map fun node => node.map s.openNode

/-! ## Descriptors -/

/-- `get_process_fd` of a process; the calls pass a `long`, which is cut to an `int`. -/
def getProcessFd (p : Nat) (fd : BitVec 64) : Option (OpenNode Foreign) :=
  let fd := (fd.setWidth 32).toInt
  if ((s.fds p).length : Int) ≤ fd ∨ fd < 0 then none else ((s.fds p)[fd.toNat]?).join

/-- Write an entry of the table of a process. -/
def store (p : Nat) (fd : BitVec 64) (node : Option (OpenNode Foreign)) : OpenFiles Foreign :=
  { s with fds := Function.update s.fds p ((s.fds p).set (fd.setWidth 32).toNat node) }

/-- `append_process_fd`. -/
def appendProcessFd (p : Nat) (node : OpenNode Foreign) : BitVec 64 × OpenFiles Foreign :=
  ((BitVec.ofNat 32 (s.fds p).length).signExtend 64,
    { s with fds := Function.update s.fds p (s.fds p ++ [some node]) })

/-! ## sys_open -/

/-- `!(flags & O_WRONLY) || (flags & O_RDWR)`. -/
def opensToRead (flags : BitVec 64) : Bool := !flagSet flags oWronly || flagSet flags oRdwr

/-- `(flags & O_RDWR) || (flags & O_WRONLY)`. -/
def opensToWrite (flags : BitVec 64) : Bool := flagSet flags oRdwr || flagSet flags oWronly

/-- The checks of `sys_open` on the node that it found, and `access_bit`. -/
def openAccess (who : Credentials) (flags : BitVec 64) (node : Option (OpenNode Foreign)) :
    Except (BitVec 64) (BitVec 32) :=
  if node.isSome && flagSet flags oCreat && flagSet flags oExcl then .error (BitVec.ofInt 64 negExist)
  else if opensToRead flags && node.any (fun node => !checkPermission who node.attributes 0o4) then
    .error negAcces
  else if opensToWrite flags && node.any (fun node => !checkPermission who node.attributes 0o2) then
    .error negAcces
  else if opensToWrite flags && node.any (fun node => flagSet node.flags fsDirectory) then
    .error negIsdir
  else .ok ((if opensToRead flags then 0o1 else 0) ||| (if opensToWrite flags then 0o2 else 0))

/-- The part of `sys_open` that makes a missing file: the node that is there afterwards, or the error of
`create_file`. -/
def createMissing (who : Credentials) (path : CString) (flags mode : BitVec 64)
    (node : Option (OpenNode Foreign)) :
    Option (Except (BitVec 64) (Option (OpenNode Foreign)) × OpenFiles Foreign) :=
  if node.isNone && flagSet flags oCreat then
    match (s.system.createFile who path (mode.setWidth 32)).join with
    | none => none
    | some (result, t) =>
        let s := { s with tmpfs := t }
        if result = 0 then (s.kopen path flags).map fun node => (.ok node, s)
        else some (.error (BitVec.ofInt 64 result), s)
  else some (.ok node, s)

/-- `truncate_fs`: files and links of tmpfs have the callback. -/
def truncateFs (node : OpenNode Foreign) : Option (OpenFiles Foreign) :=
  match node.device with
  | .tmpfs (.file f) => (s.tmpfs.truncateTmpfs f).map fun done => { s with tmpfs := done.2 }
  | _ => some s

/-- The rest of `sys_open`. `length` of the node is read after the truncation, but it is the copy from
before. -/
def openDescriptor (p : Nat) (flags : BitVec 64) (accessBit : BitVec 32)
    (node : Option (OpenNode Foreign)) : Option (BitVec 64 × OpenFiles Foreign) :=
  match node with
  | none => some (negNotdir, s)
  | some node =>
      if flagSet flags oDirectory && !flagSet node.flags fsDirectory then some (negNotdir, s)
      else if flagSet flags oTrunc && !flagSet accessBit 0o2 then some (BitVec.ofInt 64 negInval, s)
      else
        match if flagSet flags oTrunc then s.truncateFs node else some s with
        | none => none
        | some s =>
            if flagSet flags oCreat && flagSet node.flags fsDirectory then some (negIsdir, s)
            else
              some (s.appendProcessFd p
                { node with
                  userMode := accessBit
                  userOffset := if flagSet flags oAppend then node.length.setWidth 64 else 0 })

/-- `sys_open`; `none` is a null pointer. -/
def sysOpen (p : Nat) (who : Credentials) (file : Option CString) (flags mode : BitVec 64) :
    Option (BitVec 64 × OpenFiles Foreign) :=
  match file with
  | none => some (negFault, s)
  | some path =>
      match s.kopen path flags with
      | none => none
      | some node =>
          match openAccess who flags node with
          | .error e => some (e, s)
          | .ok accessBit =>
              match s.createMissing who path flags mode node with
              | none => none
              | some (.error e, s) => some (e, s)
              | some (.ok node, s) => s.openDescriptor p flags accessBit node

/-! ## sys_read and sys_write -/

/-- What `sys_read` and `sys_write` check first: the node, or the error that is returned. `valid` is the
verdict of `mmu_validate_user`, `bit` what `user_mode` must have. -/
def accessNode (p : Nat) (fd ptr len : BitVec 64) (valid : Bool) (bit : BitVec 32) :
    Except (BitVec 64) (OpenNode Foreign) :=
  match s.getProcessFd p fd with
  | none => .error negBadf
  | some node =>
      if valid = false then .error (BitVec.ofInt 64 negInval)
      else if len ≠ 0 ∧ ptr = 0 then .error negFault
      else if node.userMode &&& bit = 0 then .error negAcces
      else .ok node

/-- `if (out > 0) node->user_offset += out`. -/
def advance (p : Nat) (fd : BitVec 64) (node : OpenNode Foreign) (out : BitVec 64) : OpenFiles Foreign :=
  if 0 < out.toInt then s.store p fd (some { node with userOffset := node.userOffset + out }) else s

/-- `read_fs`: directories and links of tmpfs have no `read`. -/
def readFs (node : OpenNode Foreign) (offset size : Nat) (buffer : Nat → BitVec 8)
    (answer : Nat × (Nat → BitVec 8)) : Option (Nat × (Nat → BitVec 8)) :=
  match node.device with
  | .tmpfs (.file f) =>
      if flagSet node.flags fsSymlink then some (0, buffer) else s.tmpfs.readTmpfs f offset size buffer
  | .tmpfs (.dir _) => some (0, buffer)
  | .foreign _ => some answer

/-- `write_fs`. -/
def writeFs (node : OpenNode Foreign) (offset size : Nat) (buffer : Nat → BitVec 8) (answer : Nat) :
    Option (Nat × OpenFiles Foreign) :=
  match node.device with
  | .tmpfs (.file f) =>
      if flagSet node.flags fsSymlink then some (0, s)
      else (s.tmpfs.writeTmpfs f offset size buffer).map fun done => (done.1, { s with tmpfs := done.2 })
  | .tmpfs (.dir _) => some (0, s)
  | .foreign _ => some (answer, s)

/-- `sys_read`: what it returns, and the bytes behind `ptr`, which are those of `buffer` before. -/
def sysRead (p : Nat) (fd ptr len : BitVec 64) (valid : Bool) (buffer : Nat → BitVec 8)
    (answer : Nat × (Nat → BitVec 8)) :
    Option ((BitVec 64 × (Nat → BitVec 8)) × OpenFiles Foreign) :=
  match s.accessNode p fd ptr len valid 0o1 with
  | .error e => some ((e, buffer), s)
  | .ok node =>
      match s.readFs node node.userOffset.toNat len.toNat buffer answer with
      | none => none
      | some (out, bytes) =>
          some ((BitVec.ofNat 64 out, bytes), s.advance p fd node (BitVec.ofNat 64 out))

/-- `sys_write`; `buffer` has the bytes behind `ptr`. -/
def sysWrite (p : Nat) (fd ptr len : BitVec 64) (valid : Bool) (buffer : Nat → BitVec 8)
    (answer : Nat) : Option (BitVec 64 × OpenFiles Foreign) :=
  match s.accessNode p fd ptr len valid 0o2 with
  | .error e => some (e, s)
  | .ok node =>
      match s.writeFs node node.userOffset.toNat len.toNat buffer answer with
      | none => none
      | some (out, s) => some (BitVec.ofNat 64 out, s.advance p fd node (BitVec.ofNat 64 out))

/-! ## sys_seek, sys_stat and sys_close -/

/-- `sys_seek`. -/
def sysSeek (p : Nat) (fd offset whence : BitVec 64) : BitVec 64 × OpenFiles Foreign :=
  match s.getProcessFd p fd with
  | none => (negBadf, s)
  | some node =>
      let moved := fun position : BitVec 64 =>
        (position, s.store p fd (some { node with userOffset := position }))
      if node.flags &&& (fsPipe ||| fsChardevice) ≠ 0 then (negSpipe, s)
      else if whence = 0 then moved offset
      else if whence = 1 then moved (node.userOffset + offset)
      else if whence = 2 then moved (node.length.setWidth 64 + offset)
      else (BitVec.ofInt 64 negInval, s)

/-- What `_stat` stores of a node. `st_dev`, `st_ino` and `st_nlink` are left out. -/
structure Stat where
  stMode : BitVec 32
  stUid : BitVec 32
  stGid : BitVec 32
  stRdev : BitVec 32
  stSize : BitVec 64
  stAtim : BitVec 64
  stMtim : BitVec 64
  stCtim : BitVec 64
  stBlksize : BitVec 64
  deriving Repr, DecidableEq

/-- `_stat`. Its local variable `flags` is not initialised and starts as `junk`. -/
def statNode (junk : BitVec 32) (node : OpenNode Foreign) : Stat :=
  let typeBit := fun flag bits : BitVec 32 => if flagSet node.flags flag then bits else 0
  { stMode := node.attributes.mask ||| (junk ||| typeBit fsFile 0o100000 ||| typeBit fsDirectory 0o040000
      ||| typeBit fsChardevice 0o020000 ||| typeBit fsBlockdevice 0o010000 ||| typeBit fsSymlink 0o120000)
    stUid := node.attributes.uid
    stGid := node.attributes.gid
    stRdev := 0
    stSize := node.length.setWidth 64
    stAtim := 0
    stMtim := 0
    stCtim := 0
    stBlksize := 512 }

/-- `sys_stat`. The result of `validate_ptr` is not looked at. -/
def sysStat (p : Nat) (fd ptr : BitVec 64) (junk : BitVec 32) : Except (BitVec 64) Stat :=
  match s.getProcessFd p fd with
  | none => .error negBadf
  | some node => if ptr = 0 then .error negFault else .ok (statNode junk node)

/-- `sys_close`. -/
def sysClose (p : Nat) (fd : BitVec 64) : BitVec 64 × OpenFiles Foreign :=
  match s.getProcessFd p fd with
  | none => (negBadf, s)
  | some _ => (0, s.store p fd none)

/-! ## Tables -/

/-- `process_dup2`. A copy of a node over itself leaves its bytes. -/
def processDup2 (p : Nat) (source target : BitVec 64) : BitVec 64 × OpenFiles Foreign :=
  match s.getProcessFd p source with
  | none => (-1, s)
  | some node =>
      let fd := (target.setWidth 32).toInt
      if fd = -1 then s.appendProcessFd p node
      else if ((s.fds p).length : Int) ≤ fd ∨ fd < 0 then (-1, s)
      else ((target.setWidth 32).signExtend 64, s.store p target (some node))

/-- The descriptors of a process that `spawn_process` makes. -/
def spawnFds (parent child : Nat) : OpenFiles Foreign :=
  { s with fds := Function.update s.fds child (s.fds parent) }

/-- The loop over the descriptors in `process_exit`. -/
def exitFds (p : Nat) : OpenFiles Foreign :=
  { s with fds := Function.update s.fds p ((s.fds p).map fun _ => none) }

/-- The loop over the descriptors in `sys_execve`. -/
def execFds (p : Nat) : OpenFiles Foreign :=
  { s with fds := Function.update s.fds p ((s.fds p).take 3) }

/-! ## Names -/

/-- `unlink`. -/
def unlink (who : Credentials) (name : CString) : Option (Option (Int × Tmpfs)) :=
  if name = [] then some (some (negInval, s.tmpfs))
  else s.system.createAt who name false negInval fun t d filename => t.unlinkTmpfs d filename

/-- `sys_unlink`; `none` is a null pointer. -/
def sysUnlink (who : Credentials) (path : Option CString) : Option (BitVec 64 × OpenFiles Foreign) :=
  match path with
  | none => some (negFault, s)
  | some name =>
      (s.unlink who name).join.map fun done => (BitVec.ofInt 64 done.1, { s with tmpfs := done.2 })

/-- `sys_mkdir`. -/
def sysMkdir (who : Credentials) (path : Option CString) (mode : BitVec 64) :
    Option (BitVec 64 × OpenFiles Foreign) :=
  match path with
  | none => some (negFault, s)
  | some name =>
      (s.system.mkdir who name (mode.setWidth 32)).join.map fun done =>
        (BitVec.ofInt 64 done.1, { s with tmpfs := done.2 })

/-- `sys_symlink`. -/
def sysSymlink (who : Credentials) (target name : Option CString) :
    Option (BitVec 64 × OpenFiles Foreign) :=
  match target, name with
  | some target, some name =>
      (s.system.symlink who target name).join.map fun done =>
        (BitVec.ofInt 64 done.1, { s with tmpfs := done.2 })
  | _, _ => some (negFault, s)

end OpenFiles

end Voxel.Kernel
