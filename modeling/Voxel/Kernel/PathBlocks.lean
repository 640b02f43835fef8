/-
Module: Voxel.Kernel.PathBlocks
Layer: Kernel
Purpose: The calls on paths of `kernel/sys/fs/vfs.c` and `kernel/sys/syscall.c` with the number of live blocks
  of the kernel heap: `malloc` and `strdup` add one, `free` takes one off, and `realloc` does both. The calls
  are those of `PathCreate` and `OpenFiles`, where the blocks of nodes and strings are left out. No `open`,
  `close`, `chmod`, `readlink` or `truncate` callback takes or gives back a block.
Trusted boundary: human-reviewed spec
Main exports: Vfs.kopenLive, FileSystem.createAtLive, FileSystem.createFileLive, FileSystem.mkdirLive,
  FileSystem.symlinkLive, FileSystem.unlinkLive, OpenFiles.sysAccessLive, OpenFiles.sysStatfLive,
  OpenFiles.sysChmodLive, OpenFiles.sysReadlinkLive, OpenFiles.sysOpenLive, PathOp, PathOp.run
-/
import Voxel.Kernel.OpenFiles

namespace Voxel.Kernel

open Voxel.Lib

/-! ## Blocks -/

/-- `malloc` or `strdup`. -/
def mallocLive (live : Int) : Int := live + 1

/-- `free` of a block. -/
def freeLive (live : Int) : Int := live - 1

/-- `realloc` of a block. -/
def reallocLive (live : Int) : Int := freeLive (mallocLive live)

/-! ## kopen -/

namespace Vfs

variable {Node : Type}

/-- `finddir_fs` and `vfs_get_mountpoint` put a node that they find in a block of its own. -/
def foundLive (found : Option Node) (live : Int) : Int := if found.isSome then mallocLive live else live

/-- `if (wd->ptr) { mount = wd->ptr; free(wd); wd = mount; }`. -/
def followLive (v : Vfs Node) (node : Node) (live : Int) : Int :=
  if (v.ptr node).isSome then freeLive live else live

/-- The loop of `_kopen`. The string and the current node have a block each. -/
def kopenLoopLive (v : Vfs Node) (parent : Bool) :
    Nat → CString → Nat → Nat → Node → Int → Option (Option Node × Int)
  | 0, _, _, _, _, _ => none
  | rest + 1, name, nodename, p, wd, live =>
      let token := charAt name p
      if token = slash ∨ token = nul then
        if token = nul ∧ parent then some (some (v.follow wd), freeLive live)
        else
          let cut := name.set p nul
          let found :=
            match v.getMountpoint (cstringAt cut 0) with
            | some node => some node
            | none => v.finddirFs wd (cstringAt cut nodename)
          let live := foundLive found live
          -- an empty component frees the node that was found, any other one the current node
          let node := if charAt cut nodename = nul then some wd else found
          let live :=
            if charAt cut nodename = nul then if found.isSome then freeLive live else live else freeLive live
          match node with
          | none => some (none, freeLive live)
          | some node =>
              let live := v.followLive node live
              if token = nul then some (some (v.follow node), freeLive live)
              else
                match rest with
                | 0 => none
                | rest + 1 =>
                    kopenLoopLive v parent rest (cut.set p slash) (p + 1) (p + 2) (v.follow node) live
      else kopenLoopLive v parent rest name nodename (p + 1) wd live

/-- `kopen`. -/
def kopenLive (v : Vfs Node) (filename : CString) (parent : Bool) (live : Int) :
    Option (Option Node × Int) :=
  let nodename := leadingSlashes filename
  let live := mallocLive live
  match v.fsRoot with
  | none => some (none, freeLive live)
  | some wd =>
      let live := mallocLive live
      if charAt filename nodename = nul then some (some wd, freeLive live)
      else
        match stripBack slash filename.length filename with
        | none => none
        | some name => kopenLoopLive v parent (filename.length + 1 - nodename) name nodename nodename wd live

end Vfs

/-! ## Callbacks of tmpfs -/

namespace Tmpfs

variable (t : Tmpfs) (d : Nat) (name : CString) (live : Int)

/-- `tmpfs_new_file`: the structure, the name and the array of blocks. -/
def newFileLive : Int := mallocLive (mallocLive (mallocLive live))

/-- `tmpfs_new_dir`: the structure, the name and the array of entries. -/
def newDirLive : Int := mallocLive (mallocLive (mallocLive live))

/-- The end of the three callbacks, for a directory that may be full. -/
def addEntryLive (dir : TmpfsDir) : Int :=
  if dir.filesCapacity ≤ dir.files.length then reallocLive live else live

/-- `create_tmpfs`. -/
def createTmpfsLive : Int :=
  match t.dirs d with
  | none => live
  | some dir => if (t.findEntry dir name).isSome then live else addEntryLive (newFileLive live) dir

/-- `symlink_tmpfs`, which copies the target. -/
def symlinkTmpfsLive : Int :=
  match t.dirs d with
  | none => live
  | some dir =>
      if (t.findEntry dir name).isSome then live else addEntryLive (mallocLive (newFileLive live)) dir

/-- `mkdir_tmpfs`. -/
def mkdirTmpfsLive : Int :=
  if name = [] then live
  else
    match t.dirs d with
    | none => live
    | some dir => if (t.findEntry dir name).isSome then live else addEntryLive (newDirLive live) dir

/-- `tmpfs_free_file` frees the target of a link, and no array of blocks. -/
def freeFileLive (file : TmpfsFile) : Int := if file.target.isSome then freeLive live else live

/-- `unlink_tmpfs`. -/
def unlinkTmpfsLive : Int :=
  match t.dirs d with
  | none => live
  | some dir =>
      match t.findEntry dir name with
      | none => live
      | some (.dir _) => live
      | some (.file f) =>
          match t.files f with
          | none => live
          | some file => freeLive (freeLive (freeFileLive live file))

end Tmpfs

/-! ## create_file, mkdir, symlink and unlink -/

namespace FileSystem

variable {Foreign : Type} (s : FileSystem Foreign)

/-- What the four functions have in common. The node of the parent is freed at the end if `freesParent`; the
returns before it free nothing. A node that the check with `finddir_fs` finds is freed. -/
def createAtLive (who : Credentials) (name : CString) (looks : Bool) (missing : Int) (freesParent : Bool)
    (callback : Tmpfs → Nat → CString → Option (Int × Tmpfs))
    (callbackLive : Tmpfs → Nat → CString → Int → Int)
    (live : Int) : Option (Option ((Int × Tmpfs) × Int)) :=
  match s.vfs.kopenLive name true live with
  | none => none
  | some (none, live) => some (some ((negNoent, s.tmpfs), live))
  | some (some parent, live) =>
      if checkPermission who parent.attributes 0o2 = false then some (some ((negAccesInt, s.tmpfs), live))
      else
        match lastFilename name with
        | none => none
        | some filename =>
            let live := mallocLive live
            let this := if looks = true then s.vfs.finddirFs parent filename else none
            if this.isSome then some (some ((negExist, s.tmpfs), freeLive (Vfs.foundLive this live)))
            else
              let called :=
                match parent.device with
                | .tmpfs (.dir d) =>
                    (callback s.tmpfs d filename).map fun done => (done, callbackLive s.tmpfs d filename live)
                | _ => some ((missing, s.tmpfs), live)
              some (called.map fun done =>
                (done.1, freeLive (if freesParent = true then freeLive done.2 else done.2)))

/-- `create_file`. -/
def createFileLive (who : Credentials) (name : CString) (mode : BitVec 32) (live : Int) :
    Option (Option ((Int × Tmpfs) × Int)) :=
  if name = [] then some (some ((negInval, s.tmpfs), live))
  else if name = [slash] then some (some ((negExist, s.tmpfs), live))
  else
    s.createAtLive who name true negRofs false (fun t d filename => t.createTmpfs who d filename mode)
      Tmpfs.createTmpfsLive live

/-- `mkdir`. -/
def mkdirLive (who : Credentials) (name : CString) (mode : BitVec 32) (live : Int) :
    Option (Option ((Int × Tmpfs) × Int)) :=
  if name = [] then some (some ((negInval, s.tmpfs), live))
  else
    s.createAtLive who name true negRofs true (fun t d filename => t.mkdirTmpfs who d filename mode)
      Tmpfs.mkdirTmpfsLive live

/-- `symlink`. -/
def symlinkLive (who : Credentials) (target name : CString) (live : Int) :
    Option (Option ((Int × Tmpfs) × Int)) :=
  if name = [] then some (some ((negInval, s.tmpfs), live))
  else
    s.createAtLive who name false negInval true (fun t d filename => t.symlinkTmpfs who d target filename)
      Tmpfs.symlinkTmpfsLive live

/-- `unlink`. -/
def unlinkLive (who : Credentials) (name : CString) (live : Int) : Option (Option ((Int × Tmpfs) × Int)) :=
  if name = [] then some (some ((negInval, s.tmpfs), live))
  else
    s.createAtLive who name false negInval true (fun t d filename => t.unlinkTmpfs d filename)
      Tmpfs.unlinkTmpfsLive live

end FileSystem

/-! ## System calls -/

namespace OpenFiles

variable {Foreign : Type} (s : OpenFiles Foreign)

/-- `kopen`. -/
def kopenLive (path : CString) (flags : BitVec 64) (live : Int) : Option (Option (OpenNode Foreign) × Int) :=
  (s.system.vfs.kopenLive path (flagSet flags openFlagParent) live).map fun opened =>
    (opened.1.map s.openNode, opened.2)

/-- `sys_access`. -/
def sysAccessLive (path : Option CString) (live : Int) : Option (BitVec 64 × Int) :=
  match path with
  | none => some (negFault, live)
  | some path =>
      (s.kopenLive path 0 live).map fun opened =>
        match opened.1 with
        | none => (BitVec.ofInt 64 negNoent, opened.2)
        | some _ => (0, freeLive opened.2)

/-- `sys_statf` and `sys_lstat`, which close the node. -/
def sysStatfLive (path : Option CString) (ptr : BitVec 64) (live : Int) : Option (BitVec 64 × Int) :=
  match path with
  | none => some (negFault, live)
  | some path =>
      if ptr = 0 then some (negFault, live)
      else
        (s.kopenLive path 0 live).map fun opened =>
          match opened.1 with
          | none => (BitVec.ofInt 64 negNoent, opened.2)
          | some _ => (0, opened.2)

/-- `chmod_tmpfs`, which takes a directory for a file: `mask` is in the same place. Nodes of other file
systems have no `chmod`. -/
def chmodFs (node : OpenNode Foreign) (mode : BitVec 32) : OpenFiles Foreign :=
  match node.device with
  | .tmpfs (.file f) =>
      match s.tmpfs.files f with
      | none => s
      | some file => { s with tmpfs := s.tmpfs.setFile f { file with mask := mode } }
  | .tmpfs (.dir d) =>
      match s.tmpfs.dirs d with
      | none => s
      | some dir => { s with tmpfs := s.tmpfs.setDir d { dir with mask := mode } }
  | .foreign _ => s

/-- `sys_chmod`. -/
def sysChmodLive (who : Credentials) (path : Option CString) (mode : BitVec 64) (live : Int) :
    Option ((BitVec 64 × OpenFiles Foreign) × Int) :=
  match path with
  | none => some ((negFault, s), live)
  | some path =>
      (s.kopenLive path 0 live).map fun opened =>
        match opened.1 with
        | none => ((BitVec.ofInt 64 negNoent, s), opened.2)
        | some node =>
            if who.uid ≠ 0 ∧ who.uid ≠ node.attributes.uid then ((negAcces, s), freeLive opened.2)
            else ((0, s.chmodFs node (mode.setWidth 32)), freeLive opened.2)

/-- `sys_readlink`; a path that is a null pointer has no node. `valid` is the verdict of `mmu_validate_user`,
`answer` what `readlink_fs` returns. -/
def sysReadlinkLive (path : Option CString) (valid : Bool) (answer : BitVec 64) (live : Int) :
    Option (BitVec 64 × Int) :=
  if valid = false then some (negFault, live)
  else
    match path with
    | none => some (BitVec.ofInt 64 negNoent, live)
    | some path =>
        (s.kopenLive path 0 live).map fun opened =>
          match opened.1 with
          | none => (BitVec.ofInt 64 negNoent, opened.2)
          | some _ => (answer, freeLive opened.2)

/-- The part of `sys_open` that makes a missing file. -/
def createMissingLive (who : Credentials) (path : CString) (flags mode : BitVec 64)
    (node : Option (OpenNode Foreign)) (live : Int) :
    Option ((Except (BitVec 64) (Option (OpenNode Foreign)) × OpenFiles Foreign) × Int) :=
  if node.isNone && flagSet flags oCreat then
    match (s.system.createFileLive who path (mode.setWidth 32) live).join with
    | none => none
    | some ((result, t), live) =>
        let s := { s with tmpfs := t }
        if result = 0 then (s.kopenLive path flags live).map fun opened => ((.ok opened.1, s), opened.2)
        else some ((.error (BitVec.ofInt 64 result), s), live)
  else some ((.ok node, s), live)

/-- The rest of `sys_open`. A table that is full grows with `realloc`. -/
def openDescriptorLive (p : Nat) (flags : BitVec 64) (accessBit : BitVec 32)
    (node : Option (OpenNode Foreign)) (live : Int) : Option ((BitVec 64 × OpenFiles Foreign) × Int) :=
  match node with
  | none => some ((negNotdir, s), live)
  | some node =>
      if flagSet flags oDirectory && !flagSet node.flags fsDirectory then some ((negNotdir, s), freeLive live)
      else if flagSet flags oTrunc && !flagSet accessBit 0o2 then
        some ((BitVec.ofInt 64 negInval, s), freeLive live)
      else
        match if flagSet flags oTrunc then s.truncateFs node else some s with
        | none => none
        | some s =>
            if flagSet flags oCreat && flagSet node.flags fsDirectory then some ((negIsdir, s), freeLive live)
            else
              some (s.appendProcessFd p
                { node with
                  userMode := accessBit
                  userOffset := if flagSet flags oAppend then node.length.setWidth 64 else 0 }, live)

/-- `sys_open`. The routes that `openAccess` returns free the node. -/
def sysOpenLive (p : Nat) (who : Credentials) (file : Option CString) (flags mode : BitVec 64) (live : Int) :
    Option ((BitVec 64 × OpenFiles Foreign) × Int) :=
  match file with
  | none => some ((negFault, s), live)
  | some path =>
      match s.kopenLive path flags live with
      | none => none
      | some (node, live) =>
          match openAccess who flags node with
          | .error e => some ((e, s), freeLive live)
          | .ok accessBit =>
              match s.createMissingLive who path flags mode node live with
              | none => none
              | some ((.error e, s), live) => some ((e, s), live)
              | some ((.ok node, s), live) => s.openDescriptorLive p flags accessBit node live

end OpenFiles

/-! ## Calls -/

/-- The calls on paths. `sys_lstat` does what `sys_statf` does. -/
inductive PathOp
  | createFile (name : CString) (mode : BitVec 32)
  | mkdir (name : CString) (mode : BitVec 32)
  | symlink (target name : CString)
  | unlink (name : CString)
  | access (path : Option CString)
  | statf (path : Option CString) (ptr : BitVec 64)
  | lstat (path : Option CString) (ptr : BitVec 64)
  | chmod (path : Option CString) (mode : BitVec 64)
  | readlink (path : Option CString) (valid : Bool) (answer : BitVec 64)
  | open (file : Option CString) (flags mode : BitVec 64)

/-- A call of a process: the result, the files afterwards, and the number of live blocks. -/
def PathOp.run {Foreign : Type} (s : OpenFiles Foreign) (p : Nat) (who : Credentials) (live : Int) :
    PathOp → Option ((BitVec 64 × OpenFiles Foreign) × Int)
  | .createFile name mode => (s.system.createFileLive who name mode live).join.map fun done =>
      ((BitVec.ofInt 64 done.1.1, { s with tmpfs := done.1.2 }), done.2)
  | .mkdir name mode => (s.system.mkdirLive who name mode live).join.map fun done =>
      ((BitVec.ofInt 64 done.1.1, { s with tmpfs := done.1.2 }), done.2)
  | .symlink target name => (s.system.symlinkLive who target name live).join.map fun done =>
      ((BitVec.ofInt 64 done.1.1, { s with tmpfs := done.1.2 }), done.2)
  | .unlink name => (s.system.unlinkLive who name live).join.map fun done =>
      ((BitVec.ofInt 64 done.1.1, { s with tmpfs := done.1.2 }), done.2)
  | .access path => (s.sysAccessLive path live).map fun done => ((done.1, s), done.2)
  | .statf path ptr => (s.sysStatfLive path ptr live).map fun done => ((done.1, s), done.2)
  | .lstat path ptr => (s.sysStatfLive path ptr live).map fun done => ((done.1, s), done.2)
  | .chmod path mode => s.sysChmodLive who path mode live
  | .readlink path valid answer =>
      (s.sysReadlinkLive path valid answer live).map fun done => ((done.1, s), done.2)
  | .open file flags mode => s.sysOpenLive p who file flags mode live

end Voxel.Kernel
