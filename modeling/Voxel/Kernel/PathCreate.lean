/-
Module: Voxel.Kernel.PathCreate
Layer: Kernel
Purpose: `create_file`, `mkdir` and `symlink` of `kernel/sys/fs/vfs.c`, over a file tree whose directories
  are those of tmpfs, with nodes of other file systems mounted in it. Only directories of tmpfs have the
  callbacks `create`, `mkdir` and `symlink`. The heap blocks of strings and of nodes are left out.
Trusted boundary: human-reviewed spec
Main exports: FsNode, FileSystem, FileSystem.vfs, checkPermission, lastFilename, FileSystem.createFile,
  FileSystem.mkdir, FileSystem.symlink
-/
import Voxel.Kernel.Vfs
import Voxel.Kernel.Tmpfs

namespace Voxel.Kernel

open Voxel.Lib

/-- `-EACCES`, as an `int`. -/
def negAccesInt : Int := -13

/-- `-EROFS`. -/
def negRofs : Int := -30

/-! ## The file tree -/

/-- `mask`, `uid` and `gid` of a node. -/
structure Attributes where
  mask : BitVec 32
  uid : BitVec 32
  gid : BitVec 32
  deriving Repr, DecidableEq

/-- `device`: a structure of tmpfs, or something of another file system. -/
inductive Device (Foreign : Type)
  | tmpfs (entry : TmpfsEntry)
  | foreign (node : Foreign)
  deriving Repr, DecidableEq

/-- An `fs_node_t`, the fields that path resolution and the permission check read. It is a copy: a node
that is kept does not follow its structure. -/
structure FsNode (Foreign : Type) where
  device : Device Foreign
  attributes : Attributes
  deriving Repr, DecidableEq

/-- `fs_root`, the mount table and tmpfs; `finddir` of the other file systems, which do not change here. -/
structure FileSystem (Foreign : Type) where
  tmpfs : Tmpfs
  fsRoot : FsNode Foreign
  mountpoints : List (CString × FsNode Foreign)
  foreignFinddir : Foreign → Option (CString → Option (Foreign × Attributes))

/-- `sizeof(node->name)`. -/
def nodeNameSize : Nat := 256

/-- `mask`, `uid` and `gid` of a structure. -/
def Tmpfs.entryAttributes (t : Tmpfs) : TmpfsEntry → Option Attributes
  | .file f => (t.files f).map fun file => { mask := file.mask, uid := file.uid, gid := file.gid }
  | .dir d => (t.dirs d).map fun dir => { mask := dir.mask, uid := dir.uid, gid := dir.gid }

namespace FileSystem

variable {Foreign : Type} (s : FileSystem Foreign)

/-- `finddir_tmpfs`. A name that does not fit in the field of the node is copied over its end; this counts
as no node. -/
def finddirNode (d : Nat) (name : CString) : Option (FsNode Foreign) :=
  match s.tmpfs.finddirTmpfs d name with
  | none => none
  | some entry =>
      if name.length < nodeNameSize then
        (s.tmpfs.entryAttributes entry).map fun attributes =>
          { device := .tmpfs entry, attributes := attributes }
      else none

/-- What path resolution sees. No code of the kernel sets `ptr`. -/
def vfs : Vfs (FsNode Foreign) where
  fsRoot := some s.fsRoot
  mountpoints := s.mountpoints
  finddir node :=
    match node.device with
    | .tmpfs (.dir d) => some (s.finddirNode d)
    | .tmpfs (.file _) => none
    | .foreign node =>
        (s.foreignFinddir node).map fun finddir name =>
          (finddir name).map fun found => { device := .foreign found.1, attributes := found.2 }
  ptr _ := none

end FileSystem

/-- `check_permission`, for a node that is not null. -/
def checkPermission (who : Credentials) (node : Attributes) (perm : BitVec 32) : Bool :=
  if who.uid = 0 ∧ perm ≠ 0o1 then true
  else
    let user := if who.uid = node.uid then (node.mask >>> 6) &&& 0o7 else 0
    let group := if who.gid = node.gid then (node.mask >>> 3) &&& 0o7 else 0
    perm &&& ((node.mask &&& 0o7) ||| user ||| group) ≠ 0

/-! ## The last component -/

/-- The loop `for (p = name; *p; p++)`: a pointer is the rest of the string that it points to. -/
def scanFilename : CString → CString → CString
  | filename, [] => filename
  | filename, c :: rest =>
      scanFilename
        (if c = slash ∧ charAt rest 0 ≠ nul ∧ charAt rest 0 ≠ slash then rest else filename) rest

/-- `filename`, without the slashes at its end; `none` is an access in front of the string. -/
def lastFilename (name : CString) : Option CString :=
  let filename := scanFilename name name
  (stripBack slash filename.length filename).map fun buf => cstringAt buf 0

/-! ## create_file, mkdir and symlink -/

namespace FileSystem

variable {Foreign : Type} (s : FileSystem Foreign)

/-- What the three functions have in common, after their checks of the string. `looks` is the check with
`finddir_fs`, `missing` the result for a parent without the callback. The outer `none` is an access
outside the string, the inner one an allocation that fails. -/
def createAt (who : Credentials) (name : CString) (looks : Bool) (missing : Int)
    (callback : Tmpfs → Nat → CString → Option (Int × Tmpfs)) : Option (Option (Int × Tmpfs)) :=
  match s.vfs.kopen name true with
  | none => none
  | some none => some (some (negNoent, s.tmpfs))
  | some (some parent) =>
      if checkPermission who parent.attributes 0o2 = false then some (some (negAccesInt, s.tmpfs))
      else
        match lastFilename name with
        | none => none
        | some filename =>
            if looks = true ∧ (s.vfs.finddirFs parent filename).isSome then
              some (some (negExist, s.tmpfs))
            else
              match parent.device with
              | .tmpfs (.dir d) => some (callback s.tmpfs d filename)
              | _ => some (some (missing, s.tmpfs))

/-- `create_file`. -/
def createFile (who : Credentials) (name : CString) (mode : BitVec 32) :
    Option (Option (Int × Tmpfs)) :=
  if name = [] then some (some (negInval, s.tmpfs))
  else if name = [slash] then some (some (negExist, s.tmpfs))
  else s.createAt who name true negRofs fun t d filename => t.createTmpfs who d filename mode

/-- `mkdir`. -/
def mkdir (who : Credentials) (name : CString) (mode : BitVec 32) : Option (Option (Int × Tmpfs)) :=
  if name = [] then some (some (negInval, s.tmpfs))
  else s.createAt who name true negRofs fun t d filename => t.mkdirTmpfs who d filename mode

/-- `symlink`. -/
def symlink (who : Credentials) (target name : CString) : Option (Option (Int × Tmpfs)) :=
  if name = [] then some (some (negInval, s.tmpfs))
  else s.createAt who name false negInval fun t d filename => t.symlinkTmpfs who d target filename

end FileSystem

end Voxel.Kernel
