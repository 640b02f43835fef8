/-
Module: Voxel.Kernel.Vfs
Layer: Kernel
Purpose: Path resolution of `kernel/sys/fs/vfs.c`: the mount table, `finddir_fs` and `_kopen`, over any
  type of nodes. The string is edited in place as in the source. The `open` callbacks are left out:
  none of them changes a directory, the mount table or the node that is returned.
Trusted boundary: human-reviewed spec
Main exports: Vfs, Vfs.getMountpoint, Vfs.finddirFs, Vfs.kopen
-/
import Voxel.Lib.CString

namespace Voxel.Kernel

open Voxel.Lib

/-- The separator of path components. -/
def slash : BitVec 8 := 0x2F

/-! ## The file tree -/

/-- What path resolution sees of the file systems: `fs_root`, the mount table with the most recent
mount last, and two fields of a node. -/
structure Vfs (Node : Type) where
  fsRoot : Option Node
  mountpoints : List (CString × Node)
  /-- The function pointer `finddir`; a null pointer is `none`. -/
  finddir : Node → Option (CString → Option Node)
  /-- The field `ptr`; a null pointer is `none`. -/
  ptr : Node → Option Node

namespace Vfs

variable {Node : Type}

/-- `finddir_fs`. -/
def finddirFs (v : Vfs Node) (node : Node) (name : CString) : Option Node :=
  match v.finddir node with
  | some finddir => finddir name
  | none => none

/-- `vfs_get_mountpoint`: the first mount whose path is equal to the given one. -/
def getMountpoint (v : Vfs Node) (path : CString) : Option Node :=
  (v.mountpoints.find? fun m => m.1 = path).map Prod.snd

/-- `if (wd->ptr) wd = wd->ptr`. -/
def follow (v : Vfs Node) (node : Node) : Node := (v.ptr node).getD node

/-! ## kopen -/

/-- The loop of `_kopen` over the characters of the string, from `*p` on. `rest` counts the characters
that are left, the terminator included; `none` is a read behind it. -/
def kopenLoop (v : Vfs Node) (parent : Bool) :
    Nat → CString → Nat → Nat → Node → Option (Option Node)
  | 0, _, _, _, _ => none
  | rest + 1, name, nodename, p, wd =>
      let token := charAt name p
      if token = slash ∨ token = nul then
        if token = nul ∧ parent then some (some (v.follow wd))
        else
          let cut := name.set p nul
          let found :=
            match v.getMountpoint (cstringAt cut 0) with
            | some node => some node
            | none => v.finddirFs wd (cstringAt cut nodename)
          let node := if charAt cut nodename = nul then some wd else found
          match node with
          | none => some none
          | some node =>
              if token = nul then some (some (v.follow node))
              else
                -- `*p++ = '/'` and the increment of the loop: the next character is not looked at
                match rest with
                | 0 => none
                | rest + 1 => kopenLoop v parent rest (cut.set p slash) (p + 1) (p + 2) (v.follow node)
      else kopenLoop v parent rest name nodename (p + 1) wd

/-- The number of slashes that `while (*nodename == '/') ++nodename` skips. -/
def leadingSlashes (name : CString) : Nat := (name.takeWhile (· = slash)).length

/-- `_kopen`: the outer `none` is an access outside the string, the inner one the null pointer. -/
def kopenFrom (v : Vfs Node) (filename : CString) (parent : Bool) (wd : Option Node) :
    Option (Option Node) :=
  let nodename := leadingSlashes filename
  match wd with
  | none => some none
  | some wd =>
      if charAt filename nodename = nul then some (some wd)
      else
        match stripBack slash filename.length filename with
        | none => none
        | some name =>
            kopenLoop v parent (filename.length + 1 - nodename) name nodename nodename wd

/-- `kopen`, with `parent` for the flag `OPEN_FLAG_PARENT`; the other flags only go to the `open`
callbacks. -/
def kopen (v : Vfs Node) (filename : CString) (parent : Bool) : Option (Option Node) :=
  v.kopenFrom filename parent v.fsRoot

end Vfs

end Voxel.Kernel
