/-
Module: Voxel.Kernel.Ramdisk
Layer: Kernel
Purpose: The read-only file system of `kernel/sys/fs/ramdiskfs.c` over the bytes of an image, and the
  layout of its packed structures. Addresses are relative to the base of the image; the memory goes on
  after its end. `fs_node_t` and `struct dirent` values are passed as what they point to. The callbacks stand
  here a second time with every byte that they read checked against `header->size`, their loops on fuel.
Trusted boundary: human-reviewed spec
Main exports: RamdiskNode, ramdiskfsOpen, ramdiskfsReaddir, ramdiskfsFinddir, ramdiskfsRead, readInside,
  ramdiskfsFinddirInside, ramdiskfsReaddirInside, ramdiskfsReadInside, RamdiskCall
-/
import Voxel.Lib.CString
import Voxel.Lib.LittleEndian

namespace Voxel.Kernel

open Voxel.Lib

/-! ## Layout -/

/-- `RDFS_SIGNATURE`. -/
def rdfsSignature : Nat := 0x1DF4

/-- `RDFS_TYPE_FILE`. -/
def rdfsTypeFile : Nat := 0

/-- `RDFS_TYPE_DIRECTORY`. -/
def rdfsTypeDirectory : Nat := 1

/-- `RDFS_TYPE_SYMLINK`. -/
def rdfsTypeSymlink : Nat := 2

/-- `sizeof(ramdiskfs_header_t)`. -/
def headerSize : Nat := 27

/-- `sizeof(ramdiskfs_entry_t)`. -/
def entrySize : Nat := 275

/-- The bytes of an image, and of what stands behind it. -/
abbrev RamdiskMemory := Nat → BitVec 8

namespace RamdiskMemory

variable (mem : RamdiskMemory)

/-- `header->signature`. -/
def headerSignature : Nat := leNat mem 0 2

/-- `header->version`. -/
def headerVersion : Nat := leNat mem 2 1

/-- `header->size`. -/
def headerLength : Nat := leNat mem 19 4

/-- `header->root_entry`. -/
def headerRootEntry : Nat := leNat mem 23 4

/-- `entry->name`, the string in the 256 bytes of the field. -/
def entryName (entry : Nat) : CString := cstringAt ((List.range 256).map fun i => mem (entry + 1 + i)) 0

/-- `entry->offset`. -/
def entryOffset (entry : Nat) : Nat := leNat mem (entry + 257) 4

/-- `entry->type`. -/
def entryType (entry : Nat) : Nat := leNat mem (entry + 261) 1

/-- `entry->next_entry`. -/
def entryNext (entry : Nat) : Nat := leNat mem (entry + 263) 4

/-- `entry->target_entry`. -/
def entryTarget (entry : Nat) : Nat := leNat mem (entry + 267) 4

/-- `entry->size`. -/
def entryLength (entry : Nat) : Nat := leNat mem (entry + 271) 4

end RamdiskMemory

/-! ## Nodes -/

/-- `FS_FILE`, `FS_DIRECTORY` and `FS_SYMLINK`; each comes with its own callbacks. -/
inductive RamdiskKind
  | file
  | directory
  | symlink
  deriving Repr, DecidableEq

/-- An `fs_node_t` of the file system. `isRoot` is the test `node->device == node`; `context` is used in
the other nodes only. -/
structure RamdiskNode where
  name : CString
  kind : RamdiskKind
  length : Nat
  context : Nat
  isRoot : Bool
  deriving Repr, DecidableEq

namespace RamdiskNode

variable (mem : RamdiskMemory)

/-- `node->device == node ? header->root_entry : node->context`. -/
def currentEntry (node : RamdiskNode) : Nat :=
  if node.isRoot then mem.headerRootEntry else node.context

end RamdiskNode

/-- `ramdiskfs_open`, for a base that is not null. -/
def ramdiskfsOpen (mem : RamdiskMemory) : Option RamdiskNode :=
  if mem.headerSignature ≠ rdfsSignature then none
  else if mem.headerVersion ≠ 1 then none
  else if mem.headerLength < headerSize then none
  else
    some
      { name := "fs:ramdisk".toList.map fun c => BitVec.ofNat 8 c.toNat
        kind := .directory
        length := 0
        context := 0
        isRoot := true }

/-- `ramdiskfs_read`: the number of bytes and the bytes that are copied; the sum of the offset and the size
is a `size_t` and may overflow. -/
def ramdiskfsRead (mem : RamdiskMemory) (node : RamdiskNode) (offset size : Nat) :
    Nat × (Nat → BitVec 8) :=
  if mem.headerSignature ≠ rdfsSignature then (0, fun _ => 0)
  else
    let entry := node.currentEntry mem
    if mem.entryLength entry < offset then (0, fun _ => 0)
    else
      (if mem.entryLength entry < (offset + size) % 2 ^ 64 then mem.entryLength entry - offset else size,
        fun i => mem (offset + mem.entryOffset entry + entrySize + i))

/-- The loop of `ramdiskfs_readdir`, `index` links on from an entry; zero is no entry. The counter of the
source has 32 bits, as an index has here. -/
def readdirLoop (mem : RamdiskMemory) : Nat → Nat → Option CString
  | entry, 0 => if entry = 0 then none else some (mem.entryName entry)
  | entry, index + 1 => if entry = 0 then none else readdirLoop mem (mem.entryNext entry) index

/-- `ramdiskfs_readdir`: the name in the record that it returns. -/
def ramdiskfsReaddir (mem : RamdiskMemory) (node : RamdiskNode) (index : Nat) : Option CString :=
  if mem.headerSignature ≠ rdfsSignature then none
  else if node.currentEntry mem = 0 then none
  else readdirLoop mem (mem.entryTarget (node.currentEntry mem)) index

/-- The node of an entry that was found; `none` for an unknown type. -/
def entryNode (mem : RamdiskMemory) (entry : Nat) : Option RamdiskNode :=
  if mem.entryType entry = rdfsTypeFile then
    some
      { name := mem.entryName entry, kind := .file, length := mem.entryLength entry
        context := entry, isRoot := false }
  else if mem.entryType entry = rdfsTypeDirectory then
    some
      { name := mem.entryName entry, kind := .directory, length := 0
        context := entry, isRoot := false }
  else if mem.entryType entry = rdfsTypeSymlink then
    some
      { name := mem.entryName entry, kind := .symlink, length := 0
        context := entry, isRoot := false }
  else none

/-- The loop of `ramdiskfs_finddir`, for at most `fuel` entries; the outer `none` is a loop that goes on
after them. -/
def finddirLoop (mem : RamdiskMemory) (name : CString) : Nat → Nat → Option (Option RamdiskNode)
  | 0, _ => none
  | fuel + 1, entry =>
      if entry = 0 then some none
      else if mem.entryName entry = name then some (entryNode mem entry)
      else finddirLoop mem name fuel (mem.entryNext entry)

/-- `ramdiskfs_finddir`. There are 2^32 entry numbers, so a search that goes on after that many comes back
to an entry and never ends. -/
def ramdiskfsFinddir (mem : RamdiskMemory) (node : RamdiskNode) (name : CString) :
    Option (Option RamdiskNode) :=
  if mem.headerSignature ≠ rdfsSignature then some none
  else if node.currentEntry mem = 0 then some none
  else finddirLoop mem name (2 ^ 32 + 1) (mem.entryTarget (node.currentEntry mem))

/-- `readdir_fs` on a node of this file system: only directories have the callback. -/
def ramdiskReaddirFs (mem : RamdiskMemory) (node : RamdiskNode) (index : Nat) : Option CString :=
  if node.kind = .directory then ramdiskfsReaddir mem node index else none

/-- `finddir_fs` on a node of this file system. -/
def ramdiskFinddirFs (mem : RamdiskMemory) (node : RamdiskNode) (name : CString) :
    Option (Option RamdiskNode) :=
  if node.kind = .directory then ramdiskfsFinddir mem node name else some none

/-! ## Reads inside the image -/

section Checked

variable (mem : RamdiskMemory)

/-- A number of `n` bytes. -/
def readInside (address n : Nat) : Option Nat :=
  if address + n ≤ mem.headerLength then some (leNat mem address n) else none

/-- `strcmp` with a string of the caller: whether they are equal. It does not end at the end of a field. -/
def strcmpInside : Nat → CString → Option Bool
  | address, [] =>
      (readInside mem address 1).map fun _ => decide (mem address = nul)
  | address, c :: rest =>
      (readInside mem address 1).bind fun _ =>
        if mem address = c then strcmpInside (address + 1) rest else some false

/-- `strcpy` from a place in the image: the string. -/
def strcpyInside : Nat → Nat → Option CString
  | 0, _ => none
  | fuel + 1, address =>
      (readInside mem address 1).bind fun _ =>
        if mem address = nul then some []
        else (strcpyInside fuel (address + 1)).map (mem address :: ·)

/-- `node->device == node ? header->root_entry : node->context`. -/
def currentEntryInside (node : RamdiskNode) : Option Nat :=
  if node.isRoot then readInside mem 23 4 else some node.context

/-! ## finddir -/

/-- The node of an entry whose name is equal. -/
def entryNodeInside (fuel entry : Nat) : Option (Option RamdiskNode) :=
  (strcpyInside mem fuel (entry + 1)).bind fun name =>
    (readInside mem (entry + 261) 1).bind fun type =>
      if type = rdfsTypeFile then
        (readInside mem (entry + 271) 4).map fun size =>
          some { name := name, kind := .file, length := size, context := entry, isRoot := false }
      else if type = rdfsTypeDirectory then
        some (some { name := name, kind := .directory, length := 0, context := entry, isRoot := false })
      else if type = rdfsTypeSymlink then
        some (some { name := name, kind := .symlink, length := 0, context := entry, isRoot := false })
      else some none

/-- The loop of `ramdiskfs_finddir`. -/
def finddirLoopInside (name : CString) : Nat → Nat → Option (Option RamdiskNode)
  | 0, _ => none
  | fuel + 1, entry =>
      if entry = 0 then some none
      else
        (strcmpInside mem (entry + 1) name).bind fun same =>
          if same then entryNodeInside mem fuel entry
          else (readInside mem (entry + 263) 4).bind (finddirLoopInside name fuel)

/-- `ramdiskfs_finddir`. -/
def ramdiskfsFinddirInside (node : RamdiskNode) (name : CString) (fuel : Nat) :
    Option (Option RamdiskNode) :=
  (readInside mem 0 2).bind fun signature =>
    if signature ≠ rdfsSignature then some none
    else
      (currentEntryInside mem node).bind fun current =>
        if current = 0 then some none
        else (readInside mem (current + 267) 4).bind (finddirLoopInside mem name fuel)

/-! ## readdir -/

/-- The loop of `ramdiskfs_readdir`, and the copy of the name behind it. The counter has 32 bits, the index
has 64. -/
def readdirLoopInside (index : BitVec 64) : Nat → BitVec 32 → Nat → Option (Option CString)
  | 0, _, _ => none
  | fuel + 1, i, entry =>
      if i.setWidth 64 < index then
        if entry = 0 then some none
        else (readInside mem (entry + 263) 4).bind (readdirLoopInside index fuel (i + 1))
      else if entry = 0 then some none
      else (strcpyInside mem fuel (entry + 1)).map some

/-- `ramdiskfs_readdir`. -/
def ramdiskfsReaddirInside (node : RamdiskNode) (index : BitVec 64) (fuel : Nat) : Option (Option CString) :=
  (readInside mem 0 2).bind fun signature =>
    if signature ≠ rdfsSignature then some none
    else
      (currentEntryInside mem node).bind fun current =>
        if current = 0 then some none
        else (readInside mem (current + 267) 4).bind (readdirLoopInside mem index fuel 0)

/-! ## read -/

/-- `memcpy` of `count` bytes; none of them is no read. -/
def memcpyInside (address count : Nat) : Option (Nat → BitVec 8) :=
  if count = 0 ∨ address + count ≤ mem.headerLength then some fun i => mem (address + i) else none

/-- `ramdiskfs_read`: the number of bytes, and the bytes. -/
def ramdiskfsReadInside (node : RamdiskNode) (offset size : BitVec 64) :
    Option (BitVec 64 × (Nat → BitVec 8)) :=
  (readInside mem 0 2).bind fun signature =>
    if signature ≠ rdfsSignature then some (0, fun _ => 0)
    else
      (currentEntryInside mem node).bind fun current =>
        (readInside mem (current + 271) 4).bind fun entrySize_ =>
          if BitVec.ofNat 64 entrySize_ < offset then some (0, fun _ => 0)
          else
            let size :=
              if BitVec.ofNat 64 entrySize_ < offset + size then BitVec.ofNat 64 entrySize_ - offset else size
            (readInside mem (current + 257) 4).bind fun entryOffset =>
              (memcpyInside mem (offset.toNat + entryOffset + entrySize) size.toNat).map fun bytes =>
                (size, bytes)

/-! ## Calls -/

/-- A call of a callback. -/
inductive RamdiskCall
  | finddir (name : CString)
  | readdir (index : BitVec 64)
  | read (offset size : BitVec 64)

end Checked

end Voxel.Kernel
