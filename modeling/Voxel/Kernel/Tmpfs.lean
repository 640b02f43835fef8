/-
Module: Voxel.Kernel.Tmpfs
Layer: Kernel
Purpose: The file system in memory of `kernel/sys/fs/tmpfs.c`: files with their blocks, directories, and
  the operations on them. A structure is named by the frame of its heap block; `size_t` values are
  numbers below 2^64 and wrap around where the source lets them. `fs_node_t` and `struct dirent` values
  are passed as what they point to; their own heap blocks are left out. In `read_tmpfs` the copies have the
  places of those of `write_tmpfs` and go the other way, and a block that the file does not have is copied
  from the null pointer and has no result. `tmpfs_file_getset_block` is there twice: the second time with
  what it does when `mmu_allocate_frame` finds no frame, where the index `(uintptr_t) -1` becomes a block
  number like any other.
Trusted boundary: human-reviewed spec
Main exports: TmpfsFile, TmpfsDir, Tmpfs, Tmpfs.writeTmpfs, Tmpfs.createTmpfs, Tmpfs.unlinkTmpfs, readCopies,
  Tmpfs.readTmpfs, Tmpfs.getsetBlockCall
-/
import Mathlib.Logic.Function.Iterate
import Voxel.Kernel.Alloc
import Voxel.Kernel.FrameRuns
import Voxel.Lib.CString

namespace Voxel.Kernel

open Voxel.Lib

/-! ## Data -/

/-- `-EEXIST`. -/
def negExist : Int := -17

/-- `-EINVAL`. -/
def negInval : Int := -22

/-- `-ENOENT`. -/
def negNoent : Int := -2

/-- `-ENOTEMPTY`. -/
def negNotempty : Int := -39

/-- `uid` and `gid` of the current process. -/
structure Credentials where
  uid : BitVec 32
  gid : BitVec 32
  deriving Repr, DecidableEq

/-- `struct tmpfs_file`. It is a link if it has a target. `blocks` has the frames of the first
`block_count` blocks; `nameAt` and `blocksAt` are the heap blocks of `name` and `blocks`, and a target
stands with its own. -/
structure TmpfsFile where
  name : CString
  mask : BitVec 32
  uid : BitVec 32
  gid : BitVec 32
  length : Nat
  blocks : List Nat
  pointers : Nat
  target : Option (CString × HeapBlock)
  nameAt : HeapBlock
  blocksAt : HeapBlock
  deriving Repr, DecidableEq

/-- `block_count`. -/
def TmpfsFile.blockCount (f : TmpfsFile) : Nat := f.blocks.length

/-- A pointer in a directory, with the `type` of the structure it points to. -/
inductive TmpfsEntry
  | file (f : Nat)
  | dir (d : Nat)
  deriving Repr, DecidableEq

/-- `struct tmpfs_dir`, with the heap block of the array `files`. -/
structure TmpfsDir where
  name : CString
  mask : BitVec 32
  uid : BitVec 32
  gid : BitVec 32
  files : List TmpfsEntry
  filesCapacity : Nat
  filesAt : HeapBlock
  deriving Repr, DecidableEq

/-- `sizeof(struct tmpfs_file)`. -/
def fileSize : Nat := 64

/-- `sizeof(struct tmpfs_dir)`. -/
def dirSize : Nat := 56

/-- The size of a pointer. -/
def pointerSize : Nat := 8

/-- The frames, the structures by the frames of their heap blocks, `tmpfs_root`, `tmpfs_total_blocks`
and the bytes of physical memory. -/
structure Tmpfs where
  frames : FrameMap
  files : Nat → Option TmpfsFile
  dirs : Nat → Option TmpfsDir
  tmpfsRoot : Nat
  totalBlocks : Int
  phys : Nat → BitVec 8

namespace Tmpfs

/-- Write the structure of a file. -/
def setFile (t : Tmpfs) (f : Nat) (file : TmpfsFile) : Tmpfs :=
  { t with files := Function.update t.files f (some file) }

/-- Write the structure of a directory. -/
def setDir (t : Tmpfs) (d : Nat) (dir : TmpfsDir) : Tmpfs :=
  { t with dirs := Function.update t.dirs d (some dir) }

/-- The name in the structure that an entry points to. -/
def entryName (t : Tmpfs) : TmpfsEntry → Option CString
  | .file f => (t.files f).map TmpfsFile.name
  | .dir d => (t.dirs d).map TmpfsDir.name

/-- The first entry of a directory with a name. -/
def findEntry (t : Tmpfs) (dir : TmpfsDir) (name : CString) : Option TmpfsEntry :=
  dir.files.find? fun entry => t.entryName entry = some name

/-! ## Blocks -/

/-- `while (blockid >= f->pointers) tmpfs_file_blocks_embiggen(f)`, for at most `fuel` rounds. -/
def embiggen (blockid : Nat) : Nat → TmpfsFile → Tmpfs → Option (TmpfsFile × Tmpfs)
  | 0, _, _ => none
  | fuel + 1, file, t =>
      if file.pointers ≤ blockid then
        match realloc t.frames file.blocksAt (pointerSize * (file.pointers * 2)) with
        | none => none
        | some (blocksAt, frames) =>
            embiggen blockid fuel
              { file with pointers := file.pointers * 2, blocksAt := blocksAt }
              { t with frames := frames }
      else some (file, t)

/-- `while (blockid >= f->block_count)`, a loop of `count` rounds that append a new block each. -/
def appendBlocks : Nat → TmpfsFile → Tmpfs → Option (TmpfsFile × Tmpfs)
  | 0, file, t => some (file, t)
  | count + 1, file, t =>
      match mmuAllocateFrame t.frames with
      | none => none
      | some (index, frames) =>
          appendBlocks count { file with blocks := file.blocks ++ [index] }
            { t with frames := frames, totalBlocks := t.totalBlocks + 1 }

/-- `tmpfs_file_getset_block` with `create`: the frame of a block. Every round of the first loop makes
`pointers` larger, so `blockid + 2` rounds are enough. -/
def getsetBlock (t : Tmpfs) (f blockid : Nat) : Option (Nat × Tmpfs) :=
  match t.files f with
  | none => none
  | some file =>
      match embiggen blockid (blockid + 2) file t with
      | none => none
      | some (file, t) =>
          match appendBlocks (blockid + 1 - file.blockCount) file t with
          | none => none
          | some (file, t) =>
              match file.blocks[blockid]? with
              | none => none
              | some frame => some (frame, t.setFile f file)

end Tmpfs

/-! ## Writing and truncating -/

/-- One `memcpy` of `write_tmpfs`: `len` bytes from `buffer + source` to the place `blockOffset` of the
block `blockid`. `source` is a difference of pointers and wraps around. -/
structure Copy where
  blockid : Nat
  blockOffset : Nat
  source : Nat
  len : Nat
  deriving Repr, DecidableEq

/-- `end`, with the overflow of the sum. -/
def writeEnd (offset size : Nat) : Nat := (offset + size) % 2 ^ 64

/-- `size_to_read`, with the overflow of the difference. -/
def sizeToRead (offset size : Nat) : Nat := (writeEnd offset size + 2 ^ 64 - offset) % 2 ^ 64

/-- `BLOCKSIZE * blocks_read - (offset % BLOCKSIZE)`, with its overflow. -/
def bufferOffset (offset blocksRead : Nat) : Nat :=
  (blockSize * blocksRead + 2 ^ 64 - offset % blockSize) % 2 ^ 64

/-- The round of the loop of `write_tmpfs` that has `blocks_read` rounds before it. -/
def loopCopy (offset blocksRead : Nat) : Copy :=
  if blocksRead = 0 then
    { blockid := offset / blockSize
      blockOffset := offset % blockSize
      source := 0
      len := blockSize - offset % blockSize }
  else
    { blockid := offset / blockSize + blocksRead
      blockOffset := 0
      source := bufferOffset offset blocksRead
      len := blockSize }

/-- The copies of `write_tmpfs` in their order. They depend on `offset` and `size` only. -/
def writeCopies (offset size : Nat) : List Copy :=
  let startBlock := offset / blockSize
  let endBlock := writeEnd offset size / blockSize
  let endSize := writeEnd offset size - endBlock * blockSize
  if startBlock = endBlock then
    [{ blockid := startBlock
       blockOffset := offset % blockSize
       source := 0
       len := sizeToRead offset size }]
  else
    let blocksRead := endBlock - startBlock
    (List.range blocksRead).map (loopCopy offset) ++
      if endSize = 0 then []
      else
        [{ blockid := endBlock
           blockOffset := 0
           source := bufferOffset offset blocksRead
           len := endSize }]

/-- The physical address that a copy starts to write at. -/
def Copy.target (c : Copy) (frame : Nat) : Nat := frame * blockSize + c.blockOffset

/-- The `memcpy` of a copy. `buffer` has the bytes behind the pointer, at 64-bit distances from it. -/
def Copy.run (c : Copy) (frame : Nat) (buffer : Nat → BitVec 8) (phys : Nat → BitVec 8) :
    Nat → BitVec 8 :=
  fun address =>
    if c.target frame ≤ address ∧ address < c.target frame + c.len then
      buffer ((c.source + (address - c.target frame)) % 2 ^ 64)
    else phys address

namespace Tmpfs

/-- The copies in order, each after `tmpfs_file_getset_block` for its block. -/
def runCopies (f : Nat) (buffer : Nat → BitVec 8) : List Copy → Tmpfs → Option Tmpfs
  | [], t => some t
  | c :: copies, t =>
      match t.getsetBlock f c.blockid with
      | none => none
      | some (frame, t) => runCopies f buffer copies { t with phys := c.run frame buffer t.phys }

/-- `write_tmpfs`. -/
def writeTmpfs (t : Tmpfs) (f offset size : Nat) (buffer : Nat → BitVec 8) : Option (Nat × Tmpfs) :=
  match t.files f with
  | none => none
  | some file =>
      let length := if file.length < writeEnd offset size then writeEnd offset size else file.length
      match runCopies f buffer (writeCopies offset size) (t.setFile f { file with length := length }) with
      | none => none
      | some t => some (sizeToRead offset size, t)

/-- Release the frames of a list of blocks, in its order, and count them off. -/
def releaseBlocks (t : Tmpfs) : List Nat → Tmpfs
  | [] => t
  | block :: blocks =>
      releaseBlocks
        { t with frames := mmuReleaseFrame t.frames block, totalBlocks := t.totalBlocks - 1 } blocks

/-- `truncate_tmpfs`. -/
def truncateTmpfs (t : Tmpfs) (f : Nat) : Option (Int × Tmpfs) :=
  match t.files f with
  | none => none
  | some file => some (0, (t.releaseBlocks file.blocks).setFile f { file with blocks := [], length := 0 })

/-! ## Directories -/

/-- `strdup`: the heap block of the copy. -/
def strdup (t : Tmpfs) (s : CString) : Option (HeapBlock × Tmpfs) :=
  match malloc t.frames (s.length + 1) with
  | none => none
  | some (block, frames) => some (block, { t with frames := frames })

/-- `tmpfs_new_file`: the pointer and the structure. -/
def newFile (t : Tmpfs) (name : CString) : Option (Nat × TmpfsFile × Tmpfs) :=
  match malloc t.frames fileSize with
  | none => none
  | some (f, frames) =>
      match strdup { t with frames := frames } name with
      | none => none
      | some (nameAt, t) =>
          match malloc t.frames (2 * pointerSize) with
          | none => none
          | some (blocksAt, frames) =>
              some (f.first,
                { name := name, mask := 0, uid := 0, gid := 0, length := 0, blocks := []
                  pointers := 2, target := none, nameAt := nameAt, blocksAt := blocksAt },
                { t with frames := frames })

/-- `tmpfs_new_dir`: the pointer and the structure. -/
def newDir (t : Tmpfs) (name : CString) : Option (Nat × TmpfsDir × Tmpfs) :=
  match malloc t.frames dirSize with
  | none => none
  | some (d, frames) =>
      match strdup { t with frames := frames } name with
      | none => none
      | some (_, t) =>
          match malloc t.frames (8 * pointerSize) with
          | none => none
          | some (filesAt, frames) =>
              some (d.first,
                { name := name, mask := 0, uid := 0, gid := 0, files := [], filesCapacity := 8
                  filesAt := filesAt },
                { t with frames := frames })

/-- Append an entry to a directory, with a larger array first if the old one is full. -/
def addEntry (t : Tmpfs) (d : Nat) (entry : TmpfsEntry) : Option Tmpfs :=
  match t.dirs d with
  | none => none
  | some dir =>
      if dir.filesCapacity ≤ dir.files.length then
        match realloc t.frames dir.filesAt (pointerSize * (dir.filesCapacity + 8)) with
        | none => none
        | some (filesAt, frames) =>
            some ({ t with frames := frames }.setDir d
              { dir with
                files := dir.files ++ [entry]
                filesCapacity := dir.filesCapacity + 8
                filesAt := filesAt })
      else some (t.setDir d { dir with files := dir.files ++ [entry] })

/-- `create_tmpfs`. -/
def createTmpfs (who : Credentials) (t : Tmpfs) (d : Nat) (name : CString) (mode : BitVec 32) :
    Option (Int × Tmpfs) :=
  match t.dirs d with
  | none => none
  | some dir =>
      if (t.findEntry dir name).isSome then some (negExist, t)
      else
        match t.newFile name with
        | none => none
        | some (f, file, t) =>
            ((t.setFile f { file with mask := mode, uid := who.uid, gid := who.gid }).addEntry d
              (.file f)).map fun t => (0, t)

/-- `symlink_tmpfs`. -/
def symlinkTmpfs (who : Credentials) (t : Tmpfs) (d : Nat) (target name : CString) :
    Option (Int × Tmpfs) :=
  match t.dirs d with
  | none => none
  | some dir =>
      if (t.findEntry dir name).isSome then some (negExist, t)
      else
        match t.newFile name with
        | none => none
        | some (f, file, t) =>
            match t.strdup target with
            | none => none
            | some (targetAt, t) =>
                ((t.setFile f
                  { file with
                    target := some (target, targetAt)
                    length := target.length
                    mask := 0o777
                    uid := who.uid
                    gid := who.gid }).addEntry d (.file f)).map fun t => (0, t)

/-- `mkdir_tmpfs`. -/
def mkdirTmpfs (who : Credentials) (t : Tmpfs) (d : Nat) (name : CString) (mode : BitVec 32) :
    Option (Int × Tmpfs) :=
  if name = [] then some (negInval, t)
  else
    match t.dirs d with
    | none => none
    | some dir =>
        if (t.findEntry dir name).isSome then some (negExist, t)
        else
          match t.newDir name with
          | none => none
          | some (out, outDir, t) =>
              ((t.setDir out { outDir with mask := mode, uid := who.uid, gid := who.gid }).addEntry d
                (.dir out)).map fun t => (0, t)

/-- `tmpfs_free_file`. -/
def freeFile (t : Tmpfs) (file : TmpfsFile) : Tmpfs :=
  match file.target with
  | some (_, targetAt) => releaseBlocks { t with frames := free t.frames targetAt } file.blocks
  | none => releaseBlocks t file.blocks

/-- `unlink_tmpfs`. The array `files` of a directory is never null, so a directory is never removed. -/
def unlinkTmpfs (t : Tmpfs) (d : Nat) (name : CString) : Option (Int × Tmpfs) :=
  match t.dirs d with
  | none => none
  | some dir =>
      match t.findEntry dir name with
      | none => some (negNoent, t)
      | some (.dir _) => some (negNotempty, t)
      | some (.file f) =>
          match t.files f with
          | none => none
          | some file =>
              let t := (t.freeFile file).setDir d { dir with files := dir.files.erase (.file f) }
              let frames := free (free t.frames file.nameAt) { first := f, pages := mallocPages fileSize }
              some (0, { t with frames := frames, files := Function.update t.files f none })

/-- `.` and `..`. -/
def dot : CString := [0x2E]

/-- `..`. -/
def dotDot : CString := [0x2E, 0x2E]

/-- `readdir_tmpfs`: the name in the record that it returns. -/
def readdirTmpfs (t : Tmpfs) (d index : Nat) : Option CString :=
  match t.dirs d with
  | none => none
  | some dir =>
      if d ≠ t.tmpfsRoot then
        if index = 0 then some dot
        else if index = 1 then some dotDot
        else dir.files[index - 2]?.bind t.entryName
      else dir.files[index]?.bind t.entryName

/-- `finddir_tmpfs`: the structure that the node is made from. -/
def finddirTmpfs (t : Tmpfs) (d : Nat) (name : CString) : Option TmpfsEntry :=
  (t.dirs d).bind fun dir => t.findEntry dir name

/-- `tmpfs_create`: an empty root directory, over frames that are free or in use by others. -/
def tmpfsCreate (frames : FrameMap) (phys : Nat → BitVec 8) (name : CString) : Option Tmpfs :=
  match newDir
      { frames := frames, files := fun _ => none, dirs := fun _ => none, tmpfsRoot := 0
        totalBlocks := 0, phys := phys } name with
  | none => none
  | some (root, dir, t) => some ({ t with tmpfsRoot := root }.setDir root { dir with mask := 0o777 })

end Tmpfs

/-! ## Reading -/

/-- `end` of `read_tmpfs`, with the overflow of the sum. -/
def readEnd (length offset size : Nat) : Nat :=
  if length < writeEnd offset size then length else writeEnd offset size

/-- `size_to_read` of `read_tmpfs`, with the overflow of the difference. -/
def readSize (length offset size : Nat) : Nat := (readEnd length offset size + 2 ^ 64 - offset) % 2 ^ 64

/-- The copies of `read_tmpfs` in their order; `source` is the place in the caller's buffer. -/
def readCopies (length offset size : Nat) : List Copy :=
  let startBlock := offset / blockSize
  let endBlock := readEnd length offset size / blockSize
  let endSize := readEnd length offset size - endBlock * blockSize
  if startBlock = endBlock then
    if offset = readEnd length offset size then []
    else
      [{ blockid := startBlock
         blockOffset := offset % blockSize
         source := 0
         len := readSize length offset size }]
  else
    let blocksRead := endBlock - startBlock
    (List.range blocksRead).map (loopCopy offset) ++
      if endSize = 0 then []
      else
        [{ blockid := endBlock
           blockOffset := 0
           source := bufferOffset offset blocksRead
           len := endSize }]

/-- The `memcpy` of a copy out of a block. `buffer` has the caller's bytes, at 64-bit distances from the
pointer. -/
def Copy.load (c : Copy) (frame : Nat) (phys buffer : Nat → BitVec 8) : Nat → BitVec 8 :=
  fun i =>
    let k := (i + 2 ^ 64 - c.source) % 2 ^ 64
    if k < c.len then phys (c.target frame + k) else buffer i

/-- The copies out of the blocks of a file, in order. -/
def runLoads (file : TmpfsFile) (phys : Nat → BitVec 8) :
    List Copy → (Nat → BitVec 8) → Option (Nat → BitVec 8)
  | [], buffer => some buffer
  | c :: copies, buffer =>
      match file.blocks[c.blockid]? with
      | none => none
      | some frame => runLoads file phys copies (c.load frame phys buffer)

/-- `read_tmpfs`: what it returns, and the caller's buffer. -/
def Tmpfs.readTmpfs (t : Tmpfs) (f offset size : Nat) (buffer : Nat → BitVec 8) :
    Option (Nat × (Nat → BitVec 8)) :=
  match t.files f with
  | none => none
  | some file =>
      (runLoads file t.phys (readCopies file.length offset size) buffer).map fun buffer =>
        (readSize file.length offset size, buffer)

/-! ## Blocks without frames -/

namespace Tmpfs

/-- One round of `while (blockid >= f->block_count)`. -/
def appendBlockCall (s : TmpfsFile × Tmpfs) : TmpfsFile × Tmpfs :=
  let allocated := allocateFrameCall s.2.frames
  ({ s.1 with blocks := s.1.blocks ++ [allocated.1.toNat] },
    { s.2 with frames := allocated.2, totalBlocks := s.2.totalBlocks + 1 })

/-- `tmpfs_file_getset_block` with `create`: the pointer that it returns. -/
def getsetBlockCall (t : Tmpfs) (f blockid : Nat) : Option (BitVec 64 × Tmpfs) :=
  match t.files f with
  | none => none
  | some file =>
      match embiggen blockid (blockid + 2) file t with
      | none => none
      | some (file, t) =>
          let appended := appendBlockCall^[blockid + 1 - file.blockCount] (file, t)
          match appended.1.blocks[blockid]? with
          | none => none
          | some block =>
              some ((BitVec.ofNat 64 block <<< 12) ||| highMapRegion,
                appended.2.setFile f appended.1)

end Tmpfs

end Voxel.Kernel
