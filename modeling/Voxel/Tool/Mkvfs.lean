/-
Module: Voxel.Tool.Mkvfs
Layer: Tool
Purpose: The program of `ramdiskfs_tool/main.c` that writes the image of a directory. A directory of the
  host is what `readdir` returns for it, in its order; 32-bit fields are numbers that are cut to 32 bits.
  The bytes of a structure that the program never sets are a parameter. The loop of `create_directory` stands
  here a second time, round by round: an entry that is skipped leaves the directory stream where it is, so the
  next round looks at the same record.
Trusted boundary: human-reviewed spec
Main exports: HostNode, HostStream, createDirectory, mkvfs, skipEntry, putEntry, createDirectoryLoop
-/
import Voxel.Kernel.Ramdisk

namespace Voxel.Tool

open Voxel.Lib Voxel.Kernel

/-! ## The host -/

mutual

/-- What a directory record names: a regular file with its bytes, a directory, or anything else. -/
inductive HostNode
  | regular (bytes : List (BitVec 8))
  | directory (stream : HostStream)
  | other

/-- The records that `readdir` returns, one after the other, `.` and `..` among them. -/
inductive HostStream
  | nil
  | cons (name : CString) (node : HostNode) (rest : HostStream)

end

/-- `readdir` returns another record. -/
def HostStream.more : HostStream → Bool
  | .nil => false
  | .cons _ _ _ => true

/-- `.` and `..`, which the program leaves out. -/
def IsSpecial (name : CString) : Prop := name = [0x2E] ∨ name = [0x2E, 0x2E]

instance (name : CString) : Decidable (IsSpecial name) :=
  inferInstanceAs (Decidable (_ ∨ _))

/-! ## Structures -/

/-- A number that is stored in a `uint32_t`. -/
def cut32 (n : Nat) : Nat := n % 2 ^ 32

/-- `ramdiskfs_entry_t`, the fields that the program sets. -/
structure RamdiskEntry where
  name : CString
  offset : Nat
  type : Nat
  nextEntry : Nat
  targetEntry : Nat
  size : Nat

/-- The bytes of an entry; `junk` has the bytes that the variable had before. -/
def RamdiskEntry.byte (e : RamdiskEntry) (junk : Nat → BitVec 8) (i : Nat) : BitVec 8 :=
  if i < 1 then junk i
  else if i < 257 then
    if i - 1 < e.name.length then charAt e.name (i - 1)
    else if i - 1 = e.name.length then nul
    else junk i
  else if i < 261 then leByte e.offset (i - 257)
  else if i < 262 then leByte e.type (i - 261)
  else if i < 263 then junk i
  else if i < 267 then leByte e.nextEntry (i - 263)
  else if i < 271 then leByte e.targetEntry (i - 267)
  else leByte e.size (i - 271)

/-- The bytes of the header. -/
def headerByte (label : CString) (size rootEntry : Nat) (junk : Nat → BitVec 8) (i : Nat) : BitVec 8 :=
  if i < 2 then leByte rdfsSignature i
  else if i < 3 then leByte 1 (i - 2)
  else if i < 19 then
    if i - 3 < label.length then charAt label (i - 3)
    else if i - 3 = label.length then nul
    else junk i
  else if i < 23 then leByte size (i - 19)
  else leByte rootEntry (i - 23)

/-! ## create_directory -/

/-- `sizeof(BUFFER)`. -/
def bufferSize : Nat := 1024

/-- The loop that copies a file through `BUFFER` and counts its bytes in `child.size`. Every round that
goes on takes at least a byte, so `fuel` is the number of bytes. -/
def copyContent : Nat → List (BitVec 8) → Nat → OutFile → Nat × OutFile
  | 0, _, size, f => (size, f)
  | fuel + 1, bytes, size, f =>
      let written := min bufferSize bytes.length
      if written = 0 then (size, f)
      else
        copyContent fuel (bytes.drop written) (cut32 (size + written))
          (f.fwrite written fun i => charAt bytes i)

mutual

/-- What `create_directory` does for one record after it skipped the place of the entry: the type, the
size and the file. For a record of another type it goes back and looks at the same record again, for
ever. -/
def createChild (junk : Nat → Nat → BitVec 8) : HostNode → OutFile → Option (Nat × Nat × OutFile)
  | .regular bytes, f =>
      let copied := copyContent bytes.length bytes 0 f
      some (rdfsTypeFile, copied.1, copied.2)
  | .directory .nil, _ => none
  | .directory (.cons name node rest), f =>
      match createEntries junk (.cons name node rest) 0 f with
      | none => none
      | some (written, f) => some (rdfsTypeDirectory, written, f)
  | .other, _ => none

/-- The loop of `create_directory` over the records that are left, with `written_bytes`. -/
def createEntries (junk : Nat → Nat → BitVec 8) : HostStream → Nat → OutFile → Option (Nat × OutFile)
  | .nil, written, f => some (written, f)
  | .cons name node rest, written, f =>
      if IsSpecial name then createEntries junk rest written f
      else
        let offset := cut32 f.pos
        match createChild junk node (f.fseek (f.pos + entrySize)) with
        | none => none
        | some (type, size, f) =>
            let targetEntry :=
              if type = rdfsTypeDirectory ∧ size ≠ 0 then cut32 (offset + entrySize) else 0
            let nextEntry := if rest.more then cut32 (offset + entrySize + size) else 0
            let written := cut32 (cut32 (written + entrySize) + size)
            let child : RamdiskEntry :=
              { name := name
                offset := offset
                type := type
                nextEntry := nextEntry
                targetEntry := targetEntry
                size := if type = rdfsTypeDirectory then 0 else size }
            let current := cut32 f.pos
            createEntries junk rest written
              (((f.fseek offset).fwrite entrySize (child.byte (junk offset))).fseek current)

end

/-- `create_directory`; a directory without any record makes it read through a null pointer. -/
def createDirectory (junk : Nat → Nat → BitVec 8) (stream : HostStream) (f : OutFile) :
    Option (Nat × OutFile) :=
  match stream with
  | .nil => none
  | .cons name node rest => createEntries junk (.cons name node rest) 0 f

/-- The entry of the root directory. -/
def rootEntry : RamdiskEntry where
  name := []
  offset := headerSize
  type := rdfsTypeDirectory
  nextEntry := 0
  targetEntry := headerSize + entrySize
  size := 0

/-- `main`: the image of a directory, with a label of at most 16 bytes. -/
def mkvfs (junk : Nat → Nat → BitVec 8) (label : CString) (stream : HostStream) : Option OutFile :=
  let f := (OutFile.empty.fseek headerSize).fwrite entrySize (rootEntry.byte (junk headerSize))
  match createDirectory junk stream f with
  | none => none
  | some (written, f) =>
      some ((f.fseek 0).fwrite headerSize
        (headerByte label (cut32 (headerSize + entrySize + written)) headerSize (junk 0)))

/-! ## create_directory, round by round -/

/-- What a round seeks forward. -/
def reserveEntry (f : OutFile) : OutFile := f.fseek (f.pos + entrySize)

/-- What it seeks back at `skip_entry`. -/
def skipEntry (f : OutFile) : OutFile := f.fseek (f.pos - entrySize)

/-- The end of a round that is not skipped, with `written_bytes`: `more` says whether `readdir` returns
another record, and the entry is stored at its place. -/
def putEntry (junk : Nat → Nat → BitVec 8) (name : CString) (more : Bool) (offset type size written : Nat)
    (f : OutFile) : Nat × OutFile :=
  let targetEntry := if type = rdfsTypeDirectory ∧ size ≠ 0 then cut32 (offset + entrySize) else 0
  let nextEntry := if more then cut32 (offset + entrySize + size) else 0
  let written := cut32 (cut32 (written + entrySize) + size)
  let child : RamdiskEntry :=
    { name := name
      offset := offset
      type := type
      nextEntry := nextEntry
      targetEntry := targetEntry
      size := if type = rdfsTypeDirectory then 0 else size }
  let current := cut32 f.pos
  (written, ((f.fseek offset).fwrite entrySize (child.byte (junk offset))).fseek current)

/-- The loop of `create_directory`, for at most `fuel` rounds in each call. `none` is a loop that goes on, or
that reads through a null pointer: `dirent` is null in the first round of an empty stream. -/
def createDirectoryLoop (junk : Nat → Nat → BitVec 8) : Nat → HostStream → Nat → OutFile →
    Option (Nat × OutFile)
  | 0, _, _, _ => none
  | _ + 1, .nil, _, _ => none
  | fuel + 1, .cons name node rest, written, f =>
      if IsSpecial name then
        if rest.more then createDirectoryLoop junk fuel rest written f else some (written, f)
      else
        let offset := cut32 f.pos
        let f := reserveEntry f
        match node with
        | .regular bytes =>
            let copied := copyContent bytes.length bytes 0 f
            let put := putEntry junk name rest.more offset rdfsTypeFile copied.1 written copied.2
            if rest.more then createDirectoryLoop junk fuel rest put.1 put.2 else some put
        | .directory stream =>
            (createDirectoryLoop junk fuel stream 0 f).bind fun child =>
              let put := putEntry junk name rest.more offset rdfsTypeDirectory child.1 written child.2
              if rest.more then createDirectoryLoop junk fuel rest put.1 put.2 else some put
        | .other => createDirectoryLoop junk fuel (.cons name .other rest) written (skipEntry f)

end Voxel.Tool
