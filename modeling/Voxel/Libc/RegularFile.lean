/-
Module: Voxel.Libc.RegularFile
Layer: Libc
Purpose: The system calls of a process on a descriptor of a regular file that nobody writes: `sys_read` gives
  the bytes from the position of the descriptor on, `sys_seek` sets the position to any value.
Trusted boundary: human-reviewed spec
Main exports: Disk, Disk.remaining, regular
-/
import Voxel.Libc.Stdio

namespace Voxel.Libc

/-- A regular file, and `user_offset` of its descriptor. The length of a file is a signed number too. -/
structure Disk where
  data : List (BitVec 8)
  position : BitVec 64
  fits : data.length < 2 ^ 63
  deriving DecidableEq

namespace Disk

/-- How many bytes of the file lie behind the position. -/
def remaining (disk : Disk) : Nat := disk.data.length - disk.position.toNat

/-- `sys_seek`; its error is `-EINVAL`. -/
def seek (disk : Disk) (offset : BitVec 64) (whence : Nat) : BitVec 64 × Disk :=
  if whence = seekSet then (offset, { disk with position := offset })
  else if whence = seekCur then (disk.position + offset, { disk with position := disk.position + offset })
  else if whence = 2 then
    (BitVec.ofNat 64 disk.data.length + offset,
      { disk with position := BitVec.ofNat 64 disk.data.length + offset })
  else (-22, disk)

/-- `sys_read`. A position behind the end of the file, which may be a negative one, is not read from:
`ramdiskfs_read` returns 0, and `read_tmpfs` a negative difference, which is an error number for the library;
`pastEnd` is this number. -/
def read (pastEnd : Option Int) (disk : Disk) (count : Nat) : Except Int (List (BitVec 8)) × Disk :=
  if disk.position.toNat ≤ disk.data.length then
    let bytes := (disk.data.drop disk.position.toNat).take count
    (.ok bytes, { disk with position := disk.position + BitVec.ofNat 64 bytes.length })
  else
    match pastEnd with
    | none => (.ok [], disk)
    | some e => (.error e, disk)

end Disk

/-- The calls on the descriptor of a regular file that is open for reading. -/
def regular (pastEnd : Option Int) : SysCalls Disk where
  seek disk _ offset whence := disk.seek offset whence
  read disk _ count := disk.read pastEnd count
  write disk _ _ := disk
  close disk _ := (0, disk)
  read_le := by
    intro disk _ count bytes read
    unfold Disk.read at read
    split at read
    · cases read
      rw [List.length_take]
      exact Nat.min_le_left _ _
    · cases pastEnd <;> cases read
      exact Nat.zero_le count

end Voxel.Libc
