/-
Module: Voxel.Proofs.RegularFile
Layer: Proofs
Purpose: The calls on a regular file are what the kernel does: `sys_seek` moves the position of a descriptor,
  `read_tmpfs` and `ramdiskfs_read` deliver the bytes from the position on.
Trusted boundary: none
Main exports: sysSeek_disk, readTmpfs_disk, ramdiskfsRead_disk
-/
import Voxel.Kernel.FileCalls
import Voxel.Kernel.Ramdisk
import Voxel.Libc.RegularFile
import Voxel.Proofs.TmpfsRead

namespace Voxel.Proofs

open Voxel.Kernel Voxel.Libc

/-- `sys_seek` on a descriptor that is neither a pipe nor a device, from the beginning or the position. -/
theorem sysSeek_disk {s : FileTable} {fd offset whence : BitVec 64} {node : Descriptor} {disk : Disk}
    (found : getProcessFd s.fds fd = some node) (plain : node.flags &&& (fsPipe ||| fsChardevice) = 0)
    (here : node.userOffset = disk.position) (relative : whence = 0 ∨ whence = 1) :
    s.sysSeek fd offset whence =
      ((disk.seek offset whence.toNat).1,
        s.setOffset fd node (disk.seek offset whence.toNat).2.position) := by
  rcases relative with rfl | rfl <;>
    simp [FileTable.sysSeek, found, plain, Disk.seek, seekSet, seekCur, here]

/-- `read_tmpfs` on a file with the same bytes. -/
theorem readTmpfs_disk {t : Tmpfs} {f size : Nat} {file : TmpfsFile} {disk : Disk} {pastEnd : Option Int}
    (buffer : Nat → BitVec 8) (present : t.files f = some file)
    (reach : file.length ≤ file.blockCount * Kernel.blockSize)
    (length : file.length = disk.data.length)
    (bytes : ∀ i, i < disk.data.length → TmpfsFile.byteAt file t.phys i = disk.data[i]?)
    (inside : disk.position.toNat ≤ disk.data.length) (small : size < 2 ^ 63) :
    ∃ got buffer', (disk.read pastEnd size).1 = .ok got ∧
      t.readTmpfs f disk.position.toNat size buffer = some (got.length, buffer') ∧
      ∀ k < got.length, got[k]? = some (buffer' k) := by
  have fits := disk.fits
  obtain ⟨buffer', ran, stored, -⟩ := readTmpfs_spec buffer present reach
    (show NoWrap disk.position.toNat size by unfold NoWrap; omega) (by omega)
  have count : ((disk.data.drop disk.position.toNat).take size).length =
      min size (file.length - disk.position.toNat) := by
    rw [List.length_take, List.length_drop, length]
  refine ⟨(disk.data.drop disk.position.toNat).take size, buffer', ?_, by rw [count]; exact ran,
    fun k wanted => ?_⟩
  · simp only [Disk.read, if_pos inside]
  · rw [count] at wanted
    rw [List.getElem?_take_of_lt (by omega), List.getElem?_drop, ← bytes _ (by omega)]
    exact stored k wanted

/-- `ramdiskfs_read` of an entry with the same bytes. -/
theorem ramdiskfsRead_disk {mem : RamdiskMemory} {node : RamdiskNode} {size : Nat} {disk : Disk}
    {pastEnd : Option Int} (signature : mem.headerSignature = rdfsSignature)
    (length : mem.entryLength (node.currentEntry mem) = disk.data.length)
    (bytes : ∀ i, i < disk.data.length →
      disk.data[i]? = some (mem (i + mem.entryOffset (node.currentEntry mem) + entrySize)))
    (inside : disk.position.toNat ≤ disk.data.length) (small : size < 2 ^ 63) :
    ∃ got, (disk.read pastEnd size).1 = .ok got ∧
      (ramdiskfsRead mem node disk.position.toNat size).1 = got.length ∧
      ∀ k < got.length, got[k]? = some ((ramdiskfsRead mem node disk.position.toNat size).2 k) := by
  have fits := disk.fits
  have count : ((disk.data.drop disk.position.toNat).take size).length =
      min size (disk.data.length - disk.position.toNat) := by
    rw [List.length_take, List.length_drop]
  unfold ramdiskfsRead
  dsimp only
  rw [if_neg (not_not.mpr signature), length, if_neg (by omega), Nat.mod_eq_of_lt (by omega)]
  refine ⟨(disk.data.drop disk.position.toNat).take size, by simp only [Disk.read, if_pos inside], ?_,
    fun k wanted => ?_⟩
  · rw [count]
    split <;> omega
  · rw [count] at wanted
    rw [List.getElem?_take_of_lt (by omega), List.getElem?_drop, bytes _ (by omega)]
    congr 2
    omega

end Voxel.Proofs
