/-
Module: Voxel.Kernel.Dirent
Layer: Kernel
Purpose: The records of 256 bytes that `kernel/sys/fs/tmpfs.c` copies names into: `name` of a node that
  `finddir_tmpfs` makes and `name` of a `struct dirent` that `readdir_tmpfs` makes. The outer `none` of a copy
  is a store behind the end of its field. What `malloc` leaves in a record is an argument.
Trusted boundary: human-reviewed spec
Main exports: strcpy, Dirent, TmpfsFile.nodeName, TmpfsDir.nodeName, Tmpfs.finddirName, Tmpfs.readdirRecord
-/
import Voxel.Kernel.FrameRuns
import Voxel.Kernel.PathCreate

namespace Voxel.Kernel

open Voxel.Lib

/-! ## strcpy -/

/-- A store into a field of a record. -/
def storeField (field : List (BitVec 8)) (i : Nat) (c : BitVec 8) : Option (List (BitVec 8)) :=
  if i < field.length then some (field.set i c) else none

/-- The loop of `strcpy` and the terminator, from the byte `i` of the field on. -/
def strcpyFrom : List (BitVec 8) → Nat → CString → Option (List (BitVec 8))
  | field, i, [] => storeField field i nul
  | field, i, c :: src => (storeField field i c).bind fun field => strcpyFrom field (i + 1) src

/-- `strcpy` into a field. -/
def strcpy (field : List (BitVec 8)) (src : CString) : Option (List (BitVec 8)) := strcpyFrom field 0 src

/-- The copy stays in its field exactly if there is room for the terminator. -/
theorem strcpyFrom_eq : ∀ {src : CString} {field : List (BitVec 8)} {i : Nat}, i ≤ field.length →
    strcpyFrom field i src =
      if i + src.length < field.length then
        some (field.take i ++ src ++ nul :: field.drop (i + src.length + 1))
      else none := by
  intro src
  induction src with
  | nil =>
      intro field i inside
      rw [strcpyFrom, storeField, List.length_nil, Nat.add_zero, List.append_nil]
      by_cases room : i < field.length
      · rw [if_pos room, if_pos room, List.set_eq_take_append_cons_drop, if_pos room]
      · rw [if_neg room, if_neg room]
  | cons c src inductionHypothesis =>
      intro field i inside
      rw [strcpyFrom, storeField, List.length_cons]
      by_cases room : i < field.length
      · rw [if_pos room, Option.bind_some, inductionHypothesis (by rw [List.length_set]; exact room),
          List.length_set]
        by_cases fits : i + 1 + src.length < field.length
        · rw [if_pos fits, if_pos (by omega)]
          have front : (field.set i c).take (i + 1) = field.take i ++ [c] := by
            rw [List.set_eq_take_append_cons_drop, if_pos room, List.take_append]
            simp [List.take_take, Nat.min_eq_left inside]
          have back : (field.set i c).drop (i + 1 + src.length + 1) =
              field.drop (i + (src.length + 1) + 1) := by
            rw [List.drop_set_of_lt (by omega)]
            congr 1
            omega
          rw [front, back]
          simp
        · rw [if_neg fits, if_neg (by omega)]
      · rw [if_neg room, if_neg (by omega)]
        rfl

theorem strcpy_eq (field : List (BitVec 8)) (src : CString) :
    strcpy field src =
      if src.length < field.length then some (src ++ nul :: field.drop (src.length + 1)) else none := by
  rw [strcpy, strcpyFrom_eq (Nat.zero_le _)]
  simp

/-! ## Nodes -/

/-- `fnode->name` of `tmpfs_from_file`, and of `tmpfs_from_link`, which calls it. -/
def TmpfsFile.nodeName (file : TmpfsFile) : Option (List (BitVec 8)) :=
  strcpy (List.replicate nodeNameSize 0) file.name

/-- `fnode->name` of `tmpfs_from_dir`. -/
def TmpfsDir.nodeName (dir : TmpfsDir) : Option (List (BitVec 8)) :=
  strcpy (List.replicate nodeNameSize 0) dir.name

namespace Tmpfs

/-- `name` of the node that `finddir_tmpfs` returns; the inner `none` is a null pointer. -/
def finddirName (t : Tmpfs) (d : Nat) (name : CString) : Option (Option (List (BitVec 8))) :=
  match t.finddirTmpfs d name with
  | none => some none
  | some (.file f) =>
      match t.files f with
      | none => some none
      | some file => file.nodeName.map some
  | some (.dir e) =>
      match t.dirs e with
      | none => some none
      | some dir => dir.nodeName.map some

end Tmpfs

/-! ## struct dirent -/

/-- `struct dirent`. -/
structure Dirent where
  ino : BitVec 32
  name : List (BitVec 8)
  deriving Repr, DecidableEq

/-- The address of a structure of tmpfs, a block of the kernel heap. -/
def TmpfsEntry.address : TmpfsEntry → BitVec 64
  | .file f => blockPointer (BitVec.ofNat 64 f <<< 12)
  | .dir d => blockPointer (BitVec.ofNat 64 d <<< 12)

namespace Tmpfs

/-- The record of `.` or `..`, which is cleared first. -/
def ownRecord (name : CString) : Option (Option Dirent) :=
  (strcpy (List.replicate nodeNameSize 0) name).map fun field => some { ino := 0, name := field }

/-- `readdir_tmpfs`. `junk` has the bytes of `name` that `malloc` leaves. -/
def readdirRecord (t : Tmpfs) (d index : Nat) (junk : List (BitVec 8)) : Option (Option Dirent) :=
  match t.dirs d with
  | none => some none
  | some dir =>
      if d ≠ t.tmpfsRoot ∧ index = 0 then ownRecord dot
      else if d ≠ t.tmpfsRoot ∧ index = 1 then ownRecord dotDot
      else
        match dir.files[if d ≠ t.tmpfsRoot then index - 2 else index]? with
        | none => some none
        | some entry =>
            match t.entryName entry with
            | none => some none
            | some name =>
                (strcpy junk name).map fun field => some { ino := entry.address.setWidth 32, name := field }

end Tmpfs

end Voxel.Kernel
