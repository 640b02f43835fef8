/-
Module: Voxel.Lib.LittleEndian
Layer: Lib
Purpose: Little-endian numbers in a file or a memory whose bytes are numbered from zero, and files that
  are written at a position.
Trusted boundary: none
Main exports: leByte, leNat, leNat_bytes, leNat_congr, OutFile, OutFile.fwrite
-/
import Mathlib.Algebra.Group.Nat.Defs

namespace Voxel.Lib

/-- Byte `k` of a number, the least significant one first. -/
def leByte (value k : Nat) : BitVec 8 := BitVec.ofNat 8 (value / 256 ^ k)

/-- The number in `n` bytes from an address on. -/
def leNat (mem : Nat → BitVec 8) (address : Nat) : Nat → Nat
  | 0 => 0
  | n + 1 => leNat mem address n + (mem (address + n)).toNat * 256 ^ n

/-- The bytes of a number that fits are read back. -/
theorem leNat_bytes {mem : Nat → BitVec 8} {address value n : Nat}
    (bytes : ∀ k < n, mem (address + k) = leByte value k) : leNat mem address n = value % 256 ^ n := by
  induction n with
  | zero => simp [leNat, Nat.mod_one]
  | succ n inductionHypothesis =>
      have split : value % 256 ^ (n + 1) = value % 256 ^ n + 256 ^ n * (value / 256 ^ n % 256) := by
        rw [Nat.pow_succ, Nat.mod_mul]
      rw [split, leNat, inductionHypothesis fun k inside => bytes k (by omega), bytes n (by omega),
        leByte, BitVec.toNat_ofNat, Nat.mul_comm (256 ^ n)]

/-- A number that is read depends only on its bytes. -/
theorem leNat_congr {mem other : Nat → BitVec 8} {address n : Nat}
    (same : ∀ k < n, mem (address + k) = other (address + k)) :
    leNat mem address n = leNat other address n := by
  induction n with
  | zero => rfl
  | succ n inductionHypothesis =>
      rw [leNat, leNat, inductionHypothesis fun k inside => same k (by omega), same n (by omega)]

/-- The number in `n` bytes is below `256 ^ n`. -/
theorem leNat_lt (mem : Nat → BitVec 8) (address n : Nat) : leNat mem address n < 256 ^ n := by
  induction n with
  | zero => exact Nat.one_pos
  | succ n inductionHypothesis =>
      have byte := (mem (address + n)).isLt
      have bound : (mem (address + n)).toNat * 256 ^ n ≤ 255 * 256 ^ n :=
        Nat.mul_le_mul_right _ (by omega)
      rw [leNat, Nat.pow_succ]
      omega

/-! ## Files -/

/-- A file that is open for writing: its bytes, its length and the position. -/
structure OutFile where
  bytes : Nat → BitVec 8
  length : Nat
  pos : Nat

namespace OutFile

/-- A new file. -/
def empty : OutFile := { bytes := fun _ => 0, length := 0, pos := 0 }

/-- `fwrite` of `n` bytes. -/
def fwrite (f : OutFile) (n : Nat) (data : Nat → BitVec 8) : OutFile where
  bytes a := if f.pos ≤ a ∧ a < f.pos + n then data (a - f.pos) else f.bytes a
  length := max f.length (f.pos + n)
  pos := f.pos + n

/-- `fseek` to a position. -/
def fseek (f : OutFile) (pos : Nat) : OutFile := { f with pos := pos }

@[simp] theorem fwrite_pos (f : OutFile) (n : Nat) (data : Nat → BitVec 8) :
    (f.fwrite n data).pos = f.pos + n := rfl

@[simp] theorem fseek_pos (f : OutFile) (pos : Nat) : (f.fseek pos).pos = pos := rfl

@[simp] theorem fseek_bytes (f : OutFile) (pos : Nat) : (f.fseek pos).bytes = f.bytes := rfl

@[simp] theorem fseek_length (f : OutFile) (pos : Nat) : (f.fseek pos).length = f.length := rfl

theorem fwrite_inside {f : OutFile} {n k : Nat} {data : Nat → BitVec 8} (inside : k < n) :
    (f.fwrite n data).bytes (f.pos + k) = data k := by
  rw [fwrite]
  dsimp only
  rw [if_pos ⟨by omega, by omega⟩, Nat.add_sub_cancel_left]

theorem fwrite_outside {f : OutFile} {n a : Nat} {data : Nat → BitVec 8}
    (outside : a < f.pos ∨ f.pos + n ≤ a) : (f.fwrite n data).bytes a = f.bytes a := by
  rw [fwrite]
  dsimp only
  rw [if_neg]
  rintro ⟨low, high⟩
  omega

end OutFile

end Voxel.Lib
