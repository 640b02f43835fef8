/-
Module: Voxel.Lib.TracedMemory
Layer: Lib
Purpose: A memory of bytes that remembers which addresses were stored to since a first state; all others
  still have the byte that they had then. Addresses are compared by their distance from the start of a
  buffer, so that a buffer may lie across the end of the address space.
Trusted boundary: human-reviewed spec
Main exports: TracedMemory, TracedMemory.start, TracedMemory.put, TracedMemory.memcpy, distance_offset
-/
import Mathlib.Logic.Function.Basic
import Voxel.Lib.ByteMemory

namespace Voxel.Lib

/-- The memory at first, the memory now, and the addresses that were stored to. -/
structure TracedMemory where
  first : ByteMemory
  mem : ByteMemory
  stored : BitVec 64 → Prop
  frame : ∀ a, ¬ stored a → mem a = first a

namespace TracedMemory

/-- Nothing is stored yet. -/
def start (mem : ByteMemory) : TracedMemory where
  first := mem
  mem := mem
  stored _ := False
  frame _ _ := rfl

/-- Store one byte. -/
def put (m : TracedMemory) (address : BitVec 64) (c : BitVec 8) : TracedMemory where
  first := m.first
  mem := Function.update m.mem address c
  stored a := m.stored a ∨ a = address
  frame a outside := by
    rw [Function.update_of_ne fun same => outside (.inr same)]
    exact m.frame a fun before => outside (.inl before)

/-- `memcpy` of `count` bytes. -/
def memcpy (m : TracedMemory) (dest : BitVec 64) (source : Nat → BitVec 8) (count : BitVec 64) :
    TracedMemory where
  first := m.first
  mem a := if a - dest < count then source (a - dest).toNat else m.mem a
  stored a := m.stored a ∨ a - dest < count
  frame a outside := by
    rw [if_neg fun inside => outside (.inr inside)]
    exact m.frame a fun before => outside (.inl before)

variable (m : TracedMemory) (address dest : BitVec 64) (source : Nat → BitVec 8) (count : BitVec 64)

@[simp] theorem stored_start {mem : ByteMemory} {a : BitVec 64} : ¬ (start mem).stored a := id

@[simp] theorem stored_put {c : BitVec 8} {a : BitVec 64} :
    (m.put address c).stored a ↔ m.stored a ∨ a = address := Iff.rfl

@[simp] theorem stored_memcpy {a : BitVec 64} :
    (m.memcpy dest source count).stored a ↔ m.stored a ∨ (a - dest).toNat < count.toNat := Iff.rfl

theorem mem_put_self {c : BitVec 8} : (m.put address c).mem address = c := Function.update_self ..

theorem mem_put_of_ne {c : BitVec 8} {a : BitVec 64} (other : a ≠ address) :
    (m.put address c).mem a = m.mem a := Function.update_of_ne other ..

/-- The distance of an offset from its base. -/
theorem distance_offset (base : BitVec 64) {i : Nat} (small : i < 2 ^ 64) :
    (base + BitVec.ofNat 64 i - base).toNat = i := by
  rw [BitVec.add_comm, BitVec.add_sub_cancel, BitVec.toNat_ofNat, Nat.mod_eq_of_lt small]

/-- Offsets from one base are apart. -/
theorem offset_ne (base : BitVec 64) {i j : Nat} (small : i < 2 ^ 64) (small' : j < 2 ^ 64) (apart : i ≠ j) :
    base + BitVec.ofNat 64 i ≠ base + BitVec.ofNat 64 j := by
  intro same
  apply apart
  rw [← distance_offset base small, same, distance_offset base small']

theorem mem_memcpy {i : Nat} (inside : i < count.toNat) :
    (m.memcpy dest source count).mem (dest + BitVec.ofNat 64 i) = source i := by
  have distance := distance_offset dest (Nat.lt_trans inside count.isLt)
  have below : dest + BitVec.ofNat 64 i - dest < count := BitVec.lt_def.mpr (distance.symm ▸ inside)
  exact (if_pos below).trans (congrArg source distance)

end TracedMemory

end Voxel.Lib
