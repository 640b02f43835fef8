/-
Module: Voxel.Lib.RangeCopy
Layer: Lib
Purpose: Copies of a range of bytes inside of one memory, byte by byte and in any order. The invariant is
  which bytes of the destination hold the original bytes of the source; a step keeps it when the byte that
  it reads has not been overwritten yet.
Trusted boundary: human-reviewed spec
Main exports: copyByte, copyUp, RangeCopied, RangeCopied.step, rangeCopied_copyUp, offset_ne, offset_toNat
-/
import Mathlib.Logic.Function.Basic
import Voxel.Lib.ByteMemory
import Voxel.Lib.Loop

namespace Voxel.Lib

variable {original now : ByteMemory} {dst src : BitVec 64} {n i low high : Nat}

/-- `to[i] = from[i];`. -/
def copyByte (m : ByteMemory) (dst src : BitVec 64) : ByteMemory := Function.update m dst (m src)

/-- The copy from the first byte to the last one. -/
def copyUp (m : ByteMemory) (dst src : BitVec 64) (n : Nat) : ByteMemory :=
  foldRange (fun i now => copyByte now (dst + BitVec.ofNat 64 i) (src + BitVec.ofNat 64 i)) 0 n m

/-- The bytes of the destination from index `low` up to `high` are those of the source in the original
memory; all other bytes are the original ones. -/
structure RangeCopied (original : ByteMemory) (dst src : BitVec 64) (low high : Nat) (now : ByteMemory) :
    Prop where
  copied : ∀ k, low ≤ k → k < high → now (dst + BitVec.ofNat 64 k) = original (src + BitVec.ofNat 64 k)
  kept : ∀ a, (∀ k, low ≤ k → k < high → a ≠ dst + BitVec.ofNat 64 k) → now a = original a

/-! ## Addresses inside of a range that does not wrap -/

theorem offset_toNat {base : BitVec 64} (inside : base.toNat + i < 2 ^ 64) :
    (base + BitVec.ofNat 64 i).toNat = base.toNat + i := by
  rw [BitVec.toNat_add, BitVec.toNat_ofNat, Nat.mod_eq_of_lt (show i < 2 ^ 64 by omega),
    Nat.mod_eq_of_lt inside]

theorem offset_ne {base other : BitVec 64} {k : Nat} (inside : base.toNat + i < 2 ^ 64)
    (inside' : other.toNat + k < 2 ^ 64) (different : base.toNat + i ≠ other.toNat + k) :
    base + BitVec.ofNat 64 i ≠ other + BitVec.ofNat 64 k := by
  intro same
  rw [← offset_toNat inside, ← offset_toNat inside', same] at different
  exact different rfl

/-! ## Steps of a copy -/

theorem rangeCopied_none (original : ByteMemory) (dst src : BitVec 64) (low : Nat) :
    RangeCopied original dst src low low original :=
  ⟨fun _ after before => absurd before (Nat.not_lt.mpr after), fun _ _ => rfl⟩

/-- One more byte, at either end of the range that has been copied: the byte that is read is not one of
those that have been written. -/
theorem RangeCopied.step (low' high' i : Nat) (inside : dst.toNat + high' ≤ 2 ^ 64) (lower : low' ≤ low)
    (higher : high ≤ high') (grows : ∀ k, low' ≤ k → k < high' → k = i ∨ (low ≤ k ∧ k < high))
    (within : low' ≤ i ∧ i < high')
    (unwritten : ∀ k, low ≤ k → k < high → src + BitVec.ofNat 64 i ≠ dst + BitVec.ofNat 64 k)
    (copies : RangeCopied original dst src low high now) :
    RangeCopied original dst src low' high'
      (copyByte now (dst + BitVec.ofNat 64 i) (src + BitVec.ofNat 64 i)) := by
  have reads : now (src + BitVec.ofNat 64 i) = original (src + BitVec.ofNat 64 i) :=
    copies.kept _ unwritten
  constructor
  · intro k after before
    rcases eq_or_ne k i with same | other
    · rw [same, copyByte, Function.update_self, reads]
    · have apart : dst + BitVec.ofNat 64 k ≠ dst + BitVec.ofNat 64 i :=
        offset_ne (by omega) (by omega) (by omega)
      rw [copyByte, Function.update_of_ne apart]
      obtain ⟨after', before'⟩ := (grows k after before).resolve_left other
      exact copies.copied k after' before'
  · intro a outside
    rw [copyByte, Function.update_of_ne (outside i within.1 within.2)]
    exact copies.kept a fun k after before =>
      outside k (Nat.le_trans lower after) (Nat.lt_of_lt_of_le before higher)

/-- The copy upwards is right if no byte of the source lies at an index of the destination that is written
before it is read. -/
theorem rangeCopied_copyUp (inside : dst.toNat + n ≤ 2 ^ 64)
    (unwritten : ∀ i < n, ∀ k < i, src + BitVec.ofNat 64 i ≠ dst + BitVec.ofNat 64 k) :
    RangeCopied original dst src 0 n (copyUp original dst src n) := by
  have whole : RangeCopied original dst src 0 (0 + n) (copyUp original dst src n) ∧ 0 + n ≤ n := by
    refine foldRange_invariant (fun high now => RangeCopied original dst src 0 high now ∧ high ≤ n)
      (fun i now _ below holds => ?_) ⟨rangeCopied_none original dst src 0, Nat.zero_le n⟩
    have below' : i < n := by omega
    refine ⟨holds.1.step 0 (i + 1) i (by omega) (Nat.le_refl 0) (Nat.le_succ i) (by omega) (by omega)
      fun k _ => unwritten i below' k, below'⟩
  rw [Nat.zero_add] at whole
  exact whole.1

end Voxel.Lib
