/-
Module: Voxel.Kernel.PageEntry
Layer: Kernel
Purpose: The 64-bit page table entries of `kernel/cpu/mmu.h`: the bit-field record, its layout in a
  word, and the entries the kernel writes as plain words.
Trusted boundary: human-reviewed spec
Main exports: PagemapEntry, PagemapEntry.ofWord, PagemapEntry.toWord, tableWord
-/
import Mathlib.Algebra.Group.Nat.Defs

namespace Voxel.Kernel

/-- A table has entries: its indices are numbers modulo 512. -/
instance neZeroEntries : @NeZero Nat Zero.ofOfNat0 512 := ⟨by decide⟩

/-- `pagemap_entry_t`. -/
structure PagemapEntry where
  present : Bool
  writable : Bool
  user : Bool
  writethrough : Bool
  nocache : Bool
  accessed : Bool
  available0 : Bool
  size : Bool
  global : Bool
  cow : Bool
  available1 : BitVec 2
  page : BitVec 28
  reserved : BitVec 12
  available2 : BitVec 11
  noexec : Bool
deriving Repr, DecidableEq

namespace PagemapEntry

/-- The bit-fields of a word, the first one in the lowest bit. -/
def ofWord (word : BitVec 64) : PagemapEntry where
  present := word.getLsbD 0
  writable := word.getLsbD 1
  user := word.getLsbD 2
  writethrough := word.getLsbD 3
  nocache := word.getLsbD 4
  accessed := word.getLsbD 5
  available0 := word.getLsbD 6
  size := word.getLsbD 7
  global := word.getLsbD 8
  cow := word.getLsbD 9
  available1 := word.extractLsb' 10 2
  page := word.extractLsb' 12 28
  reserved := word.extractLsb' 40 12
  available2 := word.extractLsb' 52 11
  noexec := word.getLsbD 63

/-- The word that holds these bit-fields. -/
def toWord (e : PagemapEntry) : BitVec 64 :=
  BitVec.ofBool e.noexec ++ e.available2 ++ e.reserved ++ e.page ++ e.available1 ++
    BitVec.ofBool e.cow ++ BitVec.ofBool e.global ++ BitVec.ofBool e.size ++
    BitVec.ofBool e.available0 ++ BitVec.ofBool e.accessed ++ BitVec.ofBool e.nocache ++
    BitVec.ofBool e.writethrough ++ BitVec.ofBool e.user ++ BitVec.ofBool e.writable ++
    BitVec.ofBool e.present

/-- Assigning bit-fields and reading them back. -/
@[simp] theorem ofWord_toWord (e : PagemapEntry) : ofWord e.toWord = e := by
  cases e
  simp only [ofWord, toWord, PagemapEntry.mk.injEq]
  refine ⟨?_, ?_, ?_, ?_, ?_, ?_, ?_, ?_, ?_, ?_, ?_, ?_, ?_, ?_, ?_⟩
  all_goals first
    | simp only [BitVec.getLsbD_append, BitVec.getLsbD_ofBool]
      simp
    | simp (disch := decide) only [BitVec.extractLsb'_append_eq_of_le]
      exact BitVec.extractLsb'_append_eq_right

/-- The entry of a cleared word. -/
def zero : PagemapEntry := ofWord 0

@[simp] theorem zero_present : zero.present = false := rfl

@[simp] theorem zero_page : zero.page = 0 := rfl

end PagemapEntry

/-- `new_page | USER_PML_ACCESS`: the link to a table at a frame. -/
def tableWord (frame : Nat) : BitVec 64 := (BitVec.ofNat 64 frame <<< 12) ||| 7#64

theorem tableWord_toNat {frame : Nat} (small : frame < 2 ^ 28) :
    (tableWord frame).toNat = frame * 4096 + 7 := by
  have shifted : (BitVec.ofNat 64 frame <<< 12).toNat = frame <<< 12 := by
    rw [BitVec.toNat_shiftLeft, BitVec.toNat_ofNat, Nat.shiftLeft_eq, Nat.shiftLeft_eq]
    omega
  rw [tableWord, BitVec.toNat_or, shifted, BitVec.toNat_ofNat,
    ← Nat.shiftLeft_add_eq_or_of_lt (by decide), Nat.shiftLeft_eq]

/-- A table link is present, is no large page and leads to its frame. -/
theorem tableWord_entry {frame : Nat} (small : frame < 2 ^ 28) :
    (PagemapEntry.ofWord (tableWord frame)).present = true ∧
      (PagemapEntry.ofWord (tableWord frame)).size = false ∧
      (PagemapEntry.ofWord (tableWord frame)).page.toNat = frame := by
  have value := tableWord_toNat small
  refine ⟨?_, ?_, ?_⟩
  · simp only [PagemapEntry.ofWord, BitVec.getLsbD, value, Nat.testBit_zero, decide_eq_true_eq]
    omega
  · simp only [PagemapEntry.ofWord, BitVec.getLsbD, value, Nat.testBit_eq_decide_div_mod_eq,
      decide_eq_false_iff_not]
    omega
  · simp only [PagemapEntry.ofWord, BitVec.extractLsb'_toNat, value, Nat.shiftRight_eq_div_pow]
    omega

end Voxel.Kernel
