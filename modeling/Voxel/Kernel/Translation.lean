/-
Module: Voxel.Kernel.Translation
Layer: Kernel
Purpose: The page walk of the processor. The kernel's own lookup follows it to the last table and knows no
  large pages; here they are, and the access rights do not matter.
Trusted boundary: human-reviewed spec
Main exports: translate, tablesRead, SameTarget
-/
import Voxel.Kernel.Mmu

namespace Voxel.Kernel

/-- The entry that the walk reads in a table: the root is on level 3, page tables on level 0. -/
def walkEntry (m : Mmu) (virtAddr : BitVec 64) (level table : Nat) : PagemapEntry :=
  m.entry table (Fin.ofNat 512 (pageAddr virtAddr >>> (9 * level)))

/-- The entry is a large page; the root has none. -/
def largePage (level : Nat) (e : PagemapEntry) : Bool := e.size && level < 3

/-- The walk from a table on. -/
def translateFrom (m : Mmu) (virtAddr : BitVec 64) : Nat → Nat → Option Nat
  | 0, table =>
      let e := walkEntry m virtAddr 0 table
      if e.present then some e.page.toNat else none
  | level + 1, table =>
      let e := walkEntry m virtAddr (level + 1) table
      if e.present then
        if largePage (level + 1) e then
          -- the frames of a large page are consecutive
          some (e.page.toNat / 512 ^ (level + 1) * 512 ^ (level + 1) +
            pageAddr virtAddr % 512 ^ (level + 1))
        else translateFrom m virtAddr level e.page.toNat
      else none

/-- The frame behind an address of a directory. -/
def translate (m : Mmu) (pml : Nat) (virtAddr : BitVec 64) : Option Nat :=
  translateFrom m virtAddr 3 pml

/-- The tables that the walk reads from a table on. -/
def tablesFrom (m : Mmu) (virtAddr : BitVec 64) : Nat → Nat → List Nat
  | 0, table => [table]
  | level + 1, table =>
      let e := walkEntry m virtAddr (level + 1) table
      if e.present && !largePage (level + 1) e then table :: tablesFrom m virtAddr level e.page.toNat
      else [table]

/-- The tables that the walk reads. -/
def tablesRead (m : Mmu) (pml : Nat) (virtAddr : BitVec 64) : List Nat := tablesFrom m virtAddr 3 pml

/-- The entries lead to the same place and are open to user code alike; write access may differ. -/
structure SameTarget (e e' : PagemapEntry) : Prop where
  present : e'.present = e.present
  user : e'.user = e.user
  size : e'.size = e.size
  page : e'.page = e.page

theorem SameTarget.refl (e : PagemapEntry) : SameTarget e e := ⟨rfl, rfl, rfl, rfl⟩

theorem SameTarget.trans {e e' e'' : PagemapEntry} (one : SameTarget e e') (two : SameTarget e' e'') :
    SameTarget e e'' :=
  ⟨two.present.trans one.present, two.user.trans one.user, two.size.trans one.size, two.page.trans one.page⟩

/-- A walk goes on in the table that an entry leads to. -/
theorem translateFrom_link {m : Mmu} {virtAddr : BitVec 64} {l t : Nat} {e : PagemapEntry}
    (reads : walkEntry m virtAddr (l + 1) t = e) (present : e.present = true) (notLarge : e.size = false) :
    translateFrom m virtAddr (l + 1) t = translateFrom m virtAddr l e.page.toNat := by
  simp [translateFrom, reads, present, largePage, notLarge]

theorem translateFrom_absent {m : Mmu} {virtAddr : BitVec 64} {l t : Nat} {e : PagemapEntry}
    (reads : walkEntry m virtAddr l t = e) (absent : e.present = false) :
    translateFrom m virtAddr l t = none := by
  cases l with
  | zero => simp [translateFrom, reads, absent]
  | succ l => simp [translateFrom, reads, absent]

theorem translateFrom_congr {m m' : Mmu} {virtAddr : BitVec 64} {level table : Nat}
    (same : ∀ t ∈ tablesFrom m virtAddr level table, ∀ i, SameTarget (m.entry t i) (m'.entry t i)) :
    translateFrom m' virtAddr level table = translateFrom m virtAddr level table := by
  induction level generalizing table with
  | zero =>
      have entry : SameTarget (walkEntry m virtAddr 0 table) (walkEntry m' virtAddr 0 table) :=
        same table (List.mem_singleton_self _) _
      rw [translateFrom, translateFrom]
      rw [entry.present, entry.page]
  | succ level inductionHypothesis =>
      rw [tablesFrom] at same
      have entry : SameTarget (walkEntry m virtAddr (level + 1) table)
          (walkEntry m' virtAddr (level + 1) table) := same table (by split <;> simp) _
      rw [translateFrom, translateFrom]
      rw [largePage, entry.present, entry.size, entry.page, ← largePage]
      by_cases present : (walkEntry m virtAddr (level + 1) table).present = true
      · rw [if_pos present, if_pos present]
        by_cases isLarge : largePage (level + 1) (walkEntry m virtAddr (level + 1) table) = true
        · rw [if_pos isLarge, if_pos isLarge]
        · rw [if_neg isLarge, if_neg isLarge]
          refine inductionHypothesis fun t member => same t ?_
          rw [if_pos (by simp [present, isLarge])]
          exact List.mem_cons_of_mem _ member
      · rw [if_neg present, if_neg present]

end Voxel.Kernel
