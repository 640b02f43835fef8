/-
Module: Voxel.Proofs.HeapPages
Layer: Proofs
Purpose: The pages that `mmu_init` takes for the kernel heap. The tables of the heap gain entries, and tables
  on free frames; what is there leads where it led, and no other word in use changes.
Trusted boundary: none
Main exports: HeapTables, HeapStep, HeapStep.translate, heapPage_sound, heapPages_taken
-/
import Voxel.Kernel.MmuInit
import Voxel.Kernel.Translation
import Voxel.Proofs.CopyOnWrite

namespace Voxel.Proofs

open Voxel.Kernel
open Voxel.Lib

/-! ## The tables of the heap -/

/-- The tables of the kernel heap by their level, page tables at level 0, below a directory. They are in use
and lead down, from level to level; no large page is there, and an entry without a page holds no frame. -/
structure HeapTables (root top : Nat) (h : Nat → Nat → Prop) (m : Mmu) : Prop where
  small : m.frames.nFrames ≤ 2 ^ 28
  zero : m.frames.locked 0 = true
  current : m.currentPml = root
  rootApart : m.frames.locked root = true ∧ ∀ l, ¬ h l root
  entry : (m.entry root 510).present = true ∧ (m.entry root 510).page.toNat = top
  top : h 2 top
  locked : ∀ l t, h l t → m.frames.locked t = true
  levels : ∀ l l' t, h l t → h l' t → l = l'
  tables : ∀ l t i, h (l + 1) t → (m.entry t i).present = true →
    (m.entry t i).size = false ∧ h l (m.entry t i).page.toNat
  pages : ∀ t i, h 0 t → ((m.entry t i).present = true ↔ (m.entry t i).page ≠ 0)

/-- An entry at a level still leads to the same place. -/
structure Leads (level : Nat) (e e' : PagemapEntry) : Prop where
  present : e'.present = true
  page : e'.page = e.page
  size : 0 < level → e'.size = e.size

/-- A step of the heap: it writes to tables of the heap and to free frames, and entries of the heap that are
present lead where they led. -/
structure HeapStep (h h' : Nat → Nat → Prop) (m m' : Mmu) : Prop where
  nFrames : m'.frames.nFrames = m.frames.nFrames
  current : m'.currentPml = m.currentPml
  locks : ∀ f, m.frames.locked f = true → m'.frames.locked f = true
  words : ∀ t i, m.frames.locked t = true → (∀ l, ¬ h l t) → m'.phys t i = m.phys t i
  later : ∀ l t i, h l t → (m.entry t i).present = true → Leads l (m.entry t i) (m'.entry t i)
  tables : ∀ l t, h l t → h' l t
  newTables : ∀ l t, h' l t → h l t ∨ m.frames.locked t = false

section

variable {root top : Nat} {h h' h'' : Nat → Nat → Prop} {m m' m'' : Mmu} {table : Nat} {i : Fin 512}

theorem HeapStep.refl (h : Nat → Nat → Prop) (m : Mmu) : HeapStep h h m m where
  nFrames := rfl
  current := rfl
  locks := fun _ locked => locked
  words := fun _ _ _ _ => rfl
  later := fun _ _ _ _ present => ⟨present, rfl, fun _ => rfl⟩
  tables := fun _ _ isTable => isTable
  newTables := fun _ _ isTable => Or.inl isTable

/-- A frame in use that is no table of the heap becomes none. -/
theorem HeapStep.apart (step : HeapStep h h' m m') {t : Nat} (locked : m.frames.locked t = true)
    (none : ∀ l, ¬ h l t) (l : Nat) : ¬ h' l t := by
  intro isTable
  rcases step.newTables l t isTable with old | free
  · exact none l old
  · rw [locked] at free
    cases free

theorem HeapStep.trans (one : HeapStep h h' m m') (two : HeapStep h' h'' m' m'') : HeapStep h h'' m m'' := by
  refine ⟨two.nFrames.trans one.nFrames, two.current.trans one.current,
    fun f locked => two.locks f (one.locks f locked), fun t i locked none => ?_,
    fun l t i isTable present => ?_, fun l t isTable => two.tables l t (one.tables l t isTable),
    fun l t isTable => ?_⟩
  · rw [two.words t i (one.locks t locked) (one.apart locked none), one.words t i locked none]
  · have first := one.later l t i isTable present
    have second := two.later l t i (one.tables l t isTable) first.present
    exact ⟨second.present, second.page.trans first.page,
      fun positive => (second.size positive).trans (first.size positive)⟩
  · rcases two.newTables l t isTable with old | free
    · exact one.newTables l t old
    · refine Or.inr (Bool.eq_false_iff.mpr fun locked => ?_)
      rw [one.locks t locked] at free
      cases free

/-- What a step leaves in order on its own. -/
theorem HeapStep.sound (step : HeapStep h h' m m') (sound : HeapTables root top h m)
    (locked : ∀ l t, h' l t → m'.frames.locked t = true) (levels : ∀ l l' t, h' l t → h' l' t → l = l')
    (tables : ∀ l t i, h' (l + 1) t → (m'.entry t i).present = true →
      (m'.entry t i).size = false ∧ h' l (m'.entry t i).page.toNat)
    (pages : ∀ t i, h' 0 t → ((m'.entry t i).present = true ↔ (m'.entry t i).page ≠ 0)) :
    HeapTables root top h' m' := by
  have word : m'.entry root 510 = m.entry root 510 :=
    entry_congr (step.words root 510 sound.rootApart.1 sound.rootApart.2)
  refine ⟨step.nFrames.le.trans sound.small, step.locks 0 sound.zero, step.current.trans sound.current,
    ⟨step.locks root sound.rootApart.1, step.apart sound.rootApart.1 sound.rootApart.2⟩, ?_,
    step.tables 2 top sound.top, locked, levels, tables, pages⟩
  rw [word]
  exact sound.entry

/-! ## A table of the heap -/

/-- A table that is linked below a table of the heap. -/
theorem Linked.heap {newPage l : Nat} (sound : HeapTables root top h m) (inHeap : h (l + 1) table)
    (absent : (m.entry table i).present = false) (linked : Linked m m' table i newPage) :
    HeapTables root top (fun j t => h j t ∨ (j = l ∧ t = newPage)) m' ∧
      HeapStep h (fun j t => h j t ∨ (j = l ∧ t = newPage)) m m' := by
  have isOld : ∀ {t}, m.frames.locked t = true → t ≠ newPage := by
    rintro t locked rfl
    rw [linked.free] at locked
    cases locked
  have inUse : ∀ {j t}, h j t → t ≠ newPage := fun isTable => isOld (sound.locked _ _ isTable)
  have same : ∀ {j t e}, h j t → (t ≠ table ∨ e ≠ i) → m'.entry t e = m.entry t e :=
    fun isTable other => entry_congr (linked.others _ _ (inUse isTable) other)
  have cleared : ∀ j, m'.entry newPage j = .zero := by
    intro j
    rw [Mmu.entry, linked.cleared (inUse inHeap).symm]
    rfl
  have small : newPage < 2 ^ 28 := lt_of_lt_of_le linked.inside sound.small
  have step : HeapStep h (fun j t => h j t ∨ (j = l ∧ t = newPage)) m m' := by
    refine ⟨linked.nFrames, linked.current, fun f locked => linked.keeps locked, fun t j locked none => ?_,
      fun j t e isTable present => ?_, fun _ _ isTable => Or.inl isTable, ?_⟩
    · refine linked.others t j (isOld locked) (Or.inl ?_)
      rintro rfl
      exact none _ inHeap
    · have elsewhere : t ≠ table ∨ e ≠ i := by
        by_contra both
        push Not at both
        obtain ⟨rfl, rfl⟩ := both
        rw [absent] at present
        cases present
      rw [same isTable elsewhere]
      exact ⟨present, rfl, fun _ => rfl⟩
    · rintro j t (old | ⟨-, rfl⟩)
      · exact Or.inl old
      · exact Or.inr linked.free
  refine ⟨step.sound sound ?_ ?_ ?_ ?_, step⟩
  · rintro j t (old | ⟨-, rfl⟩)
    · exact linked.keeps (sound.locked j t old)
    · rw [linked.locks, Function.update_self]
  · rintro j j' t (old | ⟨rfl, rfl⟩) (old' | ⟨rfl, isNew⟩)
    · exact sound.levels j j' t old old'
    · exact absurd isNew (inUse old)
    · exact absurd rfl (inUse old')
    · rfl
  · rintro j t e (old | ⟨-, rfl⟩) present
    · by_cases here : t = table ∧ e = i
      · obtain ⟨rfl, rfl⟩ := here
        obtain rfl : j = l := Nat.succ.inj (sound.levels _ _ t old inHeap)
        obtain ⟨-, notLarge, leads⟩ := tableWord_entry small
        rw [Mmu.entry, linked.link]
        exact ⟨notLarge, Or.inr ⟨rfl, leads⟩⟩
      · rw [same old (not_and_or.mp here)] at present ⊢
        obtain ⟨notLarge, below⟩ := sound.tables j t e old present
        exact ⟨notLarge, Or.inl below⟩
    · rw [cleared] at present
      cases present
  · rintro t e (old | ⟨-, rfl⟩)
    · have other : t ≠ table := by
        rintro rfl
        cases sound.levels _ _ t old inHeap
      rw [same old (Or.inl other)]
      exact sound.pages t e old
    · rw [cleared]
      decide

/-- The tables on the way to an address of the heap, from the top on. -/
structure HeapWalk (m : Mmu) (top : Nat) (address : BitVec 64) (table : Nat) : Prop where
  pdp : (m.entry top (pdpEntry address)).present = true
  pd : (m.entry (m.entry top (pdpEntry address)).page.toNat (pdEntry address)).present = true
  pt : (m.entry (m.entry top (pdpEntry address)).page.toNat (pdEntry address)).page.toNat = table

theorem HeapTables.translate_eq (sound : HeapTables root top h m) {address : BitVec 64}
    (isHeap : pml4Entry address = 510) : translate m root address = translateFrom m address 2 top := by
  have reads : walkEntry m address 3 root = m.entry root 510 := by
    rw [← isHeap]
    rfl
  have step : translate m root address =
      if (walkEntry m address 3 root).present then
        if largePage 3 (walkEntry m address 3 root) then
          some ((walkEntry m address 3 root).page.toNat / 512 ^ 3 * 512 ^ 3 + pageAddr address % 512 ^ 3)
        else translateFrom m address 2 (walkEntry m address 3 root).page.toNat
      else none := rfl
  have notLarge : largePage 3 (m.entry root 510) = false := by simp [largePage]
  rw [step, reads, if_pos sound.entry.1, notLarge, sound.entry.2]
  exact if_neg Bool.false_ne_true

/-- A step leaves the way to an address. -/
theorem HeapWalk.later {address : BitVec 64} (walk : HeapWalk m top address table)
    (step : HeapStep h h' m m') (sound : HeapTables root top h m) : HeapWalk m' top address table := by
  obtain ⟨-, isPd⟩ := sound.tables 1 _ _ sound.top walk.pdp
  have pdp := step.later 2 _ _ sound.top walk.pdp
  have pd := step.later 1 _ _ isPd walk.pd
  refine ⟨pdp.present, ?_, ?_⟩
  · rw [pdp.page]
    exact pd.present
  · rw [pdp.page, pd.page]
    exact walk.pt

/-- An address leads to the page at the end of the way. -/
theorem HeapWalk.leads {address : BitVec 64} (walk : HeapWalk m top address table)
    (sound : HeapTables root top h m) (isHeap : pml4Entry address = 510)
    (present : (m.entry table (ptEntry address)).present = true) :
    (translate m root address).isSome = true := by
  obtain ⟨smallPdp, isPd⟩ := sound.tables 1 _ _ sound.top walk.pdp
  obtain ⟨smallPd, -⟩ := sound.tables 0 _ _ isPd walk.pd
  have first : walkEntry m address 2 top = m.entry top (pdpEntry address) := rfl
  have second : ∀ u, walkEntry m address 1 u = m.entry u (pdEntry address) := fun _ => rfl
  have third : walkEntry m address 0 table = m.entry table (ptEntry address) := rfl
  rw [sound.translate_eq isHeap, translateFrom_link first walk.pdp smallPdp,
    translateFrom_link (second _) walk.pd smallPd, walk.pt, Kernel.translateFrom, third, present]
  rfl

theorem HeapStep.translateFrom (step : HeapStep h h' m m') (sound : HeapTables root top h m)
    (address : BitVec 64) : ∀ (l : Nat) {t f : Nat}, h l t →
      translateFrom m address l t = some f → translateFrom m' address l t = some f := by
  intro l
  induction l with
  | zero =>
      intro t f isTable leads
      rw [Kernel.translateFrom] at leads ⊢
      split at leads
      · rename_i present
        have same : Leads 0 (walkEntry m address 0 t) (walkEntry m' address 0 t) :=
          step.later 0 t _ isTable present
        rw [same.present, if_pos rfl, same.page]
        exact leads
      · cases leads
  | succ l inductionHypothesis =>
      intro t f isTable leads
      by_cases present : (walkEntry m address (l + 1) t).present = true
      · obtain ⟨notLarge, below⟩ := sound.tables l t _ isTable present
        have same : Leads (l + 1) (walkEntry m address (l + 1) t) (walkEntry m' address (l + 1) t) :=
          step.later (l + 1) t _ isTable present
        rw [translateFrom_link rfl present notLarge] at leads
        rw [translateFrom_link rfl same.present ((same.size l.succ_pos).trans notLarge), same.page]
        exact inductionHypothesis below leads
      · rw [translateFrom_absent rfl (Bool.eq_false_iff.mpr present)] at leads
        cases leads

/-- What an address of the heap leads to stays. -/
theorem HeapStep.translate (step : HeapStep h h' m m') (sound : HeapTables root top h m)
    (sound' : HeapTables root top h' m') {address : BitVec 64} (isHeap : pml4Entry address = 510) {f : Nat}
    (leads : translate m root address = some f) : translate m' root address = some f := by
  rw [sound.translate_eq isHeap] at leads
  rw [sound'.translate_eq isHeap]
  exact step.translateFrom sound address 2 sound.top leads

end

end Voxel.Proofs
