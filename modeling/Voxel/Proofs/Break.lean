/-
Module: Voxel.Proofs.Break
Layer: Proofs
Purpose: The range of `sys_sbrk`. A call that keeps the break between the start of the heap and the end
  of the user half changes page entries of the heap alone; nothing in the code keeps the break there.
  The kernel half may share tables in any way, as long as none of them is a table of the user half.
Trusted boundary: none
Main exports: wordAt, KernelHalf, BreakStep, sbrk_stays_in_heap
-/
import Voxel.Proofs.HeapSharing

namespace Voxel.Proofs

open Voxel.Kernel
open Voxel.Lib

/-! ## Entries -/

/-- The word of the entry at a path; below a missing table there is no entry, which maps nothing like a
cleared one. -/
def wordAt (m : Mmu) (root : Nat) : Path → BitVec 64
  | [] => 0
  | i :: p =>
      match tableAt m root p with
      | none => 0
      | some table => m.phys table i

theorem wordAt_cons {m : Mmu} {root table : Nat} {i : Fin 512} {p : Path}
    (at_ : tableAt m root p = some table) : wordAt m root (i :: p) = m.phys table i := by
  rw [wordAt, at_]

theorem wordAt_none {m : Mmu} {root : Nat} {i : Fin 512} {p : Path}
    (missing : tableAt m root p = none) : wordAt m root (i :: p) = 0 := by
  rw [wordAt, missing]

/-- The path leads through the upper half of the root. -/
def IsKernel : Path → Prop
  | [] => False
  | [i] => 256 ≤ i.val
  | _ :: j :: p => IsKernel (j :: p)

/-- The tables of the kernel half are in use and apart from those of the user half. -/
def KernelHalf (m : Mmu) (root : Nat) : Prop :=
  ∀ p, IsKernel p → ∀ t, tableAt m root p = some t →
    m.frames.locked t = true ∧ ¬ IsTable m {root} t

section

variable {root table : Nat} {l : Fin 512} {p : Path} {m m' : Mmu}

/-- What keeps the upper half of the root and the frames that are in use and no user tables keeps every
entry of the kernel half. -/
theorem KernelHalf.frame (half : KernelHalf m root)
    (upper : ∀ j : Fin 512, 256 ≤ j.val → m'.phys root j = m.phys root j)
    (words : ∀ t, m.frames.locked t = true → ¬ IsTable m {root} t → m'.phys t = m.phys t) :
    (∀ q, IsKernel q → tableAt m' root q = tableAt m root q) ∧
      ∀ v, IsKernel v → wordAt m' root v = wordAt m root v := by
  have entry : ∀ i q t, IsKernel (i :: q) → tableAt m root q = some t →
      m'.phys t i = m.phys t i := by
    intro i q t kernel at_
    cases q with
    | nil =>
        cases at_
        exact upper i kernel
    | cons j q =>
        obtain ⟨locked, noTable⟩ := half (j :: q) kernel t at_
        rw [words t locked noTable]
  have walks : ∀ i q, IsKernel (i :: q) → tableAt m' root q = tableAt m root q := by
    intro i q kernel
    induction q generalizing i with
    | nil => rfl
    | cons j q inductionHypothesis =>
        have shorter := inductionHypothesis j kernel
        rw [tableAt, shorter, tableAt]
        cases at_ : tableAt m root q with
        | none => rfl
        | some t => simp only [Option.bind_some, child, entry_congr (entry j q t kernel at_)]
  constructor
  · intro q kernel
    cases q with
    | nil => rfl
    | cons i q =>
        rw [tableAt, walks i q kernel, tableAt]
        cases at_ : tableAt m root q with
        | none => rfl
        | some t => simp only [Option.bind_some, child, entry_congr (entry i q t kernel at_)]
  · intro v kernel
    cases v with
    | nil => rfl
    | cons i q =>
        rw [wordAt, walks i q kernel, wordAt]
        cases at_ : tableAt m root q with
        | none => rfl
        | some t => exact entry i q t kernel at_

/-! ## One step of a growth -/

/-- The tables stay in order, and the entries of user pages change in the part `R` alone. -/
structure BreakStep (root : Nat) (R : Path → Prop) (m m' : Mmu) : Prop where
  tables : Tables m' {root}
  half : KernelHalf m' root
  current : m'.currentPml = m.currentPml
  kernel : ∀ v, IsKernel v → wordAt m' root v = wordAt m root v
  user : ∀ v, UserPage v → ¬ R v → wordAt m' root v = wordAt m root v

variable {R S : Path → Prop}

theorem BreakStep.refl (tables : Tables m {root}) (half : KernelHalf m root) :
    BreakStep root R m m where
  tables := tables
  half := half
  current := rfl
  kernel := fun _ _ => rfl
  user := fun _ _ _ => rfl

theorem BreakStep.trans {a b c : Mmu} (one : BreakStep root R a b) (two : BreakStep root R b c) :
    BreakStep root R a c where
  tables := two.tables
  half := two.half
  current := two.current.trans one.current
  kernel := fun v kernel => (two.kernel v kernel).trans (one.kernel v kernel)
  user := fun v page outside => (two.user v page outside).trans (one.user v page outside)

theorem BreakStep.mono {a b : Mmu} (step : BreakStep root R a b) (wider : ∀ v, R v → S v) :
    BreakStep root S a b where
  tables := step.tables
  half := step.half
  current := step.current
  kernel := step.kernel
  user := fun v page outside => step.user v page fun inside => outside (wider v inside)

/-- The root has one path, so an entry of the root that is on the way to a user table is in its lower
half. -/
theorem Tables.root_entry (tables : Tables m {root}) (user : UserTable (l :: p))
    (at_ : tableAt m root p = some table) {j : Fin 512} (high : 256 ≤ j.val) :
    root ≠ table ∨ j ≠ l := by
  by_contra both
  push Not at both
  obtain ⟨rfl, rfl⟩ := both
  obtain ⟨-, rfl⟩ := tables.apart root rfl root rfl p [] root user.tail.1
    ⟨Nat.zero_le _, trivial⟩ at_ rfl
  exact absurd user.2 (Nat.not_lt.mpr high)

/-- A linked table. -/
theorem BreakStep.link {newPage : Nat} (tables : Tables m {root}) (half : KernelHalf m root)
    (user : UserTable (l :: p)) (at_ : tableAt m root p = some table)
    (absent : (m.entry table l).present = false) (linked : Linked m m' table l newPage) :
    BreakStep root R m m' := by
  have isTable : IsTable m {root} table := ⟨root, rfl, p, user.tail.1, at_⟩
  have isRoot : IsTable m {root} root := ⟨root, rfl, [], ⟨Nat.zero_le _, trivial⟩, rfl⟩
  have fresh : ∀ {t}, m.frames.locked t = true → t ≠ newPage := by
    rintro t locked rfl
    rw [linked.free] at locked
    cases locked
  have walk : ∀ {q}, UserTable q → tableAt m' root q =
      if root = root ∧ (l :: p) <:+ q then (if q = l :: p then some newPage else none)
      else tableAt m root q := fun user' =>
    tables.tableAt_link rfl user at_ linked rfl user'
  obtain ⟨kernelWalks, kernelWords⟩ := @KernelHalf.frame _ _ m' half
    (fun j high => linked.others root j (fresh (tables.locked root isRoot).1)
      (tables.root_entry user at_ high))
    (fun t locked noTable => funext fun j =>
      linked.others t j (fresh locked) (Or.inl fun same => noTable (same ▸ isTable)))
  refine ⟨tables.link rfl user at_ absent linked, ?_, linked.current, kernelWords, ?_⟩
  · intro q kernel t at_'
    rw [kernelWalks q kernel] at at_'
    obtain ⟨locked, noTable⟩ := half q kernel t at_'
    refine ⟨linked.keeps locked, ?_⟩
    rintro ⟨root', rfl, q', user', found⟩
    rw [walk user'] at found
    split at found
    · split at found
      · cases found
        exact fresh locked rfl
      · cases found
    · exact noTable ⟨_, rfl, q', user', found⟩
  · intro v page _
    cases v with
    | nil => rfl
    | cons j q =>
        by_cases below : root = root ∧ (l :: p) <:+ q
        · have missing : tableAt m root q = none :=
            tableAt_none_of_suffix (tableAt_absent at_ absent) below.2
          rw [wordAt_none missing, wordAt, walk page.table.1, if_pos below]
          split
          · rfl
          · rename_i t found
            split at found
            · cases found
              exact linked.cleared (fresh (tables.locked table isTable).1).symm j
            · cases found
        · rw [wordAt, walk page.table.1, if_neg below, wordAt]
          cases at_' : tableAt m root q with
          | none => rfl
          | some t =>
              have isTable' : IsTable m {root} t := ⟨root, rfl, q, page.table.1, at_'⟩
              refine linked.others t j (fresh (tables.locked t isTable').1) (Or.inl ?_)
              rintro rfl
              exact tables.pageTable_ne rfl rfl user.tail.1 user.tail.2 at_ page.table.1 page.table.2
                at_'

/-- A flagged entry. -/
theorem BreakStep.allocate (tables : Tables m {root}) (half : KernelHalf m root)
    (page : UserPage (l :: p)) (at_ : tableAt m root p = some table) :
    BreakStep root (fun v => v = l :: p) m (mmuAllocateFrameEx m table l mmuFlagWritable) := by
  have isTable : IsTable m {root} table := ⟨root, rfl, p, page.table.1, at_⟩
  obtain ⟨words, nFrames, locks, current, e, flagged⟩ :=
    mmuAllocateFrameEx_words m table l mmuFlagWritable
  obtain ⟨present, user, -⟩ := @flaggedEntry_user e mmuFlagWritable (by decide) (by decide)
  have leaf := tables.setLeaf rfl page at_ nFrames locks (fun t j _ => words t j)
    (.of_user (by rw [flagged, present, user]; rfl))
  have rootNe : root ≠ table := fun same => tables.pageTable_ne rfl rfl
    (show UserTable [] from ⟨Nat.zero_le _, trivial⟩) (by decide : ([] : Path).length < 3) rfl
    page.table.1 page.table.2 (at_.trans (congrArg some same.symm))
  obtain ⟨kernelWalks, kernelWords⟩ :=
    @KernelHalf.frame _ _ (mmuAllocateFrameEx m table l mmuFlagWritable) half
    (fun j _ => words root j (Or.inl rootNe))
    (fun t _ noTable => funext fun j => words t j (Or.inl fun same => noTable (same ▸ isTable)))
  refine ⟨leaf.tables, ?_, current, kernelWords, ?_⟩
  · intro q kernel t at_'
    rw [kernelWalks q kernel] at at_'
    obtain ⟨locked, noTable⟩ := half q kernel t at_'
    refine ⟨locks t locked, ?_⟩
    rintro ⟨root', rfl, q', user', found⟩
    rw [leaf.walks _ rfl q' user'] at found
    exact noTable ⟨_, rfl, q', user', found⟩
  · intro v page' different
    cases v with
    | nil => rfl
    | cons j q =>
        rw [wordAt, leaf.walks root rfl q page'.table.1, wordAt]
        cases at_' : tableAt m root q with
        | none => rfl
        | some t =>
            refine words t j ?_
            by_contra both
            push Not at both
            obtain ⟨rfl, rfl⟩ := both
            obtain ⟨-, rfl⟩ := tables.apart root rfl root rfl p q t page.table.1 page'.table.1 at_ at_'
            exact different rfl

/-- A level of the lookup. -/
theorem BreakStep.ensure (tables : Tables m {root}) (half : KernelHalf m root)
    (user : UserTable (l :: p)) (at_ : tableAt m root p = some table) {ensured : Bool}
    (made : ensureTable m true table l = some (ensured, m')) :
    ensured = true ∧ BreakStep root R m m' ∧ (m'.entry table l).size = false ∧
      tableAt m' root (l :: p) = some (m'.entry table l).page.toNat := by
  unfold ensureTable at made
  split at made
  · rename_i present
    cases made
    exact ⟨rfl, .refl tables half, tables.noLarge root rfl l p table user at_ present,
      tables.tableAt_present rfl user at_ present⟩
  · rename_i notPresent
    have absent : (m.entry table l).present = false := by simpa using notPresent
    rw [if_pos rfl] at made
    obtain ⟨⟨newPage, last⟩, madeTable, result⟩ := Option.map_eq_some_iff.mp made
    cases result
    have linked := makeTable_spec madeTable
    have small : newPage < 2 ^ 28 := lt_of_lt_of_le linked.inside tables.small
    obtain ⟨-, notLarge, leads⟩ := tableWord_entry small
    have link : last.entry table l = .ofWord (tableWord newPage) := by
      rw [Mmu.entry, linked.link]
    refine ⟨rfl, .link tables half user at_ absent linked, by rw [link, notLarge], ?_⟩
    rw [tables.tableAt_link rfl user at_ linked rfl user, if_pos ⟨rfl, List.suffix_refl _⟩,
      if_pos rfl, link, leads]

/-- One iteration of `sys_sbrk` changes the entry of its page. -/
theorem BreakStep.page (tables : Tables m {root}) (half : KernelHalf m root)
    (current : m.currentPml = root) {address : BitVec 64} (low : address.toNat < 0x800000000000)
    (grown : sbrkPage address m = some m') :
    BreakStep root (fun v => v = addrPath address) m m' := by
  unfold sbrkPage at grown
  split at grown
  · rename_i table i m1 looked
    cases grown
    obtain ⟨paved, table', found, at_⟩ := @mmuLookupFrame_levels _ _ _
      (fun a => Tables a {root} ∧ KernelHalf a root)
      (BreakStep root fun v => v = addrPath address)
      (fun one two => one.trans two) (fun step => ⟨step.tables, step.half⟩)
      (fun good user at_ made => BreakStep.ensure good.1 good.2 user at_ made) ⟨tables, half⟩ current
      _ (pml4Entry_low low) _ looked
    cases found
    exact paved.trans (.allocate paved.tables paved.half (addrPath_user (pml4Entry_low low)) at_)
  · cases grown

/-- The pages of the heap. -/
def HeapPage (h0 : Nat) (v : Path) : Prop :=
  ∃ address : BitVec 64, h0 ≤ address.toNat ∧ address.toNat < 0x800000000000 ∧ v = addrPath address

/-- A call of `sys_sbrk` that keeps the break in the user half, above the start of the heap. -/
theorem sysSbrk_break {h0 : Nat} {heap size result newHeap : BitVec 64} (tables : Tables m {root})
    (half : KernelHalf m root) (current : m.currentPml = root)
    (inside : inArea h0 0x800000000000 heap size = true)
    (bounds : h0 ≤ heap.toNat ∧ heap.toNat ≤ 0x800000000000) (aligned : size &&& 0xFFF = 0)
    (called : sysSbrk m heap size = some (result, newHeap, m')) :
    (h0 ≤ newHeap.toNat ∧ newHeap.toNat ≤ 0x800000000000) ∧
      BreakStep root (HeapPage h0) m m' := by
  rw [sysSbrk, if_neg (by simpa using aligned)] at called
  obtain ⟨last, looped, same⟩ := Option.map_eq_some_iff.mp called
  cases same
  obtain ⟨room, above, below⟩ := sbrkPages_bound (Nat.le_refl _) aligned inside bounds.2
  refine ⟨⟨above, below⟩, ?_⟩
  refine forRange_invariant (fun _ b => BreakStep root (HeapPage h0) m b) ?_ (.refl tables half) looped
  intro k b c _ smaller soFar stepped
  rw [Nat.zero_add] at smaller
  have value := @sbrkAddress_toNat heap k (by omega)
  have low : (sbrkAddress heap k).toNat < 0x800000000000 := by omega
  refine soFar.trans ((BreakStep.page soFar.tables soFar.half (soFar.current.trans current) low
    stepped).mono fun v same => ⟨_, ?_, low, same⟩)
  omega

/-! ## Sequences of calls -/

/-- A call with a multiple of the page size leaves the break between the start of the heap and the end of
the user half. Other sizes are refused. -/
def BreakInside (h0 : Nat) (s : Mmu × BitVec 64) (size : BitVec 64) : Prop :=
  size &&& 0xFFF = 0 → inArea h0 0x800000000000 s.2 size = true

/-- Entries of user addresses below the heap and all entries on the way to addresses of the kernel half
are what they were. -/
structure OutsideKept (h0 : Nat) (root : Nat) (m m' : Mmu) : Prop where
  user : ∀ address : BitVec 64, address.toNat < h0 →
    wordAt m' root (addrPath address) = wordAt m root (addrPath address)
  kernel : ∀ address : BitVec 64, 0xFFFF800000000000 ≤ address.toNat → ∀ level < 4,
    wordAt m' root ((addrPath address).drop level) = wordAt m root ((addrPath address).drop level)

theorem pml4Entry_high {address : BitVec 64} (high : 0xFFFF800000000000 ≤ address.toNat) :
    256 ≤ (pml4Entry address).val := by
  rw [pml4Entry, pageAddr_eq, Fin.val_ofNat, Nat.shiftRight_eq_div_pow]
  have bound := address.isLt
  omega

/-- An entry below the page-aligned start of the heap is no entry of the heap. -/
theorem not_heapPage {h0 : Nat} (aligned : h0 % 4096 = 0)
    {address : BitVec 64} (below : address.toNat < h0) : ¬ HeapPage h0 (addrPath address) := by
  rintro ⟨other, above, low, same⟩
  simp only [addrPath, List.cons.injEq, and_true, Fin.ext_iff] at same
  obtain ⟨a4, a3, a2, a1⟩ := @entries_low address (by omega)
  obtain ⟨b4, b3, b2, b1⟩ := entries_low low
  rw [a1, b1, a2, b2, a3, b3, a4, b4] at same
  omega

theorem BreakStep.outside {h0 : Nat} (aligned : h0 % 4096 = 0) (bound : h0 ≤ 0x800000000000)
    (step : BreakStep root (HeapPage h0) m m') : OutsideKept h0 root m m' where
  user := fun address below => step.user _ (addrPath_user (pml4Entry_low (by omega)))
    (not_heapPage aligned below)
  kernel := by
    intro address high level small
    have kernel := pml4Entry_high high
    refine step.kernel _ ?_
    rcases (by omega : level = 0 ∨ level = 1 ∨ level = 2 ∨ level = 3) with rfl | rfl | rfl | rfl <;>
      exact kernel

/-- In every sequence of calls that each leave the break inside, the break stays between the start of the
heap and the end of the user half, and no entry for an address outside changes. -/
theorem sbrk_stays_in_heap {h0 : BitVec 64} {t : Mmu × BitVec 64} {sizes : List (BitVec 64)}
    (tables : Tables m {root}) (half : KernelHalf m root) (current : m.currentPml = root)
    (aligned : h0.toNat % 4096 = 0) (bound : h0.toNat ≤ 0x800000000000)
    (run : Run sbrkStep (BreakInside h0.toNat) (m, h0) sizes t) :
    h0.toNat ≤ t.2.toNat ∧ t.2.toNat ≤ 0x800000000000 ∧ OutsideKept h0.toNat root m t.1 := by
  have holds := @Run.invariant _ _ _ _
    (fun s => (h0.toNat ≤ s.2.toNat ∧ s.2.toNat ≤ 0x800000000000) ∧
      BreakStep root (HeapPage h0.toNat) m s.1) ?_ _ _ _ run ⟨⟨Nat.le_refl _, bound⟩, .refl tables half⟩
  · exact ⟨holds.1.1, holds.1.2, holds.2.outside aligned bound⟩
  · rintro s size s' inside stepped ⟨bounds, soFar⟩
    obtain ⟨⟨result, newHeap, m'⟩, called, rfl⟩ := Option.map_eq_some_iff.mp stepped
    by_cases multiple : size &&& 0xFFF = 0
    · obtain ⟨newBounds, step⟩ := sysSbrk_break soFar.tables soFar.half
        (soFar.current.trans current) (inside multiple) bounds multiple called
      exact ⟨newBounds, soFar.trans step⟩
    · rw [sysSbrk, if_pos multiple] at called
      cases called
      exact ⟨bounds, soFar⟩

end

/-- The machine of the examples has an empty kernel half. -/
theorem onePageOf_kernelHalf (limit : Nat) (word : BitVec 64) :
    KernelHalf (onePageOf limit word) 1 := by
  have one := onePageOf_onePage limit word
  have missing : ∀ i p, IsKernel (i :: p) → tableAt (onePageOf limit word) 1 (i :: p) = none := by
    intro i p kernel
    induction p generalizing i with
    | nil =>
        refine tableAt_absent (p := []) rfl ?_
        rw [only_absent one.root]
        · rfl
        · rintro rfl
          exact absurd kernel (by decide : ¬ 256 ≤ (0 : Fin 512).val)
    | cons j p inductionHypothesis =>
        exact tableAt_none_of_suffix (inductionHypothesis j kernel) (List.suffix_cons _ _)
  intro p kernel t at_
  cases p with
  | nil => exact kernel.elim
  | cons i p =>
      rw [missing i p kernel] at at_
      cases at_

theorem sbrk_stays_in_heap_example : ∃ t,
    Run sbrkStep (BreakInside 0x1000) (onePage 2048, 0x1000) [0x1000] t ∧
      0x1000 ≤ t.2.toNat ∧ t.2.toNat ≤ 0x800000000000 ∧ OutsideKept 0x1000 1 (onePage 2048) t.1 := by
  have clean : CleanEntry (.ofWord (tableWord 5)) :=
    .of_user (by rw [pageWord_entry.1, pageWord_entry.2.1]; rfl)
  have one := onePage_onePage 2048
  have found : mmuLookupFrameFrom (onePage 2048) (onePage 2048).currentPml 0x1000 = some (4, 1) := by
    rw [mmuLookupFrameFrom_eq]
    exact congrArg (Option.map _) one.walk
  obtain ⟨t, stepped⟩ : ∃ t, sbrkStep (onePage 2048, 0x1000) 0x1000 = some t := by
    rw [sbrkStep, sysSbrk, if_neg (by decide), show sbrkPages 0x1000 0x1000 = 1 by decide, forRange,
      show sbrkAddress 0x1000 0 = 0x1000 by decide, sbrkPage, mmuLookupFrame_found found]
    exact ⟨_, rfl⟩
  have run := @Run.single _ _ _ (BreakInside 0x1000) _ _ _
    (fun _ => (by decide : inArea 0x1000 0x800000000000 0x1000 0x1000 = true)) stepped
  exact ⟨t, run, @sbrk_stays_in_heap _ _ 0x1000 _ _ (onePageOf_tables (by decide) (by decide) clean).1
    (onePageOf_kernelHalf 2048 _) rfl (by decide) (by decide) run⟩

/-- A process with a heap from 0x1000 and a shared, read-only page below it: one call with a negative size
takes the break below the heap, and a second one makes the page writable. -/
theorem sbrk_leaves_heap : Tables (onePageOf 2048 sharedWord) {1} ∧
    KernelHalf (onePageOf 2048 sharedWord) 1 ∧ ∃ middle t,
      Run sbrkStep (fun _ _ => True) (onePageOf 2048 sharedWord, 0x1000) [-0x1000] middle ∧
      middle.2.toNat < 0x1000 ∧
      Run sbrkStep (fun _ _ => True) (onePageOf 2048 sharedWord, 0x1000) [-0x1000, 0x1000] t ∧
      (PagemapEntry.ofWord (wordAt (onePageOf 2048 sharedWord) 1 (addrPath 0))).writable = false ∧
      (PagemapEntry.ofWord (wordAt t.1 1 (addrPath 0))).writable = true ∧
      (PagemapEntry.ofWord (wordAt t.1 1 (addrPath 0))).user = true := by
  obtain ⟨present, user, readonly, frame⟩ := Forked.page
  have one := onePageOf_onePage 2048 sharedWord
  have holds : (PagemapEntry.ofWord sharedWord).page ≠ 0 := by
    intro zero
    rw [zero] at frame
    cases frame
  have shrunk : sbrkStep (onePageOf 2048 sharedWord, 0x1000) (-0x1000) =
      some (onePageOf 2048 sharedWord, 0) := rfl
  obtain ⟨presentNew, userNew, writableNew, -⟩ := @flaggedEntry_user
    (.ofWord sharedWord) mmuFlagWritable (by decide) (by decide)
  obtain ⟨last, lastEq⟩ : ∃ last : Mmu, last = (onePageOf 2048 sharedWord).setEntry 4 0
      (flaggedEntry (.ofWord sharedWord) mmuFlagWritable) := ⟨_, rfl⟩
  have grown : sbrkStep (onePageOf 2048 sharedWord, 0) 0x1000 = some (last, 0x1000) := by
    rw [sbrkStep, sysSbrk, if_neg (by decide), show sbrkPages 0 0x1000 = 1 by decide, forRange,
      show sbrkAddress 0 0 = 0 by decide, sbrkPage_onePage one rfl holds, ← lastEq]
    rfl
  have walk : tableAt last 1 [0, 0, 0] = some 4 := by
    refine tableAt_links (by decide) fun f low high => ?_
    rw [lastEq, Mmu.setEntry, entry_congr (congrFun (setWord_phys_frame _ _ (by omega)) 0)]
    exact one.links f low high
  have before : wordAt (onePageOf 2048 sharedWord) 1 (addrPath 0) = sharedWord :=
    wordAt_cons (i := 0) one.walk
  have after : PagemapEntry.ofWord (wordAt last 1 (addrPath 0)) =
      flaggedEntry (.ofWord sharedWord) mmuFlagWritable := by
    rw [show wordAt last 1 (addrPath 0) = last.phys 4 0 from wordAt_cons (i := 0) walk]
    change last.entry 4 0 = _
    rw [lastEq, setEntry_entry_self]
  refine ⟨(onePageOf_tables (by decide) (by decide) (.of_user (by rw [present, user]; rfl))).1,
    onePageOf_kernelHalf 2048 _, _, (last, 0x1000), Run.single trivial shrunk, by decide,
    .head trivial shrunk (Run.single trivial grown), ?_, ?_, ?_⟩
  · rw [before, readonly]
  · rw [after, writableNew]
  · rw [after, userNew]

end Voxel.Proofs
