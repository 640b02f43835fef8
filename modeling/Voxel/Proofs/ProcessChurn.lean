/-
Module: Voxel.Proofs.ProcessChurn
Layer: Proofs
Purpose: A child that is forked, exits and is reaped costs the nine frames of its kernel stack:
  `process_delete` releases them by their addresses in the direct map, which name no frame.
Trusted boundary: none
Main exports: spawnProcess_holding, churn_keeps_stack, process_churn_leaks
-/
import Voxel.Proofs.CloneThenFree
import Voxel.Proofs.HeldBlocks

namespace Voxel.Proofs

open Voxel.Kernel
open Voxel.Lib

/-- The copies of the nodes of a descriptor table. -/
theorem mallocNodes_holding : ∀ {nodes : List Bool} {m : FrameMap}
    {result : List (Option HeapBlock) × FrameMap}, mallocNodes m nodes = some result →
      Holding result.1.reduceOption m result.2 := by
  intro nodes
  induction nodes with
  | nil =>
      intro m result allocated
      cases allocated
      exact Holding.refl m
  | cons node nodes inductionHypothesis =>
      intro m result allocated
      obtain ⟨copied, first, second⟩ := Option.bind_eq_some_iff.mp allocated
      obtain ⟨rest, others, rfl⟩ := Option.map_eq_some_iff.mp second
      have both := (mallocIf_holding first).trans (inductionHypothesis others)
      cases block : copied.1 with
      | none => simpa [block] using both
      | some held => simpa [block] using both

/-! ## The kernel stack -/

section

variable {m m' : FrameMap}

@[simp] theorem lockStack_nFrames (stack : BitVec 64) (count : Nat) (m : FrameMap) :
    (lockStack stack count m).nFrames = m.nFrames := by
  induction count with
  | zero => rfl
  | succ count inductionHypothesis => rw [lockStack, lockAddress_nFrames, inductionHypothesis]

theorem lockStack_locked_iff (stack : BitVec 64) (count : Nat) (m : FrameMap) (f : Nat) :
    (lockStack stack count m).locked f = true ↔
      m.locked f = true ∨ f < m.nFrames ∧
        ∃ i < count, (stack - BitVec.ofNat 64 (0x1000 * (i + 1))).toNat / 4096 = f := by
  induction count with
  | zero => simp [lockStack]
  | succ count inductionHypothesis =>
      rw [lockStack, lockAddress, mmuLockFrame_locked_iff, inductionHypothesis, lockStack_nFrames]
      constructor
      · rintro ((before | ⟨inside, i, early, place⟩) | ⟨inside, place⟩)
        · exact Or.inl before
        · exact Or.inr ⟨inside, i, by omega, place⟩
        · exact Or.inr ⟨inside, count, by omega, place⟩
      · rintro (before | ⟨inside, i, early, place⟩)
        · exact Or.inl (Or.inl before)
        · by_cases last : i = count
          · exact Or.inr ⟨inside, last ▸ place⟩
          · exact Or.inl (Or.inr ⟨inside, i, by omega, place⟩)

/-- The rounds go down from the last frame. -/
theorem stackRound_frame {first i : Nat} (small : first < 2 ^ 28) (early : i < 9) :
    ((BitVec.ofNat 64 first <<< 12) + 0x9000 - BitVec.ofNat 64 (0x1000 * (i + 1))).toNat / 4096 =
      first + (8 - i) := by
  have size : (0x9000 : BitVec 64).toNat = 0x9000 := rfl
  rw [BitVec.toNat_sub, BitVec.toNat_add, size, BitVec.toNat_shiftLeft, BitVec.toNat_ofNat,
    BitVec.toNat_ofNat, Nat.shiftLeft_eq]
  omega

/-- The nine frames of a stack. -/
def stackBlock (first : Nat) : HeapBlock := ⟨first, 9⟩

/-- The stack is nine frames in a row that were free; its address is in the direct map. -/
theorem requestStack_holding (small : m.nFrames ≤ 2 ^ 28) {result : BitVec 64 × FrameMap}
    (requested : requestStack m = some result) :
    ∃ first, Holding [stackBlock first] m result.2 ∧ highMapRegion.toNat ≤ result.1.toNat := by
  obtain ⟨first, search, same⟩ := Option.map_eq_some_iff.mp requested
  have run := mmuRequestFrames_spec search
  have bound := (run 0 (by decide)).2
  have inRun : ∀ f, (stackBlock first).Holds f → m.locked f = false ∧ f < m.nFrames := by
    rintro f ⟨low, high⟩
    change first ≤ f at low
    change f < first + 9 at high
    have free := run (f - first) (by omega)
    rwa [Nat.add_sub_cancel' low] at free
  rw [← same]
  refine ⟨first, ⟨lockStack_nFrames _ _ _, fun f => ?_, fun block member => ?_,
    List.pairwise_singleton _ _⟩, ?_⟩
  · simp only [List.mem_singleton, exists_eq_left]
    rw [lockStack_locked_iff]
    refine or_congr_right ⟨?_, fun holds => ⟨(inRun f holds).2, 8 - (f - first), by omega, ?_⟩⟩
    · rintro ⟨-, i, early, rfl⟩
      rw [stackRound_frame (by omega) early]
      constructor
      · exact Nat.le_add_right _ _
      · change first + (8 - i) < first + 9
        omega
    · obtain ⟨low, high⟩ := holds
      change first ≤ f at low
      change f < first + 9 at high
      rw [stackRound_frame (by omega) (by omega)]
      omega
  · rw [List.mem_singleton.mp member]
    exact inRun
  · rw [BitVec.toNat_or]
    exact Nat.right_le_or

/-- An address of the direct map names no frame. -/
theorem releaseStack_eq (small : m.nFrames ≤ 2 ^ 28) {stack : BitVec 64}
    (direct : highMapRegion.toNat ≤ stack.toNat) :
    ∀ {count : Nat}, count ≤ 9 → releaseStack stack count m = m := by
  intro count
  induction count with
  | zero => exact fun _ => rfl
  | succ count inductionHypothesis =>
      intro few
      rw [releaseStack, inductionHypothesis (by omega), releaseAddress, mmuReleaseFrame, if_neg]
      have high : highMapRegion.toNat = 0xFFFFFF8000000000 := rfl
      have bound := stack.isLt
      rw [BitVec.toNat_sub, BitVec.toNat_ofNat]
      omega

end

/-! ## The new process -/

/-- The blocks of a process. -/
def blocksOf (p : ProcessMemory) : List HeapBlock :=
  [p.process] ++ p.name.toList ++
    (p.pwd.toList ++ p.pwdNode.toList ++ [p.fds] ++ p.fdNodes.reduceOption ++ [p.treeEntry] ++
      p.treeChild.toList)

/-- A process that was spawned holds its stack and its blocks. -/
theorem spawnProcess_holding {m m' : FrameMap} (small : m.nFrames ≤ 2 ^ 28) {parent : ForkParent}
    {pageDirectory : Nat} {p : ProcessMemory}
    (spawned : ProcessMemory.spawnProcess m parent pageDirectory = some (p, m')) :
    p.pageDirectory = pageDirectory ∧ highMapRegion.toNat ≤ p.stack.toNat ∧
      ∃ first, Holding (stackBlock first :: blocksOf p) m m' := by
  unfold ProcessMemory.spawnProcess at spawned
  simp only [Option.bind_eq_bind, Option.bind_eq_some_iff, Option.some.injEq, Prod.mk.injEq] at spawned
  obtain ⟨process, processFound, name, nameFound, stack, stackFound, pwd, pwdFound, pwdNode, pwdNodeFound,
    fds, fdsFound, fdNodes, fdNodesFound, treeEntry, treeEntryFound, treeChild, treeChildFound, rfl, rfl⟩ :=
    spawned
  have before := (malloc_holding processFound).trans (mallocIf_holding nameFound)
  obtain ⟨first, during, direct⟩ := requestStack_holding (by rw [before.nFrames]; exact small) stackFound
  have after := (((((mallocIf_holding pwdFound).trans (mallocIf_holding pwdNodeFound)).trans
    (malloc_holding fdsFound)).trans (mallocNodes_holding fdNodesFound)).trans
    (malloc_holding treeEntryFound)).trans (mallocIf_holding treeChildFound)
  refine ⟨rfl, direct, first, ((before.trans during).trans after).perm ?_⟩
  exact (List.perm_append_singleton _ _).append_right _

/-! ## The way back -/

section

variable {m m' : FrameMap} {p : ProcessMemory} {f : Nat}

theorem freeIf_of_not_mem (m : FrameMap) {b : Option HeapBlock}
    (outside : ∀ block ∈ b.toList, ¬ block.Holds f) :
    (freeIf m b).locked f = m.locked f ∧ (freeIf m b).nFrames = m.nFrames := by
  cases b with
  | none => exact ⟨rfl, rfl⟩
  | some block => exact ⟨free_of_not_mem m (outside block (by simp)), free_nFrames m block⟩

theorem freeEach_of_not_mem : ∀ {bs : List (Option HeapBlock)} (m : FrameMap),
    (∀ block ∈ bs.reduceOption, ¬ block.Holds f) →
      (bs.foldl freeIf m).locked f = m.locked f ∧ (bs.foldl freeIf m).nFrames = m.nFrames := by
  intro bs
  induction bs with
  | nil => exact fun _ _ => ⟨rfl, rfl⟩
  | cons b bs inductionHypothesis =>
      intro m outside
      have here := @freeIf_of_not_mem _ m b fun block member => outside block (by
        rw [List.reduceOption_mem_iff, ← Option.mem_toList.mp member]
        exact List.mem_cons_self)
      have there := inductionHypothesis (freeIf m b) fun block member => outside block (by
        rw [List.reduceOption_mem_iff] at member ⊢
        exact List.mem_cons_of_mem _ member)
      exact ⟨there.1.trans here.1, there.2.trans here.2⟩

/-- `process_exit` releases blocks of the process. -/
theorem processExit_of_not_mem (m : FrameMap) (outside : ∀ block ∈ blocksOf p, ¬ block.Holds f) :
    (ProcessMemory.processExit m p).2.locked f = m.locked f ∧
      (ProcessMemory.processExit m p).2.nFrames = m.nFrames := by
  refine freeEach_of_not_mem m fun block member => outside block ?_
  have held : block ∈ p.fdNodes.reduceOption := by
    rw [List.reduceOption_mem_iff] at member ⊢
    exact List.mem_of_mem_take member
  simp [blocksOf, held]

/-- What `process_delete` frees before the directory. -/
def deletedFrames (m : FrameMap) (p : ProcessMemory) : FrameMap :=
  free (freeIf (freeIf (ProcessMemory.treeDestroy m p) p.name) p.pwd) p.fds

theorem deletedFrames_of_not_mem (m : FrameMap) (outside : ∀ block ∈ blocksOf p, ¬ block.Holds f) :
    (deletedFrames m p).locked f = m.locked f ∧ (deletedFrames m p).nFrames = m.nFrames := by
  have process : ¬ p.process.Holds f := outside _ (by simp [blocksOf])
  have treeEntry : ¬ p.treeEntry.Holds f := outside _ (by simp [blocksOf])
  have fds : ¬ p.fds.Holds f := outside _ (by simp [blocksOf])
  have treeChild := @freeIf_of_not_mem _ (free m p.process) p.treeChild fun block member =>
    outside block (by simp [blocksOf, Option.mem_toList.mp member])
  have name := @freeIf_of_not_mem _ (ProcessMemory.treeDestroy m p) p.name fun block member =>
    outside block (by simp [blocksOf, Option.mem_toList.mp member])
  have pwd := @freeIf_of_not_mem _ (freeIf (ProcessMemory.treeDestroy m p) p.name) p.pwd
    fun block member => outside block (by simp [blocksOf, Option.mem_toList.mp member])
  constructor
  · rw [deletedFrames, free_of_not_mem _ fds, pwd.1, name.1, ProcessMemory.treeDestroy,
      free_of_not_mem _ treeEntry, treeChild.1, free_of_not_mem _ process]
  · rw [deletedFrames, free_nFrames, pwd.2, name.2, ProcessMemory.treeDestroy, free_nFrames, treeChild.2,
      free_nFrames]

end

section

variable {m m' : Mmu} {live : Set Nat} {parent : ForkParent}

/-- `mmu_clone` releases nothing. -/
theorem mmuClone_keeps {parent child : Nat} (cloned : mmuClone m (some parent) = some (child, m')) {f : Nat}
    (locked : m.frames.locked f = true) : m'.frames.locked f = true := by
  unfold mmuClone at cloned
  dsimp only [Option.getD_some] at cloned
  split at cloned
  · cases cloned
  rename_i newPage requested requestedEq
  obtain ⟨last, looped, result⟩ := Option.map_eq_some_iff.mp cloned
  cases result
  rw [← cloneRoot] at looped
  refine (cloneTable_marked 3 looped).locks f ?_
  rw [(requestFrame_rooted parent requestedEq).locks]
  by_cases same : f = child
  · rw [same, Function.update_self]
  · rwa [Function.update_of_ne same]

/-- Tables whose frames stay locked. -/
theorem Tables.relock {frames : FrameMap} (tables : Tables m live)
    (nFrames : frames.nFrames = m.frames.nFrames)
    (locks : ∀ f, m.frames.locked f = true → frames.locked f = true) :
    Tables { m with frames := frames } live :=
  tables.congr nFrames (locks 0 tables.zero) (fun t isTable => locks t (tables.locked t isTable).1)
    (fun _ _ _ _ _ _ _ => rfl) tables.clean

/-- The frames of the kernel stack were free before the fork and stay in use. -/
theorem churn_keeps_stack (spaces : AddressSpaces True m live) (member : parent.pageDirectory ∈ live)
    (notFull : ∀ f, m.memRefcounts f ≠ 255) (churned : ProcessMemory.churn m parent = some m') :
    ∃ first, ∀ i < 9, m.frames.locked (first + i) = false ∧ m'.frames.locked (first + i) = true := by
  unfold ProcessMemory.churn ProcessMemory.fork at churned
  simp only [Option.bind_eq_bind, Option.bind_eq_some_iff, Option.some.injEq] at churned
  obtain ⟨forked, ⟨⟨child, clone⟩, cloned, ⟨p, frames⟩, spawned, rfl⟩, rfl⟩ := churned
  dsimp only at spawned
  have unsaturated : Unsaturated m parent.pageDirectory fun _ => True := fun _ _ _ _ _ _ => notFull _
  have spec := mmuClone_spec spaces member unsaturated cloned
  have small := spec.spaces.tables.small
  obtain ⟨directory, direct, first, holding⟩ := spawnProcess_holding small spawned
  refine ⟨first, fun i inside => ?_⟩
  have isStack : (stackBlock first).Holds (first + i) := ⟨Nat.le_add_right _ _, Nat.add_lt_add_left inside _⟩
  have stackFree : clone.frames.locked (first + i) = false :=
    (holding.fresh _ List.mem_cons_self _ isStack).1
  have outside : ∀ block ∈ blocksOf p, ¬ block.Holds (first + i) :=
    fun block isBlock => (List.pairwise_cons.mp holding.apart).1 block isBlock _ isStack
  refine ⟨?_, ?_⟩
  · by_contra locked
    have still := mmuClone_keeps cloned (by simpa using locked)
    rw [stackFree] at still
    cases still
  -- what no block holds is as it was after the fork, up to the release of the directory
  have deleted : ∀ f, (∀ block ∈ blocksOf p, ¬ block.Holds f) →
      (deletedFrames (ProcessMemory.processExit frames p).2 p).locked f = frames.locked f := by
    intro f outside
    rw [(deletedFrames_of_not_mem _ outside).1, (processExit_of_not_mem _ outside).1]
  have nFrames : (deletedFrames (ProcessMemory.processExit frames p).2 p).nFrames = clone.frames.nFrames := by
    rw [(deletedFrames_of_not_mem _ outside).2, (processExit_of_not_mem _ outside).2, holding.nFrames]
  have tables := spec.spaces.tables.relock nFrames fun f locked => by
    rw [deleted f fun block isBlock holds => ?_]
    · exact holding.keeps locked
    · rw [(holding.fresh block (List.mem_cons_of_mem _ isBlock) f holds).1] at locked
      cases locked
  have walks := @walks_of_phys clone { clone with
    frames := deletedFrames (ProcessMemory.processExit frames p).2 p } rfl child
  have given := mmuFree_givenBack tables (Set.mem_insert child live)
  have released : releaseStack p.stack 9 (deletedFrames (ProcessMemory.processExit frames p).2 p) =
      deletedFrames (ProcessMemory.processExit frames p).2 p :=
    releaseStack_eq (by rw [nFrames]; exact small) direct (Nat.le_refl 9)
  change (free (mmuFree { clone with
    frames := releaseStack p.stack 9 (deletedFrames (ProcessMemory.processExit frames p).2 p) }
      (some p.pageDirectory)).frames p.process).locked (first + i) = true
  rw [released, directory, free_of_not_mem _ (outside _ (by simp [blocksOf]))]
  refine given.others (first + i) ?_ (fun q user _ at_ => ?_) fun v page _ at_ => ?_
  · dsimp only
    rw [deleted _ outside]
    exact holding.holds_locked List.mem_cons_self isStack
  · -- a table of the child was in use before its stack was
    rw [(walks q).1] at at_
    have locked := (spec.spaces.tables.locked _ ⟨child, Set.mem_insert _ _, q, user, at_⟩).1
    rw [stackFree] at locked
    cases locked
  · rw [frameAt, (walks v).2.1] at at_
    obtain ⟨e, maps, place⟩ := Option.map_eq_some_iff.mp at_
    have locked := (spec.spaces.mapped _ _ (pagesOf_of_page (Set.mem_insert _ _) page maps)).1
    rw [mappingOf, place, stackFree] at locked
    cases locked

/-- For no parent the bitmap is what it was before the fork: the nine frames of the kernel stack of the child
are in use, and were free. -/
theorem process_churn_leaks (spaces : AddressSpaces True m live) (member : parent.pageDirectory ∈ live)
    (notFull : ∀ f, m.memRefcounts f ≠ 255) (churned : ProcessMemory.churn m parent = some m') :
    ¬ (∀ f, m'.frames.locked f = m.frames.locked f) ∧
      ∃ first, ∀ i < 9, m.frames.locked (first + i) = false ∧ m'.frames.locked (first + i) = true := by
  obtain ⟨first, stack⟩ := churn_keeps_stack spaces member notFull churned
  refine ⟨fun same => ?_, first, stack⟩
  obtain ⟨free, locked⟩ := stack 0 (by decide)
  rw [same, free] at locked
  cases locked

end

/-! ## A shell that starts a child -/

/-- A process with its strings, a working directory and two open descriptors. -/
def shell : ForkParent where
  name := some [115, 104]
  pwd := some [47]
  pwdNode := true
  fds := [true, true, false, false]
  fdLength := 2
  treeEntry := true
  pageDirectory := 1

theorem onePage_spaces : AddressSpaces True (onePage 2048) {1} :=
  PrivateStart.spaces (onePage_start (by decide) (by decide)) True

theorem shell_live : shell.pageDirectory ∈ ({1} : Set Nat) := rfl

theorem onePage_counts (f : Nat) : (onePage 2048).memRefcounts f ≠ 255 := (by decide : (0 : BitVec 8) ≠ 255)

/-- The frames suffice for the child. -/
theorem shell_churn : ∃ m', ProcessMemory.churn (onePage 2048) shell = some m' := by
  obtain ⟨clone, cloned, forked, -⟩ := fork_first
  have spawns : (ProcessMemory.spawnProcess (usedBelow 2048 10) shell 6).isSome = true := by decide +kernel
  obtain ⟨spawned, found⟩ := Option.isSome_iff_exists.mp spawns
  have made : ProcessMemory.fork (onePage 2048) shell =
      some (spawned.1, { clone with frames := spawned.2 }) := by
    rw [ProcessMemory.fork, show shell.pageDirectory = 1 from rfl, cloned]
    simp only [Option.bind_eq_bind, Option.bind_some, forked.frames, Nat.mul_one, Nat.reduceAdd, found]
  rw [ProcessMemory.churn, made]
  exact ⟨_, rfl⟩

/-- A child of the shell that exits at once: the bitmap has changed. -/
theorem process_churn_leaks_stack :
    AddressSpaces True (onePage 2048) {1} ∧ (∀ f, (onePage 2048).memRefcounts f ≠ 255) ∧
    ∃ m', ProcessMemory.churn (onePage 2048) shell = some m' ∧
      ¬ ∀ f, m'.frames.locked f = (onePage 2048).frames.locked f := by
  obtain ⟨m', churned⟩ := shell_churn
  obtain ⟨first, stack⟩ := churn_keeps_stack onePage_spaces shell_live onePage_counts churned
  refine ⟨onePage_spaces, onePage_counts, m', churned, fun same => ?_⟩
  obtain ⟨free, locked⟩ := stack 0 (by decide)
  rw [same, free] at locked
  cases locked

theorem process_churn_leaks_example : ∃ m', ProcessMemory.churn (onePage 2048) shell = some m' ∧
    ¬ (∀ f, m'.frames.locked f = (onePage 2048).frames.locked f) ∧
    ∃ first, ∀ i < 9, (onePage 2048).frames.locked (first + i) = false ∧
      m'.frames.locked (first + i) = true := by
  obtain ⟨m', churned⟩ := shell_churn
  exact ⟨m', churned, process_churn_leaks onePage_spaces shell_live onePage_counts churned⟩

end Voxel.Proofs
