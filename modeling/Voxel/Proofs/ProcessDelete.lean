/-
Module: Voxel.Proofs.ProcessDelete
Layer: Proofs
Purpose: What `process_delete` does to the blocks of a process. The tree function that it calls first
  already frees the value of the node, and that is the process: the pointers to the other blocks are
  read from a freed block, and the process is freed a second time.
Trusted boundary: none
Main exports: ownedBlocks, DeletesCleanly, process_delete_unclean
-/
import Voxel.Lib.Ownership
import Voxel.Kernel.ProcessDelete
import Voxel.Proofs.TreeRemoval

namespace Voxel.Proofs

open Voxel.Kernel
open Voxel.Lib
open Voxel.Kernel.TreeHeap

/-- The blocks that belong to a process: its record, what the record points to, its node of the tree and the
link of the node. -/
def ownedBlocks (record : ProcessRecord) (process entry link : Nat) : List Nat :=
  [process, record.name, record.pwd, record.fds, entry, link].filter (· ≠ 0)

/-- Every block is freed once, and none is read behind its `free`. -/
structure DeletesCleanly (owned : List Nat) (accesses : List (BlockAccess Nat)) : Prop where
  once : ∀ block ∈ owned, accesses.count (.free block) = 1
  readsLive : ReadsLive (fun _ => False) accesses

/-! ## The traces belong to the functions of the tree -/

theorem Traced.after_tree (earlier : List (BlockAccess Nat)) (call : Traced) :
    (call.after earlier).map Prod.snd = call.map Prod.snd := by
  cases call <;> rfl

mutual

theorem treeFreeNodesTraced_tree : ∀ (fuel : Nat) (tree : Option Nat) (heap : TreeHeap),
    (treeFreeNodesTraced fuel tree heap).map Prod.snd = treeFreeNodes fuel tree heap
  | 0, _, _ => by rw [treeFreeNodesTraced, treeFreeNodes]; rfl
  | _ + 1, none, _ => by rw [treeFreeNodesTraced, treeFreeNodes]; rfl
  | fuel + 1, some tree, heap => by
      rw [treeFreeNodesTraced, treeFreeNodes,
        ← treeFreeNodesLoopTraced_tree fuel (heap.node tree).children heap]
      cases treeFreeNodesLoopTraced fuel (heap.node tree).children heap <;> rfl

theorem treeFreeNodesLoopTraced_tree : ∀ (fuel : Nat) (child : Option Nat) (heap : TreeHeap),
    (treeFreeNodesLoopTraced fuel child heap).map Prod.snd = treeFreeNodesLoop fuel child heap
  | 0, _, _ => by rw [treeFreeNodesLoopTraced, treeFreeNodesLoop]; rfl
  | _ + 1, none, _ => by rw [treeFreeNodesLoopTraced, treeFreeNodesLoop]; rfl
  | fuel + 1, some child, heap => by
      rw [treeFreeNodesLoopTraced, treeFreeNodesLoop,
        ← treeFreeNodesTraced_tree fuel (some (heap.child child).value) heap]
      cases treeFreeNodesTraced fuel (some (heap.child child).value) heap with
      | none => rfl
      | some done =>
          dsimp only [Option.map_some]
          rw [Traced.after_tree, treeFreeNodesLoopTraced_tree]

end

theorem treeRemoveBranchTraced_tree (fuel : Nat) (node : Option Nat) (heap : TreeHeap) :
    (treeRemoveBranchTraced fuel node heap).map Prod.snd = heap.treeRemoveBranch fuel node := by
  unfold treeRemoveBranchTraced TreeHeap.treeRemoveBranch
  cases node with
  | none => rfl
  | some node =>
      dsimp only
      cases (heap.node node).parent with
      | none => rw [Traced.after_tree, treeFreeNodesTraced_tree]
      | some parent =>
          dsimp only
          cases findEntry heap node fuel (heap.node parent).children with
          | none => rfl
          | some entry =>
              cases entry with
              | none => rw [Traced.after_tree, treeFreeNodesTraced_tree]
              | some entry => rw [Traced.after_tree, treeFreeNodesTraced_tree]

/-- At a node with a parent the value of the node is freed, and then the node is removed. -/
theorem treeDestroyAndMergeTraced_spec {fuel node parent : Nat} {heap destroyed : TreeHeap}
    (isParent : (heap.node node).parent = some parent)
    (ran : heap.treeDestroyAndMerge fuel (some node) = some destroyed) :
    ∃ removal, heap.treeDestroyAndMergeTraced fuel (some node) =
      some ([.read node, .read node] ++ freeAccess (heap.node node).value ++ removal, destroyed) := by
  unfold TreeHeap.treeDestroyAndMerge at ran
  dsimp only at ran
  rw [isParent, ← treeRemoveBranchTraced_tree] at ran
  obtain ⟨⟨removal, _⟩, removed, rfl⟩ := Option.map_eq_some_iff.mp ran
  refine ⟨removal, ?_⟩
  unfold treeDestroyAndMergeTraced
  dsimp only
  rw [isParent, Traced.after, removed]
  rfl

/-! ## The process is freed first -/

/-- The last thing that `process_delete` does is to free the process. -/
theorem releaseAccesses_ends (record : ProcessRecord) {process : Nat} (nonzero : process ≠ 0) :
    record.releaseAccesses process =
      ([.read process] ++ freeAccess record.name ++ [.read process] ++ freeAccess record.pwd ++
        [.read process] ++ freeAccess record.fds ++ List.replicate 9 (.read process) ++ [.read process]) ++
        [.free process] := by
  rw [ProcessRecord.releaseAccesses, freeAccess, freeAccess, freeAccess, freeAccess, if_neg nonzero]

/-- `process_delete` returns for every process but the one of the root, whether or not the process has
children, and what it does to the blocks is never clean. -/
theorem process_delete_unclean {table : ProcessTable} {linkOf : Nat → Nat} {tree : Kernel.Tree}
    {process entry : Nat} (inv : TableHolds table linkOf tree) (member : (entry, process) ∈ tree.nodes)
    (notRoot : entry ≠ tree.entry) (records : Nat → ProcessRecord) :
    ∃ enough, ∀ fuel, enough ≤ fuel → ∃ accesses after,
      table.processDeleteTraced records fuel process = some (accesses, after) ∧
      table.processDelete fuel process = some after ∧
      ¬ DeletesCleanly (ownedBlocks (records process) process entry (linkOf entry)) accesses := by
  obtain ⟨nonzero, -, isEntry⟩ := inv.stored _ member
  obtain ⟨child, childMember, same⟩ := mem_nodes.mp member
  obtain ⟨rfl, rfl⟩ := Prod.mk.inj same
  obtain ⟨destroyed, ⟨enough, destroys⟩, -, -⟩ := inv.holds.destroy childMember notRoot
  have value := (inv.holds.inHeap child childMember).value
  have parent : ∃ parent, (table.heap.node child.entry).parent = some parent := by
    rcases subtree_child childMember with rfl | ⟨list, listMember, isChild⟩
    · exact absurd rfl notRoot
    · exact ⟨list.entry, (inv.holds.inHeap list listMember).parent _ (child_mem_kids isChild)⟩
  obtain ⟨parent, isParent⟩ := parent
  refine ⟨enough, fun fuel larger => ?_⟩
  have destroy := destroys fuel larger
  obtain ⟨removal, traced⟩ := treeDestroyAndMergeTraced_spec isParent destroy
  rw [value, freeAccess, if_neg nonzero] at traced
  refine ⟨[.read child.value, .read child.value] ++
      ([.read child.entry, .read child.entry] ++ [.free child.value] ++ removal) ++
      (records child.value).releaseAccesses child.value,
    { table with heap := destroyed.freeValue child.value }, ?_, ?_, ?_⟩
  · rw [ProcessTable.processDeleteTraced, if_neg nonzero]
    dsimp only at isEntry
    rw [isEntry]
    dsimp only
    rw [traced, Option.map_some]
  · rw [ProcessTable.processDelete, if_neg nonzero]
    dsimp only at isEntry destroy
    rw [isEntry]
    dsimp only
    rw [destroy]
  · intro clean
    have once := clean.once child.value
      (List.mem_filter.mpr ⟨List.mem_cons_self, decide_eq_true nonzero⟩)
    -- One `free` is that of the value of the node, the other one is the last step.
    rw [List.count_append, List.count_append, List.count_append, List.count_append,
      releaseAccesses_ends (records child.value) nonzero, List.count_append,
      List.count_singleton_self] at once
    omega

/-- The process table in which `init` has forked the process 20, and the record of this process. -/
def forkedTable : ProcessTable := (processTreeInit 1 10).spawnProcess 10 20 2 101

def forkedRecord : ProcessRecord := { name := 31, pwd := 32, fds := 33 }

theorem forkedTable_holds : ∃ linkOf tree, TableHolds forkedTable linkOf tree := by
  have sound : TableSound forkedTable :=
    @TableSound.step 0 (processTreeInit 1 10) _ (.fork 10 20 2 101) (TableSound.init (by decide))
      (fun process isDelete => by cases isDelete) rfl
  refine sound.resolve_right fun none => ?_
  have alive : forkedTable.heap.liveValue 20 = true := by decide
  rw [none 20] at alive
  cases alive

/-- The forked process is deleted. -/
theorem process_delete_unclean_example : ∃ linkOf tree enough, TableHolds forkedTable linkOf tree ∧
    ∀ fuel, enough ≤ fuel → ∃ accesses after,
      forkedTable.processDeleteTraced (fun _ => forkedRecord) fuel 20 = some (accesses, after) ∧
      forkedTable.processDelete fuel 20 = some after ∧
      ¬ DeletesCleanly (ownedBlocks forkedRecord 20 2 (linkOf 2)) accesses := by
  obtain ⟨linkOf, tree, inv⟩ := forkedTable_holds
  obtain ⟨entry, member⟩ := inv.alive 20 (by decide)
  obtain ⟨-, -, isEntry⟩ := inv.stored _ member
  have ownEntry : (forkedTable.processes 20).treeEntry = some 2 := by decide
  obtain rfl : 2 = entry := Option.some.inj (ownEntry.symm.trans isEntry)
  have notRoot : 2 ≠ tree.entry := by
    rw [inv.root]
    decide
  obtain ⟨enough, deletes⟩ := process_delete_unclean inv member notRoot fun _ => forkedRecord
  exact ⟨linkOf, tree, enough, inv, deletes⟩

/-- The record of the forked process goes to `free` twice, and the pointer to its name is read between. -/
theorem process_delete_frees_twice : ∃ accesses after,
    forkedTable.processDeleteTraced (fun _ => forkedRecord) 9 20 = some (accesses, after) ∧
    accesses.count (.free 20) = 2 ∧ ¬ ReadsLive (fun _ => False) accesses ∧
    ¬ DeletesCleanly (ownedBlocks forkedRecord 20 2 101) accesses := by
  have deleted : ∃ after, forkedTable.processDeleteTraced (fun _ => forkedRecord) 9 20 =
      some ([.read 20, .read 20, .read 2, .read 2, .free 20, .read 2, .read 2, .read 1, .read 101,
        .read 101,
        .read 2, .write 1, .read 101, .read 101, .free 101, .read 2, .free 2] ++
        forkedRecord.releaseAccesses 20, after) := ⟨_, rfl⟩
  obtain ⟨after, deleted⟩ := deleted
  have twice : List.count (.free 20) ([.read 20, .read 20, .read 2, .read 2, .free 20, .read 2, .read 2,
        .read 1, .read 101, .read 101, .read 2, .write 1, .read 101, .read 101, .free 101, .read 2,
        .free 2] ++
        forkedRecord.releaseAccesses 20) = 2 := by decide
  refine ⟨_, after, deleted, twice, ?_, fun clean => ?_⟩
  · rw [ReadsLive.append_iff]
    rintro ⟨-, live, -⟩
    exact live 20 rfl (by simp [freedAfter, BlockAccess.freed])
  · have once := clean.once 20 (by decide)
    rw [twice] at once
    cases once

end Voxel.Proofs
