/-
Module: Voxel.Kernel.TreeFrees
Layer: Kernel
Purpose: The blocks that `kernel/lib/tree.c` hands to `free`, in the order of the calls: those of
  `tree_free_nodes`, `tree_free_values`, `tree_free`, `tree_remove_branch` and `tree_destroy_branch`. The
  functions on the memory mark blocks as free, so that a second `free` of a block cannot be seen in it.
Trusted boundary: human-reviewed spec
Main exports: TreeBlock, TreeHeap.freeAll, TreeHeap.treeFree, TreeHeap.treeFreeNodesCalls,
  TreeHeap.treeFreeValuesCalls, TreeHeap.treeFreeCalls, TreeHeap.treeDestroyBranchCalls
-/
import Voxel.Kernel.ProcessTree

namespace Voxel.Kernel

/-- A block that a tree owns: a node, a child link or a stored value, by its address. -/
inductive TreeBlock where
  | node (tree : Nat)
  | child (child : Nat)
  | value (value : Nat)
  deriving Repr, DecidableEq

namespace TreeHeap

/-- `free` of a block. -/
def freeBlock (heap : TreeHeap) : TreeBlock → TreeHeap
  | .node tree => heap.freeNode tree
  | .child child => heap.freeChild child
  | .value value => heap.freeValue value

/-- The calls of `free`, one after the other. -/
def freeAll (heap : TreeHeap) (calls : List TreeBlock) : TreeHeap := calls.foldl freeBlock heap

/-- `tree_free`. -/
def treeFree (fuel : Nat) (tree : Option Nat) (heap : TreeHeap) : Option TreeHeap :=
  match tree with
  | none => some heap
  | some tree =>
      match treeFreeValues fuel (some tree) heap with
      | none => none
      | some freed => treeFreeNodes fuel (some tree) freed

/-! ## The calls of `free` -/

mutual

/-- The calls of `tree_free_nodes`. -/
def treeFreeNodesCalls (heap : TreeHeap) : Nat → Option Nat → Option (List TreeBlock)
  | 0, _ => none
  | _ + 1, none => some []
  | fuel + 1, some tree =>
      (treeFreeNodesLoopCalls heap fuel (heap.node tree).children).map (· ++ [.node tree])

/-- The calls of its loop. -/
def treeFreeNodesLoopCalls (heap : TreeHeap) : Nat → Option Nat → Option (List TreeBlock)
  | 0, _ => none
  | _ + 1, none => some []
  | fuel + 1, some child =>
      match treeFreeNodesCalls heap fuel (some (heap.child child).value) with
      | none => none
      | some below =>
          (treeFreeNodesLoopCalls heap fuel (heap.child child).next).map (below ++ .child child :: ·)

end

mutual

/-- The calls of `tree_free_values`. -/
def treeFreeValuesCalls (heap : TreeHeap) : Nat → Option Nat → Option (List TreeBlock)
  | 0, _ => none
  | _ + 1, none => some []
  | fuel + 1, some tree =>
      (treeFreeValuesLoopCalls heap fuel tree (heap.node tree).children).map
        (· ++ [.value (heap.node tree).value])

/-- The calls of its loop. -/
def treeFreeValuesLoopCalls (heap : TreeHeap) : Nat → Nat → Option Nat → Option (List TreeBlock)
  | 0, _, _ => none
  | _ + 1, _, none => some []
  | fuel + 1, tree, some child =>
      match treeFreeValuesCalls heap fuel (some tree) with
      | none => none
      | some values => (treeFreeValuesLoopCalls heap fuel tree (heap.child child).next).map (values ++ ·)

end

/-- The calls of `tree_free`. -/
def treeFreeCalls (heap : TreeHeap) (fuel : Nat) : Option Nat → Option (List TreeBlock)
  | none => some []
  | some tree =>
      match heap.treeFreeValuesCalls fuel (some tree) with
      | none => none
      | some values => (heap.treeFreeNodesCalls fuel (some tree)).map (values ++ ·)

/-- The calls of `tree_remove_branch`. -/
def treeRemoveBranchCalls (heap : TreeHeap) (fuel : Nat) : Option Nat → Option (List TreeBlock)
  | none => some []
  | some node =>
      match (heap.node node).parent with
      | none => heap.treeFreeNodesCalls fuel (some node)
      | some parent =>
          match findEntry heap node fuel (heap.node parent).children with
          | none => none
          | some none => heap.treeFreeNodesCalls fuel (some node)
          | some (some entry) =>
              ((heap.unlinkEntry parent entry).treeFreeNodesCalls fuel (some node)).map (.child entry :: ·)

/-- The calls of `tree_destroy_branch`. -/
def treeDestroyBranchCalls (heap : TreeHeap) (fuel : Nat) : Option Nat → Option (List TreeBlock)
  | none => some []
  | some node =>
      match heap.treeFreeValuesCalls fuel (some node) with
      | none => none
      | some values => (heap.treeRemoveBranchCalls fuel (some node)).map (values ++ ·)

end TreeHeap

end Voxel.Kernel
