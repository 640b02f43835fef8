/-
Module: Voxel.Kernel.ProcessDelete
Layer: Kernel
Purpose: `process_delete` of `kernel/sys/process.c` and the functions of `kernel/lib/tree.c` that it
  calls for a node with a parent, with the blocks that they read, write and hand to `free`, in the order
  of the source. What they do to the tree is what `TreeHeap` has. A freed block keeps its bytes, so a
  read of it gives what was there. The frames of the stack and of the page directory are no blocks of
  the heap.
Trusted boundary: human-reviewed spec
Main exports: Traced, treeFreeNodesTraced, unlinkAccesses, treeRemoveBranchTraced,
  treeDestroyAndMergeTraced, ProcessRecord, processDeleteAccesses
-/
import Voxel.Lib.Ownership
import Voxel.Kernel.ProcessTree

namespace Voxel.Kernel

open Voxel.Lib

/-- What a call did to the blocks, which are given by their addresses, and the tree that it leaves. -/
abbrev Traced := Option (List (BlockAccess Nat) × TreeHeap)

/-- A call behind other accesses. -/
def Traced.after (earlier : List (BlockAccess Nat)) (call : Traced) : Traced :=
  call.map fun done => (earlier ++ done.1, done.2)

/-- `free`, which returns at once for a null pointer. -/
def freeAccess (block : Nat) : List (BlockAccess Nat) := if block = 0 then [] else [.free block]

namespace TreeHeap

mutual

/-- `tree_free_nodes`. -/
def treeFreeNodesTraced : Nat → Option Nat → TreeHeap → Traced
  | 0, _, _ => none
  | _ + 1, none, heap => some ([], heap)
  | fuel + 1, some tree, heap =>
      match treeFreeNodesLoopTraced fuel (heap.node tree).children heap with
      | none => none
      | some (accesses, freed) => some (.read tree :: accesses ++ [.free tree], freed.freeNode tree)

/-- The loop of `tree_free_nodes`. -/
def treeFreeNodesLoopTraced : Nat → Option Nat → TreeHeap → Traced
  | 0, _, _ => none
  | _ + 1, none, heap => some ([], heap)
  | fuel + 1, some child, heap =>
      let next := (heap.child child).next
      match treeFreeNodesTraced fuel (some (heap.child child).value) heap with
      | none => none
      | some (accesses, freed) =>
          (treeFreeNodesLoopTraced fuel next (freed.freeChild child)).after
            ([.read child, .read child] ++ accesses ++ [.free child])

end

/-- The loop of `tree_remove_branch` that looks for the link of `node`. -/
def findEntryAccesses (heap : TreeHeap) (node : Nat) : Nat → Option Nat → List (BlockAccess Nat)
  | 0, _ => []
  | _ + 1, none => []
  | fuel + 1, some entry =>
      .read entry ::
        if (heap.child entry).value = node then []
        else .read entry :: findEntryAccesses heap node fuel (heap.child entry).next

/-- Unlinking in `tree_remove_branch`. -/
def unlinkAccesses (node parent entry : Nat) (heap : TreeHeap) : List (BlockAccess Nat) :=
  (if (heap.node parent).children = some entry then [.read entry, .read node, .write parent] else []) ++
    .read entry ::
      (match (heap.child entry).prev with
        | some prev => [.read entry, .read entry, .write prev]
        | none => []) ++
    .read entry ::
      (match (heap.child entry).next with
        | some next => [.read entry, .read entry, .write next]
        | none => []) ++
    [.free entry]

/-- `tree_remove_branch`. -/
def treeRemoveBranchTraced (fuel : Nat) (node : Option Nat) (heap : TreeHeap) : Traced :=
  match node with
  | none => some ([], heap)
  | some node =>
      match (heap.node node).parent with
      | none => (treeFreeNodesTraced fuel (some node) heap).after [.read node]
      | some parent =>
          let searched :=
            [.read node, .read node, .read parent] ++
              findEntryAccesses heap node fuel (heap.node parent).children
          match findEntry heap node fuel (heap.node parent).children with
          | none => none
          | some none => (treeFreeNodesTraced fuel (some node) heap).after searched
          | some (some entry) =>
              (treeFreeNodesTraced fuel (some node) (heap.unlinkEntry parent entry)).after
                (searched ++ unlinkAccesses node parent entry heap)

/-- `tree_destroy_and_merge` of a node with a parent. Without one it calls `tree_destroy_branch`, and
there the trace ends. -/
def treeDestroyAndMergeTraced (fuel : Nat) (node : Option Nat) (heap : TreeHeap) : Traced :=
  match node with
  | none => some ([], heap)
  | some node =>
      match (heap.node node).parent with
      | none => none
      | some _ =>
          (treeRemoveBranchTraced fuel (some node) (heap.freeValue (heap.node node).value)).after
            ([.read node, .read node] ++ freeAccess (heap.node node).value)

end TreeHeap

/-- The pointers of a `process_t` to blocks that only it has. -/
structure ProcessRecord where
  name : Nat
  pwd : Nat
  fds : Nat
deriving Repr, DecidableEq

/-- What `process_delete` does behind the call of `tree_destroy_and_merge`: three strings and tables,
nine frames of the stack, the page directory, and the process itself. -/
def ProcessRecord.releaseAccesses (record : ProcessRecord) (process : Nat) : List (BlockAccess Nat) :=
  [.read process] ++ freeAccess record.name ++ [.read process] ++ freeAccess record.pwd ++
    [.read process] ++ freeAccess record.fds ++ List.replicate 9 (.read process) ++ [.read process] ++
    freeAccess process

namespace ProcessTable

/-- `process_delete`: the accesses to blocks, and the table without the process. -/
def processDeleteTraced (records : Nat → ProcessRecord) (fuel process : Nat) (table : ProcessTable) :
    Option (List (BlockAccess Nat) × ProcessTable) :=
  if process = 0 then some ([], table)
  else
    match (table.processes process).treeEntry with
    | none => some ([.read process], table)
    | some entry =>
        (table.heap.treeDestroyAndMergeTraced fuel (some entry)).map fun done =>
          ([.read process, .read process] ++ done.1 ++ (records process).releaseAccesses process,
            { table with heap := done.2.freeValue process })

end ProcessTable

end Voxel.Kernel
