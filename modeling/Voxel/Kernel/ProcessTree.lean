/-
Module: Voxel.Kernel.ProcessTree
Layer: Kernel
Purpose: `kernel/lib/tree.c` on the memory it works on, and the process table that `spawn_process`,
  `process_delete` and `get_process` keep on it. A node is a `tree_t` with a doubly linked list of
  `tree_child` blocks; every function follows and writes the pointers in the order of the source.
  `free` leaves the bytes of a block as they are. The recursions carry fuel.
Trusted boundary: human-reviewed spec
Main exports: TreeHeap, TreeHeap.treeFind, TreeHeap.treeInsertValue, TreeHeap.treeRemoveBranch,
  TreeHeap.treeRemoveAndMerge, TreeHeap.treeDestroyAndMerge, ProcessTable, TableOp, tableStep
-/
import Mathlib.Logic.Function.Basic

namespace Voxel.Kernel

/-- `struct tree_child`. A null pointer is `none`. -/
structure TreeChild where
  next : Option Nat
  prev : Option Nat
  value : Nat
deriving Repr, Inhabited, DecidableEq

/-- `tree_t`. The stored `value` is 0 when it is null. -/
structure TreeNode where
  children : Option Nat
  parent : Option Nat
  value : Nat
deriving Repr, Inhabited, DecidableEq

/-- The nodes, the child links and the stored values by their addresses, and which of these blocks
are allocated. -/
structure TreeHeap where
  node : Nat → TreeNode
  child : Nat → TreeChild
  liveNode : Nat → Bool
  liveChild : Nat → Bool
  liveValue : Nat → Bool

namespace TreeHeap

/-- Overwrite the node at `tree`. -/
def setNode (heap : TreeHeap) (tree : Nat) (change : TreeNode → TreeNode) : TreeHeap :=
  { heap with node := Function.update heap.node tree (change (heap.node tree)) }

/-- Overwrite the child link at `child`. -/
def setChild (heap : TreeHeap) (child : Nat) (change : TreeChild → TreeChild) : TreeHeap :=
  { heap with child := Function.update heap.child child (change (heap.child child)) }

/-- `free` of a node, of a child link and of a stored value. -/
def freeNode (heap : TreeHeap) (tree : Nat) : TreeHeap :=
  { heap with liveNode := Function.update heap.liveNode tree false }

def freeChild (heap : TreeHeap) (child : Nat) : TreeHeap :=
  { heap with liveChild := Function.update heap.liveChild child false }

def freeValue (heap : TreeHeap) (value : Nat) : TreeHeap :=
  { heap with liveValue := Function.update heap.liveValue value false }

/-- `tree_create`, at the address that `malloc` returned. -/
def treeCreate (tree : Nat) (heap : TreeHeap) : TreeHeap :=
  { heap with
    node := Function.update heap.node tree { children := none, parent := none, value := 0 }
    liveNode := Function.update heap.liveNode tree true }

mutual

/-- `tree_find`. -/
def treeFind (heap : TreeHeap) (comparator : Nat → Bool) :
    Nat → Option Nat → Option (Option Nat)
  | 0, _ => none
  | _ + 1, none => some none
  | fuel + 1, some tree =>
      if comparator (heap.node tree).value then some (some tree)
      else treeFindLoop heap comparator fuel (heap.node tree).children

/-- The loop of `tree_find` over the child links. -/
def treeFindLoop (heap : TreeHeap) (comparator : Nat → Bool) :
    Nat → Option Nat → Option (Option Nat)
  | 0, _ => none
  | _ + 1, none => some none
  | fuel + 1, some child =>
      match treeFind heap comparator fuel (some (heap.child child).value) with
      | none => none
      | some (some found) => some (some found)
      | some none => treeFindLoop heap comparator fuel (heap.child child).next

end

mutual

/-- `tree_free_nodes`. -/
def treeFreeNodes : Nat → Option Nat → TreeHeap → Option TreeHeap
  | 0, _, _ => none
  | _ + 1, none, heap => some heap
  | fuel + 1, some tree, heap =>
      match treeFreeNodesLoop fuel (heap.node tree).children heap with
      | none => none
      | some freed => some (freed.freeNode tree)

/-- The loop of `tree_free_nodes`; `next` is read before the link is freed. -/
def treeFreeNodesLoop : Nat → Option Nat → TreeHeap → Option TreeHeap
  | 0, _, _ => none
  | _ + 1, none, heap => some heap
  | fuel + 1, some child, heap =>
      let next := (heap.child child).next
      match treeFreeNodes fuel (some (heap.child child).value) heap with
      | none => none
      | some freed => treeFreeNodesLoop fuel next (freed.freeChild child)

end

mutual

/-- `tree_free_values`. -/
def treeFreeValues : Nat → Option Nat → TreeHeap → Option TreeHeap
  | 0, _, _ => none
  | _ + 1, none, heap => some heap
  | fuel + 1, some tree, heap =>
      match treeFreeValuesLoop fuel tree (heap.node tree).children heap with
      | none => none
      | some freed => some (freed.freeValue (freed.node tree).value)

/-- The loop of `tree_free_values`: for every child link it calls itself on the same `tree`. -/
def treeFreeValuesLoop : Nat → Nat → Option Nat → TreeHeap → Option TreeHeap
  | 0, _, _, _ => none
  | _ + 1, _, none, heap => some heap
  | fuel + 1, tree, some child, heap =>
      match treeFreeValues fuel (some tree) heap with
      | none => none
      | some freed => treeFreeValuesLoop fuel tree (freed.child child).next freed

end

/-- `tree_insert_node`, with the link at the address that `malloc` returned. -/
def treeInsertNode (link : Nat) (parent : Option Nat) (node : Nat) (heap : TreeHeap) : TreeHeap :=
  match parent with
  | none => heap
  | some parent =>
      let owned := heap.setNode node fun n => { n with parent := some parent }
      let made :=
        { owned with
          child := Function.update owned.child link { next := none, prev := none, value := node }
          liveChild := Function.update owned.liveChild link true }
      let children := (made.node parent).children
      let backed :=
        match children with
        | some first => made.setChild first fun c => { c with prev := some link }
        | none => made
      (backed.setChild link fun c => { c with next := children }).setNode parent fun n =>
        { n with children := some link }

/-- `tree_insert_value`, with the node and the link at the addresses that `malloc` returned. -/
def treeInsertValue (node link : Nat) (parent : Option Nat) (value : Nat) (heap : TreeHeap) :
    Option Nat × TreeHeap :=
  if value = 0 then (none, heap)
  else
    let valued := (heap.treeCreate node).setNode node fun n => { n with value := value }
    (some node, valued.treeInsertNode link parent node)

/-- The loop of `tree_remove_branch` that looks for the link of `node`. -/
def findEntry (heap : TreeHeap) (node : Nat) : Nat → Option Nat → Option (Option Nat)
  | 0, _ => none
  | _ + 1, none => some none
  | fuel + 1, some entry =>
      if (heap.child entry).value = node then some (some entry)
      else findEntry heap node fuel (heap.child entry).next

/-- Unlinking in `tree_remove_branch`: the link leaves the list of `parent` and is freed. -/
def unlinkEntry (parent entry : Nat) (heap : TreeHeap) : TreeHeap :=
  let first :=
    if (heap.node parent).children = some entry then
      heap.setNode parent fun n => { n with children := (heap.child entry).next }
    else heap
  let before :=
    match (first.child entry).prev with
    | some prev => first.setChild prev fun c => { c with next := (first.child entry).next }
    | none => first
  let after :=
    match (before.child entry).next with
    | some next => before.setChild next fun c => { c with prev := (before.child entry).prev }
    | none => before
  after.freeChild entry

/-- `tree_remove_branch`. -/
def treeRemoveBranch (fuel : Nat) (node : Option Nat) (heap : TreeHeap) : Option TreeHeap :=
  match node with
  | none => some heap
  | some node =>
      match (heap.node node).parent with
      | none => treeFreeNodes fuel (some node) heap
      | some parent =>
          match findEntry heap node fuel (heap.node parent).children with
          | none => none
          | some none => treeFreeNodes fuel (some node) heap
          | some (some entry) => treeFreeNodes fuel (some node) (heap.unlinkEntry parent entry)

/-- `tree_destroy_branch`. -/
def treeDestroyBranch (fuel : Nat) (node : Option Nat) (heap : TreeHeap) : Option TreeHeap :=
  match node with
  | none => some heap
  | some node =>
      match treeFreeValues fuel (some node) heap with
      | none => none
      | some freed => treeRemoveBranch fuel (some node) freed

/-- `for (; child->next; child = child->next)`. -/
def lastChild (heap : TreeHeap) : Nat → Nat → Option Nat
  | 0, _ => none
  | fuel + 1, child =>
      match (heap.child child).next with
      | none => some child
      | some next => lastChild heap fuel next

/-- `tree_remove_and_merge`. The first child of the parent is read without a test for null. -/
def treeRemoveAndMerge (fuel : Nat) (node : Option Nat) (heap : TreeHeap) : Option TreeHeap :=
  match node with
  | none => some heap
  | some node =>
      match (heap.node node).parent with
      | none => treeRemoveBranch fuel (some node) heap
      | some parent =>
          match (heap.node parent).children with
          | none => none
          | some first =>
              match heap.lastChild fuel first with
              | none => none
              | some last =>
                  some ((heap.setChild last fun c =>
                    { c with next := (heap.node node).children }).freeNode node)

/-- `tree_destroy_and_merge`. -/
def treeDestroyAndMerge (fuel : Nat) (node : Option Nat) (heap : TreeHeap) : Option TreeHeap :=
  match node with
  | none => some heap
  | some node =>
      match (heap.node node).parent with
      | none => treeDestroyBranch fuel (some node) heap
      | some _ => treeRemoveBranch fuel (some node) (heap.freeValue (heap.node node).value)

end TreeHeap

/-! ## The process table -/

/-- The fields of `process_t` that tie a process to the tree. -/
structure TreeProcess where
  pid : Int
  treeEntry : Option Nat
deriving Repr, Inhabited, DecidableEq

/-- The process records, the tree that finds them and the last pid handed out. The `process_t` blocks
are the values the tree stores. -/
structure ProcessTable where
  heap : TreeHeap
  processes : Nat → TreeProcess
  processTree : Nat
  currentPid : Int

namespace ProcessTable

/-- `pid_comparator`. -/
def pidComparator (table : ProcessTable) (pid : Int) (value : Nat) : Bool :=
  value ≠ 0 && decide ((table.processes value).pid = pid)

/-- `get_process`: null, or the value of the node that `tree_find` returned. -/
def getProcess (table : ProcessTable) (pid : Int) (fuel : Nat) : Option (Option Nat) :=
  (table.heap.treeFind (table.pidComparator pid) fuel (some table.processTree)).map fun tree =>
    tree.map fun found => (table.heap.node found).value

/-- `spawn_process` at the address `malloc` returned for the record. -/
def spawnProcess (parent process node link : Nat) (table : ProcessTable) : ProcessTable :=
  let inserted :=
    { table.heap with liveValue := Function.update table.heap.liveValue process true }.treeInsertValue
      node link (table.processes parent).treeEntry process
  { table with
    currentPid := table.currentPid + 1
    processes := Function.update table.processes process
      { pid := table.currentPid + 1, treeEntry := inserted.1 }
    heap := inserted.2 }

/-- `process_delete`, as far as it concerns the tree and the record. -/
def processDelete (fuel : Nat) (process : Nat) (table : ProcessTable) : Option ProcessTable :=
  if process = 0 then some table
  else
    match (table.processes process).treeEntry with
    | none => some table
    | some entry =>
        match table.heap.treeDestroyAndMerge fuel (some entry) with
        | none => none
        | some destroyed => some { table with heap := destroyed.freeValue process }

end ProcessTable

/-- A fork by a live process, with the addresses that `malloc` returns, and a deletion. -/
inductive TableOp where
  | fork (parent process node link : Nat)
  | delete (process : Nat)
deriving Repr, DecidableEq

/-- One step. `malloc` returns blocks that are not in use, and only live processes fork or are
deleted. -/
def tableStep (fuel : Nat) (table : ProcessTable) : TableOp → Option ProcessTable
  | .fork parent process node link =>
      if table.heap.liveValue parent ∧ process ≠ 0 ∧ ¬ table.heap.liveValue process ∧
          ¬ table.heap.liveNode node ∧ ¬ table.heap.liveChild link then
        some (table.spawnProcess parent process node link)
      else none
  | .delete process =>
      if table.heap.liveValue process then table.processDelete fuel process else none

/-- The heap with nothing allocated. -/
def emptyTreeHeap : TreeHeap where
  node := default
  child := default
  liveNode := fun _ => false
  liveChild := fun _ => false
  liveValue := fun _ => false

/-- `process_tree_init`, and the part of `spawn_init` that makes `init` the value of the root. -/
def processTreeInit (root init : Nat) : ProcessTable where
  heap :=
    { (emptyTreeHeap.treeCreate root).setNode root fun n => { n with value := init } with
      liveValue := Function.update emptyTreeHeap.liveValue init true }
  processes := Function.update default init { pid := 1, treeEntry := some root }
  processTree := root
  currentPid := 1

end Voxel.Kernel
