/-
Module: Voxel.Proofs.TreeFrees
Layer: Proofs
Purpose: What is freed when a tree is. `tree_free_nodes` hands every node and every child link of a branch
  to `free` once, whatever its shape; `tree_free_values` calls itself on the same node for every child, so
  it returns, and with it `tree_free` and `tree_destroy_branch`, exactly for nodes without children.
Trusted boundary: none
Main exports: InsertedTree, FreesOnce, TreeFreed, InHeap.entries_nodup, treeFreeNodes_calls,
  StoresTree.removeBranch_frees, tree_freed_iff
-/
import Voxel.Kernel.TreeFrees
import Voxel.Proofs.TreeInsert

namespace Voxel.Proofs

open Voxel.Kernel
open Voxel.Lib

variable {heap : TreeHeap} {linkOf : Nat → Nat} {tree sub : Tree}

/-! ## The property -/

/-- The heaps that `tree_create` or `tree_insert_value` without a parent, and then a sequence of
`tree_insert_value` calls build, with the trees these calls describe. The values are any pointers, also the
same one in two nodes. -/
inductive InsertedTree : TreeHeap → Tree → Prop where
  | create (heap : TreeHeap) (root value : Nat) :
      InsertedTree ((heap.treeCreate root).setNode root fun n => { n with value := value })
        (.node root value [])
  | insert {heap : TreeHeap} {tree : Tree} {parent node link value : Nat} (grown : InsertedTree heap tree)
      (inside : parent ∈ tree.nodes.map Prod.fst) (nonzero : value ≠ 0)
      (fresh : FreshBlocks heap node link) :
      InsertedTree (heap.treeInsertValue node link (some parent) value).2
        (treeInsertValue parent node value tree)

/-- The values of a branch, one for each node. -/
def valueBlocks (tree : Tree) : List TreeBlock := tree.nodes.map fun node => .value node.2

/-- The nodes of a branch and the links between them. -/
def nodeBlocks (linkOf : Nat → Nat) (tree : Tree) : List TreeBlock :=
  (tree.nodes.map fun node => .node node.1) ++ tree.descendants.map fun node => .child (linkOf node.1)

/-- The link through which a branch hangs below its parent; the root has none. -/
def ownLink (linkOf : Nat → Nat) (tree sub : Tree) : List TreeBlock :=
  if sub.entry = tree.entry then [] else [.child (linkOf sub.entry)]

/-- The blocks that are marked as allocated. -/
structure SameLive (one two : TreeHeap) : Prop where
  node : one.liveNode = two.liveNode
  child : one.liveChild = two.liveChild
  value : one.liveValue = two.liveValue

/-- The function returns, and it has called `free` once for each of the blocks. -/
def FreesOnce (heap : TreeHeap) (run : Nat → Option TreeHeap) (calls : Nat → Option (List TreeBlock))
    (blocks : List TreeBlock) : Prop :=
  ∃ after freed, Settles run after ∧ Settles calls freed ∧ freed.Perm blocks ∧
    SameLive after (heap.freeAll freed)

/-- The values, the nodes and the links of a branch are freed once each. -/
structure TreeFreed (heap : TreeHeap) (linkOf : Nat → Nat) (tree sub : Tree) : Prop where
  values : FreesOnce heap (fun fuel => heap.treeFreeValues fuel (some sub.entry))
    (fun fuel => heap.treeFreeValuesCalls fuel (some sub.entry)) (valueBlocks sub)
  free : FreesOnce heap (fun fuel => heap.treeFree fuel (some sub.entry))
    (fun fuel => heap.treeFreeCalls fuel (some sub.entry)) (valueBlocks sub ++ nodeBlocks linkOf sub)
  destroy : FreesOnce heap (fun fuel => heap.treeDestroyBranch fuel (some sub.entry))
    (fun fuel => heap.treeDestroyBranchCalls fuel (some sub.entry))
    (valueBlocks sub ++ (nodeBlocks linkOf sub ++ ownLink linkOf tree sub))

theorem InsertedTree.stores (grown : InsertedTree heap tree) : ∃ linkOf, StoresTree heap linkOf tree := by
  induction grown with
  | create heap root value =>
      refine ⟨id, StoresTree.single ?_ ?_⟩
      · simp [TreeHeap.setNode, TreeHeap.treeCreate]
      · simp [TreeHeap.setNode, TreeHeap.treeCreate]
  | insert _ inside nonzero fresh inductionHypothesis =>
      obtain ⟨linkOf, stores⟩ := inductionHypothesis
      exact ⟨_, (stores.insert fresh inside nonzero).2.2⟩

/-! ## No node and no link twice -/

theorem InHeap.parent_eq (inHeap : InHeap heap linkOf tree) {list child : Tree}
    (member : list ∈ subtrees tree) (isChild : child ∈ list.children) :
    (heap.node child.entry).parent = some list.entry :=
  (inHeap list member).parent _ (child_mem_kids isChild)

/-- No subtree lies below two children: on the way up both have the same parents. -/
theorem InHeap.below_once (inHeap : InHeap heap linkOf tree) {one two : Tree}
    (isChild : one ∈ tree.children) (isChild' : two ∈ tree.children) :
    ∀ {sub : Tree}, sub ∈ subtrees one → sub ∈ subtrees two → one = two
  | sub, below, below' => by
      have root := self_mem_subtrees tree
      have within : ∀ {child list : Tree}, child ∈ tree.children → list ∈ subtrees child →
          list ∈ subtrees tree :=
        fun isChild inside => subtrees_trans (child_mem_subtrees root isChild) inside
      -- A child of the root is not a child of a node below the root.
      have notDeeper : ∀ {child other list : Tree}, child ∈ tree.children → other ∈ tree.children →
          list ∈ subtrees child → other ∉ list.children := by
        intro child other list isChild isOther inside deeper
        have parent := inHeap.parent_eq (within isChild inside) deeper
        rw [inHeap.parent_eq root isOther] at parent
        exact inHeap.acyclic root isChild inside (Option.some.inj parent).symm
      rcases subtree_child below with rfl | ⟨list, listMember, deeper⟩
      · rcases subtree_child below' with same | ⟨list', listMember', deeper'⟩
        · exact same
        · exact absurd deeper' (notDeeper isChild' isChild listMember')
      · rcases subtree_child below' with rfl | ⟨list', listMember', deeper'⟩
        · exact absurd deeper (notDeeper isChild isChild' listMember)
        · have parent := inHeap.parent_eq (within isChild listMember) deeper
          rw [inHeap.parent_eq (within isChild' listMember') deeper'] at parent
          obtain rfl : list' = list := (inHeap.below (within isChild' listMember')).unique
            (inHeap.below (within isChild listMember)) (Option.some.inj parent)
          exact InHeap.below_once inHeap isChild isChild' listMember listMember'
termination_by sub => sizeOf tree - sizeOf sub
decreasing_by
  have larger := sizeOf_child deeper
  have bound := sizeOf_subtree listMember
  have smaller := sizeOf_child isChild
  omega

mutual

/-- The nodes of a tree are different. -/
theorem InHeap.entries_nodup : ∀ {tree : Tree}, InHeap heap linkOf tree →
    (tree.nodes.map Prod.fst).Nodup
  | .node entry value children, inHeap => by
      have self := self_mem_subtrees (Kernel.Tree.node entry value children)
      rw [Tree.nodes, List.map_cons, List.nodup_cons]
      refine ⟨fun member => ?_, InHeap.entries_nodup_children (fun _ isChild => inHeap.child isChild) ?_⟩
      · obtain ⟨node, inside, same⟩ := List.mem_map.mp member
        obtain ⟨deeper, below, rfl⟩ := mem_nodesChildren.mp inside
        obtain ⟨child, isChild, deep⟩ := mem_subtreesBelow.mp below
        exact inHeap.acyclic self isChild deep same
      · have distinct := List.pairwise_map.mp (inHeap _ self).distinct
        refine distinct.imp_of_mem fun {one two} isChild isChild' different => ?_
        intro deeper below other below' same
        obtain rfl : deeper = other := ((inHeap.child isChild).below below).unique
          ((inHeap.child isChild').below below') same
        exact different (congrArg Tree.entry (inHeap.below_once isChild isChild' below below'))

theorem InHeap.entries_nodup_children : ∀ {children : List Tree},
    (∀ child ∈ children, InHeap heap linkOf child) →
    children.Pairwise (fun one two => ∀ sub ∈ subtrees one, ∀ other ∈ subtrees two,
      sub.entry ≠ other.entry) →
    ((Tree.nodesChildren children).map Prod.fst).Nodup
  | [], _, _ => List.nodup_nil
  | child :: rest, inHeap, apart => by
      obtain ⟨first, later⟩ := List.pairwise_cons.mp apart
      rw [Tree.nodesChildren, List.map_append]
      refine List.nodup_append.mpr ⟨InHeap.entries_nodup (inHeap child List.mem_cons_self),
        InHeap.entries_nodup_children (fun other member => inHeap other (List.mem_cons_of_mem _ member))
          later, ?_⟩
      intro entry member entry' member' same
      obtain ⟨node, inside, rfl⟩ := List.mem_map.mp member
      obtain ⟨node', inside', rfl⟩ := List.mem_map.mp member'
      obtain ⟨deeper, below, rfl⟩ := mem_nodes.mp inside
      obtain ⟨other, below', rfl⟩ := mem_nodesChildren.mp inside'
      obtain ⟨child', isChild', deep'⟩ := mem_subtreesBelow.mp below'
      exact first child' isChild' deeper below other deep' same

end

/-- The link of every node but the root leads to that node. -/
theorem InHeap.link_value (inHeap : InHeap heap linkOf tree) (member : sub ∈ subtrees tree)
    (notRoot : sub.entry ≠ tree.entry) : (heap.child (linkOf sub.entry)).value = sub.entry := by
  rcases subtree_child member with rfl | ⟨list, listMember, isChild⟩
  · exact absurd rfl notRoot
  · exact (inHeap list listMember).linked _ (child_mem_kids isChild)

/-- So do the links of the nodes below any node, of which none is the root. -/
theorem InHeap.link_value_below (inHeap : InHeap heap linkOf tree) (member : sub ∈ subtrees tree)
    {node : Nat × Nat} (inside : node ∈ sub.descendants) :
    (heap.child (linkOf node.1)).value = node.1 := by
  obtain ⟨deeper, below, rfl⟩ := mem_nodesChildren.mp inside
  obtain ⟨child, isChild, deep⟩ := mem_subtreesBelow.mp below
  have there := subtrees_trans (child_mem_subtrees member isChild) deep
  refine inHeap.link_value there fun same => ?_
  have isTree : deeper = tree := (inHeap.below there).unique inHeap same
  have smaller := Nat.lt_of_le_of_lt (sizeOf_subtree deep) (sizeOf_child isChild)
  have bound := sizeOf_subtree member
  rw [isTree] at smaller
  omega

/-- The blocks of a branch and its own link are different blocks. -/
theorem InHeap.blocks_nodup (inHeap : InHeap heap linkOf tree) (member : sub ∈ subtrees tree) :
    (nodeBlocks linkOf sub ++ ownLink linkOf tree sub).Nodup := by
  have distinct := (inHeap.below member).entries_nodup
  have nodes : (sub.nodes.map fun node => TreeBlock.node node.1).Nodup := by
    have mapped := distinct.map (f := TreeBlock.node) fun _ _ same => TreeBlock.node.inj same
    rwa [List.map_map] at mapped
  obtain ⟨own, ownEq, ownNodup⟩ : ∃ own : List Nat, ownLink linkOf tree sub = own.map TreeBlock.child ∧
      ((sub.descendants.map fun node => linkOf node.1) ++ own).Nodup := by
    have links : (sub.descendants.map fun node => linkOf node.1).map (fun link => (heap.child link).value) =
        sub.descendants.map Prod.fst := by
      rw [List.map_map]
      exact List.map_congr_left fun node inside => inHeap.link_value_below member inside
    rw [Tree.nodes_eq, List.map_cons] at distinct
    unfold ownLink
    split
    · refine ⟨[], rfl, List.Nodup.of_map (fun link => (heap.child link).value) ?_⟩
      rw [List.append_nil, links]
      exact (List.nodup_cons.mp distinct).2
    · rename_i notRoot
      refine ⟨[linkOf sub.entry], rfl, List.Nodup.of_map (fun link => (heap.child link).value) ?_⟩
      rw [List.map_append, links, List.map_singleton, inHeap.link_value member notRoot]
      exact (List.perm_append_singleton _ _).nodup_iff.mpr distinct
  have links := ownNodup.map (f := TreeBlock.child) fun _ _ same => TreeBlock.child.inj same
  rw [List.map_append, List.map_map] at links
  rw [nodeBlocks, ownEq, List.append_assoc]
  refine List.nodup_append.mpr ⟨nodes, links, ?_⟩
  intro block isNode other isLink same
  obtain ⟨node, -, rfl⟩ := List.mem_map.mp isNode
  rcases List.mem_append.mp isLink with below | own
  · obtain ⟨_, -, isChild⟩ := List.mem_map.mp below
    cases isChild.trans same.symm
  · obtain ⟨_, -, isChild⟩ := List.mem_map.mp own
    cases isChild.trans same.symm

/-! ## The calls and the memory -/

/-- Two heaps with the same records, whatever is allocated in them. -/
structure EqualRecords (one two : TreeHeap) : Prop where
  node : one.node = two.node
  child : one.child = two.child

@[simp] theorem freeAll_node (calls : List TreeBlock) : (heap.freeAll calls).node = heap.node := by
  induction calls generalizing heap with
  | nil => rfl
  | cons block calls inductionHypothesis =>
      refine (@inductionHypothesis (heap.freeBlock block)).trans ?_
      cases block <;> rfl

@[simp] theorem freeAll_child (calls : List TreeBlock) : (heap.freeAll calls).child = heap.child := by
  induction calls generalizing heap with
  | nil => rfl
  | cons block calls inductionHypothesis =>
      refine (@inductionHypothesis (heap.freeBlock block)).trans ?_
      cases block <;> rfl

theorem freeAll_append (calls more : List TreeBlock) :
    heap.freeAll (calls ++ more) = (heap.freeAll calls).freeAll more := List.foldl_append

/-- `tree_free_nodes` and its loop do nothing but the calls; these depend on the records only, which no
call changes. -/
theorem treeFreeNodes_calls_of_same (fuel : Nat) :
    (∀ (pointer : Option Nat) (now : TreeHeap), EqualRecords now heap →
      now.treeFreeNodes fuel pointer = (heap.treeFreeNodesCalls fuel pointer).map now.freeAll) ∧
    ∀ (pointer : Option Nat) (now : TreeHeap), EqualRecords now heap →
      now.treeFreeNodesLoop fuel pointer =
        (heap.treeFreeNodesLoopCalls fuel pointer).map now.freeAll := by
  induction fuel with
  | zero => exact ⟨fun _ _ _ => rfl, fun _ _ _ => rfl⟩
  | succ fuel inductionHypothesis =>
      obtain ⟨nodes, loop⟩ := inductionHypothesis
      refine ⟨fun pointer now same => ?_, fun pointer now same => ?_⟩
      · cases pointer with
        | none => rfl
        | some tree =>
            rw [TreeHeap.treeFreeNodes, TreeHeap.treeFreeNodesCalls, same.node, loop _ now same]
            cases heap.treeFreeNodesLoopCalls fuel (heap.node tree).children with
            | none => rfl
            | some below => exact congrArg some (freeAll_append below [.node tree]).symm
      · cases pointer with
        | none => rfl
        | some link =>
            rw [TreeHeap.treeFreeNodesLoop, TreeHeap.treeFreeNodesLoopCalls, same.child,
              nodes _ now same]
            cases heap.treeFreeNodesCalls fuel (some (heap.child link).value) with
            | none => rfl
            | some below =>
                have rest := loop (heap.child link).next ((now.freeAll below).freeChild link)
                  ⟨(freeAll_node below).trans same.node, (freeAll_child below).trans same.child⟩
                refine rest.trans ?_
                cases heap.treeFreeNodesLoopCalls fuel (heap.child link).next with
                | none => rfl
                | some later => exact congrArg some (freeAll_append below (.child link :: later)).symm

theorem treeFreeNodes_calls (fuel : Nat) (pointer : Option Nat) :
    heap.treeFreeNodes fuel pointer = (heap.treeFreeNodesCalls fuel pointer).map heap.freeAll :=
  (treeFreeNodes_calls_of_same fuel).1 pointer heap ⟨rfl, rfl⟩

/-- So does `tree_free_values`. -/
theorem treeFreeValues_calls_of_same (fuel : Nat) :
    (∀ (pointer : Option Nat) (now : TreeHeap), EqualRecords now heap →
      now.treeFreeValues fuel pointer = (heap.treeFreeValuesCalls fuel pointer).map now.freeAll) ∧
    ∀ (tree : Nat) (pointer : Option Nat) (now : TreeHeap), EqualRecords now heap →
      now.treeFreeValuesLoop fuel tree pointer =
        (heap.treeFreeValuesLoopCalls fuel tree pointer).map now.freeAll := by
  induction fuel with
  | zero => exact ⟨fun _ _ _ => rfl, fun _ _ _ _ => rfl⟩
  | succ fuel inductionHypothesis =>
      obtain ⟨values, loop⟩ := inductionHypothesis
      refine ⟨fun pointer now same => ?_, fun tree pointer now same => ?_⟩
      · cases pointer with
        | none => rfl
        | some tree =>
            rw [TreeHeap.treeFreeValues, TreeHeap.treeFreeValuesCalls, same.node,
              loop tree _ now same]
            cases heap.treeFreeValuesLoopCalls fuel tree (heap.node tree).children with
            | none => rfl
            | some below =>
                rw [Option.map_some, Option.map_some, Option.map_some, freeAll_append]
                show some ((now.freeAll below).freeValue ((now.freeAll below).node tree).value) = _
                rw [freeAll_node, same.node]
                rfl
      · cases pointer with
        | none => rfl
        | some link =>
            rw [TreeHeap.treeFreeValuesLoop, TreeHeap.treeFreeValuesLoopCalls,
              values _ now same]
            cases heap.treeFreeValuesCalls fuel (some tree) with
            | none => rfl
            | some below =>
                have rest := loop tree (heap.child link).next (now.freeAll below)
                  ⟨(freeAll_node below).trans same.node, (freeAll_child below).trans same.child⟩
                show (now.freeAll below).treeFreeValuesLoop fuel tree
                  ((now.freeAll below).child link).next = _
                rw [freeAll_child, same.child, rest]
                cases heap.treeFreeValuesLoopCalls fuel tree (heap.child link).next with
                | none => rfl
                | some later => exact congrArg some (freeAll_append below later).symm

theorem treeFreeValues_calls (fuel : Nat) (pointer : Option Nat) :
    heap.treeFreeValues fuel pointer = (heap.treeFreeValuesCalls fuel pointer).map heap.freeAll :=
  (treeFreeValues_calls_of_same fuel).1 pointer heap ⟨rfl, rfl⟩

/-- `tree_free` does the calls of both, on one and the same tree. -/
theorem treeFree_calls (fuel : Nat) (pointer : Option Nat) :
    heap.treeFree fuel pointer = (heap.treeFreeCalls fuel pointer).map heap.freeAll := by
  cases pointer with
  | none => rfl
  | some tree =>
      rw [TreeHeap.treeFree, TreeHeap.treeFreeCalls, treeFreeValues_calls]
      cases heap.treeFreeValuesCalls fuel (some tree) with
      | none => rfl
      | some values =>
          have nodes := (@treeFreeNodes_calls_of_same heap fuel).1 (some tree)
            (heap.freeAll values) ⟨freeAll_node values, freeAll_child values⟩
          refine nodes.trans ?_
          cases heap.treeFreeNodesCalls fuel (some tree) with
          | none => rfl
          | some freed => exact congrArg some (freeAll_append values freed).symm

theorem SameLive.freeBlock {one two : TreeHeap} (same : SameLive one two) (block : TreeBlock) :
    SameLive (one.freeBlock block) (two.freeBlock block) := by
  cases block with
  | node tree =>
      exact ⟨congrArg (fun live : Nat → Bool => Function.update live tree false) same.node, same.child,
        same.value⟩
  | child child =>
      exact ⟨same.node, congrArg (fun live : Nat → Bool => Function.update live child false) same.child,
        same.value⟩
  | value value =>
      exact ⟨same.node, same.child,
        congrArg (fun live : Nat → Bool => Function.update live value false) same.value⟩

theorem SameLive.freeAll {one two : TreeHeap} (same : SameLive one two) (calls : List TreeBlock) :
    SameLive (one.freeAll calls) (two.freeAll calls) := by
  induction calls generalizing one two with
  | nil => exact same
  | cons block calls inductionHypothesis => exact inductionHypothesis (same.freeBlock block)

/-- Unlinking frees the link. -/
theorem unlinkEntry_live (heap : TreeHeap) (parent entry : Nat) :
    SameLive (heap.unlinkEntry parent entry) (heap.freeBlock (.child entry)) := by
  obtain ⟨first, before, after, firstEq, wroteNext, wrotePrev, unlinked⟩ :=
    unlinkEntry_eq heap parent entry
  have sameFirst : SameLive first heap := by
    rw [firstEq]
    split <;> exact ⟨rfl, rfl, rfl⟩
  have sameAfter : SameLive after heap :=
    ⟨wrotePrev.live.1.trans (wroteNext.live.1.trans sameFirst.node),
      wrotePrev.live.2.2.trans (wroteNext.live.2.2.trans sameFirst.child),
      wrotePrev.live.2.1.trans (wroteNext.live.2.1.trans sameFirst.value)⟩
  rw [unlinked]
  exact sameAfter.freeBlock (.child entry)

theorem EqualRecords.setChildAt {one two : TreeHeap} (same : EqualRecords one two)
    {pointer pointer' : Option Nat} {change change' : TreeChild → TreeChild}
    (samePointer : pointer = pointer') (sameChange : change = change') :
    EqualRecords (setChildAt one pointer change) (setChildAt two pointer' change') := by
  subst samePointer sameChange
  cases pointer with
  | none => exact same
  | some target =>
      refine ⟨same.node, ?_⟩
      show Function.update one.child target (change (one.child target)) = _
      rw [same.child]
      rfl

theorem EqualRecords.childPrev_eq {one two : TreeHeap} (same : EqualRecords one two) (link : Nat) :
    childPrev one link = childPrev two link := by rw [childPrev, same.child, childPrev]

theorem EqualRecords.childNext_eq {one two : TreeHeap} (same : EqualRecords one two) (link : Nat) :
    childNext one link = childNext two link := by rw [childNext, same.child, childNext]

/-- What unlinking writes depends on the records only. -/
theorem EqualRecords.unlinkEntry {one two : TreeHeap} (same : EqualRecords one two) (parent entry : Nat) :
    EqualRecords (one.unlinkEntry parent entry) (two.unlinkEntry parent entry) := by
  have first : EqualRecords
      (if (one.node parent).children = some entry then
        one.setNode parent fun n => { n with children := (one.child entry).next } else one)
      (if (two.node parent).children = some entry then
        two.setNode parent fun n => { n with children := (two.child entry).next } else two) := by
    rw [same.node, same.child]
    split
    · refine ⟨?_, same.child⟩
      show Function.update one.node parent _ = _
      rw [same.node]
      rfl
    · exact same
  have before := first.setChildAt (first.childPrev_eq entry)
    (congrArg (fun next (c : TreeChild) => { c with next := next }) (first.childNext_eq entry))
  have after := before.setChildAt (before.childNext_eq entry)
    (congrArg (fun prev (c : TreeChild) => { c with prev := prev }) (before.childPrev_eq entry))
  exact ⟨after.node, after.child⟩

theorem EqualRecords.findEntry {now : TreeHeap} (same : EqualRecords now heap) (node fuel : Nat)
    (pointer : Option Nat) : now.findEntry node fuel pointer = heap.findEntry node fuel pointer := by
  induction fuel generalizing pointer with
  | zero => rfl
  | succ fuel inductionHypothesis =>
      cases pointer with
      | none => rfl
      | some entry =>
          rw [TreeHeap.findEntry, TreeHeap.findEntry, same.child]
          exact if_congr Iff.rfl rfl (inductionHypothesis _)

/-! ## What the calls are -/

mutual

/-- `tree_free_nodes` frees every node and every link of a branch. -/
theorem InHeap.treeFreeNodesCalls : ∀ {tree : Tree}, InHeap heap linkOf tree →
    ∃ calls, (∀ fuel, treeSteps tree ≤ fuel →
      heap.treeFreeNodesCalls fuel (some tree.entry) = some calls) ∧ calls.Perm (nodeBlocks linkOf tree)
  | .node entry value children, inHeap => by
      have here := inHeap _ (self_mem_subtrees _)
      obtain ⟨calls, looped, same⟩ := InHeap.treeFreeNodesLoopCalls
        (fun child member => inHeap.child member) here.linked here.chain
      refine ⟨calls ++ [.node entry], fun fuel enough => ?_, ?_⟩
      · rw [treeSteps] at enough
        obtain ⟨fuel, rfl⟩ := Nat.exists_eq_add_of_le' (Nat.le_of_add_left_le enough)
        have loop := looped fuel (Nat.le_of_succ_le_succ enough)
        rw [Tree.entry] at loop ⊢
        rw [TreeHeap.treeFreeNodesCalls, loop]
        rfl
      · exact (List.perm_append_singleton _ _).trans (same.cons _)

theorem InHeap.treeFreeNodesLoopCalls : ∀ {children : List Tree},
    (∀ child ∈ children, InHeap heap linkOf child) →
    (∀ kid ∈ children.map Tree.entry, (heap.child (linkOf kid)).value = kid) →
    ∀ {before head : Option Nat},
      Chain (childNext heap) (childPrev heap) before head ((children.map Tree.entry).map linkOf) →
      ∃ calls, (∀ fuel, treeStepsBelow children ≤ fuel →
        heap.treeFreeNodesLoopCalls fuel head = some calls) ∧
          calls.Perm (((Tree.nodesChildren children).map fun node => .node node.1) ++
            (Tree.nodesChildren children).map fun node => .child (linkOf node.1))
  | [], _, _, before, head, chain => by
      obtain rfl : head = none := chain
      refine ⟨[], fun fuel enough => ?_, .nil⟩
      rw [treeStepsBelow] at enough
      obtain ⟨fuel, rfl⟩ := Nat.exists_eq_add_of_le' enough
      rfl
  | child :: rest, inHeap, linked, before, head, chain => by
      obtain ⟨rfl, -, tail⟩ := chain
      obtain ⟨below, belowEq, belowSame⟩ := InHeap.treeFreeNodesCalls (inHeap child List.mem_cons_self)
      obtain ⟨later, laterEq, laterSame⟩ := InHeap.treeFreeNodesLoopCalls
        (fun other member => inHeap other (List.mem_cons_of_mem _ member))
        (fun kid member => linked kid (List.mem_cons_of_mem _ member)) tail
      refine ⟨below ++ .child (linkOf child.entry) :: later, fun fuel enough => ?_, ?_⟩
      · rw [treeStepsBelow] at enough
        obtain ⟨fuel, rfl⟩ := Nat.exists_eq_add_of_le' (Nat.le_of_add_left_le enough)
        have next : heap.treeFreeNodesLoopCalls fuel (heap.child (linkOf child.entry)).next = some later :=
          laterEq fuel (by omega)
        rw [TreeHeap.treeFreeNodesLoopCalls, linked child.entry List.mem_cons_self,
          belowEq fuel (by omega)]
        dsimp only
        rw [next]
        rfl
      · rw [List.perm_iff_count] at belowSame laterSame ⊢
        intro block
        have one := belowSame block
        have two := laterSame block
        simp only [nodeBlocks, Tree.nodesChildren, Tree.nodes_eq, List.map_append, List.map_cons,
          List.count_append, List.count_cons] at one two ⊢
        omega

end

/-- `tree_remove_branch` frees the nodes and the links of a branch and the link to it, whatever the shape
of the tree, and also after other blocks have been freed. -/
theorem StoresTree.removeBranch_frees {now : TreeHeap} (stores : StoresTree heap linkOf tree)
    (member : sub ∈ subtrees tree) (same : EqualRecords now heap) :
    ∃ after calls, Settles (fun fuel => now.treeRemoveBranch fuel (some sub.entry)) after ∧
      Settles (fun fuel => heap.treeRemoveBranchCalls fuel (some sub.entry)) calls ∧
      calls.Perm (nodeBlocks linkOf sub ++ ownLink linkOf tree sub) ∧
      SameLive after (now.freeAll calls) := by
  unfold TreeHeap.treeRemoveBranchCalls TreeHeap.treeRemoveBranch ownLink
  dsimp only
  rw [same.node]
  rcases subtree_child member with rfl | ⟨list, listMember, isChild⟩
  · obtain ⟨calls, returns, whole⟩ := stores.inHeap.treeFreeNodesCalls
    rw [stores.root, if_pos rfl, List.append_nil]
    refine ⟨now.freeAll calls, calls, ⟨treeSteps sub, fun fuel enough => ?_⟩, ⟨_, returns⟩, whole,
      rfl, rfl, rfl⟩
    dsimp only
    rw [(treeFreeNodes_calls_of_same fuel).1 _ now same, returns fuel enough]
    rfl
  · have here := stores.inHeap list listMember
    have kid := child_mem_kids isChild
    have notRoot : sub.entry ≠ tree.entry := by
      intro isRoot
      have parent := here.parent _ kid
      rw [isRoot, stores.root] at parent
      cases parent
    have search : ∀ {fuel}, (kids list).length ≤ fuel → heap.findEntry sub.entry fuel
        (heap.node list.entry).children = some (some (linkOf sub.entry)) :=
      fun {fuel} enough => findEntry_chain here.chain here.linked kid fuel enough
    obtain ⟨calls, returns, whole⟩ :=
      (stores.inHeap.unlink_branch listMember isChild).treeFreeNodesCalls
    rw [here.parent _ kid, if_neg notRoot]
    refine ⟨(now.unlinkEntry list.entry (linkOf sub.entry)).freeAll calls,
      .child (linkOf sub.entry) :: calls, ⟨max (kids list).length (treeSteps sub), fun fuel enough => ?_⟩,
      ⟨max (kids list).length (treeSteps sub), fun fuel enough => ?_⟩,
      (whole.cons _).trans (List.perm_append_singleton _ _).symm,
      (unlinkEntry_live now list.entry (linkOf sub.entry)).freeAll calls⟩
    · dsimp only
      rw [same.findEntry, search (Nat.le_trans (Nat.le_max_left _ _) enough)]
      dsimp only
      rw [(treeFreeNodes_calls_of_same fuel).1 _ _ (same.unlinkEntry list.entry (linkOf sub.entry)),
        returns fuel (Nat.le_trans (Nat.le_max_right _ _) enough)]
      rfl
    · dsimp only
      rw [search (Nat.le_trans (Nat.le_max_left _ _) enough)]
      dsimp only
      rw [returns fuel (Nat.le_trans (Nat.le_max_right _ _) enough)]
      rfl

/-! ## `tree_free_values` -/

/-- For a node with a child `tree_free_values` never returns: each call makes the same call again. -/
theorem treeFreeValuesCalls_child {entry child : Nat} (has : (heap.node entry).children = some child)
    (fuel : Nat) : heap.treeFreeValuesCalls fuel (some entry) = none := by
  induction fuel using Nat.strongRecOn with
  | ind fuel inductionHypothesis =>
      match fuel with
      | 0 => rfl
      | 1 =>
          rw [TreeHeap.treeFreeValuesCalls, has]
          rfl
      | fuel + 2 =>
          rw [TreeHeap.treeFreeValuesCalls, has, TreeHeap.treeFreeValuesLoopCalls,
            inductionHypothesis fuel (by omega)]
          rfl

/-- For a node without children it frees the value of the node. -/
theorem treeFreeValuesCalls_leaf {entry : Nat} (leaf : (heap.node entry).children = none) (fuel : Nat) :
    heap.treeFreeValuesCalls (fuel + 2) (some entry) = some [.value (heap.node entry).value] := by
  rw [TreeHeap.treeFreeValuesCalls, leaf]
  rfl

/-- The three functions on a node without children. -/
theorem StoresTree.leaf_freed (stores : StoresTree heap linkOf tree) (member : sub ∈ subtrees tree)
    (leaf : (heap.node sub.entry).children = none) : TreeFreed heap linkOf tree sub := by
  have single : sub.nodes = [(sub.entry, sub.value)] := by
    have childless : kids sub = [] := by
      have head := (stores.inHeap sub member).chain.head_eq
      rw [leaf] at head
      cases below : kids sub with
      | nil => rfl
      | cons kid more =>
          rw [below] at head
          cases head
    rw [Tree.nodes_eq, Tree.descendants, List.map_eq_nil_iff.mp childless]
    rfl
  have values : valueBlocks sub = [.value (heap.node sub.entry).value] := by
    rw [valueBlocks, single, (stores.inHeap sub member).value]
    rfl
  have called : ∀ {fuel}, 2 ≤ fuel →
      heap.treeFreeValuesCalls fuel (some sub.entry) = some (valueBlocks sub) := by
    intro fuel enough
    obtain ⟨fuel, rfl⟩ := Nat.exists_eq_add_of_le' enough
    rw [values]
    exact treeFreeValuesCalls_leaf leaf fuel
  have returned : ∀ {fuel}, 2 ≤ fuel →
      heap.treeFreeValues fuel (some sub.entry) = some (heap.freeAll (valueBlocks sub)) := by
    intro fuel enough
    rw [treeFreeValues_calls, called enough]
    rfl
  have records : EqualRecords (heap.freeAll (valueBlocks sub)) heap := ⟨freeAll_node _, freeAll_child _⟩
  constructor
  · exact ⟨_, _, ⟨2, fun _ => returned⟩, ⟨2, fun _ => called⟩, .refl _, rfl, rfl, rfl⟩
  · obtain ⟨calls, returns, whole⟩ := (stores.inHeap.below member).treeFreeNodesCalls
    have freed : ∀ fuel, max 2 (treeSteps sub) ≤ fuel →
        heap.treeFreeCalls fuel (some sub.entry) = some (valueBlocks sub ++ calls) := by
      intro fuel enough
      rw [TreeHeap.treeFreeCalls, called (Nat.le_trans (Nat.le_max_left _ _) enough)]
      dsimp only
      rw [returns fuel (Nat.le_trans (Nat.le_max_right _ _) enough)]
      rfl
    refine ⟨_, _, ⟨max 2 (treeSteps sub), fun fuel enough => ?_⟩, ⟨_, freed⟩, whole.append_left _,
      rfl, rfl, rfl⟩
    dsimp only
    rw [treeFree_calls, freed fuel enough]
    rfl
  · obtain ⟨after, calls, ⟨steps, returns⟩, ⟨steps', removed⟩, whole, live⟩ :=
      stores.removeBranch_frees member records
    rw [← freeAll_append] at live
    refine ⟨after, valueBlocks sub ++ calls, ⟨max 2 steps, fun fuel enough => ?_⟩,
      ⟨max 2 steps', fun fuel enough => ?_⟩, whole.append_left _, live⟩
    · show heap.treeDestroyBranch fuel (some sub.entry) = _
      rw [TreeHeap.treeDestroyBranch, returned (Nat.le_trans (Nat.le_max_left _ _) enough)]
      exact returns fuel (Nat.le_trans (Nat.le_max_right _ _) enough)
    · show heap.treeDestroyBranchCalls fuel (some sub.entry) = _
      rw [TreeHeap.treeDestroyBranchCalls, called (Nat.le_trans (Nat.le_max_left _ _) enough)]
      exact congrArg (Option.map _) (removed fuel (Nat.le_trans (Nat.le_max_right _ _) enough))

/-- In every tree that `tree_insert_value` builds, and for every branch of it: `tree_free_values` returns
and frees every value once, and `tree_free` and `tree_destroy_branch` free every node and every link once,
exactly if the node at the top of the branch has no children. -/
theorem tree_freed_iff {heap : TreeHeap} {tree : Tree} (grown : InsertedTree heap tree) :
    ∃ linkOf, StoresTree heap linkOf tree ∧ ∀ sub ∈ subtrees tree,
      (nodeBlocks linkOf sub ++ ownLink linkOf tree sub).Nodup ∧
      (TreeFreed heap linkOf tree sub ↔ (heap.node sub.entry).children = none) := by
  obtain ⟨linkOf, stores⟩ := grown.stores
  refine ⟨linkOf, stores, fun sub member => ⟨stores.inHeap.blocks_nodup member, ?_, ?_⟩⟩
  · intro freed
    obtain ⟨_, calls, -, ⟨enough, called⟩, -⟩ := freed.values
    cases children : (heap.node sub.entry).children with
    | none => rfl
    | some child =>
        have returned : heap.treeFreeValuesCalls enough (some sub.entry) = some calls :=
          called enough (Nat.le_refl _)
        rw [treeFreeValuesCalls_child children] at returned
        cases returned
  · exact stores.leaf_freed member

/-- A tree of one node. -/
theorem tree_freed_iff_root :
    ∃ linkOf, StoresTree ((emptyTreeHeap.treeCreate 1).setNode 1 fun n => { n with value := 10 }) linkOf
        (.node 1 10 []) ∧ ∀ sub ∈ subtrees (.node 1 10 []),
      (nodeBlocks linkOf sub ++ ownLink linkOf (.node 1 10 []) sub).Nodup ∧
      (TreeFreed ((emptyTreeHeap.treeCreate 1).setNode 1 fun n => { n with value := 10 }) linkOf
          (.node 1 10 []) sub ↔
        (((emptyTreeHeap.treeCreate 1).setNode 1 fun n => { n with value := 10 }).node sub.entry).children =
          none) :=
  tree_freed_iff (.create emptyTreeHeap 1 10)

/-- A root with one child: with no fuel `tree_free_values` returns. -/
theorem tree_free_values_endless :
    ∃ heap tree, InsertedTree heap tree ∧ ∀ fuel, heap.treeFreeValues fuel (some tree.entry) = none := by
  refine ⟨_, _, @InsertedTree.insert _ _ 1 2 101 20 (.create emptyTreeHeap 1 10) (by decide) (by decide)
    ⟨by decide, by decide⟩, fun fuel => ?_⟩
  rw [treeFreeValues_calls, show (treeInsertValue 1 2 20 (.node 1 10 [])).entry = 1 by decide,
    @treeFreeValuesCalls_child _ 1 101 (by decide)]
  rfl

end Voxel.Proofs
