/-
Module: Voxel.Proofs.TreeRemoval
Layer: Proofs
Purpose: What is left of the process tree when a node is removed. `tree_destroy_and_merge` drops
  everything below the node, so it keeps the rest of the tree exactly for nodes without children;
  `tree_remove_and_merge` leaves the link to the freed node in its parent's list and does not give
  the children a new parent, so it never does. As long as only processes without children are
  deleted, `get_process` finds every live process.
Trusted boundary: none
Main exports: KeepsRest, DeletesLeaf, FindsLive, tree_removal_iff
-/
import Voxel.Proofs.TreeInsert
import Voxel.Lib.Run

namespace Voxel.Proofs

open Voxel.Kernel
open Voxel.Lib

variable {heap : TreeHeap} {linkOf : Nat → Nat} {tree : Tree}

/-! ## The properties -/

/-- `tree_find` for a stored value. -/
def findValue (heap : TreeHeap) (root value : Nat) (fuel : Nat) : Option (Option Nat) :=
  heap.treeFind (fun stored => stored == value) fuel (some root)

/-- After the removal of `node` every other value of the tree is found at its node, the removed one is
not found, and the children of the node have its parent as their parent. -/
structure KeepsRest (before after : TreeHeap) (tree : Tree) (node : Nat × Nat) : Prop where
  others : ∀ other ∈ tree.nodes, other ≠ node →
    Settles (findValue after tree.entry other.2) (some other.1)
  removed : Settles (findValue after tree.entry node.2) none
  children : ∀ other ∈ tree.nodes, (before.node other.1).parent = some node.1 →
    (after.node other.1).parent = (before.node node.1).parent

/-- The process that is deleted has no children in the tree. -/
def DeletesLeaf (table : ProcessTable) (op : TableOp) : Prop :=
  ∀ process, op = .delete process → ∀ entry, (table.processes process).treeEntry = some entry →
    (table.heap.node entry).children = none

/-- `get_process` finds every live process. -/
def FindsLive (table : ProcessTable) : Prop :=
  ∀ process, table.heap.liveValue process = true →
    Settles (table.getProcess (table.processes process).pid) (some process)

/-! ## Searching for one node -/

/-- A search that accepts one node only finds that node. -/
theorem treeFind_only {comparator : Nat → Bool} {node : Nat × Nat} (member : node ∈ tree.nodes)
    (accepted : comparator node.2 = true)
    (only : ∀ other ∈ tree.nodes, comparator other.2 = true → other = node) :
    ∃ found, treeFind comparator tree = some found ∧ (found.entry, found.value) = node := by
  cases search : treeFind comparator tree with
  | none =>
      have rejected := treeFind_none search node member
      rw [accepted] at rejected
      cases rejected
  | some found =>
      obtain ⟨accepts, inside⟩ := treeFind_spec search
      exact ⟨found, rfl, only _ inside accepts⟩

/-- A search that accepts no node finds nothing. -/
theorem treeFind_missing {comparator : Nat → Bool}
    (rejects : ∀ other ∈ tree.nodes, comparator other.2 = false) :
    treeFind comparator tree = none := by
  cases search : treeFind comparator tree with
  | none => rfl
  | some found =>
      obtain ⟨accepts, inside⟩ := treeFind_spec search
      rw [rejects _ inside] at accepts
      cases accepts

theorem InHeap.findValue_node (inHeap : InHeap heap linkOf tree) {node : Nat × Nat}
    (member : node ∈ tree.nodes) (distinct : ∀ other ∈ tree.nodes, other.2 = node.2 → other = node) :
    Settles (findValue heap tree.entry node.2) (some node.1) := by
  obtain ⟨found, search, same⟩ := @treeFind_only tree (fun stored => stored == node.2) node member
    (beq_self_eq_true _) (fun other inside accepted => distinct other inside (eq_of_beq accepted))
  have settles := inHeap.treeFind_settles fun stored => stored == node.2
  rw [search] at settles
  rw [← same] at settles ⊢
  exact settles

theorem InHeap.findValue_missing (inHeap : InHeap heap linkOf tree) {value : Nat}
    (absent : ∀ other ∈ tree.nodes, other.2 ≠ value) :
    Settles (findValue heap tree.entry value) none := by
  have settles := inHeap.treeFind_settles fun stored => stored == value
  have missing := @treeFind_missing tree (fun stored => stored == value)
    fun other inside => beq_false_of_ne (absent other inside)
  rw [missing] at settles
  exact settles

/-! ## The tree without a node -/

/-- No node of the tree without a branch has the entry of the branch or its root as its parent. -/
theorem InHeap.removed_parent (inHeap : InHeap heap linkOf tree)
    (root : (heap.node tree.entry).parent = none) {entry : Nat} (notRoot : entry ≠ tree.entry)
    {node : Nat × Nat} (member : node ∈ (Kernel.treeRemoveBranch entry tree).nodes) :
    node ∈ tree.nodes ∧ node.1 ≠ entry ∧ (heap.node node.1).parent ≠ some entry := by
  have old : node ∈ tree.nodes ∧ node.1 ≠ entry := by
    rw [Tree.nodes_eq, treeRemoveBranch_entry, treeRemoveBranch_value, List.mem_cons] at member
    rw [Tree.nodes_eq, List.mem_cons]
    rcases member with rfl | below
    · exact ⟨Or.inl rfl, Ne.symm notRoot⟩
    · obtain ⟨inside, different⟩ := treeRemoveBranch_descendants below
      exact ⟨Or.inr inside, different⟩
  refine ⟨old.1, old.2, fun isChild => ?_⟩
  obtain ⟨sub', member', rfl⟩ := mem_nodes.mp member
  rcases subtree_child member' with rfl | ⟨list', listMember', below⟩
  · rw [treeRemoveBranch_entry, root] at isChild
    cases isChild
  · obtain ⟨list, listMember, rfl, which⟩ := subtrees_treeRemoveBranch listMember'
    have isKid := child_mem_kids below
    rw [kids_treeRemoveBranch] at isKid
    have parent := (inHeap list listMember).parent _ (List.mem_of_mem_filter isKid)
    rw [isChild] at parent
    rcases which with rfl | different
    · exact notRoot (Option.some.inj parent)
    · exact different (Option.some.inj parent).symm

mutual

/-- Removing a node without children keeps all the others. -/
theorem mem_nodes_treeRemoveBranch {entry : Nat} : ∀ {tree : Tree},
    (∀ sub ∈ subtrees tree, sub.entry = entry → sub.children = []) →
      ∀ node ∈ tree.descendants, node.1 ≠ entry →
        node ∈ (treeRemoveBranch entry tree).descendants
  | .node current value children, leaf, node, member, different => by
      refine mem_nodes_treeRemoveChildren (fun sub inside => leaf sub ?_) node member different
      rw [subtrees]
      exact List.mem_cons_of_mem _ inside

theorem mem_nodes_treeRemoveChildren {entry : Nat} : ∀ {children : List Tree},
    (∀ sub ∈ subtreesBelow children, sub.entry = entry → sub.children = []) →
      ∀ node ∈ Tree.nodesChildren children, node.1 ≠ entry →
        node ∈ Tree.nodesChildren (treeRemoveChildren entry children)
  | [], _, node, member, _ => by simp [Tree.nodesChildren] at member
  | child :: rest, leaf, node, member, different => by
      rw [subtreesBelow] at leaf
      have later : node ∈ Tree.nodesChildren rest →
          node ∈ Tree.nodesChildren (treeRemoveChildren entry rest) := fun inRest =>
        mem_nodes_treeRemoveChildren (fun sub inside => leaf sub (List.mem_append_right _ inside)) node
          inRest different
      rw [Tree.nodesChildren, List.mem_append, Tree.nodes_eq, List.mem_cons] at member
      rw [treeRemoveChildren]
      split
      · rename_i isEntry
        rcases member with (rfl | below) | inRest
        · exact absurd isEntry different
        · have childless := leaf child (List.mem_append_left _ (self_mem_subtrees child)) isEntry
          rw [Tree.descendants, childless] at below
          cases below
        · exact later inRest
      · rw [Tree.nodesChildren, List.mem_append, Tree.nodes_eq, List.mem_cons,
          treeRemoveBranch_entry, treeRemoveBranch_value]
        rcases member with (rfl | below) | inRest
        · exact Or.inl (Or.inl rfl)
        · exact Or.inl (Or.inr (mem_nodes_treeRemoveBranch
            (fun sub inside => leaf sub (List.mem_append_left _ inside)) node below different))
        · exact Or.inr (later inRest)

end

/-- A null child pointer means that the tree has no children there. -/
theorem InHeap.childless (inHeap : InHeap heap linkOf tree) {sub : Tree}
    (member : sub ∈ subtrees tree) :
    (heap.node sub.entry).children = none ↔ sub.children = [] := by
  rw [(inHeap sub member).chain.head_eq]
  cases children : sub.children with
  | nil => simp [kids, children]
  | cons child rest => simp [kids, children]

/-- The nodes that are left when a leaf goes. -/
theorem InHeap.nodes_without_leaf (inHeap : InHeap heap linkOf tree)
    (root : (heap.node tree.entry).parent = none) {entry : Nat} (notRoot : entry ≠ tree.entry)
    (leaf : (heap.node entry).children = none) {node : Nat × Nat} :
    node ∈ (Kernel.treeRemoveBranch entry tree).nodes ↔
      node ∈ tree.nodes ∧ node.1 ≠ entry := by
  constructor
  · intro member
    obtain ⟨old, different, -⟩ := inHeap.removed_parent root notRoot member
    exact ⟨old, different⟩
  · rintro ⟨member, different⟩
    rw [Tree.nodes_eq, List.mem_cons] at member
    rw [Tree.nodes_eq, treeRemoveBranch_entry, treeRemoveBranch_value, List.mem_cons]
    refine member.imp_right fun below => mem_nodes_treeRemoveBranch ?_ node below different
    intro sub inside isEntry
    rw [← isEntry] at leaf
    exact (inHeap.childless inside).mp leaf

/-! ## Destroying a node -/

/-- `tree_destroy_and_merge` returns, and does to the memory what the abstract function does to the
tree. -/
theorem HoldsTree.destroy (holds : HoldsTree heap linkOf tree) {child : Tree}
    (member : child ∈ subtrees tree) (notRoot : child.entry ≠ tree.entry) :
    ∃ destroyed, Settles (fun fuel => heap.treeDestroyAndMerge fuel (some child.entry)) destroyed ∧
      treeDestroyAndMerge child.entry tree = some (treeRemoveBranch child.entry tree) ∧
      InHeap destroyed linkOf (treeRemoveBranch child.entry tree) := by
  rcases subtree_child member with rfl | ⟨list, listMember, isChild⟩
  · exact absurd rfl notRoot
  have inHeap : InHeap (heap.freeValue child.value) linkOf tree := holds.inHeap.congr rfl rfl
  obtain ⟨destroyed, settles, node, sameChild, -⟩ := inHeap.treeRemoveBranch listMember isChild
  refine ⟨destroyed, ?_, ?_, (inHeap.unlink listMember isChild).congr node sameChild⟩
  · obtain ⟨enough, run⟩ := settles
    refine ⟨enough, fun fuel larger => ?_⟩
    unfold TreeHeap.treeDestroyAndMerge
    dsimp only
    rw [(holds.inHeap list listMember).parent _ (child_mem_kids isChild),
      (holds.inHeap child member).value]
    exact run fuel larger
  · rw [treeDestroyAndMerge, if_neg (Ne.symm notRoot)]

/-- Destroying a node keeps the rest of the tree exactly if the node has no children. -/
theorem HoldsTree.destroy_keepsRest (holds : HoldsTree heap linkOf tree) {child : Tree}
    (member : child ∈ subtrees tree) (notRoot : child.entry ≠ tree.entry) {destroyed : TreeHeap}
    (after : InHeap destroyed linkOf (treeRemoveBranch child.entry tree)) :
    KeepsRest heap destroyed tree (child.entry, child.value) ↔
      (heap.node child.entry).children = none := by
  have childNode : (child.entry, child.value) ∈ tree.nodes := mem_nodes.mpr ⟨child, member, rfl⟩
  constructor
  · intro keeps
    rw [holds.inHeap.childless member]
    cases children : child.children with
    | nil => rfl
    | cons grandchild rest =>
        exfalso
        have isChild : grandchild ∈ child.children := by simp [children]
        have inside := child_mem_subtrees member isChild
        have parent := (holds.inHeap child member).parent _ (child_mem_kids isChild)
        have grandNode : (grandchild.entry, grandchild.value) ∈ tree.nodes :=
          mem_nodes.mpr ⟨grandchild, inside, rfl⟩
        have found := keeps.others _ grandNode fun same =>
          holds.inHeap.acyclic member isChild (self_mem_subtrees grandchild) (Prod.mk.inj same).1
        have missing : Settles (findValue destroyed tree.entry grandchild.value) none := by
          rw [← treeRemoveBranch_entry child.entry tree]
          refine after.findValue_missing fun other otherMember sameValue => ?_
          obtain ⟨old, -, orphan⟩ := holds.inHeap.removed_parent holds.root notRoot otherMember
          rw [holds.distinct _ old _ grandNode sameValue] at orphan
          exact orphan parent
        cases found.unique missing
  · intro leaf
    refine ⟨fun other otherMember different => ?_, ?_, fun other otherMember isChild => ?_⟩
    · rw [← treeRemoveBranch_entry child.entry tree]
      refine after.findValue_node ?_ fun another anotherMember sameValue => ?_
      · rw [holds.inHeap.nodes_without_leaf holds.root notRoot leaf]
        refine ⟨otherMember, fun sameEntry => different ?_⟩
        obtain ⟨sub, subMember, rfl⟩ := mem_nodes.mp otherMember
        rw [(holds.inHeap.below subMember).unique (holds.inHeap.below member) sameEntry]
      · rw [holds.inHeap.nodes_without_leaf holds.root notRoot leaf] at anotherMember
        exact holds.distinct _ anotherMember.1 _ otherMember sameValue
    · rw [← treeRemoveBranch_entry child.entry tree]
      refine after.findValue_missing fun other otherMember sameValue => ?_
      rw [holds.inHeap.nodes_without_leaf holds.root notRoot leaf] at otherMember
      exact otherMember.2 (congrArg Prod.fst (holds.distinct _ otherMember.1 _ childNode sameValue))
    · -- a node without children is nobody's parent
      exfalso
      obtain ⟨sub, subMember, rfl⟩ := mem_nodes.mp otherMember
      rcases subtree_child subMember with rfl | ⟨list, listMember, below⟩
      · rw [holds.root] at isChild
        cases isChild
      · have parent := (holds.inHeap list listMember).parent _ (child_mem_kids below)
        rw [isChild] at parent
        obtain rfl : list = child := (holds.inHeap.below listMember).unique
          (holds.inHeap.below member) (Option.some.inj parent).symm
        rw [(holds.inHeap.childless member).mp leaf] at below
        cases below

/-! ## Removing a node and merging its children -/

/-- The last link of a list that is not empty. -/
theorem lastChild_chain {links : List Nat} {before : Option Nat} {first : Nat}
    (chain : Chain (childNext heap) (childPrev heap) before (some first) links) :
    ∃ last, childNext heap last = none ∧
      ∀ fuel, links.length ≤ fuel → heap.lastChild fuel first = some last := by
  induction links generalizing before first with
  | nil => cases chain
  | cons link rest inductionHypothesis =>
      obtain ⟨same, -, tail⟩ := chain
      obtain rfl : first = link := Option.some.inj same
      cases next : childNext heap first with
      | none =>
          refine ⟨first, next, fun fuel enough => ?_⟩
          cases fuel with
          | zero => simp at enough
          | succ fuel => rw [TreeHeap.lastChild, show (heap.child first).next = none from next]
      | some second =>
          rw [next] at tail
          obtain ⟨last, lastNext, run⟩ := inductionHypothesis tail
          refine ⟨last, lastNext, fun fuel enough => ?_⟩
          cases fuel with
          | zero => simp at enough
          | succ fuel =>
              rw [TreeHeap.lastChild, show (heap.child first).next = some second from next]
              exact run fuel (Nat.le_of_succ_le_succ enough)

/-- `tree_remove_and_merge` never keeps the rest of the tree: a node without children is still found,
and the children of a node keep the freed node as their parent. -/
theorem HoldsTree.merge_keepsRest (holds : HoldsTree heap linkOf tree) {child : Tree}
    (member : child ∈ subtrees tree) (notRoot : child.entry ≠ tree.entry) :
    ∃ merged, Settles (fun fuel => heap.treeRemoveAndMerge fuel (some child.entry)) merged ∧
      ¬ KeepsRest heap merged tree (child.entry, child.value) := by
  rcases subtree_child member with rfl | ⟨list, listMember, isChild⟩
  · exact absurd rfl notRoot
  have there := holds.inHeap list listMember
  have parent := there.parent _ (child_mem_kids isChild)
  have notEmpty : (heap.node list.entry).children ≠ none := by
    rw [Ne, holds.inHeap.childless listMember]
    exact List.ne_nil_of_mem isChild
  obtain ⟨first, firstEq⟩ := Option.ne_none_iff_exists'.mp notEmpty
  have chain := there.chain
  rw [firstEq] at chain
  obtain ⟨last, lastNext, run⟩ := lastChild_chain chain
  refine ⟨(heap.setChild last fun c => { c with next := (heap.node child.entry).children }).freeNode
    child.entry, ⟨((kids list).map linkOf).length, fun fuel enough => ?_⟩, fun keeps => ?_⟩
  · unfold TreeHeap.treeRemoveAndMerge
    dsimp only
    rw [parent]
    dsimp only
    rw [firstEq]
    dsimp only
    rw [run fuel enough]
  · cases children : child.children with
    | nil =>
        -- nothing has been written, and the link to the freed node is still there
        have leaf := (holds.inHeap.childless member).mpr children
        have childNode : (child.entry, child.value) ∈ tree.nodes :=
          mem_nodes.mpr ⟨child, member, rfl⟩
        generalize mergedEq : (heap.setChild last fun c =>
          { c with next := (heap.node child.entry).children }).freeNode child.entry = merged at keeps
        have sameNode : merged.node = heap.node := by
          rw [← mergedEq]
          rfl
        have sameChild : merged.child = heap.child := by
          rw [← mergedEq, leaf, ← lastNext]
          exact Function.update_eq_self last heap.child
        have found := (holds.inHeap.congr sameNode sameChild).findValue_node childNode
          fun other inside sameValue => holds.distinct _ inside _ childNode sameValue
        cases found.unique keeps.removed
    | cons grandchild rest =>
        have below : grandchild ∈ child.children := by simp [children]
        have own := (holds.inHeap child member).parent _ (child_mem_kids below)
        have moved := keeps.children (grandchild.entry, grandchild.value)
          (mem_nodes.mpr ⟨grandchild, child_mem_subtrees member below, rfl⟩) own
        change (heap.node grandchild.entry).parent = (heap.node child.entry).parent at moved
        rw [own, parent] at moved
        exact holds.inHeap.acyclic listMember isChild (self_mem_subtrees child)
          (Option.some.inj moved)

/-! ## The process table -/

/-- The tree without a leaf is in allocated memory. -/
theorem HoldsTree.remove_leaf (holds : HoldsTree heap linkOf tree) {list child : Tree}
    (listMember : list ∈ subtrees tree) (isChild : child ∈ list.children)
    (notRoot : child.entry ≠ tree.entry) (leaf : (heap.node child.entry).children = none) :
    HoldsTree ((heap.unlinkEntry list.entry (linkOf child.entry)).freeNode child.entry) linkOf
      (treeRemoveBranch child.entry tree) := by
  have there := holds.inHeap list listMember
  have kidMember := child_mem_kids isChild
  obtain ⟨unlinked, -⟩ := there.unlink kidMember
  refine ⟨(holds.inHeap.unlink listMember isChild).congr rfl rfl, ?_, ?_, ?_⟩
  · intro sub' member'
    obtain ⟨sub, member, rfl, which⟩ := subtrees_treeRemoveBranch member'
    obtain ⟨alive, links⟩ := holds.live sub member
    have different : sub.entry ≠ child.entry := by
      rcases which with rfl | different
      · exact Ne.symm notRoot
      · exact different
    rw [treeRemoveBranch_entry, kids_treeRemoveBranch]
    refine ⟨?_, fun kid inside => ?_⟩
    · change Function.update (heap.unlinkEntry list.entry (linkOf child.entry)).liveNode child.entry
        false sub.entry = true
      rw [Function.update_of_ne different, unlinked.live.1]
      exact alive
    · obtain ⟨isKid, kept⟩ := List.mem_filter.mp inside
      change (heap.unlinkEntry list.entry (linkOf child.entry)).liveChild (linkOf kid) = true
      rw [unlinked.live.2.2, Function.update_of_ne]
      · exact links kid isKid
      · intro sameLink
        have same := (holds.inHeap sub member).linked kid isKid
        rw [sameLink, there.linked _ kidMember] at same
        simp [same] at kept
  · rw [treeRemoveBranch_entry]
    change ((heap.unlinkEntry list.entry (linkOf child.entry)).node tree.entry).parent = none
    by_cases isList : tree.entry = list.entry
    · rw [isList, unlinked.back, ← isList]
      exact holds.root
    · rw [unlinked.other _ isList]
      exact holds.root
  · intro one oneMember two twoMember same
    rw [holds.inHeap.nodes_without_leaf holds.root notRoot leaf] at oneMember twoMember
    exact holds.distinct one oneMember.1 two twoMember.1 same

/-- The tree of the table holds exactly the live processes, each at the node its record names. -/
structure TableHolds (table : ProcessTable) (linkOf : Nat → Nat) (tree : Tree) : Prop where
  holds : HoldsTree table.heap linkOf tree
  root : tree.entry = table.processTree
  stored : ∀ node ∈ tree.nodes, node.2 ≠ 0 ∧ table.heap.liveValue node.2 = true ∧
    (table.processes node.2).treeEntry = some node.1
  alive : ∀ process, table.heap.liveValue process = true → ∃ entry, (entry, process) ∈ tree.nodes
  pidBound : ∀ process, table.heap.liveValue process = true →
    (table.processes process).pid ≤ table.currentPid
  pidInj : ∀ one two, table.heap.liveValue one = true → table.heap.liveValue two = true →
    (table.processes one).pid = (table.processes two).pid → one = two

/-- The invariant: the tree holds the live processes, or there are none. -/
def TableSound (table : ProcessTable) : Prop :=
  (∃ linkOf tree, TableHolds table linkOf tree) ∨
    ∀ process, table.heap.liveValue process = false

theorem TableHolds.findsLive {table : ProcessTable} (inv : TableHolds table linkOf tree) :
    FindsLive table := by
  intro process alive
  obtain ⟨entry, member⟩ := inv.alive process alive
  obtain ⟨nonzero, -, -⟩ := inv.stored _ member
  obtain ⟨found, search, same⟩ := @treeFind_only tree
    (table.pidComparator (table.processes process).pid) _ member
    (by simp [ProcessTable.pidComparator, nonzero]) (fun other inside accepted => by
      have samePid : (table.processes other.2).pid = (table.processes process).pid := by
        simp only [ProcessTable.pidComparator, Bool.and_eq_true, decide_eq_true_eq] at accepted
        exact accepted.2
      exact inv.holds.distinct _ inside _ member
        (inv.pidInj _ _ (inv.stored other inside).2.1 alive samePid))
  obtain ⟨enough, settles⟩ := inv.holds.inHeap.treeFind_settles
    (table.pidComparator (table.processes process).pid)
  refine ⟨enough, fun fuel larger => ?_⟩
  obtain ⟨rfl, isProcess⟩ := Prod.mk.inj same
  obtain ⟨sub, subMember, subEq⟩ := mem_nodes.mp member
  obtain ⟨subEntry, subValue⟩ := Prod.mk.inj subEq
  have searched := settles fuel larger
  dsimp only at searched
  unfold ProcessTable.getProcess
  rw [← inv.root, searched, search, Option.map_some, Option.map_some, Option.map_some,
    ← subEntry, (inv.holds.inHeap sub subMember).value, subValue]

/-- A fork inserts the new process below its parent. -/
theorem TableHolds.fork {table : ProcessTable} {parent process node link : Nat}
    (inv : TableHolds table linkOf tree) (parentAlive : table.heap.liveValue parent = true)
    (nonzero : process ≠ 0) (newProcess : table.heap.liveValue process = false)
    (fresh : FreshBlocks table.heap node link) :
    ∃ linkOf' tree', TableHolds (table.spawnProcess parent process node link) linkOf' tree' := by
  obtain ⟨entry, member⟩ := inv.alive parent parentAlive
  have isEntry := (inv.stored _ member).2.2
  dsimp only at isEntry
  generalize madeEq : ({ table.heap with
    liveValue := Function.update table.heap.liveValue process true } : TreeHeap) = made
  have holds : HoldsTree made linkOf tree := by
    rw [← madeEq]
    exact ⟨inv.holds.inHeap.congr rfl rfl, inv.holds.live, inv.holds.root, inv.holds.distinct⟩
  have madeFresh : FreshBlocks made node link := by
    rw [← madeEq]
    exact ⟨fresh.node, fresh.link⟩
  have inside : entry ∈ tree.nodes.map Prod.fst := List.mem_map.mpr ⟨_, member, rfl⟩
  have isNew : ∀ other ∈ tree.nodes, other.2 ≠ process := by
    intro other otherMember same
    have alive := (inv.stored other otherMember).2.1
    rw [same, newProcess] at alive
    cases alive
  obtain ⟨returned, inserted, after⟩ := holds.insert madeFresh inside nonzero isNew
  have shape : table.spawnProcess parent process node link =
      { table with
        currentPid := table.currentPid + 1
        processes := Function.update table.processes process
          { pid := table.currentPid + 1, treeEntry := some node }
        heap := (made.treeInsertValue node link (some entry) process).2 } := by
    unfold ProcessTable.spawnProcess
    dsimp only
    rw [isEntry, madeEq, returned]
  have liveEq : (made.treeInsertValue node link (some entry) process).2.liveValue =
      Function.update table.heap.liveValue process true := by
    rw [inserted.live.2.2, ← madeEq]
  rw [shape]
  -- the records and the pids of the old processes are what they were
  have known : ∀ {other}, Function.update table.heap.liveValue process true other = true →
      other ≠ process → table.heap.liveValue other = true := by
    intro other alive different
    rwa [Function.update_of_ne different] at alive
  refine ⟨_, _, after, (treeInsertValue_entry ..).trans inv.root, ?_, ?_, ?_, ?_⟩
  · intro other otherMember
    rw [nodes_treeInsertValue inside] at otherMember
    dsimp only
    rw [liveEq]
    rcases otherMember with rfl | old
    · exact ⟨nonzero, Function.update_self .., by rw [Function.update_self]⟩
    · obtain ⟨notNull, alive, ownEntry⟩ := inv.stored other old
      rw [Function.update_of_ne (isNew other old), Function.update_of_ne (isNew other old)]
      exact ⟨notNull, alive, ownEntry⟩
  · intro other alive
    dsimp only at alive
    rw [liveEq] at alive
    by_cases isProcess : other = process
    · exact ⟨node, (nodes_treeInsertValue inside).mpr (Or.inl (by rw [isProcess]))⟩
    · obtain ⟨ownEntry, old⟩ := inv.alive other (known alive isProcess)
      exact ⟨ownEntry, (nodes_treeInsertValue inside).mpr (Or.inr old)⟩
  · intro other alive
    dsimp only at alive ⊢
    rw [liveEq] at alive
    by_cases isProcess : other = process
    · exact Int.le_of_eq (by rw [isProcess, Function.update_self])
    · rw [Function.update_of_ne isProcess]
      exact Int.le_add_one (inv.pidBound other (known alive isProcess))
  · intro one two oneAlive twoAlive same
    dsimp only at oneAlive twoAlive same
    rw [liveEq] at oneAlive twoAlive
    by_cases oneNew : one = process <;> by_cases twoNew : two = process
    · rw [oneNew, twoNew]
    · rw [oneNew, Function.update_self, Function.update_of_ne twoNew] at same
      have bound := inv.pidBound two (known twoAlive twoNew)
      dsimp only at same
      omega
    · rw [twoNew, Function.update_self, Function.update_of_ne oneNew] at same
      have bound := inv.pidBound one (known oneAlive oneNew)
      dsimp only at same
      omega
    · rw [Function.update_of_ne oneNew, Function.update_of_ne twoNew] at same
      exact inv.pidInj one two (known oneAlive oneNew) (known twoAlive twoNew) same

/-- Destroying the root of a tree without other nodes frees its value and the root. -/
theorem treeDestroyAndMerge_root {fuel root : Nat} {destroyed : TreeHeap}
    (isRoot : (heap.node root).parent = none) (leaf : (heap.node root).children = none)
    (destroy : heap.treeDestroyAndMerge fuel (some root) = some destroyed) :
    destroyed = (heap.freeValue (heap.node root).value).freeNode root := by
  unfold TreeHeap.treeDestroyAndMerge at destroy
  dsimp only at destroy
  rw [isRoot] at destroy
  unfold TreeHeap.treeDestroyBranch at destroy
  dsimp only at destroy
  cases fuel with
  | zero => cases destroy
  | succ fuel =>
      cases fuel with
      | zero =>
          rw [TreeHeap.treeFreeValues, leaf] at destroy
          cases destroy
      | succ fuel =>
          have values : heap.treeFreeValues (fuel + 2) (some root) =
              some (heap.freeValue (heap.node root).value) := by
            rw [TreeHeap.treeFreeValues, leaf]
            rfl
          have parentless : ((heap.freeValue (heap.node root).value).node root).parent = none := isRoot
          have childless : ((heap.freeValue (heap.node root).value).node root).children = none := leaf
          rw [values] at destroy
          unfold TreeHeap.treeRemoveBranch at destroy
          dsimp only at destroy
          rw [parentless] at destroy
          dsimp only at destroy
          rw [TreeHeap.treeFreeNodes, childless] at destroy
          exact (Option.some.inj destroy).symm

/-- After the last process, the root, there is no live process. -/
theorem TableHolds.delete_root {fuel : Nat} {table : ProcessTable} {destroyed : TreeHeap}
    (inv : TableHolds table linkOf tree) (leaf : (table.heap.node tree.entry).children = none)
    (destroy : table.heap.treeDestroyAndMerge fuel (some tree.entry) = some destroyed)
    (process : Nat) : (destroyed.freeValue tree.value).liveValue process = false := by
  have self := self_mem_subtrees tree
  rw [treeDestroyAndMerge_root inv.holds.root leaf destroy, (inv.holds.inHeap tree self).value]
  change Function.update (Function.update table.heap.liveValue tree.value false) tree.value false
    process = false
  rw [Function.update_idem]
  by_cases same : process = tree.value
  · rw [same, Function.update_self]
  · rw [Function.update_of_ne same]
    by_contra alive
    obtain ⟨entry, member⟩ := inv.alive process (by simpa using alive)
    rw [Tree.nodes_eq, Tree.descendants, (inv.holds.inHeap.childless self).mp leaf] at member
    exact same (Prod.mk.inj (List.mem_singleton.mp member)).2

/-- The process at a node without children leaves the tree and the live processes. -/
theorem TableHolds.delete_child {fuel : Nat} {table : ProcessTable} {destroyed : TreeHeap}
    {list child : Tree} (inv : TableHolds table linkOf tree) (listMember : list ∈ subtrees tree)
    (isChild : child ∈ list.children) (leaf : (table.heap.node child.entry).children = none)
    (destroy : table.heap.treeDestroyAndMerge fuel (some child.entry) = some destroyed) :
    TableHolds { table with heap := destroyed.freeValue child.value } linkOf
      (treeRemoveBranch child.entry tree) := by
  have childMember := child_mem_subtrees listMember isChild
  have childNode : (child.entry, child.value) ∈ tree.nodes := mem_nodes.mpr ⟨child, childMember, rfl⟩
  have parent := (inv.holds.inHeap list listMember).parent _ (child_mem_kids isChild)
  have notRoot : child.entry ≠ tree.entry := by
    intro same
    rw [same, inv.holds.root] at parent
    cases parent
  have holds : HoldsTree (table.heap.freeValue child.value) linkOf tree :=
    ⟨inv.holds.inHeap.congr rfl rfl, inv.holds.live, inv.holds.root, inv.holds.distinct⟩
  have removed : (table.heap.freeValue child.value).treeRemoveBranch fuel (some child.entry) =
      some destroyed := by
    unfold TreeHeap.treeDestroyAndMerge at destroy
    dsimp only at destroy
    rwa [parent, (inv.holds.inHeap child childMember).value] at destroy
  have shape := holds.inHeap.treeRemoveBranch_leaf listMember isChild leaf removed
  obtain ⟨unlinked, -⟩ := (holds.inHeap list listMember).unlink (child_mem_kids isChild)
  have live : (destroyed.freeValue child.value).liveValue =
      Function.update table.heap.liveValue child.value false := by
    rw [shape]
    change Function.update ((table.heap.freeValue child.value).unlinkEntry list.entry
      (linkOf child.entry)).liveValue child.value false = _
    rw [unlinked.live.2.1]
    exact Function.update_idem ..
  have remains : ∀ {process}, (destroyed.freeValue child.value).liveValue process = true →
      table.heap.liveValue process = true ∧ process ≠ child.value := by
    intro process alive
    rw [live] at alive
    by_cases same : process = child.value
    · simp [same] at alive
    · rw [Function.update_of_ne same] at alive
      exact ⟨alive, same⟩
  have nodes : ∀ {node}, node ∈ (treeRemoveBranch child.entry tree).nodes ↔
      node ∈ tree.nodes ∧ node.1 ≠ child.entry := by
    intro node
    exact inv.holds.inHeap.nodes_without_leaf inv.holds.root notRoot leaf
  have after := holds.remove_leaf listMember isChild notRoot leaf
  refine ⟨?_, (treeRemoveBranch_entry ..).trans inv.root, ?_, ?_, ?_, ?_⟩
  · rw [shape]
    exact ⟨after.inHeap.congr rfl rfl, after.live, after.root, after.distinct⟩
  · intro node nodeMember
    obtain ⟨old, different⟩ := nodes.mp nodeMember
    obtain ⟨notNull, nodeAlive, ownEntry⟩ := inv.stored node old
    refine ⟨notNull, ?_, ownEntry⟩
    dsimp only
    rw [live, Function.update_of_ne]
    · exact nodeAlive
    · intro same
      exact different (congrArg Prod.fst (inv.holds.distinct _ old _ childNode same))
  · intro process alive
    obtain ⟨processAlive, different⟩ := remains alive
    obtain ⟨entry, member⟩ := inv.alive process processAlive
    refine ⟨entry, nodes.mpr ⟨member, fun same => different ?_⟩⟩
    obtain ⟨top, topMember, topEq⟩ := mem_nodes.mp member
    obtain ⟨topEntry, topValue⟩ := Prod.mk.inj topEq
    rw [← topValue, (inv.holds.inHeap.below topMember).unique
      (inv.holds.inHeap.below childMember) (topEntry.trans same)]
  · intro process alive
    exact inv.pidBound process (remains alive).1
  · intro one two oneAlive twoAlive
    exact inv.pidInj one two (remains oneAlive).1 (remains twoAlive).1

/-- The deletion of a process without children keeps the invariant. -/
theorem TableHolds.delete {fuel process : Nat} {table after : ProcessTable}
    (inv : TableHolds table linkOf tree) (alive : table.heap.liveValue process = true)
    (leaf : DeletesLeaf table (.delete process))
    (deleted : table.processDelete fuel process = some after) : TableSound after := by
  obtain ⟨entry, member⟩ := inv.alive process alive
  obtain ⟨nonzero, -, isEntry⟩ := inv.stored _ member
  have childless := leaf process rfl entry isEntry
  obtain ⟨sub, subMember, subEq⟩ := mem_nodes.mp member
  obtain ⟨rfl, rfl⟩ := Prod.mk.inj subEq
  unfold ProcessTable.processDelete at deleted
  rw [if_neg nonzero, isEntry] at deleted
  dsimp only at deleted
  cases destroy : table.heap.treeDestroyAndMerge fuel (some sub.entry) with
  | none =>
      rw [destroy] at deleted
      cases deleted
  | some destroyed =>
      rw [destroy] at deleted
      cases deleted
      rcases subtree_child subMember with rfl | ⟨list, listMember, isChild⟩
      · exact Or.inr (inv.delete_root childless destroy)
      · exact Or.inl ⟨linkOf, _, inv.delete_child listMember isChild childless destroy⟩

/-- One step of the process table. -/
theorem TableSound.step {fuel : Nat} {table after : ProcessTable} {op : TableOp}
    (inv : TableSound table) (leaf : DeletesLeaf table op)
    (taken : tableStep fuel table op = some after) : TableSound after := by
  cases op with
  | fork parent process node link =>
      rw [tableStep] at taken
      split at taken
      · rename_i guard
        obtain ⟨parentAlive, nonzero, newProcess, newNode, newLink⟩ := guard
        cases taken
        rcases inv with ⟨linkOf, tree, inv⟩ | none
        · exact Or.inl (inv.fork parentAlive nonzero (by simpa using newProcess)
            ⟨by simpa using newNode, by simpa using newLink⟩)
        · rw [none parent] at parentAlive
          cases parentAlive
      · cases taken
  | delete process =>
      rw [tableStep] at taken
      split at taken
      · rename_i alive
        rcases inv with ⟨linkOf, tree, inv⟩ | none
        · exact inv.delete alive leaf taken
        · rw [none process] at alive
          cases alive
      · cases taken

/-- The table after `process_tree_init` and `spawn_init`. -/
theorem TableSound.init {root init : Nat} (nonzero : init ≠ 0) :
    TableSound (processTreeInit root init) := by
  have onlyInit : ∀ {process}, (processTreeInit root init).heap.liveValue process = true →
      process = init := by
    intro process alive
    by_contra different
    change Function.update emptyTreeHeap.liveValue init true process = true at alive
    rw [Function.update_of_ne different] at alive
    cases alive
  have nodes : ∀ {node}, node ∈ (Kernel.Tree.node root init []).nodes ↔ node = (root, init) := by
    intro node
    rw [Tree.nodes, Tree.nodesChildren, List.mem_singleton]
  refine Or.inl ⟨id, .node root init [], HoldsTree.single ?_ ?_, rfl, ?_, ?_, ?_, ?_⟩
  · simp [processTreeInit, TreeHeap.setNode, TreeHeap.treeCreate]
  · simp [processTreeInit, TreeHeap.setNode, TreeHeap.treeCreate]
  · intro node member
    rw [nodes.mp member]
    refine ⟨nonzero, ?_, ?_⟩
    · simp [processTreeInit]
    · simp [processTreeInit]
  · intro process alive
    exact ⟨root, nodes.mpr (by rw [onlyInit alive])⟩
  · intro process alive
    rw [onlyInit alive]
    simp [processTreeInit]
  · intro one two oneAlive twoAlive _
    rw [onlyInit oneAlive, onlyInit twoAlive]

/-! ## The removals -/

/-- For every node but the root of a tree that `tree_insert_value` built: `tree_destroy_and_merge`
returns and keeps the rest of the tree exactly if the node has no children, and
`tree_remove_and_merge` returns and never keeps it. In every run of forks and deletions in which only
processes without children are deleted, `get_process` finds every live process. -/
theorem tree_removal_iff {heap : TreeHeap} {tree : Tree} {node : Nat × Nat}
    {fuel root init : Nat} {ops : List TableOp} {table : ProcessTable}
    (built : Built heap tree) (member : node ∈ tree.nodes) (notRoot : node.1 ≠ tree.entry)
    (nonzero : init ≠ 0)
    (run : Run (tableStep fuel) DeletesLeaf (processTreeInit root init) ops table) :
    (∃ destroyed, Settles (fun fuel => heap.treeDestroyAndMerge fuel (some node.1)) destroyed ∧
      (KeepsRest heap destroyed tree node ↔ (heap.node node.1).children = none)) ∧
    (∃ merged, Settles (fun fuel => heap.treeRemoveAndMerge fuel (some node.1)) merged ∧
      ¬ KeepsRest heap merged tree node) ∧
    FindsLive table := by
  obtain ⟨linkOf, holds⟩ := built.holds
  obtain ⟨sub, subMember, rfl⟩ := mem_nodes.mp member
  obtain ⟨destroyed, settles, -, after⟩ := holds.destroy subMember notRoot
  refine ⟨⟨destroyed, settles, holds.destroy_keepsRest subMember notRoot after⟩,
    holds.merge_keepsRest subMember notRoot, ?_⟩
  have sound : TableSound table := Run.invariant
    (fun _ _ _ leaf taken inv => TableSound.step inv leaf taken) run (TableSound.init nonzero)
  rcases sound with ⟨linkOf, tree, inv⟩ | none
  · exact inv.findsLive
  · intro process alive
    rw [none process] at alive
    cases alive

/-- A root with value 10, its child 2 with value 20, and below that the node 3 with value 30. -/
theorem built_example : ∃ heap tree, Built heap tree ∧ tree.entry = 1 ∧
    tree.nodes = [(1, 10), (2, 20), (3, 30)] ∧ (heap.node 2).children = some 102 ∧
    (heap.node 3).children = none := by
  have first := @Built.insert _ _ 1 2 101 20 (.create emptyTreeHeap 1 10) (by decide) (by decide)
    (by decide) ⟨by decide, by decide⟩
  exact ⟨_, _, @Built.insert _ _ 2 3 102 30 first (by decide) (by decide) (by decide)
    ⟨by decide, by decide⟩, rfl, by decide, by decide, by decide⟩

/-- The last node of this tree is removed, and a process is forked and deleted. -/
theorem tree_removal_iff_example :
    (∃ heap tree destroyed, Built heap tree ∧
      Settles (fun fuel => heap.treeDestroyAndMerge fuel (some 3)) destroyed ∧
      KeepsRest heap destroyed tree (3, 30)) ∧
    ∃ table, Run (tableStep 9) DeletesLeaf (processTreeInit 1 10)
      [.fork 10 20 2 101, .delete 20] table ∧ FindsLive table := by
  have run : ∃ table, Run (tableStep 9) DeletesLeaf (processTreeInit 1 10)
      [.fork 10 20 2 101, .delete 20] table := by
    refine ⟨_, .head ?_ rfl (.head ?_ rfl (.refl _))⟩
    · intro process isDelete
      cases isDelete
    · intro process isDelete entry isEntry
      cases isDelete
      cases isEntry
      rfl
  obtain ⟨table, run⟩ := run
  obtain ⟨heap, tree, built, root, nodes, -, leaf⟩ := built_example
  obtain ⟨⟨destroyed, settles, keeps⟩, -, finds⟩ := tree_removal_iff built
    (show (3, 30) ∈ tree.nodes by rw [nodes]; decide) (by rw [root]; decide) (by decide) run
  exact ⟨⟨heap, tree, destroyed, built, settles, keeps.mpr leaf⟩, table, run, finds⟩

/-- Removing the node 2 loses the value 30 below it, and `get_process` does not find a live process
whose parent has been deleted. -/
theorem removal_loses_children :
    (∃ heap tree destroyed, Built heap tree ∧ (2, 20) ∈ tree.nodes ∧
      Settles (fun fuel => heap.treeDestroyAndMerge fuel (some 2)) destroyed ∧
      ¬ KeepsRest heap destroyed tree (2, 20)) ∧
    (Run.exec (tableStep 9) (processTreeInit 1 10)
      [.fork 10 20 2 101, .fork 20 30 3 102, .delete 20]).map (fun table =>
        (table.heap.liveValue 30, (table.processes 30).pid, table.getProcess 3 9)) =
      some (true, 3, some none) := by
  constructor
  · obtain ⟨heap, tree, built, root, nodes, children, -⟩ := built_example
    obtain ⟨linkOf, holds⟩ := built.holds
    have node : (2, 20) ∈ tree.nodes := by rw [nodes]; decide
    obtain ⟨sub, member, same⟩ := mem_nodes.mp node
    obtain ⟨isEntry, isValue⟩ := Prod.mk.inj same
    have notRoot : sub.entry ≠ tree.entry := by rw [isEntry, root]; decide
    obtain ⟨destroyed, settles, -, after⟩ := holds.destroy member notRoot
    have keeps := holds.destroy_keepsRest member notRoot after
    rw [isEntry, isValue, children] at keeps
    rw [isEntry] at settles
    exact ⟨heap, tree, destroyed, built, node, settles, fun rest => by cases keeps.mp rest⟩
  · decide +kernel

end Voxel.Proofs
