/-
Module: Voxel.Proofs.TreeHeap
Layer: Proofs
Purpose: The memory of the process tree refines the abstract tree. A heap stores a tree when every
  node of the tree finds its value, its doubly linked list of children and the parent pointers of
  these children in the memory; the memory then determines the tree. `tree_find`, `tree_insert_value`
  and `tree_destroy_and_merge` do to the memory what the abstract functions do to the tree.
Trusted boundary: none
Main exports: subtrees, NodeAt, InHeap, InHeap.treeFind, InHeap.unique, InHeap.insert, InHeap.unlink
-/
import Voxel.Kernel.Tree
import Voxel.Kernel.ProcessTree
import Voxel.Lib.DoubleList
import Voxel.Lib.Loop

namespace Voxel.Proofs

open Voxel.Kernel
open Voxel.Lib

/-! ## The subtrees of a tree -/

mutual

/-- A tree and everything below it, in pre-order. -/
def subtrees : Tree → List Tree
  | .node entry value children => .node entry value children :: subtreesBelow children

def subtreesBelow : List Tree → List Tree
  | [] => []
  | child :: rest => subtrees child ++ subtreesBelow rest

end

theorem mem_subtreesBelow {children : List Tree} {tree : Tree} :
    tree ∈ subtreesBelow children ↔ ∃ child ∈ children, tree ∈ subtrees child := by
  induction children with
  | nil => simp [subtreesBelow]
  | cons child rest inductionHypothesis => simp [subtreesBelow, inductionHypothesis]

theorem mem_subtrees {tree sub : Tree} :
    sub ∈ subtrees tree ↔ sub = tree ∨ ∃ child ∈ tree.children, sub ∈ subtrees child := by
  cases tree with
  | node entry value children => rw [subtrees, List.mem_cons, mem_subtreesBelow]; rfl

theorem self_mem_subtrees (tree : Tree) : tree ∈ subtrees tree := mem_subtrees.mpr (Or.inl rfl)

mutual

theorem subtrees_trans : ∀ {tree sub below : Tree}, sub ∈ subtrees tree → below ∈ subtrees sub →
    below ∈ subtrees tree
  | .node entry value children, sub, below, member, deeper => by
      rcases List.mem_cons.mp (by rwa [subtrees] at member) with rfl | later
      · exact deeper
      · rw [subtrees]
        exact List.mem_cons_of_mem _ (subtreesBelow_trans later deeper)

theorem subtreesBelow_trans : ∀ {children : List Tree} {sub below : Tree},
    sub ∈ subtreesBelow children → below ∈ subtrees sub → below ∈ subtreesBelow children
  | [], sub, below, member, deeper => by simp [subtreesBelow] at member
  | child :: rest, sub, below, member, deeper => by
      rw [subtreesBelow, List.mem_append] at member ⊢
      exact member.imp (subtrees_trans · deeper) (subtreesBelow_trans · deeper)

end

/-- A child of a subtree is a subtree. -/
theorem child_mem_subtrees {tree sub child : Tree} (member : sub ∈ subtrees tree)
    (isChild : child ∈ sub.children) : child ∈ subtrees tree :=
  subtrees_trans member (mem_subtrees.mpr (Or.inr ⟨child, isChild, self_mem_subtrees child⟩))

theorem sizeOf_child {tree child : Tree} (member : child ∈ tree.children) :
    sizeOf child < sizeOf tree := by
  cases tree with
  | node entry value children =>
      have smaller := List.sizeOf_lt_of_mem (show child ∈ children from member)
      simp only [Tree.node.sizeOf_spec]
      omega

/-- Every node but the root is a child of some node. -/
theorem subtree_child : ∀ {tree sub : Tree}, sub ∈ subtrees tree →
    sub = tree ∨ ∃ list ∈ subtrees tree, sub ∈ list.children
  | tree, sub, member => by
      rcases mem_subtrees.mp member with rfl | ⟨child, isChild, inside⟩
      · exact Or.inl rfl
      · right
        rcases subtree_child inside with rfl | ⟨list, listMember, below⟩
        · exact ⟨tree, self_mem_subtrees tree, isChild⟩
        · exact ⟨list, subtrees_trans (child_mem_subtrees (self_mem_subtrees tree) isChild) listMember,
            below⟩
termination_by tree => sizeOf tree
decreasing_by exact sizeOf_child isChild

mutual

theorem sizeOf_subtree : ∀ {tree sub : Tree}, sub ∈ subtrees tree → sizeOf sub ≤ sizeOf tree
  | .node entry value children, sub, member => by
      rcases List.mem_cons.mp (by rwa [subtrees] at member) with rfl | later
      · exact Nat.le_refl _
      · have smaller := sizeOf_subtreeBelow later
        simp only [Tree.node.sizeOf_spec]
        omega

theorem sizeOf_subtreeBelow : ∀ {children : List Tree} {sub : Tree}, sub ∈ subtreesBelow children →
    sizeOf sub ≤ sizeOf children
  | [], sub, member => by simp [subtreesBelow] at member
  | child :: rest, sub, member => by
      rw [subtreesBelow, List.mem_append] at member
      simp only [List.cons.sizeOf_spec]
      rcases member with first | later
      · have smaller := sizeOf_subtree first
        omega
      · have smaller := sizeOf_subtreeBelow later
        omega

end

mutual

/-- The nodes of a tree are the roots of its subtrees. -/
theorem mem_nodes : ∀ {tree : Tree} {node : Nat × Nat},
    node ∈ tree.nodes ↔ ∃ sub ∈ subtrees tree, (sub.entry, sub.value) = node
  | .node entry value children, node => by
      rw [Tree.nodes, subtrees, List.mem_cons, mem_nodesChildren]
      constructor
      · rintro (rfl | ⟨sub, member, same⟩)
        · exact ⟨_, List.mem_cons_self, rfl⟩
        · exact ⟨sub, List.mem_cons_of_mem _ member, same⟩
      · rintro ⟨sub, member, same⟩
        rcases List.mem_cons.mp member with rfl | below
        · exact Or.inl same.symm
        · exact Or.inr ⟨sub, below, same⟩

theorem mem_nodesChildren : ∀ {children : List Tree} {node : Nat × Nat},
    node ∈ Tree.nodesChildren children ↔
      ∃ sub ∈ subtreesBelow children, (sub.entry, sub.value) = node
  | [], node => by simp [Tree.nodesChildren, subtreesBelow]
  | child :: rest, node => by
      rw [Tree.nodesChildren, subtreesBelow, List.mem_append, mem_nodes, mem_nodesChildren]
      constructor
      · rintro (⟨sub, member, same⟩ | ⟨sub, member, same⟩)
        · exact ⟨sub, List.mem_append_left _ member, same⟩
        · exact ⟨sub, List.mem_append_right _ member, same⟩
      · rintro ⟨sub, member, same⟩
        rcases List.mem_append.mp member with first | later
        · exact Or.inl ⟨sub, first, same⟩
        · exact Or.inr ⟨sub, later, same⟩

end

/-- The entries of the children. -/
def kids (tree : Tree) : List Nat := tree.children.map Tree.entry

theorem child_mem_kids {tree child : Tree} (member : child ∈ tree.children) :
    child.entry ∈ kids tree := List.mem_map_of_mem member

/-! ## A tree in memory -/

/-- `child->next` and `child->prev`. -/
def childNext (heap : TreeHeap) (link : Nat) : Option Nat := (heap.child link).next

def childPrev (heap : TreeHeap) (link : Nat) : Option Nat := (heap.child link).prev

/-- What the memory says about one node: its value, the links of its children and the children's way
back. `linkOf` names the link through which a node hangs below its parent. -/
structure NodeAt (heap : TreeHeap) (linkOf : Nat → Nat) (entry value : Nat) (below : List Nat) :
    Prop where
  value : (heap.node entry).value = value
  chain : Chain (childNext heap) (childPrev heap) none (heap.node entry).children (below.map linkOf)
  distinct : below.Nodup
  linked : ∀ kid ∈ below, (heap.child (linkOf kid)).value = kid
  parent : ∀ kid ∈ below, (heap.node kid).parent = some entry

/-- Every node of the tree is in memory. -/
def InHeap (heap : TreeHeap) (linkOf : Nat → Nat) (tree : Tree) : Prop :=
  ∀ sub ∈ subtrees tree, NodeAt heap linkOf sub.entry sub.value (kids sub)

/-- Every block of the tree is allocated. -/
def LiveTree (heap : TreeHeap) (linkOf : Nat → Nat) (tree : Tree) : Prop :=
  ∀ sub ∈ subtrees tree, heap.liveNode sub.entry = true ∧
    ∀ kid ∈ kids sub, heap.liveChild (linkOf kid) = true

section

variable {heap heap' : TreeHeap} {linkOf : Nat → Nat} {tree sub : Tree}

theorem InHeap.below (stored : InHeap heap linkOf tree) (member : sub ∈ subtrees tree) :
    InHeap heap linkOf sub :=
  fun deeper inside => stored deeper (subtrees_trans member inside)

theorem InHeap.child (stored : InHeap heap linkOf tree) {child : Tree}
    (member : child ∈ tree.children) : InHeap heap linkOf child :=
  stored.below (child_mem_subtrees (self_mem_subtrees tree) member)

/-- Only the records of the blocks matter. -/
theorem InHeap.congr (stored : InHeap heap linkOf tree) (node : heap'.node = heap.node)
    (child : heap'.child = heap.child) : InHeap heap' linkOf tree := by
  intro sub member
  obtain ⟨value, chain, distinct, linked, parent⟩ := stored sub member
  have next : childNext heap' = childNext heap := by
    funext link
    rw [childNext, child, childNext]
  have prev : childPrev heap' = childPrev heap := by
    funext link
    rw [childPrev, child, childPrev]
  refine ⟨by rw [node]; exact value, by rw [node, next, prev]; exact chain, distinct, ?_, ?_⟩
  · rw [child]
    exact linked
  · rw [node]
    exact parent

/-- The links lead to the children. -/
theorem NodeAt.links_values {entry value : Nat} {below : List Nat}
    (here : NodeAt heap linkOf entry value below) :
    (below.map linkOf).map (fun link => (heap.child link).value) = below := by
  rw [List.map_map]
  exact (List.map_congr_left here.linked).trans (List.map_id' below)

/-- Different children hang from different links. -/
theorem NodeAt.links_nodup {entry value : Nat} {below : List Nat}
    (here : NodeAt heap linkOf entry value below) : (below.map linkOf).Nodup := by
  refine List.Nodup.of_map (fun link => (heap.child link).value) ?_
  rw [here.links_values]
  exact here.distinct

/-- The children of different nodes hang from different links. -/
theorem NodeAt.links_apart {entry value entry' value' : Nat} {below below' : List Nat}
    (here : NodeAt heap linkOf entry value below) (there : NodeAt heap linkOf entry' value' below')
    (different : entry ≠ entry') {kid kid' : Nat} (member : kid ∈ below) (member' : kid' ∈ below') :
    linkOf kid ≠ linkOf kid' := by
  intro same
  have sameKid : kid = kid' := by
    rw [← here.linked kid member, same, there.linked kid' member']
  have parent := here.parent kid member
  rw [sameKid, there.parent kid' member'] at parent
  exact different (Option.some.inj parent).symm

mutual

/-- The memory determines the tree. -/
theorem InHeap.unique : ∀ {one two : Tree}, InHeap heap linkOf one → InHeap heap linkOf two →
    one.entry = two.entry → one = two
  | .node entry value children, .node entry' value' children', one, two, same => by
      obtain rfl : entry = entry' := same
      have here := one _ (self_mem_subtrees _)
      have there := two _ (self_mem_subtrees _)
      have entries : children.map Tree.entry = children'.map Tree.entry := by
        have links := congrArg (List.map fun link => (heap.child link).value)
          (here.chain.unique there.chain)
        rwa [here.links_values, there.links_values] at links
      obtain rfl : value = value' := here.value.symm.trans there.value
      have same : children = children' := InHeap.unique_children
        (fun child member => one.child member) (fun child member => two.child member) entries
      rw [same]

theorem InHeap.unique_children : ∀ {one two : List Tree},
    (∀ child ∈ one, InHeap heap linkOf child) → (∀ child ∈ two, InHeap heap linkOf child) →
      one.map Tree.entry = two.map Tree.entry → one = two
  | [], two, _, _, same => by
      cases two with
      | nil => rfl
      | cons second rest => cases same
  | first :: rest, two, one, other, same => by
      cases two with
      | nil => cases same
      | cons second more =>
          rw [List.map_cons, List.map_cons] at same
          obtain ⟨heads, tails⟩ := List.cons.inj same
          rw [InHeap.unique (one first List.mem_cons_self) (other second List.mem_cons_self) heads,
            InHeap.unique_children (fun child member => one child (List.mem_cons_of_mem _ member))
              (fun child member => other child (List.mem_cons_of_mem _ member)) tails]

end

/-- No node is below itself. -/
theorem InHeap.acyclic (stored : InHeap heap linkOf tree) (member : sub ∈ subtrees tree)
    {child deeper : Tree} (isChild : child ∈ sub.children) (inside : deeper ∈ subtrees child) :
    deeper.entry ≠ sub.entry := by
  intro same
  have childMember := child_mem_subtrees member isChild
  have equal := InHeap.unique (stored.below (subtrees_trans childMember inside))
    (stored.below member) same
  have smaller := sizeOf_child isChild
  have bound := sizeOf_subtree inside
  rw [equal] at bound
  omega

/-! ## Searching -/

mutual

/-- The fuel that a recursion over a tree needs. -/
def treeSteps : Tree → Nat
  | .node _ _ children => treeStepsBelow children + 1

def treeStepsBelow : List Tree → Nat
  | [] => 1
  | child :: rest => treeSteps child + treeStepsBelow rest + 1

end

mutual

/-- `tree_find` returns what the search in the abstract tree returns. -/
theorem InHeap.treeFind {comparator : Nat → Bool} : ∀ {tree : Tree}, InHeap heap linkOf tree →
    ∀ {fuel : Nat}, treeSteps tree ≤ fuel →
      heap.treeFind comparator fuel (some tree.entry) =
        some ((Kernel.treeFind comparator tree).map Tree.entry)
  | .node entry value children, stored, fuel, enough => by
      cases fuel with
      | zero => rw [treeSteps] at enough; omega
      | succ fuel =>
          have here := stored _ (self_mem_subtrees _)
          have value : (heap.node entry).value = value := here.value
          rw [Tree.entry, TreeHeap.treeFind, Kernel.treeFind, value]
          split
          · rfl
          · refine InHeap.treeFindLoop (fun child member => stored.child member) here.linked
              here.chain ?_
            rw [treeSteps] at enough
            exact Nat.le_of_succ_le_succ enough

theorem InHeap.treeFindLoop {comparator : Nat → Bool} : ∀ {children : List Tree},
    (∀ child ∈ children, InHeap heap linkOf child) →
    (∀ kid ∈ children.map Tree.entry, (heap.child (linkOf kid)).value = kid) →
    ∀ {before head : Option Nat},
      Chain (childNext heap) (childPrev heap) before head ((children.map Tree.entry).map linkOf) →
      ∀ {fuel : Nat}, treeStepsBelow children ≤ fuel →
        heap.treeFindLoop comparator fuel head =
          some ((Kernel.treeFindChildren comparator children).map Tree.entry)
  | [], _, _, before, head, chain, fuel, enough => by
      cases fuel with
      | zero => rw [treeStepsBelow] at enough; omega
      | succ fuel =>
          obtain rfl : head = none := chain
          rfl
  | child :: rest, stored, linked, before, head, chain, fuel, enough => by
      cases fuel with
      | zero => rw [treeStepsBelow] at enough; omega
      | succ fuel =>
          rw [treeStepsBelow] at enough
          obtain ⟨rfl, -, tail⟩ := chain
          have first : heap.treeFind comparator fuel (some child.entry) =
              some ((Kernel.treeFind comparator child).map Tree.entry) :=
            InHeap.treeFind (stored child List.mem_cons_self) (by omega)
          have later : heap.treeFindLoop comparator fuel (childNext heap (linkOf child.entry)) =
              some ((Kernel.treeFindChildren comparator rest).map Tree.entry) :=
            InHeap.treeFindLoop (fun other member => stored other (List.mem_cons_of_mem _ member))
              (fun kid member => linked kid (List.mem_cons_of_mem _ member)) tail (by omega)
          rw [TreeHeap.treeFindLoop, linked child.entry List.mem_cons_self, first,
            Kernel.treeFindChildren]
          cases Kernel.treeFind comparator child with
          | some found => rfl
          | none => exact later

end

/-- `tree_find` returns. -/
theorem InHeap.treeFind_settles (stored : InHeap heap linkOf tree) (comparator : Nat → Bool) :
    Settles (fun fuel => heap.treeFind comparator fuel (some tree.entry))
      ((Kernel.treeFind comparator tree).map Tree.entry) :=
  ⟨treeSteps tree, fun _ enough => stored.treeFind enough⟩

/-! ## Removing a branch -/

@[simp] theorem treeRemoveBranch_entry (entry : Nat) (tree : Tree) :
    (treeRemoveBranch entry tree).entry = tree.entry := by
  cases tree
  rfl

@[simp] theorem treeRemoveBranch_value (entry : Nat) (tree : Tree) :
    (treeRemoveBranch entry tree).value = tree.value := by
  cases tree
  rfl

/-- The children that stay are those with another entry, each without the branch. -/
theorem treeRemoveBranch_children (entry : Nat) (tree : Tree) :
    (treeRemoveBranch entry tree).children =
      (tree.children.filter fun child => child.entry ≠ entry).map (treeRemoveBranch entry) := by
  cases tree with
  | node current value children =>
      change treeRemoveChildren entry children = _
      simp only [Tree.children]
      induction children with
      | nil => rfl
      | cons child rest inductionHypothesis =>
          rw [treeRemoveChildren, List.filter_cons]
          split
          · rename_i same
            rw [if_neg (by simp [same]), inductionHypothesis]
          · rename_i different
            rw [if_pos (by simpa using different), List.map_cons, inductionHypothesis]

theorem kids_treeRemoveBranch (entry : Nat) (tree : Tree) :
    kids (treeRemoveBranch entry tree) = (kids tree).filter fun kid => kid ≠ entry := by
  rw [kids, treeRemoveBranch_children, kids, List.map_map, List.filter_map]
  exact List.map_congr_left fun child _ => treeRemoveBranch_entry entry child

mutual

/-- What is left below the root is what was there, without the branch. -/
theorem subtrees_treeRemoveBranch {entry : Nat} : ∀ {tree sub' : Tree},
    sub' ∈ subtrees (treeRemoveBranch entry tree) →
      ∃ sub ∈ subtrees tree, sub' = treeRemoveBranch entry sub ∧ (sub = tree ∨ sub.entry ≠ entry)
  | .node current value children, sub', member => by
      rw [treeRemoveBranch, subtrees, List.mem_cons] at member
      rcases member with rfl | below
      · exact ⟨_, self_mem_subtrees _, rfl, Or.inl rfl⟩
      · obtain ⟨sub, inside, same, different⟩ := subtreesBelow_treeRemoveChildren below
        refine ⟨sub, ?_, same, Or.inr different⟩
        rw [subtrees]
        exact List.mem_cons_of_mem _ inside

theorem subtreesBelow_treeRemoveChildren {entry : Nat} : ∀ {children : List Tree} {sub' : Tree},
    sub' ∈ subtreesBelow (treeRemoveChildren entry children) →
      ∃ sub ∈ subtreesBelow children, sub' = treeRemoveBranch entry sub ∧ sub.entry ≠ entry
  | [], sub', member => by simp [treeRemoveChildren, subtreesBelow] at member
  | child :: rest, sub', member => by
      have later : sub' ∈ subtreesBelow (treeRemoveChildren entry rest) →
          ∃ sub ∈ subtreesBelow (child :: rest), sub' = treeRemoveBranch entry sub ∧
            sub.entry ≠ entry := by
        intro inRest
        obtain ⟨sub, inside, facts⟩ := subtreesBelow_treeRemoveChildren inRest
        rw [subtreesBelow]
        exact ⟨sub, List.mem_append_right _ inside, facts⟩
      rw [treeRemoveChildren] at member
      split at member
      · exact later member
      · rename_i kept
        rw [subtreesBelow, List.mem_append] at member
        rcases member with first | inRest
        · obtain ⟨sub, inside, same, which⟩ := subtrees_treeRemoveBranch first
          refine ⟨sub, ?_, same, ?_⟩
          · rw [subtreesBelow]
            exact List.mem_append_left _ inside
          · rcases which with rfl | different
            · exact kept
            · exact different
        · exact later inRest

end

/-- The memory after the link `entry` has been taken out of the list of `parent`. -/
structure Unlinked (heap after : TreeHeap) (parent entry : Nat) : Prop where
  other : ∀ node, node ≠ parent → after.node node = heap.node node
  stored : (after.node parent).value = (heap.node parent).value
  back : (after.node parent).parent = (heap.node parent).parent
  children : (after.node parent).children =
    if (heap.node parent).children = some entry then childNext heap entry
    else (heap.node parent).children
  linked : ∀ link, (after.child link).value = (heap.child link).value
  next : ∀ link, link ≠ entry → childNext after link =
    if childPrev heap entry = some link then childNext heap entry else childNext heap link
  prev : ∀ link, link ≠ entry → childPrev after link =
    if childNext heap entry = some link then childPrev heap entry else childPrev heap link
  live : after.liveNode = heap.liveNode ∧ after.liveValue = heap.liveValue ∧
    after.liveChild = Function.update heap.liveChild entry false

/-- A write through a pointer that may be null: `if (pointer) pointer->field = value`. -/
def setChildAt (heap : TreeHeap) (pointer : Option Nat) (change : TreeChild → TreeChild) :
    TreeHeap :=
  match pointer with
  | some target => heap.setChild target change
  | none => heap

/-- What such a write leaves in memory. -/
structure WroteChild (heap after : TreeHeap) (pointer : Option Nat) (change : TreeChild → TreeChild) :
    Prop where
  hit : ∀ link, pointer = some link → after.child link = change (heap.child link)
  other : ∀ link, pointer ≠ some link → after.child link = heap.child link
  node : after.node = heap.node
  live : after.liveNode = heap.liveNode ∧ after.liveValue = heap.liveValue ∧
    after.liveChild = heap.liveChild

theorem setChildAt_wrote (heap : TreeHeap) (pointer : Option Nat)
    (change : TreeChild → TreeChild) : WroteChild heap (setChildAt heap pointer change) pointer change := by
  cases pointer with
  | none =>
      refine ⟨fun link impossible => ?_, fun _ _ => rfl, rfl, rfl, rfl, rfl⟩
      cases impossible
  | some target =>
      refine ⟨fun link same => ?_, fun link different => ?_, rfl, rfl, rfl, rfl⟩
      · cases same
        exact Function.update_self ..
      · exact Function.update_of_ne (fun same => different (congrArg some same.symm)) _ _

/-- The head of the list, the link before and the link after are written in this order. -/
theorem unlinkEntry_eq (heap : TreeHeap) (parent entry : Nat) :
    ∃ first before after : TreeHeap,
      first = (if (heap.node parent).children = some entry then
        heap.setNode parent fun n => { n with children := childNext heap entry } else heap) ∧
      WroteChild first before (childPrev first entry)
        (fun c => { c with next := childNext first entry }) ∧
      WroteChild before after (childNext before entry)
        (fun c => { c with prev := childPrev before entry }) ∧
      heap.unlinkEntry parent entry = after.freeChild entry := by
  refine ⟨_, _, _, rfl, setChildAt_wrote _ _ _, setChildAt_wrote _ _ _, ?_⟩
  rfl

theorem unlinkEntry_spec {parent entry : Nat} (prevNe : childPrev heap entry ≠ some entry) :
    Unlinked heap (heap.unlinkEntry parent entry) parent entry := by
  obtain ⟨first, before, after, firstEq, wroteNext, wrotePrev, unlinked⟩ :=
    unlinkEntry_eq heap parent entry
  have sameChild : first.child = heap.child := by
    rw [firstEq]
    split <;> rfl
  have sameLive : first.liveNode = heap.liveNode ∧ first.liveValue = heap.liveValue ∧
      first.liveChild = heap.liveChild := by
    rw [firstEq]
    split <;> exact ⟨rfl, rfl, rfl⟩
  rw [unlinked]
  rw [childPrev, childNext, sameChild] at wroteNext
  have own : before.child entry = heap.child entry := by
    rw [wroteNext.other entry prevNe, sameChild]
  rw [childNext, childPrev, own] at wrotePrev
  have sameNode : after.node = first.node := wrotePrev.node.trans wroteNext.node
  refine ⟨fun node other => ?_, ?_, ?_, ?_, fun link => ?_, fun link _ => ?_, fun link _ => ?_, ?_⟩
  · change after.node node = heap.node node
    rw [sameNode, firstEq]
    split
    · exact Function.update_of_ne other _ _
    · rfl
  · change (after.node parent).value = _
    rw [sameNode, firstEq]
    split
    · simp [TreeHeap.setNode]
    · rfl
  · change (after.node parent).parent = _
    rw [sameNode, firstEq]
    split
    · simp [TreeHeap.setNode]
    · rfl
  · change (after.node parent).children = _
    rw [sameNode, firstEq]
    split
    · simp [TreeHeap.setNode, childNext]
    · rfl
  · change (after.child link).value = _
    have first : (before.child link).value = (heap.child link).value := by
      by_cases hit : (heap.child entry).prev = some link
      · rw [wroteNext.hit link hit, sameChild]
      · rw [wroteNext.other link hit, sameChild]
    by_cases hit : (heap.child entry).next = some link
    · rw [wrotePrev.hit link hit, first]
    · rw [wrotePrev.other link hit, first]
  · change (after.child link).next = _
    have same : (after.child link).next = (before.child link).next := by
      by_cases hit : (heap.child entry).next = some link
      · rw [wrotePrev.hit link hit]
      · rw [wrotePrev.other link hit]
    rw [same]
    unfold childNext childPrev
    by_cases hit : (heap.child entry).prev = some link
    · rw [wroteNext.hit link hit, if_pos hit]
    · rw [wroteNext.other link hit, if_neg hit, sameChild]
  · change (after.child link).prev = _
    have same : (before.child link).prev = (heap.child link).prev := by
      by_cases hit : (heap.child entry).prev = some link
      · rw [wroteNext.hit link hit, sameChild]
      · rw [wroteNext.other link hit, sameChild]
    unfold childNext childPrev
    by_cases hit : (heap.child entry).next = some link
    · rw [wrotePrev.hit link hit, if_pos hit]
    · rw [wrotePrev.other link hit, if_neg hit, same]
  · refine ⟨?_, ?_, ?_⟩
    · exact wrotePrev.live.1.trans (wroteNext.live.1.trans sameLive.1)
    · exact wrotePrev.live.2.1.trans (wroteNext.live.2.1.trans sameLive.2.1)
    · change Function.update after.liveChild entry false = _
      rw [wrotePrev.live.2.2, wroteNext.live.2.2, sameLive.2.2]

/-- The list of the parent loses one node. -/
theorem NodeAt.unlink {entry value kid : Nat} {below : List Nat}
    (here : NodeAt heap linkOf entry value below) (member : kid ∈ below) :
    Unlinked heap (heap.unlinkEntry entry (linkOf kid)) entry (linkOf kid) ∧
      NodeAt (heap.unlinkEntry entry (linkOf kid)) linkOf entry value
        (below.filter fun other => other ≠ kid) := by
  obtain ⟨front, back, rfl⟩ := List.append_of_mem member
  have nodup := here.distinct
  have chain := here.chain
  have linksNodup := here.links_nodup
  rw [List.map_append, List.map_cons] at chain linksNodup
  obtain ⟨prevEq, nextEq⟩ := chain.around
  rw [Option.or_none] at prevEq
  have notInFront : linkOf kid ∉ front.map linkOf := fun inFront =>
    (List.nodup_append.mp linksNodup).2.2 _ inFront _ List.mem_cons_self rfl
  have notInBack : linkOf kid ∉ back.map linkOf :=
    (List.nodup_cons.mp (List.nodup_append.mp linksNodup).2.1).1
  have unlinked := @unlinkEntry_spec heap entry (linkOf kid) (by
    rw [prevEq]
    exact fun same => notInFront (List.mem_of_getLast? same))
  refine ⟨unlinked, ?_⟩
  have rest : (front ++ kid :: back).filter (fun other => other ≠ kid) = front ++ back := by
    obtain ⟨-, backNodup, apart⟩ := List.nodup_append.mp nodup
    rw [List.filter_append, List.filter_cons_of_neg (by simp), List.filter_eq_self.mpr,
      List.filter_eq_self.mpr]
    · intro other inBack
      simpa using fun same : other = kid => (List.nodup_cons.mp backNodup).1 (same ▸ inBack)
    · intro other inFront
      simpa using apart other inFront kid List.mem_cons_self
  rw [rest]
  have old : ∀ other ∈ front ++ back, other ∈ front ++ kid :: back := by
    intro other inside
    rcases List.mem_append.mp inside with inFront | inBack
    · exact List.mem_append_left _ inFront
    · exact List.mem_append_right _ (List.mem_cons_of_mem _ inBack)
  refine ⟨unlinked.stored.trans here.value, ?_, ?_, fun other inside => ?_, fun other inside => ?_⟩
  · have apart : ∀ link ∈ front.map linkOf ++ back.map linkOf, link ≠ linkOf kid := by
      rintro link inside rfl
      exact (List.mem_append.mp inside).elim notInFront notInBack
    rw [List.map_append]
    refine chain.unlink linksNodup ?_ (fun link inside => ?_) fun link inside => ?_
    · rw [unlinked.children, chain.head_eq]
      cases front with
      | nil => simp
      | cons first front =>
          have different : linkOf first ≠ linkOf kid := fun same =>
            notInFront (same ▸ List.mem_cons_self)
          simp [different]
    · rw [unlinked.next link (apart link inside), prevEq]
    · rw [unlinked.prev link (apart link inside), nextEq]
  · exact nodup.sublist (List.Sublist.append_left (List.sublist_cons_self kid back) front)
  · rw [unlinked.linked]
    exact here.linked other (old other inside)
  · have parent := here.parent other (old other inside)
    by_cases isParent : other = entry
    · rw [isParent, unlinked.back, ← isParent]
      exact isParent ▸ parent
    · rw [unlinked.other other isParent]
      exact parent

/-- A node is a child of one node only. -/
theorem NodeAt.outside {entry value parent stored kid : Nat} {below siblings : List Nat}
    (here : NodeAt heap linkOf entry value below) (list : NodeAt heap linkOf parent stored siblings)
    (member : kid ∈ siblings) (different : entry ≠ parent) : kid ∉ below := by
  intro inside
  have same := here.parent kid inside
  rw [list.parent kid member] at same
  exact different (Option.some.inj same).symm

/-- Every other node stays as it is when a link leaves the list of its parent. -/
theorem NodeAt.unlink_other {entry value parent stored kid : Nat} {below siblings : List Nat}
    (here : NodeAt heap linkOf entry value below) (list : NodeAt heap linkOf parent stored siblings)
    (member : kid ∈ siblings) (different : entry ≠ parent) :
    NodeAt (heap.unlinkEntry parent (linkOf kid)) linkOf entry value below := by
  obtain ⟨unlinked, -⟩ := list.unlink member
  have apart : ∀ link ∈ below.map linkOf, link ∉ siblings.map linkOf := by
    intro link inside inSiblings
    obtain ⟨one, oneMember, rfl⟩ := List.mem_map.mp inside
    obtain ⟨two, twoMember, same⟩ := List.mem_map.mp inSiblings
    exact here.links_apart list different oneMember twoMember same.symm
  obtain ⟨front, back, split⟩ := List.append_of_mem member
  have around := list.chain
  rw [split, List.map_append, List.map_cons] at around
  obtain ⟨prevEq, nextEq⟩ := around.around
  rw [Option.or_none] at prevEq
  rw [split, List.map_append, List.map_cons] at apart
  refine ⟨?_, ?_, here.distinct, fun other inside => ?_, fun other inside => ?_⟩
  · rw [unlinked.other entry different]
    exact here.value
  · rw [unlinked.other entry different]
    refine here.chain.congr (fun link inside => ?_) fun link inside => ?_
    · rw [unlinked.next link fun same => apart link inside (by simp [same]), if_neg]
      rw [prevEq]
      exact fun same => apart link inside (List.mem_append_left _ (List.mem_of_getLast? same))
    · rw [unlinked.prev link fun same => apart link inside (by simp [same]), if_neg]
      rw [nextEq]
      exact fun same => apart link inside
        (List.mem_append_right _ (List.mem_cons_of_mem _ (List.mem_of_mem_head? same)))
  · rw [unlinked.linked]
    exact here.linked other inside
  · have own := here.parent other inside
    by_cases isParent : other = parent
    · rw [isParent, unlinked.back, ← isParent]
      exact isParent ▸ own
    · rw [unlinked.other other isParent]
      exact own

/-- Unlinking a node below `list` takes its branch out of the tree. -/
theorem InHeap.unlink {list child : Tree} (inHeap : InHeap heap linkOf tree)
    (member : list ∈ subtrees tree) (isChild : child ∈ list.children) :
    InHeap (heap.unlinkEntry list.entry (linkOf child.entry)) linkOf
      (treeRemoveBranch child.entry tree) := by
  intro sub' inside
  obtain ⟨sub, subMember, rfl, -⟩ := subtrees_treeRemoveBranch inside
  have there := inHeap list member
  have kidMember := child_mem_kids isChild
  rw [treeRemoveBranch_entry, treeRemoveBranch_value, kids_treeRemoveBranch]
  by_cases same : sub.entry = list.entry
  · obtain rfl : sub = list := (inHeap.below subMember).unique (inHeap.below member) same
    exact (there.unlink kidMember).2
  · have here := inHeap sub subMember
    have rest : (kids sub).filter (fun kid => kid ≠ child.entry) = kids sub := by
      rw [List.filter_eq_self]
      intro kid inside
      simpa using fun same' : kid = child.entry =>
        here.outside there kidMember same (same' ▸ inside)
    rw [rest]
    exact here.unlink_other there kidMember same

/-- The branch itself stays readable. -/
theorem InHeap.unlink_branch {list child : Tree} (inHeap : InHeap heap linkOf tree)
    (member : list ∈ subtrees tree) (isChild : child ∈ list.children) :
    InHeap (heap.unlinkEntry list.entry (linkOf child.entry)) linkOf child := by
  intro sub inside
  refine NodeAt.unlink_other ?_ (inHeap list member) (child_mem_kids isChild)
    (inHeap.acyclic member isChild inside)
  exact inHeap sub (subtrees_trans (child_mem_subtrees member isChild) inside)

mutual

/-- `tree_free_nodes` returns and only marks blocks as free. -/
theorem InHeap.treeFreeNodes : ∀ {tree : Tree} {heap : TreeHeap}, InHeap heap linkOf tree →
    ∃ freed : TreeHeap, (∀ fuel, treeSteps tree ≤ fuel →
      heap.treeFreeNodes fuel (some tree.entry) = some freed) ∧
        freed.node = heap.node ∧ freed.child = heap.child ∧ freed.liveValue = heap.liveValue
  | .node entry value children, heap, inHeap => by
      have here := inHeap _ (self_mem_subtrees _)
      obtain ⟨freed, looped, node, child, live⟩ := InHeap.treeFreeNodesLoop
        (fun child member => inHeap.child member) here.linked here.chain
      refine ⟨freed.freeNode entry, fun fuel enough => ?_, node, child, live⟩
      cases fuel with
      | zero => rw [treeSteps] at enough; omega
      | succ fuel =>
          rw [treeSteps] at enough
          rw [Tree.entry, TreeHeap.treeFreeNodes]
          have loop := looped fuel (Nat.le_of_succ_le_succ enough)
          rw [Tree.entry] at loop
          rw [loop]

theorem InHeap.treeFreeNodesLoop : ∀ {children : List Tree} {heap : TreeHeap},
    (∀ child ∈ children, InHeap heap linkOf child) →
    (∀ kid ∈ children.map Tree.entry, (heap.child (linkOf kid)).value = kid) →
    ∀ {before head : Option Nat},
      Chain (childNext heap) (childPrev heap) before head ((children.map Tree.entry).map linkOf) →
      ∃ freed : TreeHeap, (∀ fuel, treeStepsBelow children ≤ fuel →
        heap.treeFreeNodesLoop fuel head = some freed) ∧
          freed.node = heap.node ∧ freed.child = heap.child ∧ freed.liveValue = heap.liveValue
  | [], heap, _, _, before, head, chain => by
      obtain rfl : head = none := chain
      refine ⟨heap, fun fuel enough => ?_, rfl, rfl, rfl⟩
      cases fuel with
      | zero => rw [treeStepsBelow] at enough; omega
      | succ fuel => rfl
  | child :: rest, heap, inHeap, linked, before, head, chain => by
      obtain ⟨rfl, -, tail⟩ := chain
      obtain ⟨first, firstEq, node, sameChild, live⟩ :=
        InHeap.treeFreeNodes (inHeap child List.mem_cons_self)
      -- the loop goes on in a heap with the same records
      have tail' : Chain (childNext (first.freeChild (linkOf child.entry)))
          (childPrev (first.freeChild (linkOf child.entry))) (some (linkOf child.entry))
          (childNext heap (linkOf child.entry)) ((rest.map Tree.entry).map linkOf) := by
        refine tail.congr (fun link _ => ?_) fun link _ => ?_
        · change (first.child link).next = (heap.child link).next
          rw [sameChild]
        · change (first.child link).prev = (heap.child link).prev
          rw [sameChild]
      have inHeap' : ∀ other ∈ rest,
          InHeap (first.freeChild (linkOf child.entry)) linkOf other := fun other member =>
        (inHeap other (List.mem_cons_of_mem _ member)).congr node sameChild
      have linked' : ∀ kid ∈ rest.map Tree.entry,
          ((first.freeChild (linkOf child.entry)).child (linkOf kid)).value = kid := by
        intro kid member
        change (first.child (linkOf kid)).value = kid
        rw [sameChild]
        exact linked kid (List.mem_cons_of_mem _ member)
      obtain ⟨freed, looped, node', child', live'⟩ :=
        InHeap.treeFreeNodesLoop inHeap' linked' tail'
      refine ⟨freed, fun fuel enough => ?_, node'.trans node, child'.trans sameChild,
        live'.trans live⟩
      cases fuel with
      | zero => rw [treeStepsBelow] at enough; omega
      | succ fuel =>
          rw [treeStepsBelow] at enough
          rw [TreeHeap.treeFreeNodesLoop, linked child.entry List.mem_cons_self]
          rw [firstEq fuel (by omega)]
          exact looped fuel (by omega)

end

/-- The search for the link of a child. -/
theorem findEntry_chain {kid : Nat} : ∀ {below : List Nat} {before head : Option Nat},
    Chain (childNext heap) (childPrev heap) before head (below.map linkOf) →
    (∀ other ∈ below, (heap.child (linkOf other)).value = other) → kid ∈ below →
      ∀ fuel, below.length ≤ fuel → heap.findEntry kid fuel head = some (some (linkOf kid))
  | [], _, _, _, _, member, _, _ => by cases member
  | first :: rest, before, head, chain, linked, member, fuel, enough => by
      cases fuel with
      | zero => simp at enough
      | succ fuel =>
          obtain ⟨rfl, -, tail⟩ := chain
          rw [TreeHeap.findEntry, linked first List.mem_cons_self]
          split
          · rename_i same
            rw [same]
          · rename_i different
            refine findEntry_chain tail (fun other inside =>
              linked other (List.mem_cons_of_mem _ inside)) ?_ fuel (Nat.le_of_succ_le_succ enough)
            exact (List.mem_cons.mp member).resolve_left (Ne.symm different)

/-- `tree_remove_branch` of a child returns: the link leaves the list and the branch is freed. -/
theorem InHeap.treeRemoveBranch {list child : Tree} (inHeap : InHeap heap linkOf tree)
    (member : list ∈ subtrees tree) (isChild : child ∈ list.children) :
    ∃ freed : TreeHeap,
      Settles (fun fuel => heap.treeRemoveBranch fuel (some child.entry)) freed ∧
      freed.node = (heap.unlinkEntry list.entry (linkOf child.entry)).node ∧
      freed.child = (heap.unlinkEntry list.entry (linkOf child.entry)).child ∧
      freed.liveValue = heap.liveValue := by
  have here := inHeap list member
  have kidMember := child_mem_kids isChild
  obtain ⟨unlinked, -⟩ := here.unlink kidMember
  obtain ⟨freed, freedEq, node, sameChild, live⟩ :=
    (inHeap.unlink_branch member isChild).treeFreeNodes
  have run : ∀ fuel, (kids list).length ≤ fuel → treeSteps child ≤ fuel →
      heap.treeRemoveBranch fuel (some child.entry) = some freed := by
    intro fuel longEnough enough
    unfold TreeHeap.treeRemoveBranch
    dsimp only
    rw [here.parent _ kidMember]
    dsimp only
    rw [findEntry_chain here.chain here.linked kidMember fuel longEnough]
    exact freedEq fuel enough
  refine ⟨freed, ⟨max (kids list).length (treeSteps child), fun fuel enough => run fuel ?_ ?_⟩,
    node, sameChild, live.trans unlinked.live.2.1⟩
  · exact Nat.le_trans (Nat.le_max_left _ _) enough
  · exact Nat.le_trans (Nat.le_max_right _ _) enough

/-- More fuel does not change what the search for a link returns. -/
theorem findEntry_mono {kid fuel : Nat} {head found : Option Nat}
    (search : heap.findEntry kid fuel head = some found) {more : Nat} (larger : fuel ≤ more) :
    heap.findEntry kid more head = some found := by
  induction fuel generalizing more head with
  | zero => cases search
  | succ fuel inductionHypothesis =>
      cases more with
      | zero => cases larger
      | succ more =>
          cases head with
          | none => exact search
          | some entry =>
              rw [TreeHeap.findEntry] at search ⊢
              split
              · rename_i same
                rwa [if_pos same] at search
              · rename_i different
                rw [if_neg different] at search
                exact inductionHypothesis search (Nat.le_of_succ_le_succ larger)

/-- With whatever fuel `tree_remove_branch` of a leaf returns, it has unlinked and freed that node. -/
theorem InHeap.treeRemoveBranch_leaf {list child : Tree} {fuel : Nat} {freed : TreeHeap}
    (inHeap : InHeap heap linkOf tree) (member : list ∈ subtrees tree)
    (isChild : child ∈ list.children) (leaf : (heap.node child.entry).children = none)
    (removed : heap.treeRemoveBranch fuel (some child.entry) = some freed) :
    freed = (heap.unlinkEntry list.entry (linkOf child.entry)).freeNode child.entry := by
  have here := inHeap list member
  have kidMember := child_mem_kids isChild
  obtain ⟨unlinked, -⟩ := here.unlink kidMember
  have notParent : child.entry ≠ list.entry :=
    inHeap.acyclic member isChild (self_mem_subtrees child)
  unfold TreeHeap.treeRemoveBranch at removed
  dsimp only at removed
  rw [here.parent _ kidMember] at removed
  dsimp only at removed
  cases search : heap.findEntry child.entry fuel (heap.node list.entry).children with
  | none =>
      rw [search] at removed
      cases removed
  | some found =>
      have more := findEntry_mono search (Nat.le_max_left fuel (kids list).length)
      rw [findEntry_chain here.chain here.linked kidMember _ (Nat.le_max_right _ _)] at more
      obtain rfl := Option.some.inj more
      rw [search] at removed
      dsimp only at removed
      cases fuel with
      | zero => cases removed
      | succ fuel =>
          rw [TreeHeap.treeFreeNodes, unlinked.other _ notParent, leaf] at removed
          cases fuel with
          | zero => cases removed
          | succ fuel => exact (Option.some.inj removed).symm

end

end Voxel.Proofs
