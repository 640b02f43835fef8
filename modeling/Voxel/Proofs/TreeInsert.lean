/-
Module: Voxel.Proofs.TreeInsert
Layer: Proofs
Purpose: `tree_insert_value` puts a new node in front of the children of its parent, in memory as in
  the abstract tree, and the heaps that a sequence of insertions builds store the tree they describe
  in allocated blocks.
Trusted boundary: none
Main exports: NodeInserted, InHeap.insert, LiveTree.insert, StoresTree.insert, Built, Built.holds
-/
import Voxel.Proofs.TreeHeap

namespace Voxel.Proofs

open Voxel.Kernel
open Voxel.Lib

variable {heap after : TreeHeap} {linkOf : Nat → Nat} {tree : Tree} {parent node link value : Nat}

/-! ## The memory -/

/-- The memory after `tree_insert_value`. -/
structure NodeInserted (heap after : TreeHeap) (parent node link value : Nat) : Prop where
  fresh : after.node node = { children := none, parent := some parent, value := value }
  parentNode : after.node parent = { heap.node parent with children := some link }
  other : ∀ entry, entry ≠ node → entry ≠ parent → after.node entry = heap.node entry
  linked : after.child link =
    { next := (heap.node parent).children, prev := none, value := node }
  values : ∀ other, other ≠ link → (after.child other).value = (heap.child other).value
  next : ∀ other, other ≠ link → childNext after other = childNext heap other
  prev : ∀ other, other ≠ link → childPrev after other =
    if (heap.node parent).children = some other then some link else childPrev heap other
  live : after.liveNode = Function.update heap.liveNode node true ∧
    after.liveChild = Function.update heap.liveChild link true ∧
    after.liveValue = heap.liveValue

theorem treeInsertValue_spec (nonzero : value ≠ 0) (notParent : node ≠ parent)
    (notHead : (heap.node parent).children ≠ some link) :
    (heap.treeInsertValue node link (some parent) value).1 = some node ∧
      NodeInserted heap (heap.treeInsertValue node link (some parent) value).2 parent node link
        value := by
  unfold TreeHeap.treeInsertValue
  rw [if_neg nonzero]
  refine ⟨rfl, ?_⟩
  dsimp only
  generalize madeEq : ({ ((heap.treeCreate node).setNode node fun n =>
    { n with value := value }).setNode node fun n => { n with parent := some parent } with
      child := Function.update heap.child link { next := none, prev := none, value := node }
      liveChild := Function.update heap.liveChild link true } : TreeHeap) = made
  have children : (made.node parent).children = (heap.node parent).children := by
    rw [← madeEq]
    simp [TreeHeap.setNode, TreeHeap.treeCreate, Ne.symm notParent]
  have shape : TreeHeap.treeInsertNode link (some parent) node ((heap.treeCreate node).setNode node
      fun n => { n with value := value }) =
        ((setChildAt made (made.node parent).children fun c => { c with prev := some link }).setChild
          link fun c => { c with next := (made.node parent).children }).setNode parent fun n =>
            { n with children := some link } := by
    rw [← madeEq]
    rfl
  rw [shape, children]
  have wrote := setChildAt_wrote made (heap.node parent).children
    fun c => { c with prev := some link }
  generalize setChildAt made (heap.node parent).children (fun c => { c with prev := some link }) =
    backed at wrote ⊢
  have sameNode : ∀ entry, entry ≠ node → made.node entry = heap.node entry := by
    intro entry different
    rw [← madeEq]
    simp [TreeHeap.setNode, TreeHeap.treeCreate, different]
  have sameChild : ∀ other, other ≠ link → made.child other = heap.child other := by
    intro other different
    rw [← madeEq]
    exact Function.update_of_ne different _ _
  have outer : ∀ other, other ≠ link →
      (((backed.setChild link fun c => { c with next := (heap.node parent).children }).setNode parent
        fun n => { n with children := some link }).child other) = backed.child other :=
    fun other different => Function.update_of_ne different _ _
  refine ⟨?_, ?_, fun entry notNode other => ?_, ?_, fun other different => ?_,
    fun other different => ?_, fun other different => ?_, ?_, ?_, ?_⟩
  · change Function.update backed.node parent _ node = _
    rw [Function.update_of_ne notParent, wrote.node, ← madeEq]
    simp [TreeHeap.setNode, TreeHeap.treeCreate]
  · change Function.update backed.node parent _ parent = _
    rw [Function.update_self]
    change { backed.node parent with children := some link } = _
    rw [wrote.node, sameNode parent (Ne.symm notParent)]
  · change Function.update backed.node parent _ entry = _
    rw [Function.update_of_ne other, wrote.node, sameNode entry notNode]
  · change Function.update backed.child link _ link = _
    rw [Function.update_self, wrote.other link notHead, ← madeEq]
    simp
  · rw [outer other different]
    by_cases hit : (heap.node parent).children = some other
    · rw [wrote.hit other hit, sameChild other different]
    · rw [wrote.other other hit, sameChild other different]
  · unfold childNext
    rw [outer other different]
    by_cases hit : (heap.node parent).children = some other
    · rw [wrote.hit other hit, sameChild other different]
    · rw [wrote.other other hit, sameChild other different]
  · unfold childPrev
    rw [outer other different]
    by_cases hit : (heap.node parent).children = some other
    · rw [wrote.hit other hit, if_pos hit]
    · rw [wrote.other other hit, if_neg hit, sameChild other different]
  · change backed.liveNode = _
    rw [wrote.live.1, ← madeEq]
    rfl
  · change backed.liveChild = _
    rw [wrote.live.2.2, ← madeEq]
  · change backed.liveValue = _
    rw [wrote.live.2.1, ← madeEq]
    rfl

/-! ## The tree -/

@[simp] theorem kids_leaf (entry value : Nat) : kids (.node entry value []) = [] := rfl

theorem treeInsertChildren_entries (parent entry value : Nat) (children : List Tree) :
    (treeInsertChildren parent entry value children).map Tree.entry = children.map Tree.entry := by
  induction children with
  | nil => rfl
  | cons child rest inductionHypothesis =>
      rw [treeInsertChildren, List.map_cons, List.map_cons, inductionHypothesis,
        treeInsertValue_entry]

/-- The children of a node after an insertion below `parent`. -/
theorem kids_treeInsertValue (parent entry value : Nat) (tree : Tree) :
    kids (treeInsertValue parent entry value tree) =
      if tree.entry = parent then entry :: kids tree else kids tree := by
  cases tree with
  | node current stored children =>
      rw [treeInsertValue, Tree.entry]
      split
      · rfl
      · exact treeInsertChildren_entries parent entry value children

mutual

/-- The subtrees after an insertion: the new leaf, old subtrees with the insertion carried out, and
old subtrees below the parent. -/
theorem subtrees_treeInsertValue {parent entry value : Nat} : ∀ {tree sub' : Tree},
    sub' ∈ subtrees (treeInsertValue parent entry value tree) →
      sub' = .node entry value [] ∨
        ∃ sub ∈ subtrees tree, sub' = treeInsertValue parent entry value sub ∨
          (sub' = sub ∧ ∃ above ∈ subtrees tree, above.entry = parent ∧
            ∃ child ∈ above.children, sub ∈ subtrees child)
  | .node current stored children, sub', member => by
      by_cases same : current = parent
      · rw [treeInsertValue, if_pos same, subtrees, List.mem_cons] at member
        rcases member with rfl | below
        · refine Or.inr ⟨_, self_mem_subtrees _, Or.inl ?_⟩
          rw [treeInsertValue, if_pos same]
        · rw [subtreesBelow, List.mem_append] at below
          rcases below with leaf | old
          · refine Or.inl ?_
            simpa [subtrees, subtreesBelow] using leaf
          · obtain ⟨child, isChild, inside⟩ := mem_subtreesBelow.mp old
            refine Or.inr ⟨sub', mem_subtrees.mpr (Or.inr ⟨child, isChild, inside⟩), Or.inr ⟨rfl, ?_⟩⟩
            exact ⟨_, self_mem_subtrees _, same, child, isChild, inside⟩
      · rw [treeInsertValue, if_neg same, subtrees, List.mem_cons] at member
        rcases member with rfl | below
        · refine Or.inr ⟨_, self_mem_subtrees _, Or.inl ?_⟩
          rw [treeInsertValue, if_neg same]
        · refine (subtreesBelow_treeInsertChildren below).imp_right ?_
          have deeper : ∀ {sub : Tree}, sub ∈ subtreesBelow children →
              sub ∈ subtrees (.node current stored children) := by
            intro sub inside
            rw [subtrees]
            exact List.mem_cons_of_mem _ inside
          rintro ⟨sub, inside, which⟩
          refine ⟨sub, deeper inside, which.imp_right ?_⟩
          rintro ⟨rfl, above, aboveMember, facts⟩
          exact ⟨rfl, above, deeper aboveMember, facts⟩

theorem subtreesBelow_treeInsertChildren {parent entry value : Nat} :
    ∀ {children : List Tree} {sub' : Tree},
      sub' ∈ subtreesBelow (treeInsertChildren parent entry value children) →
        sub' = .node entry value [] ∨
          ∃ sub ∈ subtreesBelow children, sub' = treeInsertValue parent entry value sub ∨
            (sub' = sub ∧ ∃ above ∈ subtreesBelow children, above.entry = parent ∧
              ∃ child ∈ above.children, sub ∈ subtrees child)
  | [], sub', member => by simp [treeInsertChildren, subtreesBelow] at member
  | child :: rest, sub', member => by
      rw [treeInsertChildren, subtreesBelow, List.mem_append] at member
      rcases member with first | later
      · refine (subtrees_treeInsertValue first).imp_right ?_
        rintro ⟨sub, inside, which⟩
        rw [subtreesBelow]
        refine ⟨sub, List.mem_append_left _ inside, which.imp_right ?_⟩
        rintro ⟨rfl, above, aboveMember, facts⟩
        exact ⟨rfl, above, List.mem_append_left _ aboveMember, facts⟩
      · refine (subtreesBelow_treeInsertChildren later).imp_right ?_
        rintro ⟨sub, inside, which⟩
        rw [subtreesBelow]
        refine ⟨sub, List.mem_append_right _ inside, which.imp_right ?_⟩
        rintro ⟨rfl, above, aboveMember, facts⟩
        exact ⟨rfl, above, List.mem_append_right _ aboveMember, facts⟩

end

mutual

/-- The nodes after an insertion below a node of the tree. -/
theorem mem_nodes_treeInsertValue {parent entry value : Nat} : ∀ {tree : Tree},
    (∀ node ∈ tree.nodes, node ∈ (treeInsertValue parent entry value tree).nodes) ∧
      (parent ∈ tree.nodes.map Prod.fst →
        (entry, value) ∈ (treeInsertValue parent entry value tree).nodes)
  | .node current stored children => by
      rw [treeInsertValue, Tree.nodes]
      split
      · refine ⟨fun node member => ?_, fun _ => ?_⟩
        · rw [Tree.nodes, Tree.nodesChildren]
          rcases List.mem_cons.mp member with rfl | below
          · exact List.mem_cons_self
          · exact List.mem_cons_of_mem _ (List.mem_append_right _ below)
        · rw [Tree.nodes, Tree.nodesChildren, Tree.nodes]
          exact List.mem_cons_of_mem _ (List.mem_append_left _ List.mem_cons_self)
      · rename_i different
        obtain ⟨old, new⟩ := @mem_nodes_treeInsertChildren parent entry value children
        rw [Tree.nodes]
        refine ⟨fun node member => ?_, fun inside => ?_⟩
        · rcases List.mem_cons.mp member with rfl | below
          · exact List.mem_cons_self
          · exact List.mem_cons_of_mem _ (old node below)
        · rw [List.map_cons, List.mem_cons] at inside
          exact List.mem_cons_of_mem _ (new (inside.resolve_left fun same => different same.symm))

theorem mem_nodes_treeInsertChildren {parent entry value : Nat} : ∀ {children : List Tree},
    (∀ node ∈ Tree.nodesChildren children,
      node ∈ Tree.nodesChildren (treeInsertChildren parent entry value children)) ∧
      (parent ∈ (Tree.nodesChildren children).map Prod.fst →
        (entry, value) ∈ Tree.nodesChildren (treeInsertChildren parent entry value children))
  | [] => by simp [Tree.nodesChildren]
  | child :: rest => by
      obtain ⟨old, new⟩ := @mem_nodes_treeInsertValue parent entry value child
      obtain ⟨oldRest, newRest⟩ := @mem_nodes_treeInsertChildren parent entry value rest
      rw [treeInsertChildren, Tree.nodesChildren, Tree.nodesChildren, List.map_append]
      refine ⟨fun node member => ?_, fun inside => ?_⟩
      · exact List.mem_append.mpr ((List.mem_append.mp member).imp (old node) (oldRest node))
      · exact List.mem_append.mpr ((List.mem_append.mp inside).imp new newRest)

end

/-- The nodes after an insertion. -/
theorem nodes_treeInsertValue {entry : Nat} (inside : parent ∈ tree.nodes.map Prod.fst)
    {other : Nat × Nat} :
    other ∈ (treeInsertValue parent entry value tree).nodes ↔
      other = (entry, value) ∨ other ∈ tree.nodes := by
  obtain ⟨old, new⟩ := @mem_nodes_treeInsertValue parent entry value tree
  constructor
  · intro member
    rw [Tree.nodes_eq, treeInsertValue_entry, treeInsertValue_value, List.mem_cons] at member
    rw [Tree.nodes_eq, List.mem_cons]
    rcases member with top | below
    · exact Or.inr (Or.inl top)
    · exact (treeInsertValue_descendants below).imp_right Or.inr
  · rintro (rfl | member)
    · exact new inside
    · exact old other member

/-! ## Both together -/

/-- The new node and the new link are not in use. -/
structure FreshBlocks (heap : TreeHeap) (node link : Nat) : Prop where
  node : heap.liveNode node = false
  link : heap.liveChild link = false

theorem LiveTree.entry_ne (live : LiveTree heap linkOf tree) (fresh : FreshBlocks heap node link)
    {sub : Tree} (member : sub ∈ subtrees tree) : sub.entry ≠ node := by
  intro same
  have alive := (live sub member).1
  rw [same, fresh.node] at alive
  cases alive

theorem LiveTree.kid_ne (live : LiveTree heap linkOf tree) (fresh : FreshBlocks heap node link)
    {sub : Tree} (member : sub ∈ subtrees tree) {kid : Nat} (inside : kid ∈ kids sub) :
    kid ≠ node ∧ linkOf kid ≠ link := by
  refine ⟨?_, fun same => ?_⟩
  · obtain ⟨child, isChild, rfl⟩ := List.mem_map.mp inside
    exact live.entry_ne fresh (child_mem_subtrees member isChild)
  · have alive := (live sub member).2 kid inside
    rw [same, fresh.link] at alive
    cases alive

theorem map_update_link {below : List Nat} (outside : ∀ kid ∈ below, kid ≠ node) :
    below.map (Function.update linkOf node link) = below.map linkOf :=
  List.map_congr_left fun kid inside => Function.update_of_ne (outside kid inside) _ _

/-- A node without children. -/
theorem NodeAt.leaf {entry : Nat} (stored : (heap.node entry).value = value)
    (children : (heap.node entry).children = none) : NodeAt heap linkOf entry value [] := by
  refine ⟨stored, children, List.nodup_nil, ?_, ?_⟩
  · intro kid absent
    cases absent
  · intro kid absent
    cases absent

/-- A node other than the parent keeps its place in memory. -/
theorem NodeInserted.nodeAt_other {entry stored : Nat} {below : List Nat}
    (inserted : NodeInserted heap after parent node link value)
    (here : NodeAt heap linkOf entry stored below) (notNode : entry ≠ node)
    (notParent : entry ≠ parent) (outside : ∀ kid ∈ below, kid ≠ node ∧ linkOf kid ≠ link)
    (notFirst : ∀ kid ∈ below, (heap.node parent).children ≠ some (linkOf kid)) :
    NodeAt after (Function.update linkOf node link) entry stored below := by
  have sameLink : ∀ kid ∈ below, Function.update linkOf node link kid = linkOf kid :=
    fun kid inside => Function.update_of_ne (outside kid inside).1 _ _
  refine ⟨?_, ?_, here.distinct, fun kid inside => ?_, fun kid inside => ?_⟩
  · rw [inserted.other entry notNode notParent]
    exact here.value
  · rw [inserted.other entry notNode notParent,
      map_update_link fun kid inside => (outside kid inside).1]
    refine here.chain.congr (fun other inLinks => ?_) fun other inLinks => ?_
    · obtain ⟨kid, inside, rfl⟩ := List.mem_map.mp inLinks
      exact inserted.next _ (outside kid inside).2
    · obtain ⟨kid, inside, rfl⟩ := List.mem_map.mp inLinks
      rw [inserted.prev _ (outside kid inside).2, if_neg (notFirst kid inside)]
  · rw [sameLink kid inside, inserted.values _ (outside kid inside).2]
    exact here.linked kid inside
  · have own := here.parent kid inside
    by_cases isParent : kid = parent
    · rw [isParent] at own ⊢
      rw [inserted.parentNode]
      exact own
    · rw [inserted.other kid (outside kid inside).1 isParent]
      exact own

/-- The parent gets the new node in front. -/
theorem NodeInserted.nodeAt_parent {stored : Nat} {below : List Nat}
    (inserted : NodeInserted heap after parent node link value)
    (here : NodeAt heap linkOf parent stored below) (notParent : node ≠ parent)
    (outside : ∀ kid ∈ below, kid ≠ node ∧ linkOf kid ≠ link) (acyclic : parent ∉ below) :
    NodeAt after (Function.update linkOf node link) parent stored (node :: below) := by
  have sameLink : ∀ kid ∈ below, Function.update linkOf node link kid = linkOf kid :=
    fun kid inside => Function.update_of_ne (outside kid inside).1 _ _
  have isNew : node ∉ below := fun inside => (outside node inside).1 rfl
  refine ⟨?_, ?_, List.nodup_cons.mpr ⟨isNew, here.distinct⟩, fun kid inside => ?_,
    fun kid inside => ?_⟩
  · rw [inserted.parentNode]
    exact here.value
  · rw [inserted.parentNode, List.map_cons, Function.update_self,
      map_update_link fun kid inside => (outside kid inside).1]
    have linkNe : ∀ other ∈ below.map linkOf, other ≠ link := by
      intro other inLinks
      obtain ⟨kid, inside, rfl⟩ := List.mem_map.mp inLinks
      exact (outside kid inside).2
    have own := inserted.linked
    refine here.chain.push here.links_nodup ?_ ?_ (fun other isHead => ?_)
      (fun other inLinks => inserted.next other (linkNe other inLinks))
      fun other inLinks notHead => ?_
    · rw [childNext, own]
    · rw [childPrev, own]
    · have inLinks : other ∈ below.map linkOf := by
        rw [here.chain.head_eq] at isHead
        exact List.mem_of_mem_head? isHead
      rw [inserted.prev other (linkNe other inLinks), if_pos isHead]
    · rw [inserted.prev other (linkNe other inLinks), if_neg notHead]
  · rcases List.mem_cons.mp inside with rfl | old
    · rw [Function.update_self, inserted.linked]
    · rw [sameLink kid old, inserted.values _ (outside kid old).2]
      exact here.linked kid old
  · rcases List.mem_cons.mp inside with rfl | old
    · rw [inserted.fresh]
    · rw [inserted.other kid (outside kid old).1 fun same => acyclic (same ▸ old)]
      exact here.parent kid old

/-- `tree_insert_value` does to the memory what the insertion does to the tree. -/
theorem InHeap.insert (inHeap : InHeap heap linkOf tree) (live : LiveTree heap linkOf tree)
    (fresh : FreshBlocks heap node link) (inside : parent ∈ tree.nodes.map Prod.fst)
    (inserted : NodeInserted heap after parent node link value) :
    InHeap after (Function.update linkOf node link) (treeInsertValue parent node value tree) := by
  obtain ⟨⟨_, stored⟩, isNode, rfl⟩ := List.mem_map.mp inside
  obtain ⟨top, topMember, topEq⟩ := mem_nodes.mp isNode
  obtain ⟨rfl, rfl⟩ := Prod.mk.inj topEq
  dsimp only at inserted ⊢
  have there := inHeap top topMember
  have notFirst : ∀ {sub : Tree}, sub ∈ subtrees tree → sub.entry ≠ top.entry →
      ∀ kid ∈ kids sub, (heap.node top.entry).children ≠ some (linkOf kid) := by
    intro sub member different kid kidMember isHead
    rw [there.chain.head_eq] at isHead
    obtain ⟨other, otherMember, same⟩ := List.mem_map.mp (List.mem_of_mem_head? isHead)
    exact (inHeap sub member).links_apart there different kidMember otherMember same.symm
  have acyclic : top.entry ∉ kids top := by
    intro isKid
    obtain ⟨child, isChild, same⟩ := List.mem_map.mp isKid
    exact inHeap.acyclic topMember isChild (self_mem_subtrees child) same
  have elsewhere : ∀ {sub : Tree}, sub ∈ subtrees tree → sub.entry ≠ top.entry →
      NodeAt after (Function.update linkOf node link) sub.entry sub.value (kids sub) :=
    fun {sub} member different =>
      inserted.nodeAt_other (inHeap sub member) (live.entry_ne fresh member) different
        (fun kid kidMember => live.kid_ne fresh member kidMember) (notFirst member different)
  intro sub' member'
  rcases subtrees_treeInsertValue member' with rfl | ⟨sub, member, rfl | ⟨rfl, below⟩⟩
  · -- the new leaf
    refine NodeAt.leaf ?_ ?_
    · rw [Tree.entry, inserted.fresh]
      rfl
    · rw [Tree.entry, inserted.fresh]
  · rw [treeInsertValue_entry, treeInsertValue_value, kids_treeInsertValue]
    split
    · rename_i same
      obtain rfl : sub = top := (inHeap.below member).unique (inHeap.below topMember) same
      exact inserted.nodeAt_parent there (Ne.symm (live.entry_ne fresh member))
        (fun kid kidMember => live.kid_ne fresh member kidMember) acyclic
    · rename_i different
      exact elsewhere member different
  · obtain ⟨above, aboveMember, same, child, isChild, deeper⟩ := below
    refine elsewhere member ?_
    rw [← same]
    exact inHeap.acyclic aboveMember isChild deeper

theorem LiveTree.insert (live : LiveTree heap linkOf tree) (fresh : FreshBlocks heap node link)
    (inserted : NodeInserted heap after parent node link value) :
    LiveTree after (Function.update linkOf node link) (treeInsertValue parent node value tree) := by
  obtain ⟨liveNode, liveChild, -⟩ := inserted.live
  have stays : ∀ {sub : Tree}, sub ∈ subtrees tree → after.liveNode sub.entry = true ∧
      ∀ kid ∈ kids sub, after.liveChild (Function.update linkOf node link kid) = true := by
    intro sub member
    obtain ⟨alive, links⟩ := live sub member
    refine ⟨?_, fun kid inside => ?_⟩
    · rw [liveNode, Function.update_of_ne (live.entry_ne fresh member)]
      exact alive
    · obtain ⟨notNode, notLink⟩ := live.kid_ne fresh member inside
      rw [Function.update_of_ne notNode, liveChild, Function.update_of_ne notLink]
      exact links kid inside
  have newNode : after.liveNode node = true := by
    rw [liveNode, Function.update_self]
  have newLink : after.liveChild (Function.update linkOf node link node) = true := by
    rw [Function.update_self, liveChild, Function.update_self]
  intro sub' member'
  rcases subtrees_treeInsertValue member' with rfl | ⟨sub, member, rfl | ⟨rfl, -⟩⟩
  · exact ⟨newNode, fun kid none => by cases none⟩
  · rw [treeInsertValue_entry, kids_treeInsertValue]
    refine ⟨(stays member).1, fun kid inside => ?_⟩
    split at inside
    · rcases List.mem_cons.mp inside with rfl | old
      · exact newLink
      · exact (stays member).2 kid old
    · exact (stays member).2 kid inside
  · exact stays member

/-! ## Built trees -/

/-- A tree in allocated memory. -/
structure StoresTree (heap : TreeHeap) (linkOf : Nat → Nat) (tree : Tree) : Prop where
  inHeap : InHeap heap linkOf tree
  live : LiveTree heap linkOf tree
  root : (heap.node tree.entry).parent = none

/-- A tree with one node. -/
theorem StoresTree.single {root : Nat}
    (record : heap.node root = { children := none, parent := none, value := value })
    (alive : heap.liveNode root = true) : StoresTree heap linkOf (.node root value []) where
  inHeap := by
    intro sub member
    obtain rfl : sub = .node root value [] := by
      simpa [subtrees, subtreesBelow] using member
    refine NodeAt.leaf ?_ ?_
    · rw [Tree.entry, record]
      rfl
    · rw [Tree.entry, record]
  live := by
    intro sub member
    obtain rfl : sub = .node root value [] := by
      simpa [subtrees, subtreesBelow] using member
    exact ⟨alive, fun kid none => by cases none⟩
  root := by rw [Tree.entry, record]

/-- An insertion below a node of the tree. -/
theorem StoresTree.insert (stores : StoresTree heap linkOf tree) (fresh : FreshBlocks heap node link)
    (inside : parent ∈ tree.nodes.map Prod.fst) (nonzero : value ≠ 0) :
    (heap.treeInsertValue node link (some parent) value).1 = some node ∧
      NodeInserted heap (heap.treeInsertValue node link (some parent) value).2 parent node link
        value ∧
      StoresTree (heap.treeInsertValue node link (some parent) value).2
        (Function.update linkOf node link) (treeInsertValue parent node value tree) := by
  obtain ⟨⟨entry, stored⟩, isNode, same⟩ := List.mem_map.mp inside
  obtain ⟨top, topMember, topEq⟩ := mem_nodes.mp isNode
  obtain rfl : top.entry = parent := (Prod.mk.inj topEq).1.trans same
  have notParent : node ≠ top.entry := Ne.symm (stores.live.entry_ne fresh topMember)
  have notHead : (heap.node top.entry).children ≠ some link := by
    rw [(stores.inHeap top topMember).chain.head_eq]
    intro isHead
    obtain ⟨kid, kidMember, sameLink⟩ := List.mem_map.mp (List.mem_of_mem_head? isHead)
    exact (stores.live.kid_ne fresh topMember kidMember).2 sameLink
  obtain ⟨returned, inserted⟩ := treeInsertValue_spec nonzero notParent notHead
  refine ⟨returned, inserted, stores.inHeap.insert stores.live fresh inside inserted,
    stores.live.insert fresh inserted, ?_⟩
  rw [treeInsertValue_entry]
  by_cases isParent : tree.entry = top.entry
  · rw [isParent, inserted.parentNode, ← isParent]
    exact stores.root
  · rw [inserted.other _ (stores.live.entry_ne fresh (self_mem_subtrees tree)) isParent]
    exact stores.root

/-- A tree in allocated memory, with a different value in every node. -/
structure HoldsTree (heap : TreeHeap) (linkOf : Nat → Nat) (tree : Tree) : Prop where
  inHeap : InHeap heap linkOf tree
  live : LiveTree heap linkOf tree
  root : (heap.node tree.entry).parent = none
  distinct : ∀ one ∈ tree.nodes, ∀ two ∈ tree.nodes, one.2 = two.2 → one = two

theorem HoldsTree.stores (holds : HoldsTree heap linkOf tree) : StoresTree heap linkOf tree :=
  ⟨holds.inHeap, holds.live, holds.root⟩

theorem StoresTree.holds (stores : StoresTree heap linkOf tree)
    (distinct : ∀ one ∈ tree.nodes, ∀ two ∈ tree.nodes, one.2 = two.2 → one = two) :
    HoldsTree heap linkOf tree :=
  ⟨stores.inHeap, stores.live, stores.root, distinct⟩

/-- A tree with one node has one value. -/
theorem HoldsTree.single {root : Nat}
    (record : heap.node root = { children := none, parent := none, value := value })
    (alive : heap.liveNode root = true) : HoldsTree heap linkOf (.node root value []) := by
  refine (StoresTree.single record alive).holds ?_
  intro one oneMember two twoMember _
  have isRoot : ∀ node ∈ (Kernel.Tree.node root value []).nodes, node = (root, value) := by
    intro node member
    rw [Tree.nodes, Tree.nodesChildren] at member
    exact List.mem_singleton.mp member
  rw [isRoot one oneMember, isRoot two twoMember]

/-- An insertion with a new value below a node of the tree. -/
theorem HoldsTree.insert (holds : HoldsTree heap linkOf tree) (fresh : FreshBlocks heap node link)
    (inside : parent ∈ tree.nodes.map Prod.fst) (nonzero : value ≠ 0)
    (new : ∀ other ∈ tree.nodes, other.2 ≠ value) :
    (heap.treeInsertValue node link (some parent) value).1 = some node ∧
      NodeInserted heap (heap.treeInsertValue node link (some parent) value).2 parent node link
        value ∧
      HoldsTree (heap.treeInsertValue node link (some parent) value).2
        (Function.update linkOf node link) (treeInsertValue parent node value tree) := by
  obtain ⟨returned, inserted, stores⟩ := holds.stores.insert fresh inside nonzero
  refine ⟨returned, inserted, stores.holds ?_⟩
  intro one oneMember two twoMember sameValue
  rcases (nodes_treeInsertValue inside).mp oneMember with rfl | oldOne <;>
    rcases (nodes_treeInsertValue inside).mp twoMember with rfl | oldTwo
  · rfl
  · exact absurd sameValue.symm (new two oldTwo)
  · exact absurd sameValue (new one oldOne)
  · exact holds.distinct one oldOne two oldTwo sameValue

/-- The heaps that `tree_create` and a sequence of `tree_insert_value` calls build, with the trees
these calls describe: each call names a node of the tree as the parent, stores a value the tree does
not hold yet, and `malloc` returns blocks that are not in use. -/
inductive Built : TreeHeap → Tree → Prop where
  | create (heap : TreeHeap) (root value : Nat) :
      Built ((heap.treeCreate root).setNode root fun n => { n with value := value })
        (.node root value [])
  | insert {heap : TreeHeap} {tree : Tree} {parent node link value : Nat} (built : Built heap tree)
      (inside : parent ∈ tree.nodes.map Prod.fst) (nonzero : value ≠ 0)
      (new : ∀ other ∈ tree.nodes, other.2 ≠ value) (fresh : FreshBlocks heap node link) :
      Built (heap.treeInsertValue node link (some parent) value).2
        (treeInsertValue parent node value tree)

theorem Built.holds (built : Built heap tree) : ∃ linkOf, HoldsTree heap linkOf tree := by
  induction built with
  | create heap root value =>
      refine ⟨id, HoldsTree.single ?_ ?_⟩
      · simp [TreeHeap.setNode, TreeHeap.treeCreate]
      · simp [TreeHeap.setNode, TreeHeap.treeCreate]
  | insert _ inside nonzero new fresh inductionHypothesis =>
      obtain ⟨linkOf, holds⟩ := inductionHypothesis
      exact ⟨_, (holds.insert fresh inside nonzero new).2.2⟩

end Voxel.Proofs
