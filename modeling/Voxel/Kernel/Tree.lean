/-
Module: Voxel.Kernel.Tree
Layer: Kernel
Purpose: The process tree of `kernel/lib/tree.c` as its users see it. A node carries the address of
  its `tree_t` and the pointer it stores; a search runs in pre-order over the child list, an insertion
  puts the new node in front of the children of its parent, and removing a branch takes the node and
  everything below it out of the tree.
Trusted boundary: human-reviewed spec
Main exports: Tree, treeFind, treeInsertValue, treeRemoveBranch, treeDestroyAndMerge
-/
import Mathlib.Data.List.Basic

namespace Voxel.Kernel

/-- `tree_t`: the node at address `entry` stores the pointer `value`. -/
inductive Tree where
  | node (entry : Nat) (value : Nat) (children : List Tree)
deriving Repr, Inhabited

namespace Tree

def entry : Tree → Nat
  | .node entry _ _ => entry

def value : Tree → Nat
  | .node _ value _ => value

def children : Tree → List Tree
  | .node _ _ children => children

end Tree

mutual

/-- `tree_find`: the first node, in pre-order, whose value the comparator accepts. -/
def treeFind (comparator : Nat → Bool) : Tree → Option Tree
  | .node entry value children =>
      if comparator value then some (.node entry value children)
      else treeFindChildren comparator children

/-- The loop of `tree_find` over a child list. -/
def treeFindChildren (comparator : Nat → Bool) : List Tree → Option Tree
  | [] => none
  | child :: rest =>
      match treeFind comparator child with
      | some found => some found
      | none => treeFindChildren comparator rest

end

mutual

/-- `tree_insert_value`: a new node in front of the children of `parent`. A parent that is not in the
tree (its own node was freed with a branch) takes the new node with it. -/
def treeInsertValue (parent entry value : Nat) : Tree → Tree
  | .node current stored children =>
      if current = parent then .node current stored (.node entry value [] :: children)
      else .node current stored (treeInsertChildren parent entry value children)

def treeInsertChildren (parent entry value : Nat) : List Tree → List Tree
  | [] => []
  | child :: rest =>
      treeInsertValue parent entry value child :: treeInsertChildren parent entry value rest

end

mutual

/-- `tree_remove_branch` for a node with a parent: the child link of `entry` is unlinked and
`tree_free_nodes` frees the node with all its descendants. -/
def treeRemoveBranch (entry : Nat) : Tree → Tree
  | .node current value children => .node current value (treeRemoveChildren entry children)

def treeRemoveChildren (entry : Nat) : List Tree → List Tree
  | [] => []
  | child :: rest =>
      if child.entry = entry then treeRemoveChildren entry rest
      else treeRemoveBranch entry child :: treeRemoveChildren entry rest

end

/-- `tree_destroy_and_merge`: despite its name it drops the whole branch below the node. The root has
no parent, so there `tree_destroy_branch` tears the tree itself down (and `tree_free_values` calls
itself on the same node for ever when there is a child); the model stops. -/
def treeDestroyAndMerge (entry : Nat) (tree : Tree) : Option Tree :=
  if tree.entry = entry then none else some (treeRemoveBranch entry tree)

mutual

/-- The entry and the value of every node, in pre-order. -/
def Tree.nodes : Tree → List (Nat × Nat)
  | .node entry value children => (entry, value) :: Tree.nodesChildren children

def Tree.nodesChildren : List Tree → List (Nat × Nat)
  | [] => []
  | child :: rest => Tree.nodes child ++ Tree.nodesChildren rest

end

/-- The nodes strictly below the root. -/
def Tree.descendants (tree : Tree) : List (Nat × Nat) := Tree.nodesChildren tree.children

@[simp] theorem Tree.nodes_eq (tree : Tree) :
    tree.nodes = (tree.entry, tree.value) :: tree.descendants := by
  cases tree
  rfl

mutual

/-- A search returns a node of the tree that the comparator accepts. -/
theorem treeFind_spec {comparator : Nat → Bool} :
    ∀ {tree found : Tree}, treeFind comparator tree = some found →
      comparator found.value = true ∧ (found.entry, found.value) ∈ tree.nodes
  | .node entry value children, found, search => by
      rw [treeFind] at search
      split at search
      · rename_i accepted
        cases search
        exact ⟨accepted, by simp [Tree.entry, Tree.value]⟩
      · obtain ⟨accepted, member⟩ := treeFindChildren_spec search
        exact ⟨accepted, List.mem_cons_of_mem _ member⟩

theorem treeFindChildren_spec {comparator : Nat → Bool} :
    ∀ {children : List Tree} {found : Tree},
      treeFindChildren comparator children = some found →
        comparator found.value = true ∧
          (found.entry, found.value) ∈ Tree.nodesChildren children
  | [], found, search => by simp [treeFindChildren] at search
  | child :: rest, found, search => by
      rw [treeFindChildren] at search
      rw [Tree.nodesChildren, List.mem_append]
      cases first : treeFind comparator child with
      | some hit =>
          rw [first] at search
          cases search
          obtain ⟨accepted, member⟩ := treeFind_spec first
          exact ⟨accepted, Or.inl member⟩
      | none =>
          rw [first] at search
          obtain ⟨accepted, member⟩ := treeFindChildren_spec search
          exact ⟨accepted, Or.inr member⟩

end

mutual

/-- A search that fails has tried every node. -/
theorem treeFind_none {comparator : Nat → Bool} :
    ∀ {tree : Tree}, treeFind comparator tree = none →
      ∀ node ∈ tree.nodes, comparator node.2 = false
  | .node entry value children, search, node, member => by
      rw [treeFind] at search
      split at search
      · cases search
      · rename_i rejected
        rcases List.mem_cons.mp member with rfl | below
        · simpa using rejected
        · exact treeFindChildren_none search node below

theorem treeFindChildren_none {comparator : Nat → Bool} :
    ∀ {children : List Tree}, treeFindChildren comparator children = none →
      ∀ node ∈ Tree.nodesChildren children, comparator node.2 = false
  | [], _, node, member => by simp [Tree.nodesChildren] at member
  | child :: rest, search, node, member => by
      rw [treeFindChildren] at search
      split at search
      · cases search
      · rename_i missed
        rw [Tree.nodesChildren, List.mem_append] at member
        rcases member with first | later
        · exact treeFind_none missed node first
        · exact treeFindChildren_none search node later

end

mutual

/-- An insertion adds at most the new node, below the root. -/
theorem treeInsertValue_descendants {parent entry value : Nat} :
    ∀ {tree : Tree} {node : Nat × Nat},
      node ∈ (treeInsertValue parent entry value tree).descendants →
        node = (entry, value) ∨ node ∈ tree.descendants
  | .node current stored children, node, member => by
      rw [treeInsertValue] at member
      split at member
      · rcases List.mem_cons.mp (by simpa [Tree.descendants, Tree.children, Tree.nodesChildren]
          using member) with isNew | old
        · exact Or.inl isNew
        · exact Or.inr old
      · exact treeInsertChildren_nodes (by simpa [Tree.descendants, Tree.children] using member)

theorem treeInsertChildren_nodes {parent entry value : Nat} :
    ∀ {children : List Tree} {node : Nat × Nat},
      node ∈ Tree.nodesChildren (treeInsertChildren parent entry value children) →
        node = (entry, value) ∨ node ∈ Tree.nodesChildren children
  | [], node, member => by simp [treeInsertChildren, Tree.nodesChildren] at member
  | child :: rest, node, member => by
      rw [treeInsertChildren, Tree.nodesChildren, List.mem_append] at member
      rw [Tree.nodesChildren, List.mem_append]
      rcases member with first | later
      · rw [Tree.nodes_eq, List.mem_cons] at first
        rcases first with top | below
        · have same : node = (child.entry, child.value) := by
            cases child with
            | node current stored below =>
                rw [treeInsertValue] at top
                split at top <;> exact top
          exact Or.inr (Or.inl (by simp [same]))
        · rcases treeInsertValue_descendants below with isNew | old
          · exact Or.inl isNew
          · exact Or.inr (Or.inl (by simp [old]))
      · rcases treeInsertChildren_nodes later with isNew | old
        · exact Or.inl isNew
        · exact Or.inr (Or.inr old)

end

@[simp] theorem treeInsertValue_entry (parent entry value : Nat) (tree : Tree) :
    (treeInsertValue parent entry value tree).entry = tree.entry := by
  cases tree
  rw [treeInsertValue]
  split <;> rfl

@[simp] theorem treeInsertValue_value (parent entry value : Nat) (tree : Tree) :
    (treeInsertValue parent entry value tree).value = tree.value := by
  cases tree
  rw [treeInsertValue]
  split <;> rfl

mutual

/-- Removing a branch leaves old nodes only, and none with the removed entry. -/
theorem treeRemoveBranch_descendants {entry : Nat} :
    ∀ {tree : Tree} {node : Nat × Nat}, node ∈ (treeRemoveBranch entry tree).descendants →
      node ∈ tree.descendants ∧ node.1 ≠ entry
  | .node current value children, node, member => by
      rw [treeRemoveBranch] at member
      exact treeRemoveChildren_nodes member

theorem treeRemoveChildren_nodes {entry : Nat} :
    ∀ {children : List Tree} {node : Nat × Nat},
      node ∈ Tree.nodesChildren (treeRemoveChildren entry children) →
        node ∈ Tree.nodesChildren children ∧ node.1 ≠ entry
  | [], node, member => by simp [treeRemoveChildren, Tree.nodesChildren] at member
  | child :: rest, node, member => by
      rw [treeRemoveChildren] at member
      rw [Tree.nodesChildren, List.mem_append]
      split at member
      · obtain ⟨old, different⟩ := treeRemoveChildren_nodes member
        exact ⟨Or.inr old, different⟩
      · rename_i kept
        rw [Tree.nodesChildren, List.mem_append] at member
        rcases member with first | later
        · rw [Tree.nodes_eq, List.mem_cons] at first
          rcases first with top | below
          · have same : node = (child.entry, child.value) := by
              cases child
              exact top
            exact ⟨Or.inl (by simp [same]), by simpa [same] using kept⟩
          · obtain ⟨old, different⟩ := treeRemoveBranch_descendants below
            exact ⟨Or.inl (by simp [old]), different⟩
        · obtain ⟨old, different⟩ := treeRemoveChildren_nodes later
          exact ⟨Or.inr old, different⟩

end

/-- What tearing a node out of the tree leaves behind. -/
theorem treeDestroyAndMerge_spec {entry : Nat} {tree after : Tree}
    (destroyed : treeDestroyAndMerge entry tree = some after) :
    after.entry = tree.entry ∧ after.value = tree.value ∧ tree.entry ≠ entry ∧
      ∀ node ∈ after.descendants, node ∈ tree.descendants ∧ node.1 ≠ entry := by
  unfold treeDestroyAndMerge at destroyed
  split at destroyed
  · cases destroyed
  · rename_i notRoot
    cases destroyed
    refine ⟨?_, ?_, notRoot, fun node member => treeRemoveBranch_descendants member⟩
    · cases tree
      rfl
    · cases tree
      rfl

end Voxel.Kernel
