/-
Module: Voxel.Lib.DoubleList
Layer: Lib
Purpose: Doubly linked lists threaded through a memory of `next` and `prev` pointers. The two updates
  of such a list, a new node in front and a node taken out of the middle, are stated by what the
  pointers are afterwards, so that any code which leaves the memory so can use them.
Trusted boundary: none
Main exports: Chain, Chain.push, Chain.unlink, Chain.unique
-/
import Mathlib.Data.List.Nodup
import Voxel.Lib.Segment

namespace Voxel.Lib

universe u

variable {Node : Type u} {next prev next' prev' : Node → Option Node}
  {before head : Option Node} {nodes : List Node}

/-- Following `next` from `head` visits exactly `nodes` and ends in null; `prev` leads from every node
to the one it follows, and from the first one to `before`. -/
def Chain (next prev : Node → Option Node) : Option Node → Option Node → List Node → Prop
  | _, head, [] => head = none
  | before, head, node :: rest =>
      head = some node ∧ prev node = before ∧ Chain next prev (some node) (next node) rest

namespace Chain

/-- The list without its back pointers. -/
theorem segment (chain : Chain next prev before head nodes) : Segment next head nodes none := by
  induction nodes generalizing before head with
  | nil => exact chain
  | cons node rest inductionHypothesis => exact ⟨chain.1, inductionHypothesis chain.2.2⟩

/-- A chain reads only the pointers of its own nodes. -/
theorem congr (chain : Chain next prev before head nodes) (sameNext : ∀ node ∈ nodes, next' node = next node)
    (samePrev : ∀ node ∈ nodes, prev' node = prev node) : Chain next' prev' before head nodes := by
  induction nodes generalizing before head with
  | nil => exact chain
  | cons node rest inductionHypothesis =>
      obtain ⟨headEq, prevEq, tail⟩ := chain
      refine ⟨headEq, (samePrev node List.mem_cons_self).trans prevEq, ?_⟩
      rw [sameNext node List.mem_cons_self]
      exact inductionHypothesis tail
        (fun other member => sameNext other (List.mem_cons_of_mem _ member))
        (fun other member => samePrev other (List.mem_cons_of_mem _ member))

/-- The memory determines the nodes of the list. -/
theorem unique {others : List Node} {after : Option Node} (one : Chain next prev before head nodes)
    (two : Chain next prev after head others) : nodes = others := by
  induction nodes generalizing before after head others with
  | nil =>
      cases others with
      | nil => rfl
      | cons other rest => cases (two.1.symm.trans one)
  | cons node rest inductionHypothesis =>
      cases others with
      | nil => cases (one.1.symm.trans two)
      | cons other rest' =>
          obtain rfl : node = other := Option.some.inj (one.1.symm.trans two.1)
          rw [inductionHypothesis one.2.2 two.2.2]

/-- A new node in front: it points at the old first node, which points back at it. -/
theorem push (chain : Chain next prev none head nodes) (nodup : nodes.Nodup) {fresh : Node}
    (freshNext : next' fresh = head) (freshPrev : prev' fresh = none)
    (firstPrev : ∀ node, head = some node → prev' node = some fresh)
    (sameNext : ∀ node ∈ nodes, next' node = next node)
    (samePrev : ∀ node ∈ nodes, head ≠ some node → prev' node = prev node) :
    Chain next' prev' none (some fresh) (fresh :: nodes) := by
  refine ⟨rfl, freshPrev, ?_⟩
  rw [freshNext]
  cases nodes with
  | nil => exact chain
  | cons first rest =>
      obtain ⟨headEq, -, tail⟩ := chain
      refine ⟨headEq, firstPrev first headEq, ?_⟩
      rw [sameNext first List.mem_cons_self]
      refine tail.congr (fun node member => sameNext node (List.mem_cons_of_mem _ member))
        (fun node member => samePrev node (List.mem_cons_of_mem _ member) ?_)
      rw [headEq]
      intro same
      exact (List.nodup_cons.mp nodup).1 (Option.some.inj same ▸ member)

/-- What the pointers of a node in the middle lead to. -/
theorem around {front back : List Node} {node : Node}
    (chain : Chain next prev before head (front ++ node :: back)) :
    prev node = front.getLast?.or before ∧ next node = back.head? := by
  induction front generalizing before head with
  | nil =>
      obtain ⟨-, prevEq, tail⟩ := chain
      refine ⟨by simpa using prevEq, ?_⟩
      cases back with
      | nil => exact tail
      | cons second rest => exact tail.1
  | cons first front inductionHypothesis =>
      obtain ⟨prevEq, nextEq⟩ := inductionHypothesis chain.2.2
      refine ⟨?_, nextEq⟩
      rw [prevEq, List.getLast?_cons]
      cases front.getLast? <;> rfl

/-- The head of the list. -/
theorem head_eq (chain : Chain next prev before head nodes) : head = nodes.head? := by
  cases nodes with
  | nil => exact chain
  | cons first rest => exact chain.1

/-- A node is taken out: its neighbours point past it. -/
theorem unlink [DecidableEq Node] {front back : List Node} {node : Node} {head' : Option Node}
    (chain : Chain next prev before head (front ++ node :: back))
    (nodup : (front ++ node :: back).Nodup)
    (newHead : head' = if front = [] then next node else head)
    (newNext : ∀ other ∈ front ++ back,
      next' other = if front.getLast? = some other then next node else next other)
    (newPrev : ∀ other ∈ front ++ back,
      prev' other = if back.head? = some other then prev node else prev other) :
    Chain next' prev' before head' (front ++ back) := by
  induction front generalizing before head head' with
  | nil =>
      obtain ⟨-, prevEq, tail⟩ := chain
      rw [if_pos rfl] at newHead
      rw [newHead]
      rw [List.nil_append] at newNext newPrev ⊢
      cases back with
      | nil => exact tail
      | cons second rest =>
          obtain ⟨nextEq, -, below⟩ := tail
          have apart : second ∉ rest := (List.nodup_cons.mp (List.nodup_cons.mp nodup).2).1
          refine ⟨nextEq, ?_, ?_⟩
          · rw [newPrev second List.mem_cons_self, List.head?_cons, if_pos rfl, prevEq]
          · rw [newNext second List.mem_cons_self, if_neg (by simp)]
            refine below.congr (fun other member => ?_) (fun other member => ?_)
            · rw [newNext other (List.mem_cons_of_mem _ member), if_neg (by simp)]
            · rw [newPrev other (List.mem_cons_of_mem _ member), if_neg]
              rw [List.head?_cons]
              exact fun same => apart (Option.some.inj same ▸ member)
  | cons first front inductionHypothesis =>
      obtain ⟨headEq, prevEq, tail⟩ := chain
      obtain ⟨outside, restNodup⟩ := List.nodup_cons.mp nodup
      rw [if_neg (List.cons_ne_nil _ _)] at newHead
      refine ⟨newHead.trans headEq, ?_, ?_⟩
      · rw [newPrev first List.mem_cons_self, if_neg, prevEq]
        intro same
        exact outside (List.mem_append_right _ (List.mem_cons_of_mem _ (List.mem_of_mem_head? same)))
      · refine inductionHypothesis tail restNodup ?_ (fun other member => ?_)
          fun other member => newPrev other (List.mem_cons_of_mem _ member)
        · rw [newNext first List.mem_cons_self, List.getLast?_cons]
          cases front with
          | nil => simp
          | cons second front =>
              have inner : second :: front ≠ [] := List.cons_ne_nil _ _
              rw [if_neg inner, if_neg]
              intro same
              rw [List.getLast?_eq_getLast_of_ne_nil inner, Option.getD_some] at same
              refine outside (List.mem_append_left _ ?_)
              exact Option.some.inj same ▸ List.getLast_mem inner
        · rw [newNext other (List.mem_cons_of_mem _ member), List.getLast?_cons]
          cases front with
          | nil =>
              have different : first ≠ other := fun same =>
                outside (List.mem_cons_of_mem _ (same ▸ member))
              simp [different]
          | cons second front =>
              rw [List.getLast?_eq_getLast_of_ne_nil (List.cons_ne_nil _ _), Option.getD_some]

end Chain

end Voxel.Lib
