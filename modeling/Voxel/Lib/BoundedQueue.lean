/-
Module: Voxel.Lib.BoundedQueue
Layer: Lib
Purpose: A first-in first-out queue of bounded capacity on which whole blocks are written and read, and the
  cells of a circular array that hold one.
Trusted boundary: none
Main exports: QueueOp, QueueOp.apply, queueRun, offer_offer, flatMap_eq_iff, delivered, delivered_take,
  circular, InCells, InCells.append, InCells.drop
-/
import Mathlib.Data.List.Basic

namespace Voxel.Lib

/-! ## The queue -/

/-- A call on a queue. -/
inductive QueueOp (α : Type*)
  | write (data : List α)
  | read (n : Nat)

variable {α : Type*}

/-- One call: what it transfers, and the queue behind it. A write takes the longest prefix that keeps the
queue within its capacity, a read the longest prefix of the queue of at most `n` elements. -/
def QueueOp.apply (capacity : Nat) (queue : List α) : QueueOp α → List α × List α
  | .write data => (data.take (capacity - queue.length), queue ++ data.take (capacity - queue.length))
  | .read n => (queue.take n, queue.drop n)

/-- A sequence of calls: what each one transfers, and the queue behind them. -/
def queueRun (capacity : Nat) (queue : List α) : List (QueueOp α) → List (List α) × List α
  | [] => ([], queue)
  | op :: ops =>
      let rest := queueRun capacity (op.apply capacity queue).2 ops
      ((op.apply capacity queue).1 :: rest.1, rest.2)

/-- The queue behind a write. -/
def offer (capacity : Nat) (queue data : List α) : List α := queue ++ data.take (capacity - queue.length)

/-- A write of nothing. -/
theorem offer_nil (capacity : Nat) (queue : List α) : offer capacity queue [] = queue := by
  rw [offer, List.take_nil, List.append_nil]

/-- Two writes behind each other are one write: what the first leaves out finds no room either. -/
theorem offer_offer (capacity : Nat) (queue first second : List α) :
    offer capacity (offer capacity queue first) second = offer capacity queue (first ++ second) := by
  unfold offer
  rw [List.append_assoc, List.take_append, List.length_append, List.length_take]
  congr 3
  omega

/-- Data that finds room is taken whole. -/
theorem offer_of_room {capacity : Nat} {queue data : List α} (room : data.length ≤ capacity - queue.length) :
    offer capacity queue data = queue ++ data := by
  rw [offer, List.take_of_length_le room]

/-- Blocks that are never longer leave no longer list. -/
theorem flatMap_length_le {β : Type*} {f g : α → List β} (shorter : ∀ x, (f x).length ≤ (g x).length)
    (list : List α) : (list.flatMap f).length ≤ (list.flatMap g).length := by
  induction list with
  | nil => exact Nat.le_refl _
  | cons x rest inductionHypothesis =>
      rw [List.flatMap_cons, List.flatMap_cons, List.length_append, List.length_append]
      exact Nat.add_le_add (shorter x) inductionHypothesis

/-- Of two ways to write every element as a block, the first never with the longer one, the lists agree
exactly if all blocks do. -/
theorem flatMap_eq_iff {β : Type*} {f g : α → List β} (shorter : ∀ x, (f x).length ≤ (g x).length)
    (list : List α) : list.flatMap f = list.flatMap g ↔ ∀ x ∈ list, f x = g x := by
  induction list with
  | nil => exact ⟨fun _ _ member => (List.not_mem_nil member).elim, fun _ => rfl⟩
  | cons x rest inductionHypothesis =>
      rw [List.flatMap_cons, List.flatMap_cons, List.forall_mem_cons, ← inductionHypothesis]
      constructor
      · intro same
        have total := congrArg List.length same
        rw [List.length_append, List.length_append] at total
        -- neither part can make up for the other
        have first := shorter x
        have others := flatMap_length_le shorter rest
        exact List.append_inj same (by omega)
      · rintro ⟨first, others⟩
        rw [first, others]

/-- How many of the first blocks stand whole at the front of a list. -/
def delivered [DecidableEq α] : List (List α) → List α → Nat
  | [], _ => 0
  | block :: blocks, list =>
      if block <+: list then delivered blocks (list.drop block.length) + 1 else 0

/-- All blocks are there exactly if they are there behind each other. -/
theorem delivered_eq_length [DecidableEq α] (blocks : List (List α)) (list : List α) :
    delivered blocks list = blocks.length ↔ blocks.flatten <+: list := by
  induction blocks generalizing list with
  | nil => exact ⟨fun _ => List.nil_prefix, fun _ => rfl⟩
  | cons block blocks inductionHypothesis =>
      rw [delivered, List.length_cons, List.flatten_cons]
      constructor
      · intro all
        split at all
        · rename_i front
          obtain ⟨rest, rfl⟩ := front
          rw [List.drop_left] at all
          exact (List.prefix_append_right_inj block).mpr
            ((inductionHypothesis rest).mp (Nat.add_right_cancel all))
        · cases all
      · intro whole
        obtain ⟨rest, rfl⟩ := (List.prefix_append block blocks.flatten).trans whole
        rw [if_pos (List.prefix_append block rest), List.drop_left]
        exact congrArg (· + 1)
          ((inductionHypothesis rest).mpr ((List.prefix_append_right_inj block).mp whole))

/-- Of a list of blocks that is cut somewhere, all are there exactly if the cut is behind them. -/
theorem delivered_take [DecidableEq α] (blocks : List (List α)) (n : Nat) :
    delivered blocks (blocks.flatten.take n) = blocks.length ↔ blocks.flatten.length ≤ n := by
  rw [delivered_eq_length]
  constructor
  · intro whole
    have length := whole.length_le
    rw [List.length_take] at length
    omega
  · intro fits
    exact ⟨[], by rw [List.append_nil, List.take_of_length_le fits]⟩

/-! ## A circular array -/

/-- A position of a circular array of `size` cells; the argument stays below twice the size. -/
def circular (size position : Nat) : Nat :=
  if position < size then position else position - size

theorem circular_lt {size position : Nat} (twice : position < 2 * size) : circular size position < size := by
  unfold circular
  split <;> omega

/-- Two steps behind each other are one step. -/
theorem circular_circular {size start i j : Nat} (inside : start + (i + j) < 2 * size) :
    circular size (circular size (start + i) + j) = circular size (start + (i + j)) := by
  unfold circular
  split_ifs <;> omega

/-- The queue lies in the cells from `start` on. -/
def InCells (cells : List α) (start : Nat) (queue : List α) : Prop :=
  ∀ i < queue.length, cells[circular cells.length (start + i)]? = queue[i]?

/-- The cells behind the queue take what is appended to it. -/
theorem InCells.append {cells cells' queue data : List α} {start : Nat} (holds : InCells cells start queue)
    (length : cells'.length = cells.length) (inside : start < cells.length)
    (room : queue.length + data.length < cells.length)
    (written : ∀ i < data.length,
      cells'[circular cells.length (circular cells.length (start + queue.length) + i)]? = data[i]?)
    (kept : ∀ i < queue.length,
      cells'[circular cells.length (start + i)]? = cells[circular cells.length (start + i)]?) :
    InCells cells' start (queue ++ data) := by
  intro i bound
  rw [List.length_append] at bound
  rw [length]
  by_cases before : i < queue.length
  · rw [kept i before, holds i before, List.getElem?_append_left before]
  · have place := written (i - queue.length) (by omega)
    rw [circular_circular (by omega), Nat.add_sub_cancel' (by omega)] at place
    rw [place, List.getElem?_append_right (by omega)]

/-- Behind the first `n` elements the rest of the queue begins. -/
theorem InCells.drop {cells queue : List α} {start n : Nat} (holds : InCells cells start queue)
    (inside : start < cells.length) (fits : queue.length ≤ cells.length) (bound : n ≤ queue.length) :
    InCells cells (circular cells.length (start + n)) (queue.drop n) := by
  intro i early
  rw [List.length_drop] at early
  rw [circular_circular (by omega), holds (n + i) (by omega), List.getElem?_drop]

end Voxel.Lib
