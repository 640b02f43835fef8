/-
Module: Voxel.Lib.Pushback
Layer: Lib
Purpose: A source of items with pushback: an item that is pushed while `n` items have been delivered becomes
  the next one behind these. What a reader sees is the source with every pushed item at its place.
Trusted boundary: human-reviewed spec
Main exports: withPushed, Fits, withPushed_append, withPushed_push
-/
import Mathlib.Data.List.InsertIdx

namespace Voxel.Lib

universe u

variable {α : Type u}

/-- The items of a source with the pushed ones, in the order in which they were pushed, at their places. -/
def withPushed (source : List α) (pushes : List (Nat × α)) : List α :=
  pushes.foldl (fun items push => items.insertIdx push.1 push.2) source

/-- Every item was pushed behind items that were there. -/
def Fits : List α → List (Nat × α) → Prop
  | _, [] => True
  | source, push :: pushes => push.1 ≤ source.length ∧ Fits (source.insertIdx push.1 push.2) pushes

/-- An item pushed into the middle. -/
theorem insertIdx_middle (before rest : List α) (item : α) :
    (before ++ rest).insertIdx before.length item = before ++ item :: rest := by
  induction before with
  | nil => rfl
  | cons first before inductionHypothesis =>
      rw [List.cons_append, List.length_cons, List.insertIdx_succ_cons, inductionHypothesis,
        List.cons_append]

/-- An item pushed into the first part. -/
theorem insertIdx_front {first : List α} (more : List α) {n : Nat} (inside : n ≤ first.length)
    (item : α) : (first ++ more).insertIdx n item = first.insertIdx n item ++ more := by
  have parts := insertIdx_middle (first.take n) (first.drop n ++ more) item
  have front := insertIdx_middle (first.take n) (first.drop n) item
  rw [← List.append_assoc, List.take_append_drop, List.length_take_of_le inside] at parts
  rw [List.take_append_drop, List.length_take_of_le inside] at front
  rw [parts, front, List.append_assoc, List.cons_append]

/-- What the source gives later comes at the end. -/
theorem withPushed_append {source : List α} {pushes : List (Nat × α)} (fits : Fits source pushes)
    (more : List α) : withPushed (source ++ more) pushes = withPushed source pushes ++ more := by
  induction pushes generalizing source with
  | nil => rfl
  | cons push pushes inductionHypothesis =>
      show withPushed ((source ++ more).insertIdx push.1 push.2) pushes = _
      rw [insertIdx_front more fits.1]
      exact inductionHypothesis fits.2

theorem Fits.append {source : List α} {pushes : List (Nat × α)} (fits : Fits source pushes)
    (more : List α) : Fits (source ++ more) pushes := by
  induction pushes generalizing source with
  | nil => trivial
  | cons push pushes inductionHypothesis =>
      refine ⟨by rw [List.length_append]; exact Nat.le_add_right_of_le fits.1, ?_⟩
      rw [insertIdx_front more fits.1]
      exact inductionHypothesis fits.2

/-- One more pushed item. -/
theorem withPushed_push {source : List α} {pushes : List (Nat × α)} {before rest : List α} (item : α)
    (order : before ++ rest = withPushed source pushes) :
    before ++ item :: rest = withPushed source (pushes ++ [(before.length, item)]) := by
  rw [← insertIdx_middle, order]
  unfold withPushed
  rw [List.foldl_append]
  rfl

theorem Fits.push {source : List α} {pushes : List (Nat × α)} (fits : Fits source pushes) {n : Nat}
    (inside : n ≤ (withPushed source pushes).length) (item : α) : Fits source (pushes ++ [(n, item)]) := by
  induction pushes generalizing source with
  | nil => exact ⟨inside, trivial⟩
  | cons push pushes inductionHypothesis => exact ⟨fits.1, inductionHypothesis fits.2 inside⟩

end Voxel.Lib
