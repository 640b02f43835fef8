/-
Module: Voxel.Lib.Occurrence
Layer: Lib
Purpose: Where a list occurs in another one, and what a search from the front for its first occurrence has
  to return. The rules follow the search: at a place where the pattern does not stand the search goes on
  with the rest, and a text that is shorter than the pattern holds no occurrence.
Trusted boundary: human-reviewed spec
Main exports: OccursAt, FirstOccurrence, FirstOccurrence.here, FirstOccurrence.later,
  FirstOccurrence.of_short
-/
import Mathlib.Data.List.Infix

namespace Voxel.Lib

universe u

variable {α : Type u} {pattern text : List α}

/-- The pattern stands in the text from an index on. -/
def OccursAt (pattern text : List α) (place : Nat) : Prop := pattern <+: text.drop place

/-- What a search for the pattern returns: the first index where it stands, or nothing if it stands
nowhere. -/
def FirstOccurrence (pattern text : List α) : Option Nat → Prop
  | some place => OccursAt pattern text place ∧ ∀ q < place, ¬OccursAt pattern text q
  | none => ∀ q, ¬OccursAt pattern text q

theorem OccursAt.length_le {place : Nat} (occurs : OccursAt pattern text place) :
    pattern.length ≤ text.length - place := by
  have short := List.IsPrefix.length_le occurs
  rwa [List.length_drop] at short

namespace FirstOccurrence

theorem here (stands : pattern <+: text) : FirstOccurrence pattern text (some 0) :=
  ⟨stands, fun _ before => absurd before (Nat.not_lt_zero _)⟩

/-- A text that is too short holds no occurrence, at none of its places. -/
theorem of_short (short : text.length < pattern.length) : FirstOccurrence pattern text none := by
  intro q occurs
  have fits := occurs.length_le
  omega

/-- If the pattern does not stand at the front, the rest of the text decides. -/
theorem later {c : α} {found : Option Nat} (differs : ¬pattern <+: c :: text)
    (rest : FirstOccurrence pattern text found) :
    FirstOccurrence pattern (c :: text) (found.map (· + 1)) := by
  cases found with
  | none =>
      intro q
      cases q with
      | zero => exact differs
      | succ q => exact rest q
  | some place =>
      refine ⟨rest.1, fun q before => ?_⟩
      cases q with
      | zero => exact differs
      | succ q => exact rest.2 q (Nat.lt_of_succ_lt_succ before)

end FirstOccurrence

end Voxel.Lib
