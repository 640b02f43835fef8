/-
Module: Voxel.Lib.SuffixCount
Layer: Lib
Purpose: Counting a set of lists by what they end with. A list stands for the way down a tree, the
  innermost step first, so that the members with a suffix are those at and below one place; their number
  is the sum over the steps that lead on from there.
Trusted boundary: human-reviewed spec
Main exports: under, ncard_under, stepAfter
-/
import Mathlib.Algebra.BigOperators.Group.Finset.Basic
import Mathlib.Algebra.BigOperators.Fin
import Mathlib.Data.Fintype.BigOperators
import Mathlib.Data.Set.Card

namespace Voxel.Lib

universe u v

variable {α : Type u} {R : Set (List α)} {p q : List α}

/-- The members at and below a place. -/
def under (R : Set (List α)) (p : List α) : Set (List α) := {q | q ∈ R ∧ p <:+ q}

theorem under_subset : under R p ⊆ R := fun _ member => member.1

theorem under_nil : under R [] = R := Set.ext fun _ => ⟨And.left, fun member => ⟨member, List.nil_suffix⟩⟩

/-- A finite set has as many members as the classes of a function on it together. -/
theorem ncard_eq_sum_classes {β : Type v} [Fintype β] {S : Set α} (finite : S.Finite) (f : α → β) :
    S.ncard = ∑ b, {a | a ∈ S ∧ f a = b}.ncard := by
  classical
  rw [Set.ncard_eq_toFinset_card S finite,
    Finset.card_eq_sum_card_fiberwise (f := f) (t := Finset.univ) fun _ _ =>
      Finset.mem_coe.mpr (Finset.mem_univ _)]
  refine Finset.sum_congr rfl fun b _ => ?_
  rw [← Set.ncard_coe_finset]
  congr 1
  ext a
  simp

/-- The step that leads on from a place to a list below it; there is none to the place itself. -/
def stepAfter (p q : List α) : Option α := q.reverse[p.length]?

theorem stepAfter_append (t p : List α) : stepAfter p (t ++ p) = t.getLast? := by
  rw [stepAfter, List.reverse_append, List.getElem?_append_right (by simp), List.length_reverse,
    Nat.sub_self, ← List.head?_eq_getElem?, List.head?_reverse]

theorem stepAfter_eq_none (below : p <:+ q) : stepAfter p q = none ↔ q = p := by
  obtain ⟨t, rfl⟩ := below
  rw [stepAfter_append, List.getLast?_eq_none_iff]
  exact ⟨fun empty => by rw [empty]; rfl, fun same => List.append_left_eq_self.mp same⟩

theorem stepAfter_eq_some {a : α} (below : p <:+ q) : stepAfter p q = some a ↔ (a :: p) <:+ q := by
  obtain ⟨t, rfl⟩ := below
  rw [stepAfter_append, List.getLast?_eq_some_iff]
  constructor
  · rintro ⟨u, rfl⟩
    exact ⟨u, by simp⟩
  · rintro ⟨u, same⟩
    have pieces : (u ++ [a]) ++ p = t ++ p := by
      rw [← same]
      simp
    exact ⟨u, (List.append_cancel_right pieces).symm⟩

/-- The members at and below a place: the place itself, and those below each of the next places. -/
theorem ncard_under [Fintype α] (finite : R.Finite) (p : List α) [Decidable (p ∈ R)] :
    (under R p).ncard = (if p ∈ R then 1 else 0) + ∑ a : α, (under R (a :: p)).ncard := by
  rw [ncard_eq_sum_classes (finite.subset under_subset) (stepAfter p), Fintype.sum_option]
  congr 1
  · split
    · rename_i member
      have single : {q | q ∈ under R p ∧ stepAfter p q = none} = {p} := by
        ext q
        constructor
        · exact fun both => (stepAfter_eq_none both.1.2).mp both.2
        · rintro rfl
          exact ⟨⟨member, List.suffix_refl _⟩, (stepAfter_eq_none (List.suffix_refl _)).mpr rfl⟩
      rw [single, Set.ncard_singleton]
    · rename_i outside
      have empty : {q | q ∈ under R p ∧ stepAfter p q = none} = ∅ := by
        refine Set.eq_empty_of_forall_notMem fun q both => outside ?_
        exact (stepAfter_eq_none both.1.2).mp both.2 ▸ both.1.1
      rw [empty, Set.ncard_empty]
  · refine Finset.sum_congr rfl fun a _ => congrArg Set.ncard (Set.ext fun q => ?_)
    constructor
    · exact fun both => ⟨both.1.1, (stepAfter_eq_some both.1.2).mp both.2⟩
    · rintro ⟨member, below⟩
      have above := (List.suffix_cons a p).trans below
      exact ⟨⟨member, above⟩, (stepAfter_eq_some above).mpr below⟩

end Voxel.Lib
