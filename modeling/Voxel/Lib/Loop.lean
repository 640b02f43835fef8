/-
Module: Voxel.Lib.Loop
Layer: Lib
Purpose: Counting loops `for (i = start; i < start + count; ++i)`, with a body that may get stuck and
  with one that may not, and the invariant rules that verify them. Recursions with fuel return when
  every sufficient amount of fuel gives the same result. A search over blocks is one over positions.
Trusted boundary: none
Main exports: forRange, forRange_invariant, forRange_twin, forRange_skip, foldRange, foldRange_invariant,
  foldRange_twin, Settles,
  Settles.round, Settles.bind, findSome?_blocks
-/
import Mathlib.Logic.Basic

namespace Voxel.Lib

universe u

variable {State : Type u}

/-- Run the body for `count` values of the counter, from `start` on; stop where the body gets stuck. -/
def forRange (body : Nat → State → Option State) : Nat → Nat → State → Option State
  | _, 0, s => some s
  | start, count + 1, s =>
      match body start s with
      | none => none
      | some next => forRange body (start + 1) count next

/-- The invariant rule: what every iteration carries from its counter to the next one holds at the
end of the loop. -/
theorem forRange_invariant {body : Nat → State → Option State} (Holds : Nat → State → Prop)
    {start count : Nat}
    (preserved : ∀ i s t, start ≤ i → i < start + count → Holds i s → body i s = some t →
      Holds (i + 1) t)
    {s t : State} (initially : Holds start s) (looped : forRange body start count s = some t) :
    Holds (start + count) t := by
  induction count generalizing start s with
  | zero =>
      cases looped
      exact initially
  | succ count inductionHypothesis =>
      rw [forRange] at looped
      split at looped
      · cases looped
      · rename_i next nextEq
        have step := preserved start s next (Nat.le_refl _) (by omega) initially nextEq
        have shifted : start + (count + 1) = start + 1 + count := by omega
        rw [shifted]
        exact inductionHypothesis (fun i s t low high => preserved i s t (by omega) (by omega)) step
          looped

/-- A loop whose body changes nothing. -/
theorem forRange_skip {body : Nat → State → Option State} {start count : Nat} {s : State}
    (idle : ∀ i, start ≤ i → i < start + count → body i s = some s) :
    forRange body start count s = some s := by
  induction count generalizing start with
  | zero => rfl
  | succ count inductionHypothesis =>
      rw [forRange, idle start (Nat.le_refl _) (by omega)]
      exact inductionHypothesis fun i low high => idle i (by omega) (by omega)

/-- The last iteration of a loop. -/
theorem forRange_succ {body : Nat → State → Option State} {start count : Nat} {s : State} :
    forRange body start (count + 1) s = (forRange body start count s).bind (body (start + count)) := by
  induction count generalizing start s with
  | zero =>
      simp only [forRange, Option.bind_some, Nat.add_zero]
      cases body start s <;> rfl
  | succ count inductionHypothesis =>
      rw [forRange]
      cases stepped : body start s with
      | none => simp [forRange, stepped]
      | some next =>
          rw [forRange, stepped]
          have shifted : start + 1 + count = start + (count + 1) := by omega
          simpa only [shifted] using @inductionHypothesis (start + 1) next

/-- A loop is its first part and then the rest. -/
theorem forRange_add {body : Nat → State → Option State} {start first rest : Nat} {s : State} :
    forRange body start (first + rest) s =
      (forRange body start first s).bind (forRange body (start + first) rest) := by
  induction rest with
  | zero =>
      rw [Nat.add_zero]
      cases forRange body start first s <;> rfl
  | succ rest inductionHypothesis =>
      rw [← Nat.add_assoc, forRange_succ, inductionHypothesis]
      cases forRange body start first s with
      | none => rfl
      | some next => rw [Option.bind_some, Option.bind_some, forRange_succ, Nat.add_assoc]

/-- The loop with a body that always finishes. -/
def foldRange (body : Nat → State → State) : Nat → Nat → State → State
  | _, 0, s => s
  | start, count + 1, s => foldRange body (start + 1) count (body start s)

/-- The invariant rule for loops that always finish. -/
theorem foldRange_invariant {body : Nat → State → State} (Holds : Nat → State → Prop)
    {start count : Nat}
    (preserved : ∀ i s, start ≤ i → i < start + count → Holds i s → Holds (i + 1) (body i s))
    {s : State} (initially : Holds start s) :
    Holds (start + count) (foldRange body start count s) := by
  induction count generalizing start s with
  | zero => exact initially
  | succ count inductionHypothesis =>
      have step := preserved start s (Nat.le_refl _) (by omega) initially
      have shifted : start + (count + 1) = start + 1 + count := by omega
      rw [foldRange, shifted]
      exact inductionHypothesis (fun i s low high => preserved i s (by omega) (by omega)) step

/-- The computation returns `result` with every sufficient amount of fuel. -/
def Settles {Result : Type u} (compute : Nat → Option Result) (result : Result) : Prop :=
  ∃ enough, ∀ fuel, enough ≤ fuel → compute fuel = some result

/-- A computation returns at most one result. -/
theorem Settles.unique {Result : Type u} {compute : Nat → Option Result} {one two : Result}
    (first : Settles compute one) (second : Settles compute two) : one = two := by
  obtain ⟨enough, firstEq⟩ := first
  obtain ⟨enough', secondEq⟩ := second
  have one := firstEq (max enough enough') (Nat.le_max_left _ _)
  rw [secondEq _ (Nat.le_max_right _ _)] at one
  exact (Option.some.inj one).symm

/-- A round, and the computation that is left after it. -/
theorem Settles.round {Result : Type u} {compute rest : Nat → Option Result}
    (steps : ∀ fuel, compute (fuel + 1) = rest fuel) {result : Result} (settles : Settles rest result) :
    Settles compute result := by
  obtain ⟨enough, returns⟩ := settles
  refine ⟨enough + 1, fun fuel more => ?_⟩
  obtain ⟨fuel, rfl⟩ := Nat.exists_eq_add_of_le' (Nat.le_of_add_left_le more)
  exact (steps fuel).trans (returns fuel (Nat.le_of_add_le_add_right more))

/-- One computation after the other, on the same fuel. -/
theorem Settles.bind {Result : Type u} {Next : Type*} {compute : Nat → Option Result}
    {next : Result → Nat → Option Next} {first : Result} {result : Next} (settles : Settles compute first)
    (then_ : Settles (next first) result) :
    Settles (fun fuel => (compute fuel).bind fun r => next r fuel) result := by
  obtain ⟨enough, returns⟩ := settles
  obtain ⟨enough', returns'⟩ := then_
  refine ⟨max enough enough', fun fuel more => ?_⟩
  show (compute fuel).bind _ = _
  rw [returns fuel (Nat.le_trans (Nat.le_max_left ..) more), Option.bind_some,
    returns' fuel (Nat.le_trans (Nat.le_max_right ..) more)]

theorem Settles.map {Result : Type u} {Next : Type*} {compute : Nat → Option Result} {result : Result}
    (settles : Settles compute result) (f : Result → Next) :
    Settles (fun fuel => (compute fuel).map f) (f result) := by
  obtain ⟨enough, returns⟩ := settles
  exact ⟨enough, fun fuel more => congrArg (Option.map f) (returns fuel more)⟩

theorem Settles.some {Result : Type u} (result : Result) : Settles (fun _ => some result) result :=
  ⟨0, fun _ _ => rfl⟩

/-! ## Searches -/

/-- A search over blocks of `width` positions, each of them searched in turn, finds the first position. -/
theorem findSome?_blocks (p : Nat → Bool) (width start count : Nat) :
    ((List.range' start count).findSome? fun i =>
      ((List.range width).find? fun j => p (width * i + j)).map fun j => width * i + j) =
      (List.range' (width * start) (width * count)).find? p := by
  induction count generalizing start with
  | zero => rfl
  | succ count inductionHypothesis =>
      have block : ((List.range width).find? fun j => p (width * start + j)).map
        (fun j => width * start + j) =
          (List.range' (width * start) width).find? p := by
        rw [List.range'_eq_map_range, List.find?_map]
        rfl
      rw [List.range'_succ, List.findSome?_cons, inductionHypothesis, block, Nat.mul_add_one width count,
        Nat.add_comm (width * count), ← List.range'_append_1, List.find?_append, ← Nat.mul_add_one]
      cases (List.range' (width * start) width).find? p <;> rfl

end Voxel.Lib
