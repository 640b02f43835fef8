/-
Module: Voxel.Lib.LineRead
Layer: Lib
Purpose: What a bounded read of a line takes from a stream: the items up to the first one that ends a line,
  with that one, or as many as the bound allows.
Trusted boundary: human-reviewed spec
Main exports: takeLine, takeLine_line, takeLine_full, takeLine_cases
-/
import Mathlib.Data.List.Basic

namespace Voxel.Lib

universe u

variable {α : Type u} [DecidableEq α] {stop : α} {n : Nat} {line input rest content : List α}

/-- What a read of at most `n` items takes, and what is left; `none` while the input ends before. -/
def takeLine (stop : α) : Nat → List α → Option (List α × List α)
  | 0, input => some ([], input)
  | _ + 1, [] => none
  | n + 1, a :: input =>
      if a = stop then some ([a], input)
      else (takeLine stop n input).map fun (content, rest) => (a :: content, rest)

/-- A line that fits is taken with its end. -/
theorem takeLine_line (rest : List α) (inLine : stop ∉ line) (short : line.length < n) :
    takeLine stop n (line ++ stop :: rest) = some (line ++ [stop], rest) := by
  induction line generalizing n with
  | nil =>
      obtain ⟨n, rfl⟩ := Nat.exists_eq_add_of_le' short
      exact if_pos rfl
  | cons a line inductionHypothesis =>
      obtain ⟨n, rfl⟩ := Nat.exists_eq_add_of_le' (Nat.zero_lt_of_lt short)
      have other : a ≠ stop := fun same => inLine (same ▸ List.mem_cons_self)
      have taken := inductionHypothesis (fun member => inLine (List.mem_cons_of_mem a member))
        (Nat.lt_of_succ_lt_succ short)
      rw [List.cons_append, takeLine, if_neg other, taken]
      rfl

/-- Of a line that does not fit, as much is taken as the bound allows. -/
theorem takeLine_full (long : n ≤ input.length) (inside : stop ∉ input.take n) :
    takeLine stop n input = some (input.take n, input.drop n) := by
  induction n generalizing input with
  | zero => rfl
  | succ n inductionHypothesis =>
      cases input with
      | nil => exact absurd long (Nat.not_succ_le_zero n)
      | cons a input =>
          rw [List.take_succ_cons] at inside
          have other : a ≠ stop := fun same => inside (same ▸ List.mem_cons_self)
          have taken := inductionHypothesis (Nat.le_of_succ_le_succ long)
            (fun member => inside (List.mem_cons_of_mem a member))
          rw [takeLine, if_neg other, taken]
          rfl

/-- There are no other reads. -/
theorem takeLine_cases (taken : takeLine stop n input = some (content, rest)) :
    (∃ line, content = line ++ [stop] ∧ stop ∉ line ∧ line.length < n ∧ input = line ++ stop :: rest) ∨
      (content.length = n ∧ stop ∉ content ∧ input = content ++ rest) := by
  induction n generalizing input content with
  | zero =>
      cases taken
      exact .inr ⟨rfl, List.not_mem_nil, rfl⟩
  | succ n inductionHypothesis =>
      cases input with
      | nil => cases taken
      | cons a input =>
          rw [takeLine] at taken
          by_cases same : a = stop
          · rw [if_pos same] at taken
            cases taken
            exact .inl ⟨[], by rw [same]; rfl, List.not_mem_nil, Nat.succ_pos n, by rw [same]; rfl⟩
          · rw [if_neg same] at taken
            obtain ⟨⟨more, rest'⟩, taken, both⟩ := Option.map_eq_some_iff.mp taken
            cases both
            have out : ∀ {s : List α}, stop ∉ s → stop ∉ a :: s := fun outside member =>
              (List.mem_cons.mp member).elim (fun isHead => same isHead.symm) outside
            rcases inductionHypothesis taken with ⟨line, rfl, inLine, short, rfl⟩ | ⟨full, inside, rfl⟩
            · exact .inl ⟨a :: line, rfl, out inLine, Nat.succ_lt_succ short, rfl⟩
            · exact .inr ⟨congrArg (· + 1) full, out inside, rfl⟩

theorem takeLine_length (taken : takeLine stop n input = some (content, rest)) : content.length ≤ n := by
  rcases takeLine_cases taken with ⟨line, rfl, -, short, -⟩ | ⟨full, -, -⟩
  · rw [List.length_append]
    exact short
  · exact Nat.le_of_eq full

end Voxel.Lib
