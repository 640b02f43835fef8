/-
Module: Voxel.Lib.Numeral
Layer: Lib
Purpose: Numbers as texts of digits in a base, the most significant digit first. A text denotes at most
  one number; a number has one text of each length, and the shortest has as many digits as its logarithm
  says.
Trusted boundary: human-reviewed spec
Main exports: Denotes, numeral, digitCount, numeral_denotes, Denotes.unique, numeral_succ_front,
  digitCount_le_iff
-/
import Mathlib.Data.Nat.Digits.Lemmas

namespace Voxel.Lib

variable {Symbol : Type*} {base : Nat} {digit : Nat → Symbol}

/-- The text writes the number in the base. -/
def Denotes (base : Nat) (digit : Nat → Symbol) (text : List Symbol) (n : Nat) : Prop :=
  ∃ digits : List Nat, (∀ d ∈ digits, d < base) ∧ text = (digits.map digit).reverse ∧
    Nat.ofDigits base digits = n

/-- The last `width` digits of a number. -/
def numeral (base : Nat) (digit : Nat → Symbol) : Nat → Nat → List Symbol
  | 0, _ => []
  | width + 1, n => numeral base digit width (n / base) ++ [digit (n % base)]

/-- The number of digits that a number needs: one for zero. -/
def digitCount (base n : Nat) : Nat := Nat.log base n + 1

/-! ## Texts of digits -/

/-- A digit behind a text. -/
theorem Denotes.snoc {text : List Symbol} {n d : Nat} (denotes : Denotes base digit text n)
    (isDigit : d < base) :
    Denotes base digit (text ++ [digit d]) (d + base * n) := by
  obtain ⟨digits, small, rfl, rfl⟩ := denotes
  refine ⟨d :: digits, ?_, ?_, ?_⟩
  · intro x member
    rcases List.mem_cons.mp member with rfl | member
    · exact isDigit
    · exact small x member
  · rw [List.map_cons, List.reverse_cons]
  · rw [Nat.ofDigits_cons]

/-- Nothing but the digit zero denotes zero. -/
theorem denotes_zeros (positive : 0 < base) (k : Nat) :
    Denotes base digit (List.replicate k (digit 0)) 0 := by
  refine ⟨List.replicate k 0, ?_, ?_, Nat.ofDigits_replicate_zero⟩
  · intro d member
    rw [(List.mem_replicate.mp member).2]
    exact positive
  · rw [List.map_replicate, List.reverse_replicate]

/-- Zeros in front of a text do not count. -/
theorem Denotes.leadingZeros (positive : 0 < base) {text : List Symbol} {n : Nat}
    (denotes : Denotes base digit text n) (k : Nat) :
    Denotes base digit (List.replicate k (digit 0) ++ text) n := by
  obtain ⟨digits, small, rfl, rfl⟩ := denotes
  refine ⟨digits ++ List.replicate k 0, ?_, ?_, ?_⟩
  · intro d member
    rcases List.mem_append.mp member with inside | zero
    · exact small d inside
    · rw [(List.mem_replicate.mp zero).2]
      exact positive
  · rw [List.map_append, List.reverse_append, List.map_replicate, List.reverse_replicate]
  · rw [Nat.ofDigits_append, Nat.ofDigits_replicate_zero, Nat.mul_zero, Nat.add_zero]

/-- Every zero behind a text multiplies by the base. -/
theorem Denotes.trailingZeros (positive : 0 < base) {text : List Symbol} {n : Nat}
    (denotes : Denotes base digit text n) (k : Nat) :
    Denotes base digit (text ++ List.replicate k (digit 0)) (base ^ k * n) := by
  obtain ⟨digits, small, rfl, rfl⟩ := denotes
  refine ⟨List.replicate k 0 ++ digits, ?_, ?_, ?_⟩
  · intro d member
    rcases List.mem_append.mp member with zero | inside
    · rw [(List.mem_replicate.mp zero).2]
      exact positive
    · exact small d inside
  · rw [List.map_append, List.reverse_append, List.map_replicate, List.reverse_replicate]
  · rw [Nat.ofDigits_append, Nat.ofDigits_replicate_zero, List.length_replicate, Nat.zero_add]

/-- A text denotes at most one number, if different digits look different. -/
theorem Denotes.unique (apart : ∀ d e, d < base → e < base → digit d = digit e → d = e) {text : List Symbol}
    {n m : Nat} (first : Denotes base digit text n) (second : Denotes base digit text m) : n = m := by
  obtain ⟨digits, small, rfl, rfl⟩ := first
  obtain ⟨digits', small', same, rfl⟩ := second
  have equal := List.reverse_injective same
  clear same
  induction digits generalizing digits' with
  | nil => rw [List.map_eq_nil_iff.mp equal.symm]
  | cons d digits inductionHypothesis =>
      obtain ⟨e, rest, rfl, head, tail⟩ := List.map_eq_cons_iff.mp equal.symm
      have here := apart d e (small d List.mem_cons_self) (small' e List.mem_cons_self) head.symm
      have behind := inductionHypothesis (fun x member => small x (List.mem_cons_of_mem d member))
        rest (fun x member => small' x (List.mem_cons_of_mem e member)) tail.symm
      rw [Nat.ofDigits_cons, Nat.ofDigits_cons, here, behind]

/-! ## Numerals of a given length -/

@[simp] theorem numeral_length (width n : Nat) : (numeral base digit width n).length = width := by
  induction width generalizing n with
  | zero => rfl
  | succ width inductionHypothesis =>
      rw [numeral, List.length_append, inductionHypothesis]
      rfl

theorem numeral_denotes (positive : 0 < base) {width n : Nat} (fits : n < base ^ width) :
    Denotes base digit (numeral base digit width n) n := by
  induction width generalizing n with
  | zero =>
      rw [Nat.pow_zero, Nat.lt_one_iff] at fits
      exact ⟨[], fun d member => absurd member List.not_mem_nil, rfl, fits.symm⟩
  | succ width inductionHypothesis =>
      have higher : n / base < base ^ width := by
        rw [Nat.div_lt_iff_lt_mul positive, ← Nat.pow_succ]
        exact fits
      have whole := (inductionHypothesis higher).snoc (Nat.mod_lt n positive)
      rw [Nat.mod_add_div] at whole
      exact whole

/-- A numeral begins with its most significant digit. -/
theorem numeral_succ_front (width n : Nat) :
    numeral base digit (width + 1) n = digit (n / base ^ width % base) :: numeral base digit width n := by
  induction width generalizing n with
  | zero =>
      rw [Nat.pow_zero, Nat.div_one]
      rfl
  | succ width inductionHypothesis =>
      rw [numeral, inductionHypothesis, Nat.div_div_eq_div_mul, Nat.pow_succ', List.cons_append]
      rfl

/-! ## The number of digits -/

/-- A number needs no more than `width` digits exactly if it is below the power. -/
theorem digitCount_le_iff (base_gt : 1 < base) {width n : Nat} (some : 0 < width) :
    digitCount base n ≤ width ↔ n < base ^ width := by
  rw [digitCount, Nat.add_one_le_iff]
  by_cases zero : n = 0
  · subst zero
    rw [Nat.log_zero_right]
    exact iff_of_true some (Nat.pow_pos (Nat.lt_of_succ_lt base_gt))
  · exact Nat.log_lt_iff_lt_pow base_gt zero

theorem lt_pow_digitCount (base_gt : 1 < base) (n : Nat) : n < base ^ digitCount base n :=
  Nat.lt_pow_succ_log_self base_gt n

/-- A number of one digit. -/
theorem digitCount_of_lt {n : Nat} (small : n < base) : digitCount base n = 1 := by
  rw [digitCount, Nat.log_of_lt small]

/-- One digit more than the number without its last one. -/
theorem digitCount_of_le (base_gt : 1 < base) {n : Nat} (large : base ≤ n) :
    digitCount base n = digitCount base (n / base) + 1 := by
  rw [digitCount, digitCount, Nat.log_of_one_lt_of_le base_gt large]

end Voxel.Lib
