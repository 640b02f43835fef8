/-
Module: Voxel.Lib.Format
Layer: Lib
Purpose: Format strings and the arguments of a variadic function. A pointer into a string is what lies
  from it up to the terminator, so that a scanner cannot read behind it. A format is complete when the
  end of the string cuts off none of the directives that a scanner comes to; such a scanner needs a rule
  for one character and one for a directive to be known on every format.
Trusted boundary: human-reviewed spec
Main exports: chr, VaList, terminated, terminated_getElem, take_set_terminated, isDigitChar,
  digitsLoop, skipOne, skipOne_suffix, Complete, complete_iff
-/
import Mathlib.Data.List.Infix
import Voxel.Lib.CString

namespace Voxel.Lib

/-- A character of the source as a byte. -/
def chr (c : Char) : BitVec 8 := BitVec.ofNat 8 c.toNat

/-- The arguments that a `va_list` still has: those in general registers and on the stack, and the doubles. -/
structure VaList where
  words : Nat → BitVec 64
  doubles : Nat → BitVec 64

namespace VaList

/-- `va_arg` of an integer or a pointer. -/
def word (args : VaList) : BitVec 64 × VaList :=
  (args.words 0, { args with words := fun n => args.words (n + 1) })

/-- `va_arg` of a double. -/
def double (args : VaList) : BitVec 64 × VaList :=
  (args.doubles 0, { args with doubles := fun n => args.doubles (n + 1) })

end VaList

/-- What lies at a pointer to a string: its characters and the terminator. -/
def terminated (s : CString) : List (BitVec 8) := s ++ [nul]

theorem terminated_cons (c : BitVec 8) (s : CString) : terminated (c :: s) = c :: terminated s := rfl

theorem terminated_getElem {s : CString} {i : Nat} (inside : i < s.length) :
    (terminated s)[i]? = some s[i] := by
  rw [terminated, List.getElem?_append_left inside, List.getElem?_eq_getElem inside]

theorem terminated_length (s : CString) : (terminated s)[s.length]? = some nul := by
  rw [terminated, List.getElem?_append_right (Nat.le_refl _), Nat.sub_self]
  rfl

theorem drop_terminated {s : CString} {q : Nat} (inside : q ≤ s.length) :
    (terminated s).drop q = terminated (s.drop q) := List.drop_append_of_le_length inside

/-- A string that is cut at a character is what stands before it. -/
theorem take_set_terminated {u : CString} {n : Nat} (inside : n ≤ u.length) :
    ((terminated u).set n nul).take (n + 1) = terminated (u.take n) := by
  have within : n < (terminated u).length := by
    rw [terminated, List.length_append]
    exact Nat.lt_succ_of_le inside
  rw [List.take_add_one, List.getElem?_set_self within, List.take_set_of_le (Nat.le_refl n), terminated,
    List.take_append_of_le_length inside]
  rfl

/-- The characters from `0` to `9`. -/
def isDigitChar (c : BitVec 8) : Bool := decide (chr '0' ≤ c ∧ c ≤ chr '9')

/-- The loop over the digits of a number. -/
def digitsLoop (number : BitVec 32) : List (BitVec 8) → Option (BitVec 32 × List (BitVec 8))
  | [] => none
  | c :: f =>
      if isDigitChar c then digitsLoop (number * 10 + (c.setWidth 32 - (chr '0').setWidth 32)) f
      else some (number, c :: f)

/-- A string behind a first character of a kind, if it has one. -/
def skipOne (kind : BitVec 8 → Bool) : CString → CString
  | [] => []
  | c :: s => if kind c then s else c :: s

theorem skipOne_suffix (kind : BitVec 8 → Bool) (s : CString) : skipOne kind s <:+ s := by
  cases s with
  | nil => exact List.suffix_refl _
  | cons c s =>
      rw [skipOne]
      split
      · exact List.suffix_cons c s
      · exact List.suffix_refl _

theorem digitsLoop_length {number number' : BitVec 32} {f f' : List (BitVec 8)}
    (scanned : digitsLoop number f = some (number', f')) : f'.length ≤ f.length := by
  induction f generalizing number with
  | nil => cases scanned
  | cons c f inductionHypothesis =>
      rw [digitsLoop] at scanned
      split at scanned
      · exact Nat.le_succ_of_le (inductionHypothesis scanned)
      · cases scanned
        exact Nat.le_refl _

theorem IsCString.suffix {s t : CString} (isString : IsCString s) (suffix : t <:+ s) : IsCString t :=
  fun member => isString (suffix.subset member)

theorem IsCString.tail {c : BitVec 8} {s : CString} (isString : IsCString (c :: s)) : IsCString s :=
  fun member => isString (List.mem_cons_of_mem c member)

theorem IsCString.head_ne {c : BitVec 8} {s : CString} (isString : IsCString (c :: s)) : c ≠ nul :=
  fun isNul => isString (isNul ▸ List.mem_cons_self)

/-! ## Complete formats -/

/-- Every directive that a scanner comes to has its conversion before the end of the string. `skip` is
what lies behind the flags, the width, the precision and the length of a directive; at some directives
the scanner returns. -/
inductive Complete (skip : CString → CString) (returns : CString → Prop) : CString → Prop where
  | nil : Complete skip returns []
  | text {c : BitVec 8} {s : CString} (other : c ≠ chr '%') (rest : Complete skip returns s) :
      Complete skip returns (c :: s)
  | directive {c : BitVec 8} {s rest : CString} (conversion : skip s = c :: rest)
      (more : Complete skip returns rest) : Complete skip returns (chr '%' :: s)
  | returned {s : CString} (stops : returns s) : Complete skip returns (chr '%' :: s)

variable {skip : CString → CString} {returns : CString → Prop}

/-- What a scanner does with one character and with one directive says which formats it reads no further than
to their end. A directive may change what else the scanner depends on, like the arguments that are left. -/
theorem complete_iff {Rest : Type*} {Reads : Rest → List (BitVec 8) → Prop} (shorter : ∀ s, skip s <:+ s)
    (behind : ∀ a, ¬Reads a []) (stop : ∀ a, Reads a [nul])
    (text : ∀ a c rest, c ≠ nul → c ≠ chr '%' → (Reads a (c :: rest) ↔ Reads a rest))
    (directive : ∀ a s, ∃ a', Reads a (chr '%' :: terminated s) ↔
      returns s ∨ ∃ c rest, terminated (skip s) = c :: rest ∧ Reads a' rest)
    (a : Rest) {s : CString} (isString : IsCString s) :
    Reads a (terminated s) ↔ Complete skip returns s := by
  induction length : s.length using Nat.strongRecOn generalizing a s with
  | ind n inductionHypothesis =>
      cases s with
      | nil => exact ⟨fun _ => .nil, fun _ => stop a⟩
      | cons c s =>
          rw [List.length_cons] at length
          by_cases percent : c = chr '%'
          · subst percent
            obtain ⟨a', step⟩ := directive a s
            refine step.trans ?_
            have suffix := shorter s
            cases skipped : skip s with
            | nil =>
                -- The end of the string cuts the directive off: behind its terminator nothing can be read.
                constructor
                · rintro (stops | ⟨c, rest, isEnd, reads⟩)
                  · exact .returned stops
                  · cases isEnd
                    exact absurd reads (behind a')
                · intro complete
                  cases complete with
                  | text other _ => exact absurd rfl other
                  | directive conversion _ => cases skipped.symm.trans conversion
                  | returned stops => exact .inl stops
            | cons c rest =>
                rw [skipped] at suffix
                have smaller : rest.length < n := by
                  have le := suffix.length_le
                  rw [List.length_cons] at le
                  omega
                have more := inductionHypothesis rest.length smaller a' (isString.tail.suffix suffix).tail rfl
                constructor
                · rintro (stops | ⟨c', rest', same, reads⟩)
                  · exact .returned stops
                  · cases same
                    exact .directive skipped (more.mp reads)
                · intro complete
                  cases complete with
                  | text other _ => exact absurd rfl other
                  | directive conversion tail =>
                      cases skipped.symm.trans conversion
                      exact .inr ⟨c, terminated rest, rfl, more.mpr tail⟩
                  | returned stops => exact .inl stops
          · refine (text a c (terminated s) isString.head_ne percent).trans ?_
            rw [inductionHypothesis s.length (by omega) a isString.tail rfl]
            constructor
            · exact .text percent
            · intro complete
              cases complete with
              | text _ rest => exact rest
              | directive => exact absurd rfl percent
              | returned => exact absurd rfl percent

end Voxel.Lib
