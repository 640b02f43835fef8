/-
Module: Voxel.Lib.CString
Layer: Lib
Purpose: C strings as lists of bytes, and the buffer that holds one: reading a character, the string
  that starts at an offset, and the scans that a program does with a pointer.
Trusted boundary: human-reviewed spec
Main exports: CString, charAt, cstringAt, stripBack, IsCString
-/
import Mathlib.Data.List.GetD
import Mathlib.Data.List.TakeWhile

namespace Voxel.Lib

/-- The characters of a string or of a buffer that holds one, without the terminator. -/
abbrev CString := List (BitVec 8)

/-- The terminator. -/
def nul : BitVec 8 := 0

/-- The character at an index; at the end it is the terminator. -/
def charAt (buf : CString) (i : Nat) : BitVec 8 := buf.getD i nul

/-- The string that starts at an offset of a buffer: up to the first terminator. -/
def cstringAt (buf : CString) (start : Nat) : CString := (buf.drop start).takeWhile (· ≠ nul)

/-- `for (p = end - 1; *p == c; p--) *p = 0;`, where `n` is the index of `end`: the characters `c`
before `end` become terminators. `none` if the scan reaches the byte before the buffer. -/
def stripBack (c : BitVec 8) : Nat → CString → Option CString
  | 0, _ => none
  | n + 1, buf => if charAt buf n = c then stripBack c n (buf.set n nul) else some buf

/-- No terminator inside. -/
def IsCString (s : CString) : Prop := nul ∉ s

/-! ## Laws -/

theorem charAt_append_left {s t : CString} {i : Nat} (inside : i < s.length) :
    charAt (s ++ t) i = charAt s i :=
  List.getD_append _ _ _ _ inside

theorem charAt_append_right {s t : CString} {i : Nat} (after : s.length ≤ i) :
    charAt (s ++ t) i = charAt t (i - s.length) :=
  List.getD_append_right _ _ _ _ after

theorem charAt_end (s : CString) : charAt s s.length = nul :=
  List.getD_eq_default _ _ (Nat.le_refl _)

theorem charAt_mem {s : CString} {i : Nat} (inside : i < s.length) : charAt s i ∈ s := by
  rw [charAt, List.getD_eq_getElem _ _ inside]
  exact List.getElem_mem _

/-- A string without terminators is the whole string at its start. -/
theorem takeWhile_isCString {s : CString} (isString : IsCString s) (t : CString) :
    (s ++ nul :: t).takeWhile (· ≠ nul) = s := by
  rw [List.takeWhile_append_of_pos]
  · simp
  · intro c member
    exact decide_eq_true fun isNul => isString (isNul ▸ member)

/-- The string at an offset of a buffer that is cut there by a terminator. -/
theorem cstringAt_cut {s t : CString} (u : CString) (isString : IsCString t) :
    cstringAt (s ++ (t ++ nul :: u)) s.length = t := by
  rw [cstringAt, List.drop_left]
  exact takeWhile_isCString isString u

/-- The string at an offset of a buffer that ends after it. -/
theorem cstringAt_end {s t : CString} (isString : IsCString t) :
    cstringAt (s ++ t) s.length = t := by
  rw [cstringAt, List.drop_left, List.takeWhile_eq_self_iff]
  intro c member
  exact decide_eq_true fun isNul => isString (isNul ▸ member)

/-- Stripping turns the last run of `c` into terminators, if something else stands before it. -/
theorem stripBack_run {c last : BitVec 8} (different : last ≠ c) (s : CString) (k : Nat)
    (rest : CString) :
    stripBack c (s.length + 1 + k) (s ++ last :: (List.replicate k c ++ rest)) =
      some (s ++ last :: (List.replicate k nul ++ rest)) := by
  induction k generalizing rest with
  | zero =>
      rw [Nat.add_zero, stripBack, charAt_append_right (Nat.le_refl _), Nat.sub_self]
      rw [if_neg (show charAt (last :: _) 0 ≠ c from different)]
      rfl
  | succ k inductionHypothesis =>
      have shape : s ++ last :: (List.replicate (k + 1) c ++ rest) =
          (s ++ last :: List.replicate k c) ++ c :: rest := by
        rw [List.replicate_succ']
        simp
      have place : s.length + 1 + k = (s ++ last :: List.replicate k c).length := by
        simp
        omega
      rw [show s.length + 1 + (k + 1) = s.length + 1 + k + 1 from rfl, stripBack, shape, place,
        charAt_append_right (Nat.le_refl _), Nat.sub_self, if_pos (show charAt (c :: rest) 0 = c from rfl),
        List.set_append_right _ _ (Nat.le_refl _), Nat.sub_self, List.set_cons_zero, ← place]
      have step := inductionHypothesis (nul :: rest)
      rw [show s ++ last :: (List.replicate k c ++ nul :: rest) =
        (s ++ last :: List.replicate k c) ++ nul :: rest by simp] at step
      rw [step, List.replicate_succ']
      simp

/-- A buffer of nothing but `c` is left at its start. -/
theorem stripBack_all (c : BitVec 8) (k : Nat) (rest : CString) :
    stripBack c k (List.replicate k c ++ rest) = none := by
  induction k generalizing rest with
  | zero => rfl
  | succ k inductionHypothesis =>
      have place : (List.replicate k c).length = k := List.length_replicate
      rw [stripBack, List.replicate_succ', List.append_assoc, List.singleton_append]
      have here : charAt (List.replicate k c ++ c :: rest) k = c := by
        rw [charAt_append_right (Nat.le_of_eq place), place, Nat.sub_self]
        rfl
      rw [if_pos here, List.set_append_right _ _ (Nat.le_of_eq place), place, Nat.sub_self,
        List.set_cons_zero]
      exact inductionHypothesis (nul :: rest)

end Voxel.Lib
