/-
Module: Voxel.Proofs.ShellLine
Layer: Proofs
Purpose: What `readline` leaves in the buffer, and what is left of it without its last character. The buffer
  has room for what a read of at most 1023 characters takes and for the terminator; a zero byte in the input
  ends the string early, and the string of a line that starts with one has no last character.
Trusted boundary: none
Main exports: store_append, readline_eq, cutLast_terminated, cutLast_empty, stringAt_terminated
-/
import Voxel.Lib.LineRead
import Voxel.Userspace.Sh

namespace Voxel.Proofs

open Voxel.Lib Voxel.Userspace

/-! ## Stores -/

/-- A store into an array of which a front is given. -/
theorem store_append {α : Type} {i : Nat} (front : List α) (old : α) (back : List α) (value : α)
    (place : i = front.length) : store (front ++ old :: back) i value = some (front ++ value :: back) := by
  have inside : i < (front ++ old :: back).length := by
    rw [List.length_append, List.length_cons]
    omega
  rw [store, if_pos inside, List.set_append_right _ _ (Nat.le_of_eq place.symm), place, Nat.sub_self,
    List.set_cons_zero]

theorem store_length {α : Type} {i : Nat} {array array' : List α} {value : α}
    (stored : store array i value = some array') : array'.length = array.length := by
  rw [store] at stored
  split at stored
  · cases stored
    exact List.length_set
  · cases stored

/-! ## `readline` -/

/-- What the loop returns with a front of the buffer filled, by what a read of a line takes. -/
def readLineOf (front back : List (BitVec 8)) : Option (List (BitVec 8) × List (BitVec 8)) → ReadLine
  | none => .waits
  | some (content, rest) => .line (front ++ content ++ nul :: back.drop (content.length + 1)) rest

theorem readlineLoop_eq {size read : Nat} (front back input : List (BitVec 8)) (filled : read = front.length)
    (room : size ≤ read + back.length) (more : read < size) :
    readlineLoop size read (front ++ back) input =
      some (readLineOf front back (takeLine Libc.newline (size - 1 - read) input)) := by
  induction input generalizing read front back with
  | nil =>
      rw [readlineLoop]
      obtain ⟨old, back, rfl⟩ := List.exists_cons_of_length_pos (show 0 < back.length by omega)
      by_cases goesOn : read < size - 1
      · obtain ⟨left, isLeft⟩ := Nat.exists_eq_add_of_lt goesOn
        rw [if_pos goesOn, show size - 1 - read = left + 1 by omega]
        rfl
      · rw [if_neg goesOn, store_append front old back nul filled, show size - 1 - read = 0 by omega,
          takeLine, readLineOf, List.append_nil]
        rfl
  | cons c input inductionHypothesis =>
      rw [readlineLoop]
      obtain ⟨old, back, rfl⟩ := List.exists_cons_of_length_pos (show 0 < back.length by omega)
      rw [List.length_cons] at room
      by_cases goesOn : read < size - 1
      · have one : size - 1 - read = size - 1 - (read + 1) + 1 := by omega
        have longer : read + 1 = (front ++ [c]).length := by
          rw [List.length_append, List.length_singleton, filled]
        have next : front ++ c :: back = (front ++ [c]) ++ back := by rw [List.append_assoc]; rfl
        rw [if_pos goesOn, store_append front old back c filled, Option.bind_some, one, takeLine, next]
        by_cases ends : c = Libc.newline
        · obtain ⟨old', back, rfl⟩ := List.exists_cons_of_length_pos (show 0 < back.length by omega)
          rw [if_pos ends, if_pos ends, store_append _ old' back nul longer, readLineOf]
          rfl
        · rw [if_neg ends, if_neg ends, inductionHypothesis _ back longer (by omega) (by omega)]
          cases takeLine Libc.newline (size - 1 - (read + 1)) input with
          | none => rfl
          | some taken =>
              obtain ⟨content, rest⟩ := taken
              show some (ReadLine.line (front ++ [c] ++ content ++ _) rest) = _
              rw [List.append_assoc front]
              rfl
      · rw [if_neg goesOn, store_append front old back nul filled, show size - 1 - read = 0 by omega,
          takeLine, readLineOf, List.append_nil]
        rfl

/-- `readline` returns what a read of a line takes, with the terminator behind it. -/
theorem readline_eq {buf : List (BitVec 8)} (input : List (BitVec 8)) (room : buf.length = 1024) :
    readline buf input 1024 = some (readLineOf [] buf (takeLine Libc.newline 1023 input)) :=
  readlineLoop_eq [] buf input rfl (by rw [Nat.zero_add, room]) (by decide)

theorem readlineLoop_length {size read : Nat} {buf buf' input input' : List (BitVec 8)}
    (returns : readlineLoop size read buf input = some (.line buf' input')) : buf'.length = buf.length := by
  induction input generalizing read buf with
  | nil =>
      rw [readlineLoop] at returns
      split at returns
      · cases returns
      · obtain ⟨ended, stored, same⟩ := Option.map_eq_some_iff.mp returns
        cases same
        exact store_length stored
  | cons c input inductionHypothesis =>
      rw [readlineLoop] at returns
      split at returns
      · obtain ⟨middle, stored, returns⟩ := Option.bind_eq_some_iff.mp returns
        split at returns
        · obtain ⟨ended, stored', same⟩ := Option.map_eq_some_iff.mp returns
          cases same
          exact (store_length stored').trans (store_length stored)
        · exact (inductionHypothesis returns).trans (store_length stored)
      · obtain ⟨ended, stored, same⟩ := Option.map_eq_some_iff.mp returns
        cases same
        exact store_length stored

/-! ## Strings -/

/-- The memory behind the string of a line. -/
theorem exists_behind_text (content back : List (BitVec 8)) :
    ∃ more, content ++ nul :: back = content.takeWhile (· ≠ nul) ++ nul :: more := by
  induction content with
  | nil => exact ⟨back, rfl⟩
  | cons c content inductionHypothesis =>
      by_cases isNul : c = nul
      · exact ⟨content ++ nul :: back, by rw [isNul]; rfl⟩
      · obtain ⟨more, same⟩ := inductionHypothesis
        have keeps : decide (c ≠ nul) = true := decide_eq_true isNul
        refine ⟨more, ?_⟩
        rw [List.takeWhile_cons, if_pos keeps, List.cons_append, same]
        rfl

theorem text_isCString (content : List (BitVec 8)) : IsCString (content.takeWhile (· ≠ nul)) := by
  intro member
  have keeps := List.mem_takeWhile_imp member
  exact of_decide_eq_true keeps rfl

theorem strlen_terminated {text : CString} (isString : IsCString text) (more : List (BitVec 8)) :
    strlen (text ++ nul :: more) = some text.length := by
  induction text with
  | nil => rfl
  | cons c text inductionHypothesis =>
      have other : ¬(c == nul) = true := fun same => isString.head_ne (eq_of_beq same)
      have later : strlen (text ++ nul :: more) = some text.length := inductionHypothesis isString.tail
      rw [strlen, List.cons_append, List.idxOf?_cons, if_neg other, ← strlen, later]
      rfl

/-- The string at a place that ends inside of the memory. -/
theorem stringAt_terminated {memory : List (BitVec 8)} {place : Nat} {text : CString}
    (isString : IsCString text) (more : List (BitVec 8)) (stands : memory.drop place = text ++ nul :: more) :
    stringAt memory place = some text := by
  rw [stringAt, stands, strlen_terminated isString more]
  exact congrArg some List.take_left

/-- Where a terminator is still to come there is a string. -/
theorem exists_stringAt {memory : List (BitVec 8)} {place : Nat} (member : nul ∈ memory.drop place) :
    ∃ text, stringAt memory place = some text := by
  obtain ⟨before, after, whole⟩ := List.append_of_mem member
  obtain ⟨more, same⟩ := exists_behind_text before after
  exact ⟨_, stringAt_terminated (text_isCString before) more (whole.trans same)⟩

/-! ## The last character -/

/-- Without its last character a string is as long as before in memory, with two terminators. -/
theorem cutLast_terminated {text : CString} (isString : IsCString text) (nonempty : text ≠ [])
    (more : List (BitVec 8)) (short : text.length < 2 ^ 64) :
    cutLast (text ++ nul :: more) = some (terminated text.dropLast ++ nul :: more) := by
  have some_ := List.length_pos_of_ne_nil nonempty
  have place : (text.length + 2 ^ 64 - 1) % 2 ^ 64 = text.dropLast.length := by
    rw [List.length_dropLast]
    omega
  have whole : text ++ nul :: more = text.dropLast ++ text.getLast nonempty :: nul :: more := by
    conv_lhs => rw [← List.dropLast_append_getLast nonempty, List.append_assoc, List.singleton_append]
  rw [cutLast, strlen_terminated isString more, Option.bind_some, whole,
    store_append _ _ (nul :: more) nul place, terminated, List.append_assoc]
  rfl

/-- An empty string has no last character: the index is the greatest one. -/
theorem cutLast_empty {more : List (BitVec 8)} (short : more.length < 2 ^ 64 - 1) :
    cutLast (nul :: more) = none := by
  have outside : ¬(0 + 2 ^ 64 - 1) % 2 ^ 64 < (nul :: more).length := by
    rw [List.length_cons]
    omega
  exact if_neg outside

end Voxel.Proofs
