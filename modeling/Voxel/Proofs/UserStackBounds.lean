/-
Module: Voxel.Proofs.UserStackBounds
Layer: Proofs
Purpose: Where `elf_exec` stores while it builds the initial user stack. The bytes in use grow with
  every push; as long as they fit, the stack pointer is that far below the top, and the first push with
  which they do not fit stores below the region that is mapped. So all stores are inside it exactly if
  the final sum fits.
Trusted boundary: none
Main exports: InStack, roundUp, Uses, push_uses, pushStrings_uses, pushWords_uses, stackBytes,
  elfStack_uses, elfStack_inside_iff
-/
import Mathlib.Data.Nat.Bitwise
import Voxel.Kernel.UserStack

namespace Voxel.Proofs

open Voxel.Lib Voxel.Kernel

variable {s : UserStack} {used : Nat}

/-- A store in the 512 KiB below the top of the user stack. -/
def InStack (store : BitVec 64 × Nat) : Prop :=
  userstackTop.toNat - userstackSize ≤ store.1.toNat ∧ store.1.toNat + store.2 ≤ userstackTop.toNat

/-- The least multiple of `size` that is not below `n`. -/
def roundUp (size n : Nat) : Nat := (n + size - 1) / size * size

/-- So many bytes were pushed, with what aligns them. -/
structure Uses (s : UserStack) (used : Nat) : Prop where
  fits : used ≤ userstackSize →
    s.userstack.toNat = userstackTop.toNat - used ∧ ∀ store ∈ s.stores, InStack store
  overflows : userstackSize < used → ∃ store ∈ s.stores, ¬InStack store

/-! ## One push -/

theorem top_toNat : userstackTop.toNat = 2 ^ 47 := by decide

theorem size_eq : userstackSize = 524288 := rfl

theorem pred_div_mod {n m : Nat} (positive : n % m ≠ 0) : (n - 1) / m = n / m ∧ (n - 1) % m =
    n % m - 1 := by
  have whole := Nat.div_add_mod' n m
  have split : n - 1 = n % m - 1 + n / m * m := by omega
  have below : n % m - 1 < m ∨ m = 0 := by
    rcases Nat.eq_zero_or_pos m with zero | pos
    · exact .inr zero
    · have := Nat.mod_lt n pos
      exact .inl (by omega)
  rcases below with below | rfl
  · rw [split, Nat.add_mul_div_right _ _ (by omega), Nat.add_mul_mod_self_right, Nat.div_eq_of_lt below,
      Nat.mod_eq_of_lt below, Nat.zero_add]
    exact ⟨rfl, rfl⟩
  · rw [Nat.div_zero, Nat.div_zero, Nat.mod_zero, Nat.mod_zero]
    exact ⟨rfl, rfl⟩

theorem and_low (p : BitVec 64) {k : Nat} (small : k < 64) :
    (p &&& BitVec.ofNat 64 (2 ^ k - 1)).toNat = p.toNat % 2 ^ k := by
  have below : 2 ^ k < 2 ^ 64 := Nat.pow_lt_pow_right (by decide) small
  rw [BitVec.toNat_and, BitVec.toNat_ofNat, Nat.mod_eq_of_lt (by omega), Nat.and_two_pow_sub_one_eq_mod]

/-- The loop takes away what is above a multiple of the size. -/
theorem alignDown_toNat {k rounds : Nat} {p : BitVec 64} (small : k < 64)
    (enough : p.toNat % 2 ^ k ≤ rounds) :
    (UserStack.alignDown (2 ^ k) rounds p).toNat = p.toNat / 2 ^ k * 2 ^ k := by
  induction rounds generalizing p with
  | zero =>
      have split := Nat.div_add_mod' p.toNat (2 ^ k)
      rw [UserStack.alignDown]
      omega
  | succ rounds inductionHypothesis =>
      have split := Nat.div_add_mod' p.toNat (2 ^ k)
      have low := and_low p small
      rw [UserStack.alignDown]
      by_cases aligned : p.toNat % 2 ^ k = 0
      · rw [if_neg]
        · omega
        · intro different
          exact different (BitVec.eq_of_toNat_eq (by rw [low, aligned]; rfl))
      · have back : (p - 1).toNat = p.toNat - 1 := by
          have positive : p.toNat ≠ 0 := fun zero => aligned (by rw [zero, Nat.zero_mod])
          rw [BitVec.toNat_sub_of_le (by rw [BitVec.le_def]; exact Nat.one_le_iff_ne_zero.mpr positive)]
          rfl
        obtain ⟨quotient, remainder⟩ := pred_div_mod aligned
        rw [if_pos]
        · rw [@inductionHypothesis (p - 1) (by rw [back, remainder]; omega), back, quotient]
        · intro same
          rw [same] at low
          exact aligned low.symm

/-- Where a push stores. -/
def target (size : Nat) (s : UserStack) : BitVec 64 :=
  UserStack.alignDown size size (s.userstack - BitVec.ofNat 64 size)

/-- A push of a byte or of a word, from a pointer in the region on. -/
theorem target_toNat {size : Nat} (kind : size = 1 ∨ size = 8)
    (here : s.userstack.toNat = userstackTop.toNat - used) (fits : used ≤ userstackSize) :
    (target size s).toNat = userstackTop.toNat - (roundUp size used + size) := by
  rw [top_toNat] at here ⊢
  rw [size_eq] at fits
  have back : (s.userstack - BitVec.ofNat 64 size).toNat = 2 ^ 47 - used - size := by
    have small : (BitVec.ofNat 64 size).toNat = size := by
      rw [BitVec.toNat_ofNat]
      omega
    rw [BitVec.toNat_sub_of_le (by rw [BitVec.le_def, small, here]; omega), here, small]
  rw [target, roundUp]
  rcases kind with rfl | rfl
  · have aligned := @alignDown_toNat 0 1 (s.userstack - BitVec.ofNat 64 1) (by decide) (by omega)
    refine aligned.trans ?_
    rw [back]
    omega
  · have aligned := @alignDown_toNat 3 8 (s.userstack - BitVec.ofNat 64 8) (by decide) (by omega)
    refine aligned.trans ?_
    rw [back]
    omega

/-- A push of a byte or of a word. -/
theorem push_uses {size : Nat} (kind : size = 1 ∨ size = 8) (value : BitVec 64) (uses : Uses s used) :
    Uses (UserStack.push size value s) (roundUp size used + size) := by
  have grows : used ≤ roundUp size used := by
    rw [roundUp]
    rcases kind with rfl | rfl <;> omega
  have stores : (UserStack.push size value s).stores = s.stores ++ [(target size s, size)] := rfl
  constructor
  · intro fits
    obtain ⟨here, inside⟩ := uses.fits (by omega)
    have place := target_toNat kind here (by omega)
    refine ⟨place, fun store member => ?_⟩
    rw [stores, List.mem_append, List.mem_singleton] at member
    rcases member with old | rfl
    · exact inside store old
    · rw [InStack, place, top_toNat]
      rw [size_eq] at fits ⊢
      omega
  · intro overflows
    rw [stores]
    by_cases before : userstackSize < used
    · obtain ⟨store, member, outside⟩ := uses.overflows before
      exact ⟨store, List.mem_append_left _ member, outside⟩
    · -- This is the push that leaves the region.
      obtain ⟨here, -⟩ := uses.fits (by omega)
      have place := target_toNat kind here (by omega)
      refine ⟨_, List.mem_append_right _ (List.mem_singleton.mpr rfl), fun inside => ?_⟩
      have low := inside.1
      rw [place, top_toNat] at low
      rw [size_eq] at overflows before low
      have near : roundUp size used + size ≤ 524288 + 16 := by
        rw [roundUp]
        rcases kind with rfl | rfl <;> omega
      omega

/-! ## The parts of the stack -/

theorem pushChars_uses (str : CString) (count : Nat) (uses : Uses s used) :
    Uses (UserStack.pushChars str count s) (used + count) := by
  induction count generalizing s used with
  | zero => exact uses
  | succ count inductionHypothesis =>
      have pushed := @push_uses s used 1 (.inl rfl) ((charAt str count).setWidth 64) uses
      have next := inductionHypothesis pushed
      have sum : roundUp 1 used + 1 + count = used + (count + 1) := by
        rw [roundUp]
        omega
      rw [sum] at next
      exact next

/-- The bytes of the strings of a vector. -/
def stringBytes (strings : List CString) : Nat := (strings.map UserStack.pushCount).sum

theorem pushStrings_uses (strings : List CString) (uses : Uses s used) :
    Uses (UserStack.pushStrings strings s).2 (used + stringBytes strings) ∧
      (UserStack.pushStrings strings s).1.length = strings.length := by
  induction strings generalizing s used with
  | nil => exact ⟨uses, rfl⟩
  | cons str strings inductionHypothesis =>
      obtain ⟨more, count⟩ := inductionHypothesis (pushChars_uses str (UserStack.pushCount str) uses)
      rw [Nat.add_assoc] at more
      rw [stringBytes, List.map_cons, List.sum_cons]
      exact ⟨more, congrArg (· + 1) count⟩

/-- Words are pushed from an aligned place on. -/
theorem pushWords_uses (words : List (BitVec 64)) (aligned : used % 8 = 0) (uses : Uses s used) :
    Uses (UserStack.pushWords words s) (used + 8 * words.length) := by
  induction words generalizing s used with
  | nil => exact uses
  | cons word words inductionHypothesis =>
      have pushed := @push_uses s used 8 (.inr rfl) word uses
      have next := @inductionHypothesis _ _ (by rw [roundUp]; omega) pushed
      have sum : roundUp 8 used + 8 + 8 * words.length = used + 8 * (words.length + 1) := by
        rw [roundUp]
        omega
      rw [sum] at next
      exact next

/-! ## The stack -/

/-- What the arguments of a program take: their strings, up to a multiple of 8, and for each a pointer, with
two null pointers, six auxiliary values and `argc`. -/
def stackBytes (argv envp : List CString) : Nat :=
  roundUp 8 (stringBytes argv + stringBytes envp) + 8 * (argv.length + envp.length + 9)

/-- The first of some words is aligned. -/
theorem pushWords_cons_uses (word : BitVec 64) (words : List (BitVec 64)) (uses : Uses s used) :
    Uses (UserStack.pushWords (word :: words) s) (roundUp 8 used + 8 * (words.length + 1)) := by
  have pushed := @push_uses s used 8 (.inr rfl) word uses
  have next := pushWords_uses words (by rw [roundUp]; omega) pushed
  rw [Nat.add_assoc, Nat.add_comm 8, ← Nat.mul_succ] at next
  exact next

/-- A word behind others needs no padding. -/
theorem pushWord_uses (word : BitVec 64) (aligned : used % 8 = 0) (uses : Uses s used) :
    Uses (UserStack.push 8 word s) (used + 8) :=
  pushWords_uses [word] aligned uses

/-- The whole stack. -/
theorem elfStack_uses (argv envp : List CString) (uid : BitVec 32) (start : Uses s 0) :
    Uses (elfStack argv envp uid s).stack (stackBytes argv envp) := by
  obtain ⟨argvUses, argvCount⟩ := pushStrings_uses argv start
  obtain ⟨envpUses, envpCount⟩ := pushStrings_uses envp argvUses
  rw [Nat.zero_add] at envpUses
  generalize bytes : roundUp 8 (stringBytes argv + stringBytes envp) = padded
  have multiple : padded % 8 = 0 := by
    rw [← bytes, roundUp]
    omega
  have values := pushWords_cons_uses 0 [uid.setWidth 64, 11, uid.setWidth 64, 12, 0] envpUses
  rw [bytes] at values
  have environmentEnd := pushWord_uses 0 (by simp only [List.length_cons, List.length_nil]; omega) values
  have environment := pushWords_uses (UserStack.pushStrings envp (UserStack.pushStrings argv s).2).1.reverse
    (by simp only [List.length_cons, List.length_nil]; omega) environmentEnd
  have argumentsEnd := pushWord_uses 0
    (by simp only [List.length_cons, List.length_nil, List.length_reverse]; omega) environment
  have arguments := pushWords_uses (UserStack.pushStrings argv s).1.reverse
    (by simp only [List.length_cons, List.length_nil, List.length_reverse]; omega) argumentsEnd
  have count := pushWord_uses ((BitVec.ofNat 32 argv.length).signExtend 64)
    (by simp only [List.length_cons, List.length_nil, List.length_reverse]; omega) arguments
  have sum : stackBytes argv envp =
      padded + 8 * ([uid.setWidth 64, 11, uid.setWidth 64, 12, 0].length + 1) + 8 +
      8 * (UserStack.pushStrings envp (UserStack.pushStrings argv s).2).1.reverse.length + 8 +
      8 * (UserStack.pushStrings argv s).1.reverse.length + 8 := by
    simp only [stackBytes, bytes, List.length_cons, List.length_nil, List.length_reverse, argvCount,
      envpCount]
    omega
  rw [sum]
  exact count

/-- Nothing was pushed yet. -/
theorem empty_uses (memory : ByteMemory) : Uses ⟨userstackTop, memory, []⟩ 0 where
  fits _ := ⟨rfl, fun _ wrong => absurd wrong List.not_mem_nil⟩
  overflows wrong := absurd wrong (Nat.not_lt_zero _)

/-- Every store with which `elf_exec` builds the initial user stack lies in the region that it has
mapped exactly if the strings, padded to a multiple of 8, with nine words and a pointer for each string
take at most 512 KiB. -/
theorem elfStack_inside_iff (argv envp : List CString) (uid : BitVec 32) (memory : ByteMemory) :
    (∀ store ∈ (elfStack argv envp uid ⟨userstackTop, memory, []⟩).stack.stores, InStack store) ↔
      stackBytes argv envp ≤ userstackSize := by
  have uses := elfStack_uses argv envp uid (empty_uses memory)
  constructor
  · intro inside
    by_contra large
    obtain ⟨store, member, outside⟩ := uses.overflows (Nat.lt_of_not_le large)
    exact outside (inside store member)
  · intro fits
    exact (uses.fits fits).2

/-- One argument of 524288 letters: the last bytes of the stack lie below the region. -/
theorem elfStack_overruns :
    ∃ store ∈ (elfStack [List.replicate userstackSize 0x61] [] 0 ⟨userstackTop, fun _ => 0,
      []⟩).stack.stores,
      ¬InStack store := by
  refine (elfStack_uses _ _ _ (empty_uses _)).overflows ?_
  have count : UserStack.pushCount (List.replicate userstackSize 0x61) = userstackSize + 1 := by
    rw [UserStack.pushCount, List.length_replicate]
    rfl
  rw [stackBytes, stringBytes, List.map_singleton, List.sum_singleton, count]
  decide

end Voxel.Proofs
