/-
Module: Voxel.Proofs.HeldBlocks
Layer: Proofs
Purpose: The account of a kernel path that takes blocks and gives them back: what is locked is what was locked
  before and the frames of the blocks that are held.
Trusted boundary: none
Main exports: Holding, Holding.trans, Holding.free, Holding.same, malloc_holding, mallocIf_holding
-/
import Mathlib.Data.List.Perm.Basic
import Mathlib.Data.List.ReduceOption
import Voxel.Kernel.ProcessMemory
import Voxel.Proofs.AllocFailure

namespace Voxel.Proofs

open Voxel.Kernel

/-- The blocks were taken from free frames since `start`, and no other frame has changed. -/
structure Holding (blocks : List HeapBlock) (start m : FrameMap) : Prop where
  nFrames : m.nFrames = start.nFrames
  locked : ∀ f, m.locked f = true ↔ start.locked f = true ∨ ∃ b ∈ blocks, b.Holds f
  fresh : ∀ b ∈ blocks, ∀ f, b.Holds f → start.locked f = false ∧ f < start.nFrames
  apart : blocks.Pairwise fun b b' => ∀ f, b.Holds f → ¬ b'.Holds f

section

variable {start a b c m m' : FrameMap} {blocks blocks' : List HeapBlock} {block : HeapBlock}

theorem Holding.refl (m : FrameMap) : Holding [] m m where
  nFrames := rfl
  locked := by simp
  fresh := by simp
  apart := List.Pairwise.nil

/-- With nothing held the bitmap is what it was. -/
theorem Holding.same (held : Holding [] start m) (f : Nat) : m.locked f = start.locked f := by
  rw [Bool.eq_iff_iff, held.locked]
  simp

theorem Holding.keeps (held : Holding blocks start m) {f : Nat} (locked : start.locked f = true) :
    m.locked f = true :=
  (held.locked f).mpr (Or.inl locked)

theorem Holding.free_before (held : Holding blocks start m) {f : Nat} (free : m.locked f = false) :
    start.locked f = false := by
  by_contra locked
  rw [held.keeps (by simpa using locked)] at free
  cases free

theorem Holding.holds_locked (held : Holding blocks start m) (member : block ∈ blocks) {f : Nat}
    (holds : block.Holds f) : m.locked f = true :=
  (held.locked f).mpr (Or.inr ⟨block, member, holds⟩)

/-- The blocks of two paths, one after the other. -/
theorem Holding.trans (one : Holding blocks a b) (two : Holding blocks' b c) :
    Holding (blocks ++ blocks') a c where
  nFrames := two.nFrames.trans one.nFrames
  locked := by
    intro f
    rw [two.locked, one.locked, or_assoc]
    simp only [List.mem_append, or_and_right, exists_or]
  fresh := by
    intro block member f holds
    rcases List.mem_append.mp member with first | second
    · exact one.fresh block first f holds
    · obtain ⟨free, inside⟩ := two.fresh block second f holds
      exact ⟨one.free_before free, one.nFrames ▸ inside⟩
  apart := by
    refine List.pairwise_append.mpr ⟨one.apart, two.apart, fun block first block' second f holds holds' => ?_⟩
    have free := (two.fresh block' second f holds').1
    rw [one.holds_locked first holds] at free
    cases free

theorem Holding.perm (held : Holding blocks start m) (same : blocks.Perm blocks') :
    Holding blocks' start m where
  nFrames := held.nFrames
  locked := by
    intro f
    rw [held.locked]
    simp only [same.mem_iff]
  fresh := fun block member => held.fresh block (same.mem_iff.mpr member)
  apart := held.apart.perm same fun apart f holds' holds => apart f holds holds'

theorem releaseFrames_locked_iff (m : FrameMap) (first pages f : Nat) :
    (releaseFrames m first pages).locked f = true ↔
      m.locked f = true ∧ ¬ (f < m.nFrames ∧ first ≤ f ∧ f < first + pages) := by
  induction pages with
  | zero => simp [releaseFrames]
  | succ pages inductionHypothesis =>
      rw [releaseFrames, mmuReleaseFrame_locked_iff, inductionHypothesis, releaseFrames_nFrames, and_assoc]
      refine and_congr_right fun _ => ⟨fun other within => ?_,
        fun other => ⟨fun within => ?_, fun last => ?_⟩⟩
      · by_cases last : first + pages = f
        · exact other.2 ⟨within.1, last⟩
        · exact other.1 ⟨within.1, within.2.1, by omega⟩
      · exact other ⟨within.1, within.2.1, by omega⟩
      · exact other ⟨last.1, by omega, by omega⟩

/-- A block is given back. -/
theorem Holding.free (held : Holding (block :: blocks) start m) : Holding blocks start (free m block) where
  nFrames := (free_nFrames m block).trans held.nFrames
  locked := by
    intro f
    obtain ⟨apart, -⟩ := List.pairwise_cons.mp held.apart
    rw [Kernel.free, releaseFrames_locked_iff, held.locked]
    constructor
    · rintro ⟨before | ⟨held', member, holds⟩, outside⟩
      · exact Or.inl before
      · rcases List.mem_cons.mp member with rfl | other
        · have inside := (held.fresh held' List.mem_cons_self f holds).2
          exact absurd ⟨held.nFrames ▸ inside, holds⟩ outside
        · exact Or.inr ⟨held', other, holds⟩
    · rintro (before | ⟨held', member, holds⟩)
      · refine ⟨Or.inl before, fun within => ?_⟩
        rw [(held.fresh block List.mem_cons_self f within.2).1] at before
        cases before
      · exact ⟨Or.inr ⟨held', List.mem_cons_of_mem _ member, holds⟩,
          fun within => apart held' member f within.2 holds⟩
  fresh := fun held' member => held.fresh held' (List.mem_cons_of_mem _ member)
  apart := (List.pairwise_cons.mp held.apart).2

theorem malloc_holding {size : Nat} {result : HeapBlock × FrameMap}
    (allocated : malloc m size = some result) :
    Holding [result.1] m result.2 := by
  obtain ⟨-, nFrames, taken, others⟩ := malloc_spec allocated
  refine ⟨nFrames, fun f => ?_, fun block member f holds => ?_, List.pairwise_singleton _ _⟩
  · simp only [List.mem_singleton, exists_eq_left]
    by_cases holds : result.1.Holds f
    · simp [(taken f holds).2.1, holds]
    · simp [others f holds, holds]
  · obtain rfl := List.mem_singleton.mp member
    exact ⟨(taken f holds).1, (taken f holds).2.2⟩

theorem mallocIf_holding {size : Option Nat} {result : Option HeapBlock × FrameMap}
    (allocated : mallocIf m size = some result) : Holding result.1.toList m result.2 := by
  cases size with
  | none =>
      cases allocated
      exact Holding.refl m
  | some size =>
      obtain ⟨block, found, rfl⟩ := Option.map_eq_some_iff.mp allocated
      exact malloc_holding found

/-- Another block. -/
theorem Holding.malloc (held : Holding blocks start m) {size : Nat} {result : HeapBlock × FrameMap}
    (allocated : malloc m size = some result) : Holding (result.1 :: blocks) start result.2 :=
  (held.trans (malloc_holding allocated)).perm (List.perm_append_singleton _ _)

end

end Voxel.Proofs
