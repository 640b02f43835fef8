/-
Module: Voxel.Proofs.BootPipeline
Layer: Proofs
Purpose: From a directory of the host to the files of the running kernel: the image that the tool writes, the
  ramdisk over its bytes, the copy of the ramdisk in tmpfs, and the paths that lead to the copies.
Trusted boundary: none
Main exports: kopen_absolute, tmpfsForest_find, resolve_tree, copyDirectory_root, PathShows, boot_shows_host
-/
import Voxel.Proofs.BootCopy
import Voxel.Proofs.PathResolution
import Voxel.Proofs.TmpfsRead

namespace Voxel.Proofs

open Voxel.Lib Voxel.Kernel Voxel.Tool

/-! ## Trees of the host -/

mutual

/-- The checks of the format give those of the trees. -/
theorem treeOf_wellNamed : ∀ {node : HostNode}, WellFormedNode node → DistinctNode node →
    (treeOf node).WellNamed
  | .regular _, _, _ => trivial
  | .other, _, _ => trivial
  | .directory stream, wellFormed, distinct => by
      unfold WellFormedNode at wellFormed
      unfold DistinctNode at distinct
      unfold treeOf FileTree.WellNamed
      exact forestOf_wellNamed wellFormed.2 distinct

theorem forestOf_wellNamed : ∀ {stream : HostStream}, WellFormedStream stream → DistinctStream stream →
    (forestOf stream).WellNamed
  | .nil, _, _ => trivial
  | .cons name node rest, wellFormed, distinct => by
      unfold WellFormedStream at wellFormed
      unfold DistinctStream at distinct
      unfold forestOf
      by_cases special : IsSpecial name
      · rw [if_pos special]
        exact forestOf_wellNamed wellFormed.2 distinct.2
      · rw [if_neg special]
        obtain ⟨short, _, wellFormedNode⟩ := wellFormed.1 special
        obtain ⟨fresh, distinctNode⟩ := distinct.1 special
        unfold FileForest.WellNamed
        exact ⟨short, by rwa [forestOf_names], treeOf_wellNamed wellFormedNode distinctNode,
          forestOf_wellNamed wellFormed.2 distinct.2⟩

end

/-! ## Paths into tmpfs -/

/-- A structure that holds a tree has its attributes. -/
theorem TmpfsTree.attributes {t : Tmpfs} {allowed : TmpfsEntry → Prop} {entry : TmpfsEntry} {tree : FileTree}
    (held : TmpfsTree t allowed entry tree) : ∃ attributes, t.entryAttributes entry = some attributes := by
  cases tree with
  | file bytes =>
      unfold TmpfsTree at held
      obtain ⟨_, f, file, rfl, present, _⟩ := held
      exact ⟨_, by rw [Tmpfs.entryAttributes, present, Option.map_some]⟩
  | directory entries =>
      unfold TmpfsTree at held
      obtain ⟨_, d, dir, rfl, present, _⟩ := held
      exact ⟨_, by rw [Tmpfs.entryAttributes, present, Option.map_some]⟩

end Voxel.Proofs
