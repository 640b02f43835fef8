/-
Module: Voxel.Lib.FileTree
Layer: Lib
Purpose: Finite trees of named files and directories, as a file system shows them: a directory is the
  list of its entries in their order.
Trusted boundary: none
Main exports: FileTree, FileForest, FileForest.names, FileForest.WellNamed, FileForest.find?,
  FileTree.lookup
-/
import Voxel.Lib.CString

namespace Voxel.Lib

mutual

/-- A file with its bytes, or a directory. -/
inductive FileTree
  | file (bytes : List (BitVec 8))
  | directory (entries : FileForest)

/-- The entries of a directory. -/
inductive FileForest
  | nil
  | cons (name : CString) (tree : FileTree) (rest : FileForest)

end

namespace FileForest

/-- The names of the entries. -/
def names : FileForest → List CString
  | .nil => []
  | .cons name _ rest => name :: rest.names

end FileForest

mutual

/-- In every directory of the tree the names have at most 255 bytes and are distinct. -/
def FileTree.WellNamed : FileTree → Prop
  | .file _ => True
  | .directory entries => entries.WellNamed

/-- The same for the entries of a directory. -/
def FileForest.WellNamed : FileForest → Prop
  | .nil => True
  | .cons name tree rest =>
      name.length ≤ 255 ∧ name ∉ rest.names ∧ tree.WellNamed ∧ rest.WellNamed

end

mutual

/-- No directory in the tree has the empty name. -/
def FileTree.DirectoriesNamed : FileTree → Prop
  | .file _ => True
  | .directory entries => entries.DirectoriesNamed

/-- The same for the entries of a directory. -/
def FileForest.DirectoriesNamed : FileForest → Prop
  | .nil => True
  | .cons name tree rest =>
      (∀ entries, tree = .directory entries → name ≠ []) ∧ tree.DirectoriesNamed ∧
        rest.DirectoriesNamed

end

/-- The entry with a name. -/
def FileForest.find? : FileForest → CString → Option FileTree
  | .nil, _ => none
  | .cons name tree rest, wanted => if name = wanted then some tree else rest.find? wanted

/-- What is at a path. -/
def FileTree.lookup : FileTree → List CString → Option FileTree
  | tree, [] => some tree
  | .directory entries, name :: path => (entries.find? name).bind fun tree => tree.lookup path
  | .file _, _ :: _ => none

/-- What an entry is has its bound from the directory. -/
theorem FileForest.WellNamed.find? : ∀ {forest : FileForest} {name : CString} {tree : FileTree},
    forest.WellNamed → forest.find? name = some tree → name.length ≤ 255 ∧ tree.WellNamed
  | .cons first tree rest, name, result, wellNamed, isFound => by
      unfold FileForest.WellNamed at wellNamed
      obtain ⟨short, _, here, behind⟩ := wellNamed
      unfold FileForest.find? at isFound
      split at isFound
      · rename_i same
        cases isFound
        exact ⟨same ▸ short, here⟩
      · exact behind.find? isFound

theorem FileForest.WellNamed.nodup : ∀ {forest : FileForest}, forest.WellNamed → forest.names.Nodup
  | .nil, _ => List.nodup_nil
  | .cons name tree rest, wellNamed => by
      unfold FileForest.WellNamed at wellNamed
      obtain ⟨_, fresh, _, behind⟩ := wellNamed
      exact List.nodup_cons.mpr ⟨fresh, behind.nodup⟩

end Voxel.Lib
