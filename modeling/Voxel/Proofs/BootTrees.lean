/-
Module: Voxel.Proofs.BootTrees
Layer: Proofs
Purpose: The trees that the two file systems show. Under a node of the ramdisk there is what `readdir`,
  `finddir` and `read` return; under a structure of tmpfs there is what its fields and its blocks hold.
Trusted boundary: none
Main exports: RamdiskTree, TmpfsTree, TmpfsTree.carry, treeOf, ramdiskTree_of_opens
-/
import Voxel.Lib.FileTree
import Voxel.Proofs.RamdiskOrder
import Voxel.Proofs.TmpfsAdds

namespace Voxel.Proofs

open Voxel.Lib Voxel.Kernel Voxel.Tool

/-! ## The ramdisk -/

mutual

/-- A node of the ramdisk shows a tree. -/
def RamdiskTree (mem : RamdiskMemory) : RamdiskNode → FileTree → Prop
  | node, .file bytes => ShowsFile mem node bytes
  | node, .directory entries =>
      node.kind = .directory ∧ (∀ index, ramdiskReaddirFs mem node index = entries.names[index]?) ∧
        RamdiskForest mem node entries

/-- Each of the entries is found under its name. -/
def RamdiskForest (mem : RamdiskMemory) : RamdiskNode → FileForest → Prop
  | _, .nil => True
  | node, .cons name tree rest =>
      (∃ child, ramdiskFinddirFs mem node name = some (some child) ∧ RamdiskTree mem child tree) ∧
        RamdiskForest mem node rest

end

/-- What `finddir` returns is the node of an entry with the name. -/
theorem finddirLoop_found {mem : RamdiskMemory} {name : CString} {fuel entry : Nat}
    {child : RamdiskNode} (small : entry < 2 ^ 32)
    (found : finddirLoop mem name fuel entry = some (some child)) :
    child.context < 2 ^ 32 ∧ mem.entryName child.context = name ∧
      entryNode mem child.context = some child := by
  induction fuel generalizing entry with
  | zero => cases found
  | succ fuel inductionHypothesis =>
      rw [finddirLoop] at found
      split at found
      · cases found
      split at found
      · rename_i here
        have node : entryNode mem entry = some child := by simpa using found
        have context : child.context = entry := by
          unfold entryNode at node
          split at node
          · cases node
            rfl
          split at node
          · cases node
            rfl
          split at node
          · cases node
            rfl
          · cases node
        rw [context]
        exact ⟨small, here, node⟩
      · exact inductionHypothesis (leNat_lt mem _ 4) found

theorem finddir_found {mem : RamdiskMemory} {node child : RamdiskNode} {name : CString}
    (found : ramdiskFinddirFs mem node name = some (some child)) :
    child.context < 2 ^ 32 ∧ mem.entryName child.context = name ∧ child.name = name ∧
      child.length < 2 ^ 32 := by
  unfold ramdiskFinddirFs ramdiskfsFinddir at found
  split at found
  · split at found
    · cases found
    split at found
    · cases found
    obtain ⟨small, named, made⟩ := finddirLoop_found (leNat_lt mem _ 4) found
    refine ⟨small, named, ?_⟩
    have size : mem.entryLength child.context < 2 ^ 32 := leNat_lt mem _ 4
    unfold entryNode at made
    split at made
    · rw [← Option.some.inj made]
      exact ⟨named, size⟩
    split at made
    · rw [← Option.some.inj made]
      exact ⟨named, Nat.two_pow_pos 32⟩
    split at made
    · rw [← Option.some.inj made]
      exact ⟨named, Nat.two_pow_pos 32⟩
    · cases made
  · cases found

/-- Every name of a directory of the ramdisk is the name of an entry in the image. -/
theorem names_of_ramdiskForest {mem : RamdiskMemory} {node : RamdiskNode} :
    ∀ {forest : FileForest}, RamdiskForest mem node forest → ∀ name ∈ forest.names,
      ∃ entry < 2 ^ 32, mem.entryName entry = name
  | .nil, _, name, member => by
      unfold FileForest.names at member
      cases member
  | .cons name tree rest, shown, other, member => by
      unfold RamdiskForest at shown
      obtain ⟨⟨child, found, _⟩, behind⟩ := shown
      unfold FileForest.names at member
      rcases List.mem_cons.mp member with rfl | member
      · obtain ⟨small, named, _⟩ := finddir_found found
        exact ⟨child.context, small, named⟩
      · exact names_of_ramdiskForest behind other member

/-- So a directory with distinct names has at most 2^32 entries. -/
theorem names_length_le {mem : RamdiskMemory} {node : RamdiskNode} {forest : FileForest}
    (shown : RamdiskForest mem node forest) (distinct : forest.names.Nodup) :
    forest.names.length ≤ 2 ^ 32 := by
  have subset : forest.names ⊆ (List.range (2 ^ 32)).map mem.entryName := by
    intro name member
    obtain ⟨entry, small, named⟩ := names_of_ramdiskForest shown name member
    exact List.mem_map.mpr ⟨entry, List.mem_range.mpr small, named⟩
  have bound := (List.subperm_of_subset distinct subset).length_le
  rwa [List.length_map, List.length_range] at bound

/-! ## Tmpfs -/

mutual

/-- A structure of tmpfs holds a tree; every structure in it is an allowed one. -/
def TmpfsTree (t : Tmpfs) (allowed : TmpfsEntry → Prop) : TmpfsEntry → FileTree → Prop
  | entry, .file bytes =>
      allowed entry ∧ ∃ f file, entry = .file f ∧ t.files f = some file ∧ file.target = none ∧
        file.length = bytes.length ∧
          ∀ i < bytes.length, TmpfsFile.byteAt file t.phys i = some (charAt bytes i)
  | entry, .directory entries =>
      allowed entry ∧ ∃ d dir, entry = .dir d ∧ t.dirs d = some dir ∧
        TmpfsForest t allowed dir.files entries

/-- The pointers in the array of a directory are its entries, in their order. -/
def TmpfsForest (t : Tmpfs) (allowed : TmpfsEntry → Prop) : List TmpfsEntry → FileForest → Prop
  | files, .nil => files = []
  | files, .cons name tree rest =>
      ∃ entry others, files = entry :: others ∧ t.entryName entry = some name ∧
        TmpfsTree t allowed entry tree ∧ TmpfsForest t allowed others rest

end

/-- The allowed structures of a state are still there in another. -/
structure Carried (t t' : Tmpfs) (allowed : TmpfsEntry → Prop) : Prop where
  files : ∀ f file, allowed (.file f) → t.files f = some file → t'.files f = some file ∧
    ∀ position, TmpfsFile.byteAt file t'.phys position = TmpfsFile.byteAt file t.phys position
  dirs : ∀ d dir, allowed (.dir d) → t.dirs d = some dir → t'.dirs d = some dir

theorem Carried.entryName {t t' : Tmpfs} {allowed : TmpfsEntry → Prop} (carried : Carried t t' allowed)
    {entry : TmpfsEntry} {name : CString} (isAllowed : allowed entry)
    (named : t.entryName entry = some name) : t'.entryName entry = some name := by
  cases entry with
  | file f =>
      obtain ⟨file, present, rfl⟩ := Option.map_eq_some_iff.mp named
      exact Option.map_eq_some_iff.mpr ⟨file, (carried.files f file isAllowed present).1, rfl⟩
  | dir d =>
      obtain ⟨dir, present, rfl⟩ := Option.map_eq_some_iff.mp named
      exact Option.map_eq_some_iff.mpr ⟨dir, carried.dirs d dir isAllowed present, rfl⟩

theorem TmpfsTree.allowed {t : Tmpfs} {allowed : TmpfsEntry → Prop} {entry : TmpfsEntry}
    {tree : FileTree} (held : TmpfsTree t allowed entry tree) : allowed entry := by
  cases tree with
  | file bytes =>
      unfold TmpfsTree at held
      exact held.1
  | directory entries =>
      unfold TmpfsTree at held
      exact held.1

mutual

/-- A tree stays if its structures do. -/
theorem TmpfsTree.carry {t t' : Tmpfs} {allowed allowed' : TmpfsEntry → Prop}
    (carried : Carried t t' allowed) (weaker : ∀ entry, allowed entry → allowed' entry) :
    ∀ {entry : TmpfsEntry} {tree : FileTree},
      TmpfsTree t allowed entry tree → TmpfsTree t' allowed' entry tree
  | entry, .file bytes, held => by
      unfold TmpfsTree at held ⊢
      obtain ⟨isAllowed, f, file, rfl, present, noTarget, length, bytes⟩ := held
      obtain ⟨still, same⟩ := carried.files f file isAllowed present
      exact ⟨weaker _ isAllowed, f, file, rfl, still, noTarget, length,
        fun i inside => (same i).trans (bytes i inside)⟩
  | entry, .directory entries, held => by
      unfold TmpfsTree at held ⊢
      obtain ⟨isAllowed, d, dir, rfl, present, below⟩ := held
      exact ⟨weaker _ isAllowed, d, dir, rfl, carried.dirs d dir isAllowed present,
        TmpfsForest.carry carried weaker below⟩

/-- The same for the entries of a directory. -/
theorem TmpfsForest.carry {t t' : Tmpfs} {allowed allowed' : TmpfsEntry → Prop}
    (carried : Carried t t' allowed) (weaker : ∀ entry, allowed entry → allowed' entry) :
    ∀ {files : List TmpfsEntry} {forest : FileForest},
      TmpfsForest t allowed files forest → TmpfsForest t' allowed' files forest
  | files, .nil, held => by
      unfold TmpfsForest at held ⊢
      exact held
  | files, .cons name tree rest, held => by
      unfold TmpfsForest at held ⊢
      obtain ⟨entry, others, rfl, named, here, behind⟩ := held
      exact ⟨entry, others, rfl, carried.entryName here.allowed named,
        TmpfsTree.carry carried weaker here, TmpfsForest.carry carried weaker behind⟩

end

theorem Carried.refl (t : Tmpfs) (allowed : TmpfsEntry → Prop) : Carried t t allowed :=
  ⟨fun _ _ _ present => ⟨present, fun _ => rfl⟩, fun _ _ _ present => present⟩

/-- All but the directory that gets entries stays. -/
theorem Kept.carried {t t' : Tmpfs} {d : Nat} {allowed : TmpfsEntry → Prop} (kept : Kept t t' d)
    (apart : ∀ entry, allowed entry → entry ≠ .dir d) : Carried t t' allowed :=
  ⟨fun f file _ present => kept.files f file present,
    fun e dir isAllowed present => kept.dirs e dir (fun same => apart _ isAllowed (by rw [same])) present⟩

/-! ## Trees of a host -/

mutual

/-- The tree of a node of the host, without `.` and `..`. -/
def treeOf : HostNode → FileTree
  | .regular bytes => .file bytes
  | .directory stream => .directory (forestOf stream)
  | .other => .file []

/-- The entries of a directory of the host. -/
def forestOf : HostStream → FileForest
  | .nil => .nil
  | .cons name node rest =>
      if IsSpecial name then forestOf rest else .cons name (treeOf node) (forestOf rest)

end

theorem forestOf_names : ∀ stream : HostStream, (forestOf stream).names = names stream
  | .nil => rfl
  | .cons name node rest => by
      unfold forestOf
      by_cases special : IsSpecial name
      · rw [if_pos special, forestOf_names rest, names, names, entries_special special]
      · rw [if_neg special, FileForest.names, forestOf_names rest, names, names, entries_real special]
        rfl

mutual

/-- A node of an image with right links shows the tree of the host. -/
theorem ramdiskTree_of_opens {mem : RamdiskMemory} (signature : mem.headerSignature = rdfsSignature) :
    ∀ {node : RamdiskNode} {host : HostNode}, Decodable host → DistinctNode host →
      Opens mem node host → RamdiskTree mem node (treeOf host)
  | node, .regular bytes, _, _, opens => by
      unfold treeOf RamdiskTree
      exact showsFile_of_opens signature opens
  | node, .directory stream, decodable, distinct, opens => by
      obtain ⟨wellFormed, entriesLast, small⟩ := decodable
      unfold WellFormedNode at wellFormed
      unfold EntriesLastNode at entriesLast
      unfold nodeSize at small
      unfold DistinctNode at distinct
      have lastIsEntry := lastIsEntry_of_entriesLast entriesLast
      have shows_ := showsDirectory_of_opens signature lastIsEntry opens
      have found : ∀ name host, findRecord stream name = some host →
          ∃ child, ramdiskFinddirFs mem node name = some (some child) ∧ Opens mem child host :=
        fun name => (finddir_of_opens signature lastIsEntry wellFormed.2 small opens name).2
      unfold treeOf RamdiskTree
      refine ⟨shows_.kind, fun index => ?_, ?_⟩
      · rw [shows_.names, forestOf_names, names, List.getElem?_map]
      · exact ramdiskForest_of_opens signature wellFormed.2 entriesLast small distinct
          fun name host member => found name host (findRecord_of_mem distinct member)
  | node, .other, _, _, opens => opens.elim

/-- The same for the records of a directory. -/
theorem ramdiskForest_of_opens {mem : RamdiskMemory} (signature : mem.headerSignature = rdfsSignature)
    {node : RamdiskNode} : ∀ {stream : HostStream}, WellFormedStream stream →
      EntriesLastStream stream → streamSize stream < 2 ^ 32 → DistinctStream stream →
      (∀ name host, (name, host) ∈ entries stream →
        ∃ child, ramdiskFinddirFs mem node name = some (some child) ∧ Opens mem child host) →
      RamdiskForest mem node (forestOf stream)
  | .nil, _, _, _, _, _ => trivial
  | .cons name host rest, wellFormed, entriesLast, small, distinct, found => by
      have here := @decodable_of_mem name host (.cons name host rest) wellFormed entriesLast small
      unfold WellFormedStream at wellFormed
      unfold EntriesLastStream at entriesLast
      unfold streamSize at small
      unfold DistinctStream at distinct
      unfold forestOf
      by_cases special : IsSpecial name
      · rw [if_pos special] at small ⊢
        rw [entries_special special] at found
        exact ramdiskForest_of_opens signature wellFormed.2 entriesLast.2 small distinct.2 found
      · rw [if_neg special] at small ⊢
        rw [entries_real special] at found here
        obtain ⟨child, opened, opensChild⟩ := found name host List.mem_cons_self
        unfold RamdiskForest
        exact ⟨⟨child, opened,
            ramdiskTree_of_opens signature (here List.mem_cons_self) (distinct.1 special).2 opensChild⟩,
          ramdiskForest_of_opens signature wellFormed.2 entriesLast.2 (by omega) distinct.2
            fun other host' member => found other host' (List.mem_cons_of_mem _ member)⟩

end

end Voxel.Proofs
