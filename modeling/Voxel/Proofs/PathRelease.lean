/-
Module: Voxel.Proofs.PathRelease
Layer: Proofs
Purpose: Which calls on paths give back the blocks that they take from the kernel heap. `kopen` holds
  one block afterwards, that of the node; the callbacks of tmpfs take what belongs to a new entry, and
  `unlink_tmpfs` keeps the array of blocks of the file. The routes of a call that forget the node of the
  parent, the name or the node that they reported are then exactly those where the number of live blocks
  is wrong.
Trusted boundary: none
Main exports: kopenLive_eq, EntryChange, EntryChange.unique, createAtLive_cases, PathOp.Balanced,
  PathOp.Releases, path_blocks_iff, create_keeps_parent
-/
import Voxel.Kernel.PathBlocks
import Voxel.Proofs.DirectoryMap
import Voxel.Proofs.OpenFiles

namespace Voxel.Proofs

open Voxel.Lib Voxel.Kernel

/-! ## kopen -/

section Kopen

variable {Node : Type} {v : Vfs Node}

/-- A node is freed or replaced by the one that was found: one of both is left, or none. -/
theorem chosen_live (empty : Prop) [Decidable empty] (wd : Node) (found : Option Node) (live : Int) :
    (if empty then
      if found.isSome then freeLive (Vfs.foundLive found live) else Vfs.foundLive found live
    else freeLive (Vfs.foundLive found live)) =
      if (if empty then some wd else found).isSome then live else live - 1 := by
  unfold Vfs.foundLive freeLive mallocLive
  by_cases isEmpty : empty
  · rw [if_pos isEmpty, if_pos isEmpty]
    cases found <;> simp
  · rw [if_neg isEmpty, if_neg isEmpty]
    cases found <;> simp

/-- The rest of the loop behind a separator, with the node that is left. -/
theorem chosen_next {chosen : Option Node} {live left : Int} (next : Node → Int → Option (Option Node × Int))
    (next' : Node → Option (Option Node)) (isLeft : left = if chosen.isSome then live else live - 1)
    (agree : ∀ node,
      next node live = (next' node).map fun node => (node, if node.isSome then live - 1 else live - 2)) :
    (match chosen with
      | none => some (none, freeLive left)
      | some node => next node left) =
      (match chosen with
        | none => some none
        | some node => next' node).map fun node => (node, if node.isSome then live - 1 else live - 2) := by
  cases chosen with
  | none =>
      rw [isLeft]
      simp only [freeLive, Option.isSome_none, Option.map_some, Bool.false_eq_true, if_false, Int.sub_sub]
      rfl
  | some node =>
      rw [isLeft]
      exact agree node

/-- The loop behind a separator that is not the end: the next character is not looked at. -/
def restLive (v : Vfs Node) (parent : Bool) (name : CString) (p : Nat) (node : Node) (live : Int) :
    Nat → Option (Option Node × Int)
  | 0 => none
  | rest + 1 => v.kopenLoopLive parent rest name (p + 1) (p + 2) node live

/-- The loop gives back the string, and the current node if it finds nothing. -/
theorem kopenLoopLive_eq (plain : ∀ node, v.ptr node = none) (parent : Bool) (rest : Nat) :
    ∀ (name : CString) (nodename p : Nat) (wd : Node) (live : Int),
      v.kopenLoopLive parent rest name nodename p wd live =
        (v.kopenLoop parent rest name nodename p wd).map fun node =>
          (node, if node.isSome then live - 1 else live - 2) := by
  induction rest using Nat.strong_induction_on with
  | _ rest inductionHypothesis =>
      intro name nodename p wd live
      cases rest with
      | zero => rfl
      | succ rest =>
          rw [Vfs.kopenLoopLive, Vfs.kopenLoop]
          by_cases separator : charAt name p = slash ∨ charAt name p = nul
          · rw [if_pos separator, if_pos separator]
            by_cases stop : charAt name p = nul ∧ parent = true
            · rw [if_pos stop, if_pos stop]
              rfl
            · rw [if_neg stop, if_neg stop]
              refine chosen_next
                (fun node live =>
                  if charAt name p = nul then some (some (v.follow node), freeLive (v.followLive node live))
                  else
                    restLive v parent ((name.set p nul).set p slash) p (v.follow node)
                    (v.followLive node live)
                      rest)
                _ (chosen_live (charAt (name.set p nul) nodename = nul) wd _ live) fun node => ?_
              have followed : v.followLive node live = live := by
                rw [Vfs.followLive, plain]
                rfl
              rw [followed]
              by_cases last : charAt name p = nul
              · rw [if_pos last, if_pos last]
                rfl
              · rw [if_neg last, if_neg last]
                cases rest with
                | zero => rfl
                | succ rest => exact inductionHypothesis rest (by omega) _ _ _ _ _
          · rw [if_neg separator, if_neg separator]
            exact inductionHypothesis rest (by omega) _ _ _ _ _

/-- `kopen` keeps one block: that of the node it returns. -/
theorem kopenLive_eq (plain : ∀ node, v.ptr node = none) (filename : CString) (parent : Bool) (live : Int) :
    v.kopenLive filename parent live =
      (v.kopen filename parent).map fun node => (node, if node.isSome then live + 1 else live) := by
  unfold Vfs.kopenLive Vfs.kopen Vfs.kopenFrom
  dsimp only
  cases v.fsRoot with
  | none =>
      change some (none, live + 1 - 1) = some (none, live)
      rw [Int.add_sub_cancel]
  | some wd =>
      dsimp only
      split
      · change some (some wd, live + 1 + 1 - 1) = some (some wd, live + 1)
        rw [Int.add_sub_cancel]
      · cases stripBack slash filename.length filename with
        | none => rfl
        | some name =>
            dsimp only
            rw [kopenLoopLive_eq plain]
            have same : ∀ node : Option Node,
                (if node.isSome then live + 1 + 1 - 1 else live + 1 + 1 - 2) =
                  if node.isSome then live + 1 else live := by
              intro node
              split <;> omega
            exact Option.map_congr fun node _ => congrArg (Prod.mk node) (same node)

end Kopen

/-! ## The blocks of entries -/

/-- The structures that are there. -/
def structuresOf (t : Tmpfs) : Set TmpfsEntry := { entry | ¬ Fresh t entry }

/-- The blocks that belong to an entry: the structure, its name, its array, and the target of a link. -/
def entryBlocks (t : Tmpfs) : TmpfsEntry → Int
  | .file f => if ((t.files f).bind TmpfsFile.target).isSome then 4 else 3
  | .dir _ => 3

/-- By how many blocks the entries of the second file system have more than those of the first, which has the
same entries or one less or one more. -/
inductive EntryChange (t t' : Tmpfs) : Int → Prop
  | same (entries : structuresOf t' = structuresOf t) : EntryChange t t' 0
  | created (entry : TmpfsEntry) (new : entry ∉ structuresOf t)
    (entries : structuresOf t' = insert entry (structuresOf t)) :
      EntryChange t t' (entryBlocks t' entry)
  | removed (entry : TmpfsEntry) (old : entry ∈ structuresOf t) (gone : entry ∉ structuresOf t')
      (entries : structuresOf t = insert entry (structuresOf t')) : EntryChange t t' (-entryBlocks t entry)

/-- The entry by which two sets differ is one only. -/
theorem insert_unique {α : Type} {a b : α} {s : Set α} (new : a ∉ s) (same : insert a s = insert b s) :
    a = b := by
  have member : a ∈ insert b s := by
    rw [← same]
    exact Set.mem_insert a s
  rcases member with rfl | old
  · rfl
  · exact absurd old new

/-- A set with a new element is another set. -/
theorem insert_ne {α : Type} {a : α} {s : Set α} (new : a ∉ s) : insert a s ≠ s := by
  intro same
  apply new
  rw [← same]
  exact Set.mem_insert a s

section Changes

variable {t t' : Tmpfs} {change other : Int}

/-- Not both a new entry and one that is gone. -/
theorem created_not_removed {entry gone : TmpfsEntry} (new : entry ∉ structuresOf t)
    (entries : structuresOf t' = insert entry (structuresOf t))
    (left : structuresOf t = insert gone (structuresOf t')) :
    False := by
  apply new
  rw [left]
  apply Set.mem_insert_of_mem
  rw [entries]
  exact Set.mem_insert entry _

/-- The number is determined. -/
theorem EntryChange.unique (one : EntryChange t t' change) (two : EntryChange t t' other) :
    change = other := by
  cases one with
  | same entries =>
      cases two with
      | same => rfl
      | created entry new after => exact absurd (after.symm.trans entries) (insert_ne new)
      | removed entry old gone after => exact absurd (after.symm.trans entries.symm) (insert_ne gone)
  | created entry new entries =>
      cases two with
      | same after => exact absurd (entries.symm.trans after) (insert_ne new)
      | created entry' new' after => rw [insert_unique new (entries.symm.trans after)]
      | removed entry' old gone after => exact (created_not_removed new entries after).elim
  | removed entry old gone entries =>
      cases two with
      | same after => exact absurd (entries.symm.trans after.symm) (insert_ne gone)
      | created entry' new after => exact (created_not_removed new after entries).elim
      | removed entry' old' gone' after => rw [insert_unique gone (entries.symm.trans after)]

theorem EntryChange.refl (t : Tmpfs) : EntryChange t t 0 := .same rfl

/-- A new entry. -/
theorem Adds.created {d : Nat} {name : CString} {made : Option TmpfsEntry}
    (adds : Adds t d name made 0 t') :
    ∃ entry, made = some entry ∧ EntryChange t t' (entryBlocks t' entry) := by
  obtain ⟨dir, present, ⟨_, failed, _⟩ | ⟨_, _, _, entry, isMade, _, added, fresh, named⟩⟩ := adds
  · exact absurd rfl failed
  refine ⟨entry, isMade, .created entry (fun there => there fresh) ?_⟩
  have there : ¬ Fresh t' entry := by
    intro absent
    cases entry with
    | file f =>
        rw [Tmpfs.entryName, show t'.files f = none from absent] at named
        cases named
    | dir e =>
        rw [Tmpfs.entryName, show t'.dirs e = none from absent] at named
        cases named
  ext other
  rw [Set.mem_insert_iff]
  by_cases isNew : other = entry
  · simp only [isNew, true_or, iff_true]
    exact there
  · simp only [isNew, false_or]
    have same : Fresh t' other ↔ Fresh t other := by
      cases other with
      | file f => rw [Fresh, Fresh, added.otherFiles f isNew]
      | dir e =>
          by_cases isParent : e = d
          · subst isParent
            obtain ⟨dir', parent, _, _⟩ := added.parent
            rw [Fresh, Fresh, parent, present]
            simp
          · rw [Fresh, Fresh, added.otherDirs e isParent isNew]
    exact not_congr same

/-- Adding an entry to a directory takes nothing. -/
theorem addEntryLive_eq (live : Int) (dir : TmpfsDir) : Tmpfs.addEntryLive live dir = live := by
  unfold Tmpfs.addEntryLive reallocLive freeLive mallocLive
  split <;> omega

/-- The file that is linked is the one that was made. -/
theorem addEntry_file {d f : Nat} {file : TmpfsFile}
    (linked : (t.setFile f file).addEntry d (.file f) = some t') : t'.files f = some file := by
  obtain ⟨_, _, _, _, rfl, _, _⟩ := addEntry_spec linked
  exact Function.update_self f (some file) t.files

/-- `create_tmpfs` takes the blocks of the new file. -/
theorem createTmpfs_change {who : Credentials} {d : Nat} {name : CString} {mode : BitVec 32} {result : Int}
    (owned : Tmpfs.Owned t) (created : t.createTmpfs who d name mode = some (result, t')) :
    ∃ change, EntryChange t t' change ∧ 0 ≤ change ∧
      ∀ live, t.createTmpfsLive d name live = live + change := by
  have adds := createTmpfs_adds owned created
  unfold Tmpfs.createTmpfs at created
  split at created
  · cases created
  rename_i dir present
  unfold Tmpfs.createTmpfsLive
  rw [present]
  dsimp only
  split at created
  · cases created
    rename_i exists_
    exact ⟨0, .refl t, Int.le_refl 0, fun live => by rw [if_pos exists_, Int.add_zero]⟩
  rename_i fresh
  split at created
  · cases created
  rename_i f file t₁ made
  obtain ⟨t₂, linked, same⟩ := Option.map_eq_some_iff.mp created
  cases same
  obtain ⟨m, rfl, _, noTarget, _⟩ := newFile_spec made
  obtain ⟨entry, isMade, changed⟩ := Adds.created adds
  rw [made] at isMade
  cases isMade
  have noLink : entryBlocks t' (.file f) = 3 := by
    rw [entryBlocks, addEntry_file linked]
    simp [noTarget]
  rw [noLink] at changed
  refine ⟨3, changed, by decide, fun live => ?_⟩
  rw [if_neg fresh, addEntryLive_eq]
  unfold Tmpfs.newFileLive mallocLive
  omega

/-- `symlink_tmpfs` takes the blocks of the new link. -/
theorem symlinkTmpfs_change {who : Credentials} {d : Nat} {target name : CString} {result : Int}
    (owned : Tmpfs.Owned t) (created : t.symlinkTmpfs who d target name = some (result, t')) :
    ∃ change, EntryChange t t' change ∧ ∀ live, t.symlinkTmpfsLive d name live = live + change := by
  have adds := symlinkTmpfs_adds owned created
  unfold Tmpfs.symlinkTmpfs at created
  split at created
  · cases created
  rename_i dir present
  unfold Tmpfs.symlinkTmpfsLive
  rw [present]
  dsimp only
  split at created
  · cases created
    rename_i exists_
    exact ⟨0, .refl t, fun live => by rw [if_pos exists_, Int.add_zero]⟩
  rename_i fresh
  split at created
  · cases created
  rename_i f file t₁ made
  split at created
  · cases created
  rename_i targetAt t₂ copied
  obtain ⟨t₃, linked, same⟩ := Option.map_eq_some_iff.mp created
  cases same
  obtain ⟨entry, isMade, changed⟩ := Adds.created adds
  rw [made] at isMade
  cases isMade
  have isLink : entryBlocks t' (.file f) = 4 := by
    rw [entryBlocks, addEntry_file linked]
    rfl
  rw [isLink] at changed
  refine ⟨4, changed, fun live => ?_⟩
  rw [if_neg fresh, addEntryLive_eq]
  unfold Tmpfs.newFileLive mallocLive
  omega

/-- `mkdir_tmpfs` takes the blocks of the new directory. -/
theorem mkdirTmpfs_change {who : Credentials} {d : Nat} {name : CString} {mode : BitVec 32} {result : Int}
    (owned : Tmpfs.Owned t) (created : t.mkdirTmpfs who d name mode = some (result, t')) :
    ∃ change, EntryChange t t' change ∧ ∀ live, t.mkdirTmpfsLive d name live = live + change := by
  unfold Tmpfs.mkdirTmpfsLive
  by_cases empty : name = []
  · rw [Tmpfs.mkdirTmpfs, if_pos empty] at created
    cases created
    exact ⟨0, .refl t, fun live => by rw [if_pos empty, Int.add_zero]⟩
  have adds := mkdirTmpfs_adds owned empty created
  rw [Tmpfs.mkdirTmpfs, if_neg empty] at created
  obtain absent | ⟨dir, present⟩ := Option.eq_none_or_eq_some (t.dirs d)
  · rw [absent] at created
    cases created
  rw [present] at created ⊢
  dsimp only at created ⊢
  split at created
  · cases created
    rename_i exists_
    exact ⟨0, .refl t, fun live => by rw [if_neg empty, if_pos exists_, Int.add_zero]⟩
  rename_i fresh
  split at created
  · cases created
  rename_i out outDir t₁ made
  obtain ⟨t₂, linked, same⟩ := Option.map_eq_some_iff.mp created
  cases same
  obtain ⟨entry, isMade, changed⟩ := Adds.created adds
  rw [made] at isMade
  cases isMade
  refine ⟨3, changed, fun live => ?_⟩
  rw [if_neg empty, if_neg fresh, addEntryLive_eq]
  unfold Tmpfs.newDirLive mallocLive
  omega

/-- `unlink_tmpfs` keeps one block of the file that it removes. -/
theorem unlinkTmpfs_change {d : Nat} {name : CString} {result : Int}
    (unlinked : t.unlinkTmpfs d name = some (result, t')) :
    ∃ change, EntryChange t t' change ∧ ∀ live, t.unlinkTmpfsLive d name live =
      live + change + if result = 0 then 1 else 0 := by
  obtain ⟨dir, present, absent | isDir | isFile⟩ := unlinkTmpfs_cases unlinked
  · obtain ⟨none_, rfl, rfl⟩ := absent
    refine ⟨0, .refl t', fun live => ?_⟩
    rw [Tmpfs.unlinkTmpfsLive, present]
    dsimp only
    rw [none_, if_neg (by decide), Int.add_zero, Int.add_zero]
  · obtain ⟨e, found, rfl, rfl⟩ := isDir
    refine ⟨0, .refl t', fun live => ?_⟩
    rw [Tmpfs.unlinkTmpfsLive, present]
    dsimp only
    rw [found, if_neg (by decide), Int.add_zero, Int.add_zero]
  · obtain ⟨f, file, found, isThere, rfl, files, dirs, _⟩ := isFile
    refine ⟨-entryBlocks t (.file f), .removed (.file f) ?_ (fun there => there ?_) ?_, fun live => ?_⟩
    · intro fresh
      rw [show t.files f = none from fresh] at isThere
      cases isThere
    · rw [Fresh, files, Function.update_self]
    · ext other
      rw [Set.mem_insert_iff]
      cases other with
      | file g =>
          by_cases same : g = f
          · subst same
            simp [structuresOf, Fresh, isThere]
          · simp [structuresOf, Fresh, files, same]
      | dir e =>
          by_cases same : e = d
          · subst same
            simp [structuresOf, Fresh, dirs, present]
          · simp [structuresOf, Fresh, dirs, Function.update_of_ne same]
    · rw [Tmpfs.unlinkTmpfsLive, present]
      dsimp only
      rw [found]
      dsimp only
      rw [isThere, if_pos rfl, entryBlocks, isThere, Option.bind_some]
      unfold Tmpfs.freeFileLive freeLive
      dsimp only
      split <;> omega

end Changes

/-! ## create_file, mkdir, symlink and unlink -/

section Creations

variable {Foreign : Type} {s : FileSystem Foreign} {who : Credentials} {name : CString} {live live' : Int}
  {result : Int} {t' : Tmpfs}

/-- What the calls give back of the node of the parent and of the name. -/
theorem createAtLive_cases {looks freesParent : Bool} {missing : Int}
    {callback : Tmpfs → Nat → CString → Option (Int × Tmpfs)}
    {callbackLive : Tmpfs → Nat → CString → Int → Int}
    (called : s.createAtLive who name looks missing freesParent callback callbackLive live =
      some (some ((result, t'), live'))) :
    (s.vfs.kopen name true = some none ∧ t' = s.tmpfs ∧ live' = live) ∨
      ∃ parent, s.vfs.kopen name true = some (some parent) ∧
        ((checkPermission who parent.attributes 0o2 = false ∧ t' = s.tmpfs ∧ live' = live + 1) ∨
          (checkPermission who parent.attributes 0o2 = true ∧ ∃ filename, lastFilename name = some filename ∧
            ((looks = true ∧ s.vfs.finddirFs parent filename ≠ none ∧ t' = s.tmpfs ∧ live' = live + 2) ∨
              ((looks = true → s.vfs.finddirFs parent filename = none) ∧
                (((∀ d, parent.device ≠ .tmpfs (.dir d)) ∧ result = missing ∧ t' = s.tmpfs ∧
                    live' = live + if freesParent then 0 else 1) ∨
                  ∃ d, parent.device = .tmpfs (.dir d) ∧ callback s.tmpfs d filename = some (result, t') ∧
                    live' =
                      callbackLive s.tmpfs d filename (live + 2) - if freesParent then 2 else 1))))) := by
  unfold FileSystem.createAtLive at called
  rw [kopenLive_eq fun _ => rfl] at called
  cases opened : s.vfs.kopen name true with
  | none =>
      rw [opened] at called
      cases called
  | some node =>
      rw [opened] at called
      cases node with
      | none =>
          cases called
          exact Or.inl ⟨rfl, rfl, rfl⟩
      | some parent =>
          rw [Option.map_some] at called
          dsimp only at called
          refine Or.inr ⟨parent, rfl, ?_⟩
          split at called
          · rename_i denied
            cases called
            exact Or.inl ⟨denied, rfl, rfl⟩
          rename_i granted
          refine Or.inr ⟨by simpa using granted, ?_⟩
          split at called
          · cases called
          rename_i filename last
          refine ⟨filename, last, ?_⟩
          by_cases there : (if looks = true then s.vfs.finddirFs parent filename else none).isSome = true
          · rw [if_pos there] at called
            cases called
            cases looks with
            | false => cases there
            | true =>
                refine Or.inl ⟨rfl, Option.isSome_iff_ne_none.mp there, rfl, ?_⟩
                rw [if_pos rfl] at there
                unfold Vfs.foundLive freeLive mallocLive
                rw [if_pos rfl, if_pos there]
                change live + 1 + 1 + 1 - 1 = live + 2
                omega
          rw [if_neg there] at called
          refine Or.inr ⟨?_, ?_⟩
          · intro isLooking
            rw [if_pos isLooking] at there
            exact Option.not_isSome_iff_eq_none.mp there
          obtain ⟨⟨called, left⟩, isDone, same⟩ := Option.map_eq_some_iff.mp (Option.some.inj called)
          cases same
          split at isDone
          · rename_i d isDir
            obtain ⟨_, ran, same⟩ := Option.map_eq_some_iff.mp isDone
            cases same
            refine Or.inr ⟨d, isDir, ran, ?_⟩
            have two : mallocLive (live + 1) = live + 2 := by
              unfold mallocLive
              omega
            change freeLive (if freesParent = true then
              freeLive (callbackLive s.tmpfs d filename (mallocLive (live + 1))) else
              callbackLive s.tmpfs d filename (mallocLive (live + 1))) = _
            rw [two]
            unfold freeLive
            split <;> omega
          · rename_i notDir
            cases isDone
            refine Or.inl ⟨fun d isDir => notDir d isDir, rfl, rfl, ?_⟩
            change freeLive (if freesParent = true then freeLive (mallocLive (live + 1)) else
              mallocLive (live + 1)) = _
            unfold freeLive mallocLive
            split <;> omega

/-- `create_file` does not get as far as the node of the parent. -/
def OpensNoParent (s : FileSystem Foreign) (name : CString) : Prop :=
  name = [] ∨ name = [slash] ∨ s.vfs.kopen name true = some none

/-- `create_file` never frees the node of the parent. -/
theorem createFileLive_spec {mode : BitVec 32} (owned : Tmpfs.Owned s.tmpfs)
    (called : s.createFileLive who name mode live = some (some ((result, t'), live'))) :
    ∃ change, EntryChange s.tmpfs t' change ∧ 0 ≤ change ∧
      ((OpensNoParent s name ∧ change = 0 ∧ live' = live) ∨
        (¬ OpensNoParent s name ∧ live + change < live')) := by
  unfold FileSystem.createFileLive at called
  split at called
  · rename_i empty
    cases called
    exact ⟨0, .refl _, Int.le_refl 0, Or.inl ⟨Or.inl empty, rfl, rfl⟩⟩
  rename_i notEmpty
  split at called
  · rename_i isRoot
    cases called
    exact ⟨0, .refl _, Int.le_refl 0, Or.inl ⟨Or.inr (Or.inl isRoot), rfl, rfl⟩⟩
  rename_i notRoot
  rcases createAtLive_cases called with ⟨missing, rfl, rfl⟩ | ⟨parent, opened, rest⟩
  · exact ⟨0, .refl _, Int.le_refl 0, Or.inl ⟨Or.inr (Or.inr missing), rfl, rfl⟩⟩
  have opens : ¬ OpensNoParent s name := by
    rintro (empty | isRoot | missing)
    · exact notEmpty empty
    · exact notRoot isRoot
    · rw [opened] at missing
      cases missing
  rcases rest with ⟨_, rfl, rfl⟩ |
    ⟨_, filename, _, ⟨_, _, rfl, rfl⟩ | ⟨_, ⟨_, _, rfl, rfl⟩ | ⟨d, _, ran, rfl⟩⟩⟩
  · exact ⟨0, .refl _, Int.le_refl 0, Or.inr ⟨opens, by omega⟩⟩
  · exact ⟨0, .refl _, Int.le_refl 0, Or.inr ⟨opens, by omega⟩⟩
  · refine ⟨0, .refl _, Int.le_refl 0, Or.inr ⟨opens, ?_⟩⟩
    rw [if_neg (by decide)]
    omega
  · obtain ⟨change, changed, notLess, takes⟩ := createTmpfs_change owned ran
    refine ⟨change, changed, notLess, Or.inr ⟨opens, ?_⟩⟩
    rw [takes, if_neg (by decide)]
    omega

/-- `mkdir` gets to its end. -/
def MkdirEnds (s : FileSystem Foreign) (who : Credentials) (name : CString) : Prop :=
  name = [] ∨ s.vfs.kopen name true = some none ∨
    ∃ parent filename, s.vfs.kopen name true = some (some parent) ∧
      checkPermission who parent.attributes 0o2 = true ∧ lastFilename name = some filename ∧
      s.vfs.finddirFs parent filename = none

/-- `mkdir` frees the node of the parent and the name at its end only. -/
theorem mkdirLive_spec {mode : BitVec 32} (owned : Tmpfs.Owned s.tmpfs)
    (called : s.mkdirLive who name mode live = some (some ((result, t'), live'))) :
    ∃ change, EntryChange s.tmpfs t' change ∧ (live' = live + change ↔ MkdirEnds s who name) := by
  unfold FileSystem.mkdirLive at called
  split at called
  · rename_i empty
    cases called
    exact ⟨0, .refl _, iff_of_true (Int.add_zero _).symm (Or.inl empty)⟩
  rename_i notEmpty
  rcases createAtLive_cases called with ⟨missing, rfl, rfl⟩ | ⟨parent, opened, rest⟩
  · exact ⟨0, .refl _, iff_of_true (Int.add_zero _).symm (Or.inr (Or.inl missing))⟩
  have ends : ∀ {filename}, lastFilename name = some filename → (MkdirEnds s who name ↔
      checkPermission who parent.attributes 0o2 = true ∧ s.vfs.finddirFs parent filename = none) := by
    intro filename last
    constructor
    · rintro (empty | missing | ⟨other, filename', opened', granted, last', absent⟩)
      · exact absurd empty notEmpty
      · rw [opened] at missing
        cases missing
      · cases opened.symm.trans opened'
        cases last.symm.trans last'
        exact ⟨granted, absent⟩
    · rintro ⟨granted, absent⟩
      exact Or.inr (Or.inr ⟨parent, filename, opened, granted, last, absent⟩)
  rcases rest with ⟨denied, rfl, rfl⟩ |
    ⟨granted, filename, last, ⟨_, there, rfl, rfl⟩ | ⟨absent, ⟨_, _, rfl, rfl⟩ | ⟨d, _, ran, rfl⟩⟩⟩
  · refine ⟨0, .refl _, iff_of_false (by omega) ?_⟩
    rintro (empty | missing | ⟨other, _, opened', granted, _⟩)
    · exact notEmpty empty
    · rw [opened] at missing
      cases missing
    · cases opened.symm.trans opened'
      rw [denied] at granted
      cases granted
  · exact ⟨0, .refl _, iff_of_false (by omega) fun isEnd => there ((ends last).mp isEnd).2⟩
  · exact ⟨0, .refl _, iff_of_true rfl ((ends last).mpr ⟨granted, absent rfl⟩)⟩
  · obtain ⟨change, changed, takes⟩ := mkdirTmpfs_change owned ran
    refine ⟨change, changed, iff_of_true ?_ ((ends last).mpr ⟨granted, absent rfl⟩)⟩
    rw [takes, if_pos rfl]
    omega

/-- `symlink` gets to its end. -/
def SymlinkEnds (s : FileSystem Foreign) (who : Credentials) (name : CString) : Prop :=
  name = [] ∨ s.vfs.kopen name true = some none ∨
    ∃ parent, s.vfs.kopen name true = some (some parent) ∧ checkPermission who parent.attributes 0o2 = true

/-- A parent that was opened decides whether the end is reached. -/
theorem symlinkEnds_iff {parent : FsNode Foreign} (notEmpty : name ≠ [])
    (opened : s.vfs.kopen name true = some (some parent)) :
    SymlinkEnds s who name ↔ checkPermission who parent.attributes 0o2 = true := by
  constructor
  · rintro (empty | missing | ⟨other, opened', granted⟩)
    · exact absurd empty notEmpty
    · rw [opened] at missing
      cases missing
    · cases opened.symm.trans opened'
      exact granted
  · exact fun granted => Or.inr (Or.inr ⟨parent, opened, granted⟩)

/-- `symlink` frees the node of the parent and the name at its end only. -/
theorem symlinkLive_spec {target : CString} (owned : Tmpfs.Owned s.tmpfs)
    (called : s.symlinkLive who target name live = some (some ((result, t'), live'))) :
    ∃ change, EntryChange s.tmpfs t' change ∧ (live' = live + change ↔ SymlinkEnds s who name) := by
  unfold FileSystem.symlinkLive at called
  split at called
  · rename_i empty
    cases called
    exact ⟨0, .refl _, iff_of_true (Int.add_zero _).symm (Or.inl empty)⟩
  rename_i notEmpty
  rcases createAtLive_cases called with ⟨missing, rfl, rfl⟩ | ⟨parent, opened, rest⟩
  · exact ⟨0, .refl _, iff_of_true (Int.add_zero _).symm (Or.inr (Or.inl missing))⟩
  have ends : SymlinkEnds s who name ↔ _ := symlinkEnds_iff notEmpty opened
  rcases rest with ⟨denied, rfl, rfl⟩ |
    ⟨granted, filename, last, ⟨looking, _⟩ | ⟨_, ⟨_, _, rfl, rfl⟩ | ⟨d, _, ran, rfl⟩⟩⟩
  · refine ⟨0, .refl _, iff_of_false (by omega) fun isEnd => ?_⟩
    rw [ends.mp isEnd] at denied
    cases denied
  · cases looking
  · exact ⟨0, .refl _, iff_of_true rfl (ends.mpr granted)⟩
  · obtain ⟨change, changed, takes⟩ := symlinkTmpfs_change owned ran
    refine ⟨change, changed, iff_of_true ?_ (ends.mpr granted)⟩
    rw [takes, if_pos rfl]
    omega

/-- The last component names a file of tmpfs in this parent. -/
def LastIsFile (s : FileSystem Foreign) (name : CString) (parent : FsNode Foreign) : Prop :=
  ∃ filename d f, lastFilename name = some filename ∧ parent.device = .tmpfs (.dir d) ∧
    s.tmpfs.finddirTmpfs d filename = some (.file f)

/-- `unlink` gets to its end and removes nothing. -/
def UnlinkFails (s : FileSystem Foreign) (who : Credentials) (name : CString) : Prop :=
  name = [] ∨ s.vfs.kopen name true = some none ∨
    ∃ parent, s.vfs.kopen name true = some (some parent) ∧
      checkPermission who parent.attributes 0o2 = true ∧ ¬ LastIsFile s name parent

/-- `unlink` frees the node of the parent and the name at its end only, and not the array of blocks of
the file that it removes. -/
theorem unlinkLive_spec (called : s.unlinkLive who name live = some (some ((result, t'), live'))) :
    ∃ change, EntryChange s.tmpfs t' change ∧ (live' = live + change ↔ UnlinkFails s who name) := by
  unfold FileSystem.unlinkLive at called
  split at called
  · rename_i empty
    cases called
    exact ⟨0, .refl _, iff_of_true (Int.add_zero _).symm (Or.inl empty)⟩
  rename_i notEmpty
  rcases createAtLive_cases called with ⟨missing, rfl, rfl⟩ | ⟨parent, opened, rest⟩
  · exact ⟨0, .refl _, iff_of_true (Int.add_zero _).symm (Or.inr (Or.inl missing))⟩
  have fails : UnlinkFails s who name ↔
      checkPermission who parent.attributes 0o2 = true ∧ ¬ LastIsFile s name parent := by
    constructor
    · rintro (empty | missing | ⟨other, opened', granted, names⟩)
      · exact absurd empty notEmpty
      · rw [opened] at missing
        cases missing
      · cases opened.symm.trans opened'
        exact ⟨granted, names⟩
    · rintro ⟨granted, names⟩
      exact Or.inr (Or.inr ⟨parent, opened, granted, names⟩)
  rcases rest with ⟨denied, rfl, rfl⟩ |
    ⟨granted, filename, last, ⟨looking, _⟩ | ⟨_, ⟨notDir, _, rfl, rfl⟩ | ⟨d, isDir, ran, rfl⟩⟩⟩
  · refine ⟨0, .refl _, iff_of_false (by omega) fun failed => ?_⟩
    rw [(fails.mp failed).1] at denied
    cases denied
  · cases looking
  · refine ⟨0, .refl _, iff_of_true rfl (fails.mpr ⟨granted, ?_⟩)⟩
    rintro ⟨_, d, _, _, isDir, _⟩
    exact notDir d isDir
  · obtain ⟨change, changed, takes⟩ := unlinkTmpfs_change ran
    refine ⟨change, changed, ?_⟩
    have names : LastIsFile s name parent ↔ result = 0 := by
      obtain ⟨dir, present, cases_⟩ := unlinkTmpfs_cases ran
      have found : s.tmpfs.finddirTmpfs d filename = s.tmpfs.findEntry dir filename := by
        rw [Tmpfs.finddirTmpfs, present, Option.bind_some]
      have isFile : LastIsFile s name parent ↔ ∃ f, s.tmpfs.findEntry dir filename = some (.file f) := by
        constructor
        · rintro ⟨filename', d', f, last', isDir', there⟩
          cases last.symm.trans last'
          cases isDir.symm.trans isDir'
          exact ⟨f, found ▸ there⟩
        · rintro ⟨f, there⟩
          exact ⟨filename, d, f, last, isDir, found.trans there⟩
      rw [isFile]
      rcases cases_ with ⟨absent, rfl, _⟩ | ⟨e, isDir_, rfl, _⟩ | ⟨f, file, there, _, rfl, _⟩
      · rw [absent]
        exact iff_of_false (by simp) (by decide)
      · rw [isDir_]
        exact iff_of_false (by simp) (by decide)
      · exact iff_of_true ⟨f, there⟩ rfl
    rw [takes, if_pos rfl, fails, names]
    by_cases removed : result = 0
    · rw [if_pos removed]
      exact iff_of_false (by omega) fun both => both.2 removed
    · rw [if_neg removed]
      exact iff_of_true (by omega) ⟨granted, removed⟩

end Creations

/-! ## sys_open -/

section Opens

variable {Foreign : Type} {s s' : OpenFiles Foreign} {p : Nat} {who : Credentials} {live live' : Int}
  {result flags mode : BitVec 64}

theorem openFiles_kopenLive (s : OpenFiles Foreign) (path : CString) (flags : BitVec 64) (live : Int) :
    s.kopenLive path flags live =
      (s.kopen path flags).map fun node => (node, if node.isSome then live + 1 else live) := by
  rw [OpenFiles.kopenLive, OpenFiles.kopen, kopenLive_eq fun _ => rfl, Option.map_map, Option.map_map]
  apply Option.map_congr
  intro node _
  cases node <;> rfl

/-- A check that fails has a node. -/
theorem openAccess_none (who : Credentials) (flags : BitVec 64) {e : BitVec 64} :
    OpenFiles.openAccess who flags (none : Option (OpenNode Foreign)) ≠ .error e := by
  unfold OpenFiles.openAccess
  simp

/-- Without a new descriptor the node is freed. -/
theorem openDescriptorLive_failed {accessBit : BitVec 32} {node : Option (OpenNode Foreign)}
    (done : s.openDescriptorLive p flags accessBit node live = some ((result, s'), live'))
    (failed : s'.fds = s.fds) : live' = if node.isSome then live - 1 else live := by
  unfold OpenFiles.openDescriptorLive at done
  cases node with
  | none =>
      cases done
      rfl
  | some node =>
      dsimp only at done
      split at done
      · cases done
        rfl
      split at done
      · cases done
        rfl
      split at done
      · cases done
      rename_i s₁ truncates
      split at done
      · cases done
        rfl
      · cases done
        exfalso
        have sameFds : s₁.fds = s.fds := by
          split at truncates
          · unfold OpenFiles.truncateFs at truncates
            split at truncates
            · obtain ⟨_, _, rfl⟩ := Option.map_eq_some_iff.mp truncates
              rfl
            · cases truncates
              rfl
          · cases truncates
            rfl
        have grown := congrArg List.length (congrFun failed p)
        rw [← sameFds] at grown
        simp at grown

/-- `create_file` is not reached, or it does not open the parent. -/
def MakesNoFile (s : OpenFiles Foreign) (path : CString) (flags : BitVec 64) : Prop :=
  s.kopen path flags ≠ some none ∨ flagSet flags oCreat = false ∨ OpensNoParent s.system path

/-- A missing file is made: the number of blocks without that of the node that is opened then. -/
theorem createMissingLive_spec {path : CString} {outcome : Except (BitVec 64) (Option (OpenNode Foreign))}
    {s₁ : OpenFiles Foreign} {after : Int} (owned : Tmpfs.Owned s.tmpfs)
    (creates : flagSet flags oCreat = true)
    (made : s.createMissingLive who path flags mode none live = some ((outcome, s₁), after)) :
    s₁.fds = s.fds ∧ ∃ kept, (kept = live ↔ OpensNoParent s.system path) ∧
      (∀ e, outcome = .error e → after = kept) ∧
      ∀ node, outcome = .ok node → after = if node.isSome then kept + 1 else kept := by
  unfold OpenFiles.createMissingLive at made
  rw [Option.isNone_none, Bool.true_and, creates, if_pos rfl] at made
  split at made
  · cases made
  rename_i code t kept called
  obtain ⟨change, _, notLess, balance⟩ := createFileLive_spec owned (Option.join_eq_some_iff.mp called)
  have exact_ : kept = live ↔ OpensNoParent s.system path := by
    rcases balance with ⟨noParent, rfl, rfl⟩ | ⟨hasParent, more⟩
    · exact iff_of_true rfl noParent
    · exact iff_of_false (by omega) hasParent
  dsimp only at made
  split at made
  · rw [openFiles_kopenLive, Option.map_map] at made
    obtain ⟨node, _, same⟩ := Option.map_eq_some_iff.mp made
    cases same
    refine ⟨rfl, _, exact_, ?_, ?_⟩
    · intro e isError
      cases isError
    · intro node' isNode
      cases isNode
      rfl
  · cases made
    refine ⟨rfl, _, exact_, fun _ _ => rfl, ?_⟩
    intro node isNode
    cases isNode

/-- A `sys_open` without a new descriptor keeps what `create_file` keeps. -/
theorem sysOpenLive_failed {file : Option CString} (owned : Tmpfs.Owned s.tmpfs)
    (ran : s.sysOpenLive p who file flags mode live = some ((result, s'), live')) (failed : s'.fds = s.fds) :
    live' = live ↔ ∀ path, file = some path → MakesNoFile s path flags := by
  unfold OpenFiles.sysOpenLive at ran
  cases file with
  | none =>
      cases ran
      exact iff_of_true rfl (by simp)
  | some path =>
      have one : (∀ path', some path = some path' → MakesNoFile s path' flags) ↔ MakesNoFile s path flags :=
        ⟨fun all => all path rfl, fun none_ path' same => Option.some.inj same ▸ none_⟩
      rw [one]
      dsimp only at ran
      rw [openFiles_kopenLive] at ran
      cases opened : s.kopen path flags with
      | none =>
          rw [opened] at ran
          cases ran
      | some node =>
          rw [opened, Option.map_some] at ran
          dsimp only at ran
          cases node with
          | some node =>
              have found : MakesNoFile s path flags := Or.inl (by rw [opened]; simp)
              refine iff_of_true ?_ found
              split at ran
              · cases ran
                exact Int.add_sub_cancel live 1
              · unfold OpenFiles.createMissingLive at ran
                rw [Option.isNone_some, Bool.false_and, if_neg (by decide)] at ran
                exact (openDescriptorLive_failed ran failed).trans (Int.add_sub_cancel live 1)
          | none =>
              split at ran
              · rename_i access
                exact absurd access (openAccess_none who flags)
              cases creates : flagSet flags oCreat with
              | false =>
                  unfold OpenFiles.createMissingLive at ran
                  rw [creates, Bool.and_false, if_neg (by decide)] at ran
                  exact iff_of_true (openDescriptorLive_failed ran failed) (Or.inr (Or.inl creates))
              | true =>
                  have whole : MakesNoFile s path flags ↔ OpensNoParent s.system path := by
                    constructor
                    · rintro (found | noCreate | noParent)
                      · exact absurd opened found
                      · rw [creates] at noCreate
                        cases noCreate
                      · exact noParent
                    · exact fun noParent => Or.inr (Or.inr noParent)
                  rw [whole]
                  split at ran
                  · cases ran
                  · rename_i made
                    cases ran
                    change s.createMissingLive who path flags mode none live = _ at made
                    obtain ⟨_, kept, exact_, errors, _⟩ := createMissingLive_spec owned creates made
                    rw [errors _ rfl]
                    exact exact_
                  · rename_i node s₁ after made
                    change s.createMissingLive who path flags mode none live = _ at made
                    obtain ⟨fds, kept, exact_, _, nodes⟩ := createMissingLive_spec owned creates made
                    have left := openDescriptorLive_failed ran (failed.trans fds.symm)
                    rw [← exact_, left, nodes node rfl]
                    cases node with
                    | none => exact Iff.rfl
                    | some node => rw [Option.isSome_some, if_pos rfl, if_pos rfl, Int.add_sub_cancel]

end Opens

/-! ## All calls -/

section All

variable {Foreign : Type} {s s' : OpenFiles Foreign} {p : Nat} {who : Credentials} {live live' : Int}
  {result : BitVec 64} {op : PathOp}

/-- What is said of `sys_open` is about the calls that fail: no descriptor is made. -/
def Concerns (s s' : OpenFiles Foreign) : PathOp → Prop
  | .open _ _ _ => s'.fds = s.fds
  | _ => True

/-- The number of live blocks changes by the blocks of the entries that were made or removed; a
`sys_open` that fails leaves it as it was. -/
def Balanced (s s' : OpenFiles Foreign) (live live' : Int) : PathOp → Prop
  | .open _ _ _ => live' = live
  | _ => ∃ change, EntryChange s.tmpfs s'.tmpfs change ∧ live' = live + change

/-- The call takes a route on which everything is freed. -/
def FreesAll (s : OpenFiles Foreign) (who : Credentials) : PathOp → Prop
  | .createFile name _ => OpensNoParent s.system name
  | .mkdir name _ => MkdirEnds s.system who name
  | .symlink _ name => SymlinkEnds s.system who name
  | .unlink name => UnlinkFails s.system who name
  | .access _ => True
  | .statf path ptr => ∀ path', path = some path' → ptr = 0 ∨ s.kopen path' 0 = some none
  | .lstat path ptr => ∀ path', path = some path' → ptr = 0 ∨ s.kopen path' 0 = some none
  | .chmod _ _ => True
  | .readlink _ _ _ => True
  | .open file flags _ => ∀ path, file = some path → MakesNoFile s path flags

/-- A change that is known decides the balance. -/
theorem balance_iff {t t' : Tmpfs} {change : Int} (changed : EntryChange t t' change) :
    (∃ change, EntryChange t t' change ∧ live' = live + change) ↔ live' = live + change := by
  constructor
  · rintro ⟨other, otherChanged, total⟩
    rw [total, otherChanged.unique changed]
  · exact fun total => ⟨change, changed, total⟩

/-- A call that changes no entry. -/
theorem unchanged_iff {t t' : Tmpfs} (entries : structuresOf t' = structuresOf t) :
    (∃ change, EntryChange t t' change ∧ live' = live + change) ↔ live' = live := by
  rw [balance_iff (.same entries), Int.add_zero]

/-- `sys_chmod` makes and removes no entry. -/
theorem chmodFs_entries (s : OpenFiles Foreign) (node : OpenNode Foreign) (mode : BitVec 32) :
    structuresOf (s.chmodFs node mode).tmpfs = structuresOf s.tmpfs := by
  have known : ∀ {entry : TmpfsEntry} {t : Tmpfs}, (∀ other, Fresh t other ↔ Fresh s.tmpfs other) →
      structuresOf t = structuresOf s.tmpfs := fun same => Set.ext fun other => not_congr (same other)
  unfold OpenFiles.chmodFs
  split
  · rename_i f _
    split
    · rfl
    · rename_i file present
      apply @known (.file f)
      intro other
      cases other with
      | dir e => exact Iff.rfl
      | file g =>
          by_cases same : g = f
          · subst same
            simp [Fresh, Tmpfs.setFile, present]
          · simp [Fresh, Tmpfs.setFile, same]
  · rename_i d _
    split
    · rfl
    · rename_i dir present
      apply @known (.dir d)
      intro other
      cases other with
      | file g => exact Iff.rfl
      | dir e =>
          by_cases same : e = d
          · subst same
            simp [Fresh, Tmpfs.setDir, present]
          · simp [Fresh, Tmpfs.setDir, same]
  · rfl

/-- `sys_statf` and `sys_lstat` keep the node that they report. -/
theorem sysStatfLive_spec {path : Option CString} {ptr : BitVec 64}
    (ran : s.sysStatfLive path ptr live = some (result, live')) :
    live' = live ↔ ∀ path', path = some path' → ptr = 0 ∨ s.kopen path' 0 = some none := by
  unfold OpenFiles.sysStatfLive at ran
  cases path with
  | none =>
      cases ran
      exact iff_of_true rfl (by simp)
  | some path =>
      dsimp only at ran
      split at ran
      · rename_i isNull
        cases ran
        exact iff_of_true rfl fun _ _ => Or.inl isNull
      rename_i notNull
      rw [openFiles_kopenLive, Option.map_map] at ran
      obtain ⟨node, opened, same⟩ := Option.map_eq_some_iff.mp ran
      cases node with
      | none =>
          cases same
          exact iff_of_true rfl fun path' same => Or.inr (Option.some.inj same ▸ opened)
      | some node =>
          have kept : live' = live + 1 := (congrArg Prod.snd same).symm
          refine iff_of_false ?_ fun all => ?_
          · omega
          · rcases all path rfl with isNull | missing
            · exact notNull isNull
            · rw [opened] at missing
              cases missing

/-- `sys_access` frees the node that it finds. -/
theorem sysAccessLive_spec {path : Option CString} (ran : s.sysAccessLive path live = some (result, live')) :
    live' = live := by
  unfold OpenFiles.sysAccessLive at ran
  cases path with
  | none =>
      cases ran
      rfl
  | some path =>
      dsimp only at ran
      rw [openFiles_kopenLive, Option.map_map] at ran
      obtain ⟨node, _, same⟩ := Option.map_eq_some_iff.mp ran
      cases node with
      | none =>
          cases same
          rfl
      | some node =>
          cases same
          exact Int.add_sub_cancel live 1

/-- `sys_readlink` frees the node that it finds. -/
theorem sysReadlinkLive_spec {path : Option CString} {valid : Bool} {answer : BitVec 64}
    (ran : s.sysReadlinkLive path valid answer live = some (result, live')) : live' = live := by
  unfold OpenFiles.sysReadlinkLive at ran
  split at ran
  · cases ran
    rfl
  cases path with
  | none =>
      cases ran
      rfl
  | some path =>
      dsimp only at ran
      rw [openFiles_kopenLive, Option.map_map] at ran
      obtain ⟨node, _, same⟩ := Option.map_eq_some_iff.mp ran
      cases node with
      | none =>
          cases same
          rfl
      | some node =>
          cases same
          exact Int.add_sub_cancel live 1

/-- `sys_chmod` frees the node that it finds, whether it may change it or not. -/
theorem sysChmodLive_spec {path : Option CString} {mode : BitVec 64}
    (ran : s.sysChmodLive who path mode live = some ((result, s'), live')) :
    live' = live ∧ structuresOf s'.tmpfs = structuresOf s.tmpfs := by
  unfold OpenFiles.sysChmodLive at ran
  cases path with
  | none =>
      cases ran
      exact ⟨rfl, rfl⟩
  | some path =>
      dsimp only at ran
      rw [openFiles_kopenLive, Option.map_map] at ran
      obtain ⟨node, _, same⟩ := Option.map_eq_some_iff.mp ran
      cases node with
      | none =>
          cases same
          exact ⟨rfl, rfl⟩
      | some node =>
          rw [Function.comp_apply] at same
          dsimp only at same
          split at same
          · cases same
            exact ⟨Int.add_sub_cancel live 1, rfl⟩
          · cases same
            exact ⟨Int.add_sub_cancel live 1, chmodFs_entries s node _⟩

/-- Every call on a path leaves the number of live blocks as it should be exactly if it takes a route on which
everything is freed. -/
theorem path_blocks_iff (reachable : Tmpfs.Reachable s.tmpfs)
    (ran : op.run s p who live = some ((result, s'), live')) (concerns : Concerns s s' op) :
    Balanced s s' live live' op ↔ FreesAll s who op := by
  have owned : Tmpfs.Owned s.system.tmpfs := reachable.sound.owned
  cases op with
  | createFile name mode =>
      obtain ⟨⟨⟨code, t⟩, after⟩, called, same⟩ := Option.map_eq_some_iff.mp ran
      cases same
      obtain ⟨change, changed, _, kept⟩ := createFileLive_spec owned (Option.join_eq_some_iff.mp called)
      refine (balance_iff changed).trans ?_
      rcases kept with ⟨noParent, rfl, rfl⟩ | ⟨hasParent, more⟩
      · exact iff_of_true (Int.add_zero _).symm noParent
      · exact iff_of_false (by omega) hasParent
  | mkdir name mode =>
      obtain ⟨⟨⟨code, t⟩, after⟩, called, same⟩ := Option.map_eq_some_iff.mp ran
      cases same
      obtain ⟨change, changed, kept⟩ := mkdirLive_spec owned (Option.join_eq_some_iff.mp called)
      exact (balance_iff changed).trans kept
  | symlink target name =>
      obtain ⟨⟨⟨code, t⟩, after⟩, called, same⟩ := Option.map_eq_some_iff.mp ran
      cases same
      obtain ⟨change, changed, kept⟩ := symlinkLive_spec owned (Option.join_eq_some_iff.mp called)
      exact (balance_iff changed).trans kept
  | unlink name =>
      obtain ⟨⟨⟨code, t⟩, after⟩, called, same⟩ := Option.map_eq_some_iff.mp ran
      cases same
      obtain ⟨change, changed, kept⟩ := unlinkLive_spec (Option.join_eq_some_iff.mp called)
      exact (balance_iff changed).trans kept
  | access path =>
      obtain ⟨⟨code, after⟩, called, same⟩ := Option.map_eq_some_iff.mp ran
      cases same
      exact (unchanged_iff rfl).trans (iff_of_true (sysAccessLive_spec called) trivial)
  | statf path ptr =>
      obtain ⟨⟨code, after⟩, called, same⟩ := Option.map_eq_some_iff.mp ran
      cases same
      exact (unchanged_iff rfl).trans (sysStatfLive_spec called)
  | lstat path ptr =>
      obtain ⟨⟨code, after⟩, called, same⟩ := Option.map_eq_some_iff.mp ran
      cases same
      exact (unchanged_iff rfl).trans (sysStatfLive_spec called)
  | chmod path mode =>
      obtain ⟨kept, entries⟩ := sysChmodLive_spec ran
      exact (unchanged_iff entries).trans (iff_of_true kept trivial)
  | readlink path valid answer =>
      obtain ⟨⟨code, after⟩, called, same⟩ := Option.map_eq_some_iff.mp ran
      cases same
      exact (unchanged_iff rfl).trans (iff_of_true (sysReadlinkLive_spec called) trivial)
  | «open» file flags mode => exact sysOpenLive_failed owned ran concerns

end All

/-- A new tmpfs on which a call is made whose parent may be written. -/
theorem newRoot_call {op : PathOp} {name : CString}
    (completes : ((Tmpfs.tmpfsCreate freeMemory (fun _ => 0) []).bind fun start =>
      Run.exec (fun t call => if TmpfsCall.check 0 t call then call.step t else none) start []).any (fun t =>
        (op.run (noneOpen t) 1 ⟨0, 0⟩ 0).any (fun done => done.1.1 == 0) &&
        ((noneOpen t).system.vfs.kopen name true).join.any fun parent =>
          checkPermission ⟨0, 0⟩ parent.attributes 0o2) = true) :
    ∃ t s' live', Tmpfs.Reachable t ∧ op.run (noneOpen t) 1 ⟨0, 0⟩ 0 = some ((0, s'), live') ∧
      ∃ parent, (noneOpen t).system.vfs.kopen name true = some (some parent) ∧
        checkPermission ⟨0, 0⟩ parent.attributes 0o2 = true := by
  obtain ⟨t, reachable, facts⟩ := Tmpfs.Reachable.of_checked completes
  rw [Bool.and_eq_true] at facts
  obtain ⟨⟨⟨result, s'⟩, live'⟩, ran, zero⟩ := (Option.any_eq_true _ _).mp facts.1
  obtain ⟨parent, opened, granted⟩ := (Option.any_eq_true _ _).mp facts.2
  have isZero : result = 0 := eq_of_beq zero
  subst isZero
  exact ⟨t, s', live', reachable, ran, parent, Option.join_eq_some_iff.mp opened, granted⟩

/-- A link is made: exactly its blocks are live afterwards. -/
theorem path_blocks_iff_example : ∃ t s' live', Tmpfs.Reachable t ∧
    (PathOp.symlink [98] [slash, 97]).run (noneOpen t) 1 ⟨0, 0⟩ 0 = some ((0, s'), live') ∧
    Balanced (noneOpen t) s' 0 live' (.symlink [98] [slash, 97]) := by
  obtain ⟨t, s', live', reachable, ran, parent, opened, granted⟩ :=
    @newRoot_call (.symlink [98] [slash, 97]) [slash, 97] (by decide +kernel)
  exact ⟨t, s', live', reachable, ran,
    (path_blocks_iff reachable ran trivial).mpr (Or.inr (Or.inr ⟨parent, opened, granted⟩))⟩

/-- A file is made: the node of its directory is live afterwards. -/
theorem create_keeps_parent : ∃ t s' live', Tmpfs.Reachable t ∧
    (PathOp.createFile [slash, 97] 0o644).run (noneOpen t) 1 ⟨0, 0⟩ 0 = some ((0, s'), live') ∧
    ¬ Balanced (noneOpen t) s' 0 live' (.createFile [slash, 97] 0o644) := by
  obtain ⟨t, s', live', reachable, ran, parent, opened, _⟩ :=
    @newRoot_call (.createFile [slash, 97] 0o644) [slash, 97] (by decide +kernel)
  refine ⟨t, s', live', reachable, ran, fun balanced => ?_⟩
  obtain ⟨⟨⟨code, t'⟩, after⟩, called, same⟩ := Option.map_eq_some_iff.mp ran
  rw [Prod.mk.injEq, Prod.mk.injEq] at same
  obtain ⟨⟨_, rfl⟩, rfl⟩ := same
  obtain ⟨change, changed, _, kept⟩ :=
    createFileLive_spec (s := (noneOpen t).system) reachable.sound.owned (Option.join_eq_some_iff.mp called)
  have total := (balance_iff changed).mp balanced
  rcases kept with ⟨empty | isRoot | missing, _⟩ | ⟨_, more⟩
  · cases empty
  · cases isRoot
  · rw [opened] at missing
    cases missing
  · omega

end Voxel.Proofs
