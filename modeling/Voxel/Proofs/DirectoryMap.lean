/-
Module: Voxel.Proofs.DirectoryMap
Layer: Proofs
Purpose: A tmpfs directory is a finite map. A run is followed by a record of the structure that was last
  made under every name; the entries, `finddir_tmpfs` and `readdir_tmpfs` agree with this record in
  every state that is reached.
Trusted boundary: none
Main exports: Bindings, TmpfsCall.perform, TmpfsCall.record, Tracked, DirectoryIsMap,
  unlinkTmpfs_cases, Tmpfs.Reachable.bound, tmpfs_directory_is_map
-/
import Voxel.Proofs.TmpfsAdds
import Voxel.Lib.NamedList

namespace Voxel.Proofs

open Voxel.Lib Voxel.Kernel

/-! ## The record of a run -/

/-- The structure that was last made under a name of a directory, if it was not unlinked since. -/
abbrev Bindings := Nat → CString → Option TmpfsEntry

/-- One name of one directory gets a new binding. -/
def rebind (bindings : Bindings) (d : Nat) (name : CString) (entry : Option TmpfsEntry) : Bindings :=
  Function.update bindings d (Function.update (bindings d) name entry)

/-- The result of a call and the state after it. -/
def TmpfsCall.perform (t : Tmpfs) : TmpfsCall → Option (Int × Tmpfs)
  | .create who d name mode => t.createTmpfs who d name mode
  | .symlink who d target name => t.symlinkTmpfs who d target name
  | .mkdir who d name mode => t.mkdirTmpfs who d name mode
  | .write f offset size buffer => (t.writeTmpfs f offset size buffer).map fun done => (done.1, done.2)
  | .truncate f => t.truncateTmpfs f
  | .unlink d name => t.unlinkTmpfs d name

/-- The record after a call with a result: a call that succeeds binds the pointer that
`tmpfs_new_file` or `tmpfs_new_dir` returned, or takes a binding away. -/
def TmpfsCall.record (t : Tmpfs) (result : Int) (bindings : Bindings) : TmpfsCall → Bindings
  | .create _ d name _ =>
      if result = 0 then rebind bindings d name ((t.newFile name).map fun new => .file new.1)
      else bindings
  | .symlink _ d _ name =>
      if result = 0 then rebind bindings d name ((t.newFile name).map fun new => .file new.1)
      else bindings
  | .mkdir _ d name _ =>
      if result = 0 then rebind bindings d name ((t.newDir name).map fun new => .dir new.1)
      else bindings
  | .unlink d name => if result = 0 then rebind bindings d name none else bindings
  | .write _ _ _ _ => bindings
  | .truncate _ => bindings

/-- A state and the record of the run that led to it. -/
structure Tracked where
  tmpfs : Tmpfs
  bindings : Bindings

/-- A call, and its entry in the record. -/
def Tracked.step (s : Tracked) (call : TmpfsCall) : Option Tracked :=
  (call.perform s.tmpfs).map fun done => ⟨done.2, call.record s.tmpfs done.1 s.bindings⟩

/-- The call creates, makes, links or unlinks a name. -/
def TmpfsCall.OnDirectory : TmpfsCall → Prop
  | .write _ _ _ _ => False
  | .truncate _ => False
  | _ => True

/-- The names fit into the records of 256 bytes that the readers fill. -/
def TmpfsCall.ShortName : TmpfsCall → Prop
  | .create _ _ name _ => name.length ≤ 255
  | .symlink _ _ _ name => name.length ≤ 255
  | .mkdir _ _ name _ => name.length ≤ 255
  | .unlink _ name => name.length ≤ 255
  | _ => True

instance (call : TmpfsCall) : Decidable call.ShortName :=
  match call with
  | .create _ _ name _ => inferInstanceAs (Decidable (name.length ≤ 255))
  | .symlink _ _ _ name => inferInstanceAs (Decidable (name.length ≤ 255))
  | .mkdir _ _ name _ => inferInstanceAs (Decidable (name.length ≤ 255))
  | .unlink _ name => inferInstanceAs (Decidable (name.length ≤ 255))
  | .write _ _ _ _ => inferInstanceAs (Decidable True)
  | .truncate _ => inferInstanceAs (Decidable True)

/-- The entries of a directory that are not in its array. -/
def ownEntries (t : Tmpfs) (d : Nat) : List CString :=
  if d = t.tmpfsRoot then [] else [Tmpfs.dot, Tmpfs.dotDot]

/-- A directory agrees with the record: its entries have different names and fit into its array,
`finddir_tmpfs` finds what was last made under a name, `readdir_tmpfs` with `0, 1, 2, …` lists every
name of the record once behind the directory's own entries and then returns 0, and a call on
directories that fails changes nothing. -/
structure DirectoryIsMap (s : Tracked) (d : Nat) (dir : TmpfsDir) : Prop where
  distinct : (dir.files.map s.tmpfs.entryName).Nodup
  capacity : dir.files.length ≤ dir.filesCapacity
  finddir : ∀ name, s.tmpfs.finddirTmpfs d name = s.bindings d name
  readdir : ∃ names : List CString, names.Nodup ∧
    (∀ name, name ∈ names ↔ (s.bindings d name).isSome) ∧
    ∀ index, s.tmpfs.readdirTmpfs d index = (ownEntries s.tmpfs d ++ names)[index]?
  failing : ∀ (call : TmpfsCall) (result : Int) (t : Tmpfs), call.OnDirectory →
    call.perform s.tmpfs = some (result, t) → result ≠ 0 → t = s.tmpfs

/-! ## The invariant -/

theorem findEntry_eq (t : Tmpfs) (dir : TmpfsDir) (name : CString) :
    t.findEntry dir name = NamedList.find t.entryName dir.files name :=
  rfl

/-- The entries of every directory are the record of that directory, and the arrays have room. -/
structure Tmpfs.Bound (t : Tmpfs) (bindings : Bindings) : Prop where
  distinct : ∀ d dir, t.dirs d = some dir → NamedList.Distinct t.entryName dir.files
  found : ∀ d dir, t.dirs d = some dir → NamedList.find t.entryName dir.files = bindings d
  absent : ∀ d, t.dirs d = none → bindings d = fun _ => none
  roomy : Roomy t

/-- Nothing happens to the directories and the names. -/
theorem Tmpfs.Bound.same {t t' : Tmpfs} {bindings : Bindings} (bound : Tmpfs.Bound t bindings)
    (dirs : t'.dirs = t.dirs) (names : t'.entryName = t.entryName) : Tmpfs.Bound t' bindings where
  distinct := by
    rw [dirs, names]
    exact bound.distinct
  found := by
    rw [dirs, names]
    exact bound.found
  absent := by
    rw [dirs]
    exact bound.absent
  roomy := by
    unfold Roomy
    rw [dirs]
    exact bound.roomy

/-- A file changes but keeps its name. -/
theorem entryName_setFile {t t' : Tmpfs} {f : Nat} {file file' : TmpfsFile}
    (present : t.files f = some file) (files : t'.files = Function.update t.files f (some file'))
    (dirs : t'.dirs = t.dirs) (name : file'.name = file.name) : t'.entryName = t.entryName := by
  funext entry
  cases entry with
  | file g =>
      rw [Tmpfs.entryName, Tmpfs.entryName, files]
      by_cases same : g = f
      · rw [same, Function.update_self, present, Option.map_some, Option.map_some, name]
      · rw [Function.update_of_ne same]
  | dir e => rw [Tmpfs.entryName, Tmpfs.entryName, dirs]

/-- One structure is added under a name. -/
theorem Tmpfs.Bound.adds {t t' : Tmpfs} {bindings : Bindings} {d : Nat} {name : CString}
    {made : Option TmpfsEntry} {result : Int} (bound : Tmpfs.Bound t bindings)
    (adds : Adds t d name made result t') :
    Tmpfs.Bound t' (if result = 0 then rebind bindings d name made else bindings) := by
  obtain ⟨dir, present, ⟨_, failed, rfl⟩ | ⟨new, rfl, roomy, entry, rfl, _, added, fresh, named⟩⟩ := adds
  · rw [if_neg failed]
    exact bound
  rw [if_pos rfl, rebind]
  have kept := added.kept present fresh
  -- the entries that were listed before keep their names
  have names : ∀ e other, t.dirs e = some other → ∀ old ∈ other.files,
      t'.entryName old = t.entryName old := by
    intro e other here old member
    obtain ⟨oldName, oldNamed⟩ := (bound.distinct e other here).named old member
    rw [kept.entryName oldNamed, oldNamed]
  have newHere : NamedList.find t'.entryName dir.files name = none := by
    rw [NamedList.find_congr (names d dir present)]
    exact new
  have ownDistinct := (bound.distinct d dir present).congr (names d dir present)
  -- what a directory of the new state was before
  have origin : ∀ e other, t'.dirs e = some other →
      (e = d ∧ other.files = dir.files ++ [entry]) ∨
      (e ≠ d ∧ other.files = [] ∧ t.dirs e = none) ∨ (e ≠ d ∧ t.dirs e = some other) := by
    intro e other here
    by_cases parent : e = d
    · subst parent
      obtain ⟨dir', after, files, _⟩ := added.parent
      cases after.symm.trans here
      exact Or.inl ⟨rfl, files⟩
    · by_cases isNew : .dir e = entry
      · obtain ⟨newDir, there, noFiles⟩ := added.newDir e isNew
        cases there.symm.trans here
        refine Or.inr (Or.inl ⟨parent, noFiles, ?_⟩)
        subst isNew
        exact fresh
      · rw [added.otherDirs e parent isNew] at here
        exact Or.inr (Or.inr ⟨parent, here⟩)
  refine ⟨?_, ?_, ?_, roomy bound.roomy⟩
  · intro e other here
    rcases origin e other here with ⟨rfl, files⟩ | ⟨_, files, _⟩ | ⟨_, before⟩
    · rw [files]
      exact ownDistinct.append newHere named
    · rw [files]
      exact .nil
    · exact (bound.distinct e other before).congr (names e other before)
  · intro e other here
    rcases origin e other here with ⟨rfl, files⟩ | ⟨parent, files, before⟩ | ⟨parent, before⟩
    · rw [files, NamedList.find_append newHere named, Function.update_self]
      congr 1
      funext old
      rw [NamedList.find_congr (names e dir present), bound.found e dir present]
    · rw [Function.update_of_ne parent, files, bound.absent e before]
      rfl
    · rw [Function.update_of_ne parent, ← bound.found e other before]
      funext old
      exact NamedList.find_congr (names e other before) old
  · intro e gone
    have notParent : e ≠ d := by
      rintro rfl
      obtain ⟨dir', after, _⟩ := added.parent
      rw [gone] at after
      cases after
    rw [Function.update_of_ne notParent]
    refine bound.absent e ?_
    cases before : t.dirs e with
    | none => rfl
    | some other =>
        have still := kept.dirs e other notParent before
        rw [gone] at still
        cases still

/-- What `unlink_tmpfs` does: nothing, or one file and its entry go away. -/
theorem unlinkTmpfs_cases {t t' : Tmpfs} {d : Nat} {name : CString} {result : Int}
    (unlinked : t.unlinkTmpfs d name = some (result, t')) :
    ∃ dir, t.dirs d = some dir ∧
      ((t.findEntry dir name = none ∧ result = negNoent ∧ t' = t) ∨
        (∃ e, t.findEntry dir name = some (.dir e) ∧ result = negNotempty ∧ t' = t) ∨
        ∃ f file, t.findEntry dir name = some (.file f) ∧ t.files f = some file ∧ result = 0 ∧
          t'.files = Function.update t.files f none ∧
          t'.dirs = Function.update t.dirs d (some { dir with files := dir.files.erase (.file f) }) ∧
          t'.phys = t.phys) := by
  unfold Tmpfs.unlinkTmpfs at unlinked
  split at unlinked
  · cases unlinked
  rename_i dir present
  refine ⟨dir, present, ?_⟩
  split at unlinked
  · rename_i missing
    cases unlinked
    exact Or.inl ⟨missing, rfl, rfl⟩
  · rename_i e found
    cases unlinked
    exact Or.inr (Or.inl ⟨e, found, rfl, rfl⟩)
  rename_i f found
  split at unlinked
  · cases unlinked
  rename_i file here
  cases unlinked
  obtain ⟨m, shape, _⟩ := freeFile_spec t file
  refine Or.inr (Or.inr ⟨f, file, found, here, rfl, ?_, ?_, ?_⟩)
  · simp only [setDir_files, shape]
  · simp only [setDir_dirs, shape]
  · rw [shape]
    rfl

/-- Where a file is unlinked, the entries that stay keep their names, in its directory and in the others. -/
theorem unlink_entryName {t t' : Tmpfs} {bindings : Bindings} {d f : Nat} {dir : TmpfsDir} {name : CString}
    (sound : Tmpfs.Sound t) (bound : Tmpfs.Bound t bindings) (present : t.dirs d = some dir)
    (found : t.findEntry dir name = some (.file f))
    (files : t'.files = Function.update t.files f none)
    (dirs : t'.dirs = Function.update t.dirs d (some { dir with files := dir.files.erase (.file f) })) :
    (∀ entry ∈ dir.files.erase (.file f), t'.entryName entry = t.entryName entry) ∧
      ∀ e other, e ≠ d → t.dirs e = some other → ∀ entry ∈ other.files,
        t'.entryName entry = t.entryName entry := by
  rw [findEntry_eq] at found
  have distinct := bound.distinct d dir present
  have member := (distinct.find_eq_some.mp found).1
  have names : ∀ entry, entry ≠ .file f → t'.entryName entry = t.entryName entry := by
    intro entry different
    cases entry with
    | file g =>
        rw [Tmpfs.entryName, Tmpfs.entryName, files,
          Function.update_of_ne fun same => different (by rw [same])]
    | dir e =>
        rw [Tmpfs.entryName, Tmpfs.entryName, dirs]
        by_cases same : e = d
        · rw [same, Function.update_self, present]
          rfl
        · rw [Function.update_of_ne same]
  constructor
  · intro entry inRest
    exact names entry (distinct.nodup.of_map.mem_erase_iff.mp inRest).1
  · -- no other directory lists the file
    intro e other different here entry inOther
    refine names entry ?_
    rintro rfl
    exact different (sound.placed f e other d dir here present inOther member)

/-- A file is unlinked. -/
theorem Tmpfs.Bound.unlink {t t' : Tmpfs} {bindings : Bindings} {d : Nat} {name : CString} {result : Int}
    (sound : Tmpfs.Sound t) (bound : Tmpfs.Bound t bindings)
    (unlinked : t.unlinkTmpfs d name = some (result, t')) :
    Tmpfs.Bound t' (if result = 0 then rebind bindings d name none else bindings) := by
  obtain ⟨dir, present, ⟨_, rfl, rfl⟩ | ⟨_, _, rfl, rfl⟩ | ⟨f, file, found, _, rfl, files, dirs, _⟩⟩ :=
    unlinkTmpfs_cases unlinked
  · rw [if_neg (by decide)]
    exact bound
  · rw [if_neg (by decide)]
    exact bound
  rw [if_pos rfl, rebind]
  obtain ⟨rest, others⟩ := unlink_entryName sound bound present found files dirs
  rw [findEntry_eq] at found
  have distinct := bound.distinct d dir present
  have origin : ∀ e other, t'.dirs e = some other →
      (e = d ∧ other = { dir with files := dir.files.erase (.file f) }) ∨
      (e ≠ d ∧ t.dirs e = some other) := by
    intro e other here
    rw [dirs] at here
    by_cases parent : e = d
    · rw [parent, Function.update_self] at here
      exact Or.inl ⟨parent, (Option.some.inj here).symm⟩
    · rw [Function.update_of_ne parent] at here
      exact Or.inr ⟨parent, here⟩
  refine ⟨?_, ?_, ?_, ?_⟩
  · intro e other here
    rcases origin e other here with ⟨_, rfl⟩ | ⟨parent, before⟩
    · exact (distinct.erase _).congr rest
    · exact (bound.distinct e other before).congr (others e other parent before)
  · intro e other here
    rcases origin e other here with ⟨rfl, rfl⟩ | ⟨parent, before⟩
    · rw [Function.update_self, ← bound.found e dir present, ← distinct.find_erase found]
      funext old
      exact NamedList.find_congr rest old
    · rw [Function.update_of_ne parent, ← bound.found e other before]
      funext old
      exact NamedList.find_congr (others e other parent before) old
  · intro e gone
    rw [dirs] at gone
    by_cases parent : e = d
    · rw [parent, Function.update_self] at gone
      cases gone
    · rw [Function.update_of_ne parent] at gone ⊢
      exact bound.absent e gone
  · intro e other here
    rcases origin e other here with ⟨_, rfl⟩ | ⟨_, before⟩
    · exact Nat.le_trans List.erase_sublist.length_le (bound.roomy d dir present)
    · exact bound.roomy e other before

/-! ## Runs -/

/-- Performing a call and taking its step are the same. -/
theorem TmpfsCall.step_of_perform {t t' : Tmpfs} {call : TmpfsCall} {result : Int}
    (performed : call.perform t = some (result, t')) : call.step t = some t' := by
  cases call with
  | write f offset size buffer =>
      obtain ⟨done, wrote, same⟩ := Option.map_eq_some_iff.mp performed
      cases same
      exact Option.map_eq_some_iff.mpr ⟨done, wrote, rfl⟩
  | create | symlink | mkdir | truncate | unlink =>
      exact Option.map_eq_some_iff.mpr ⟨(result, t'), performed, rfl⟩

theorem TmpfsCall.perform_of_step {t t' : Tmpfs} {call : TmpfsCall} (stepped : call.step t = some t') :
    ∃ result, call.perform t = some (result, t') := by
  cases call with
  | write f offset size buffer =>
      obtain ⟨done, wrote, rfl⟩ := Option.map_eq_some_iff.mp stepped
      exact ⟨done.1, Option.map_eq_some_iff.mpr ⟨done, wrote, rfl⟩⟩
  | create | symlink | mkdir | truncate | unlink =>
      obtain ⟨done, performed, rfl⟩ := Option.map_eq_some_iff.mp stepped
      exact ⟨done.1, performed⟩

/-- Every call keeps the record true. -/
theorem Tmpfs.Bound.perform {t t' : Tmpfs} {bindings : Bindings} {call : TmpfsCall} {result : Int}
    (sound : Tmpfs.Sound t) (bound : Tmpfs.Bound t bindings) (allowed : call.Allowed t)
    (performed : call.perform t = some (result, t')) :
    Tmpfs.Bound t' (call.record t result bindings) := by
  cases call with
  | create who d name mode => exact bound.adds (createTmpfs_adds sound.owned performed)
  | symlink who d target name => exact bound.adds (symlinkTmpfs_adds sound.owned performed)
  | mkdir who d name mode =>
      by_cases empty : name = []
      · change t.mkdirTmpfs who d name mode = some (result, t') at performed
        unfold Tmpfs.mkdirTmpfs at performed
        rw [if_pos empty] at performed
        cases performed
        exact bound
      · exact bound.adds (mkdirTmpfs_adds sound.owned empty performed)
  | write f offset size buffer =>
      obtain ⟨⟨n, after⟩, wrote, same⟩ := Option.map_eq_some_iff.mp performed
      cases same
      obtain ⟨file, present⟩ := sound.linked_some allowed.1
      obtain ⟨_, file', grown, _⟩ := writeTmpfs_spec allowed.2 sound.owned present wrote
      have name : file'.name = file.name := by rw [grown.rest]
      have files : after.files = Function.update t.files f (some file') := by
        rw [grown.files, setFile_files, Function.update_idem]
      exact bound.same grown.dirs (entryName_setFile present files grown.dirs name)
  | truncate f =>
      obtain ⟨file, present⟩ := sound.linked_some allowed
      change t.truncateTmpfs f = some (result, t') at performed
      unfold Tmpfs.truncateTmpfs at performed
      rw [present] at performed
      cases performed
      obtain ⟨⟨m, shape⟩, _⟩ := releaseBlocks_spec t file.blocks
      rw [shape]
      exact bound.same rfl (entryName_setFile present rfl rfl rfl)
  | unlink d name => exact bound.unlink sound performed

/-- A call on directories that fails changes nothing. -/
theorem TmpfsCall.perform_failed {t t' : Tmpfs} {call : TmpfsCall} {result : Int}
    (sound : Tmpfs.Sound t) (onDirectory : call.OnDirectory)
    (performed : call.perform t = some (result, t')) (failed : result ≠ 0) : t' = t := by
  have ofAdds : ∀ {d name made}, Adds t d name made result t' → t' = t := by
    rintro d name made ⟨_, _, ⟨_, _, same⟩ | ⟨_, succeeded, _⟩⟩
    · exact same
    · exact absurd succeeded failed
  cases call with
  | create who d name mode => exact ofAdds (createTmpfs_adds sound.owned performed)
  | symlink who d target name => exact ofAdds (symlinkTmpfs_adds sound.owned performed)
  | mkdir who d name mode =>
      by_cases empty : name = []
      · change t.mkdirTmpfs who d name mode = some (result, t') at performed
        unfold Tmpfs.mkdirTmpfs at performed
        rw [if_pos empty] at performed
        cases performed
        rfl
      · exact ofAdds (mkdirTmpfs_adds sound.owned empty performed)
  | write f offset size buffer => exact onDirectory.elim
  | truncate f => exact onDirectory.elim
  | unlink d name =>
      obtain ⟨_, _, ⟨_, _, same⟩ | ⟨_, _, _, same⟩ | ⟨_, _, _, _, succeeded, _⟩⟩ :=
        unlinkTmpfs_cases performed
      · exact same
      · exact same
      · exact absurd succeeded failed

/-- `readdir_tmpfs` walks through the directory's own entries and then through the array. -/
theorem readdirTmpfs_eq {t : Tmpfs} {d : Nat} {dir : TmpfsDir} (present : t.dirs d = some dir)
    (distinct : NamedList.Distinct t.entryName dir.files) (index : Nat) :
    t.readdirTmpfs d index = (ownEntries t d ++ NamedList.names t.entryName dir.files)[index]? := by
  have listed := distinct.names_getElem?
  rw [Tmpfs.readdirTmpfs, present]
  dsimp only
  unfold ownEntries
  by_cases root : d = t.tmpfsRoot
  · rw [if_neg (by simpa using root), if_pos root, List.nil_append, listed]
  · rw [if_pos root, if_neg root]
    rcases index with _ | _ | index
    · rfl
    · rfl
    · exact (listed index).symm

/-- A new tmpfs agrees with the empty record. -/
theorem tmpfsCreate_bound {frames : FrameMap} {phys : Nat → BitVec 8} {name : CString} {t : Tmpfs}
    (created : Tmpfs.tmpfsCreate frames phys name = some t) :
    Tmpfs.Bound t fun _ _ => none := by
  unfold Tmpfs.tmpfsCreate at created
  split at created
  · cases created
  rename_i root rootDir t₁ made
  obtain ⟨m, rfl, new, _⟩ := newDir_spec made
  cases created
  have empty : ∀ d dir,
      Function.update (fun _ => none) root (some { rootDir with mask := 0o777 }) d = some dir →
        dir.files = [] := by
    intro d dir here
    by_cases same : d = root
    · rw [same, Function.update_self] at here
      cases here
      exact new.files
    · rw [Function.update_of_ne same] at here
      cases here
  refine ⟨?_, ?_, fun _ _ => rfl, ?_⟩
  · intro d dir here
    rw [empty d dir here]
    exact .nil
  · intro d dir here
    rw [empty d dir here]
    rfl
  · intro d dir here
    rw [empty d dir here]
    exact Nat.zero_le _

/-- Every reachable state has a record. -/
theorem Tmpfs.Reachable.bound {t : Tmpfs} (reachable : Tmpfs.Reachable t) :
    ∃ bindings, Tmpfs.Bound t bindings := by
  obtain ⟨_, _, _, _, _, created, run⟩ := reachable
  have both := @Run.invariant _ _ _ _ (fun t => Tmpfs.Sound t ∧ ∃ bindings, Tmpfs.Bound t bindings)
    (fun t call t' allowed stepped holds => by
      obtain ⟨sound, bindings, bound⟩ := holds
      obtain ⟨result, performed⟩ := TmpfsCall.perform_of_step stepped
      exact ⟨sound.step allowed stepped, _, bound.perform sound allowed performed⟩)
    _ _ _ run ⟨tmpfsCreate_sound created, _, tmpfsCreate_bound created⟩
  exact both.2

/-- In every state that a run of creating, linking and unlinking calls reaches from a new tmpfs, with
writes and truncations between them, every directory is the finite map that the run has recorded. -/
theorem tmpfs_directory_is_map {frames : FrameMap} {phys : Nat → BitVec 8} {rootName : CString}
    {start : Tmpfs} {calls : List TmpfsCall} {s : Tracked}
    (created : Tmpfs.tmpfsCreate frames phys rootName = some start)
    (run : Run Tracked.step (fun s call => call.Allowed s.tmpfs ∧ call.ShortName)
      ⟨start, fun _ _ => none⟩ calls s) {d : Nat} {dir : TmpfsDir}
    (present : s.tmpfs.dirs d = some dir) : DirectoryIsMap s d dir := by
  have invariant : Tmpfs.Sound s.tmpfs ∧ Tmpfs.Bound s.tmpfs s.bindings := by
    refine @Run.invariant _ _ _ _ (fun s => Tmpfs.Sound s.tmpfs ∧ Tmpfs.Bound s.tmpfs s.bindings) ?_
      _ _ _ run ⟨tmpfsCreate_sound created, tmpfsCreate_bound created⟩
    intro s call s' allowed stepped holds
    obtain ⟨⟨result, t⟩, performed, rfl⟩ := Option.map_eq_some_iff.mp stepped
    exact ⟨holds.1.step allowed.1 (TmpfsCall.step_of_perform performed),
      holds.2.perform holds.1 allowed.1 performed⟩
  obtain ⟨sound, bound⟩ := invariant
  have distinct := bound.distinct d dir present
  refine ⟨distinct.nodup, bound.roomy d dir present, ?_, ?_, ?_⟩
  · intro name
    rw [Tmpfs.finddirTmpfs, present, Option.bind_some, findEntry_eq, bound.found d dir present]
  · refine ⟨NamedList.names s.tmpfs.entryName dir.files, distinct.names_nodup, ?_,
      readdirTmpfs_eq present distinct⟩
    intro name
    rw [distinct.mem_names, bound.found d dir present, Option.isSome_iff_exists]
  · intro call result t onDirectory performed failed
    exact call.perform_failed sound onDirectory performed failed

/-- A file, a link and a directory are made in a new root directory; the file is unlinked and made again. -/
theorem tmpfs_directory_is_map_example : ∃ s dir,
    ((Tmpfs.tmpfsCreate freeMemory (fun _ => 0) []).bind fun start =>
      Run.exec Tracked.step ⟨start, fun _ _ => none⟩
        [.create ⟨0, 0⟩ 0 [97] 0o644, .symlink ⟨0, 0⟩ 0 [97] [98], .mkdir ⟨0, 0⟩ 0 [99] 0o755,
          .unlink 0 [97], .create ⟨0, 0⟩ 0 [97] 0o600]) = some s ∧
    s.tmpfs.dirs 0 = some dir ∧ dir.files.length = 3 ∧ DirectoryIsMap s 0 dir := by
  have completes : (((Tmpfs.tmpfsCreate freeMemory (fun _ => 0) []).bind fun start =>
      Run.exec (fun s call => if TmpfsCall.check 0 s.tmpfs call && decide call.ShortName then
          Tracked.step s call else none) ⟨start, fun _ _ => none⟩
        [.create ⟨0, 0⟩ 0 [97] 0o644, .symlink ⟨0, 0⟩ 0 [97] [98], .mkdir ⟨0, 0⟩ 0 [99] 0o755,
          .unlink 0 [97], .create ⟨0, 0⟩ 0 [97] 0o600]).any fun s =>
      (s.tmpfs.dirs 0).any fun dir => dir.files.length = 3) = true := by
    decide +kernel
  obtain ⟨s, ran, facts⟩ := (Option.any_eq_true _ _).mp completes
  obtain ⟨start, created, executed⟩ := Option.bind_eq_some_iff.mp ran
  obtain ⟨dir, present, count⟩ := (Option.any_eq_true _ _).mp facts
  have checked : ∀ (s : Tracked) (call : TmpfsCall),
      (TmpfsCall.check 0 s.tmpfs call && decide call.ShortName) = true →
        call.Allowed s.tmpfs ∧ call.ShortName := by
    intro s call both
    rw [Bool.and_eq_true, decide_eq_true_eq] at both
    exact ⟨TmpfsCall.check_sound 0 s.tmpfs call both.1, both.2⟩
  have run := Run.of_checked checked executed
  exact ⟨s, dir, by rw [created]; exact run.executed, present, by simpa using count,
    tmpfs_directory_is_map created run present⟩

end Voxel.Proofs
