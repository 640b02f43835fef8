/-
Module: Voxel.Proofs.TmpfsAdds
Layer: Proofs
Purpose: What `create_tmpfs`, `mkdir_tmpfs` and `symlink_tmpfs` leave: either nothing changed, or one new
  structure is linked behind the entries of the directory. Everything that was there stays, with its
  name, and no directory lists a structure that is not there.
Trusted boundary: none
Main exports: Fresh, Kept, Added.kept, Outcome, Adds, createTmpfs_adds, mkdirTmpfs_adds, symlinkTmpfs_adds,
  Tmpfs.Reachable.named
-/
import Voxel.Proofs.TmpfsProgress

namespace Voxel.Proofs

open Voxel.Lib Voxel.Kernel

/-! ## What stays -/

/-- The structures are not there yet. -/
def Fresh (t : Tmpfs) : TmpfsEntry → Prop
  | .file f => t.files f = none
  | .dir d => t.dirs d = none

/-- Everything that was there is there, with its contents, but a directory may have got more entries. -/
structure Kept (t t' : Tmpfs) (d : Nat) : Prop where
  files : ∀ f file, t.files f = some file → t'.files f = some file ∧
    ∀ position, TmpfsFile.byteAt file t'.phys position = TmpfsFile.byteAt file t.phys position
  dirs : ∀ e dir, e ≠ d → t.dirs e = some dir → t'.dirs e = some dir
  parent : ∀ dir, t.dirs d = some dir → ∃ dir', t'.dirs d = some dir' ∧ dir'.name = dir.name

theorem Kept.refl (t : Tmpfs) (d : Nat) : Kept t t d :=
  ⟨fun _ _ present => ⟨present, fun _ => rfl⟩, fun _ _ _ present => present,
    fun dir present => ⟨dir, present, rfl⟩⟩

theorem Kept.trans {t t' t'' : Tmpfs} {d : Nat} (first : Kept t t' d) (second : Kept t' t'' d) :
    Kept t t'' d where
  files := by
    intro f file present
    obtain ⟨present', bytes⟩ := first.files f file present
    obtain ⟨present'', bytes'⟩ := second.files f file present'
    exact ⟨present'', fun position => (bytes' position).trans (bytes position)⟩
  dirs := fun e dir different present => second.dirs e dir different (first.dirs e dir different present)
  parent := by
    intro dir present
    obtain ⟨dir', present', name⟩ := first.parent dir present
    obtain ⟨dir'', present'', name'⟩ := second.parent dir' present'
    exact ⟨dir'', present'', name'.trans name⟩

/-- Entries that are added to a new directory leave its parent alone. -/
theorem Kept.below {t t' t'' : Tmpfs} {d out : Nat} (first : Kept t t' d) (second : Kept t' t'' out)
    (new : t.dirs out = none) (different : d ≠ out) : Kept t t'' d where
  files := by
    intro f file present
    obtain ⟨present', bytes⟩ := first.files f file present
    obtain ⟨present'', bytes'⟩ := second.files f file present'
    exact ⟨present'', fun position => (bytes' position).trans (bytes position)⟩
  dirs := by
    intro e dir notParent present
    refine second.dirs e dir ?_ (first.dirs e dir notParent present)
    rintro rfl
    rw [new] at present
    cases present
  parent := by
    intro dir present
    obtain ⟨dir', present', name⟩ := first.parent dir present
    exact ⟨dir', second.dirs d dir' different present', name⟩

/-- A name that is known stays. -/
theorem Kept.entryName {t t' : Tmpfs} {d : Nat} (kept : Kept t t' d) {entry : TmpfsEntry}
    {name : CString} (named : t.entryName entry = some name) : t'.entryName entry = some name := by
  cases entry with
  | file f =>
      obtain ⟨file, present, rfl⟩ := Option.map_eq_some_iff.mp named
      exact Option.map_eq_some_iff.mpr ⟨file, (kept.files f file present).1, rfl⟩
  | dir e =>
      obtain ⟨dir, present, rfl⟩ := Option.map_eq_some_iff.mp named
      by_cases same : e = d
      · subst same
        exact Option.map_eq_some_iff.mpr (kept.parent dir present)
      · exact Option.map_eq_some_iff.mpr ⟨dir, kept.dirs e dir same present, rfl⟩

theorem Kept.fresh {t t' : Tmpfs} {d : Nat} (kept : Kept t t' d) {entry : TmpfsEntry}
    (fresh : Fresh t' entry) : Fresh t entry := by
  cases entry with
  | file f =>
      cases present : t.files f with
      | none => exact present
      | some file =>
          have still := (kept.files f file present).1
          rw [show t'.files f = none from fresh] at still
          cases still
  | dir e =>
      cases present : t.dirs e with
      | none => exact present
      | some dir =>
          have gone : t'.dirs e = none := fresh
          by_cases same : e = d
          · subst same
            obtain ⟨dir', still, _⟩ := kept.parent dir present
            rw [gone] at still
            cases still
          · have still := kept.dirs e dir same present
            rw [gone] at still
            cases still

/-! ## What is added -/

/-- A new entry leaves everything else as it was. -/
theorem Added.kept {t t' : Tmpfs} {d : Nat} {dir : TmpfsDir} {entry : TmpfsEntry}
    (added : Added t t' d dir entry) (present : t.dirs d = some dir) (fresh : Fresh t entry) :
    Kept t t' d where
  files := by
    intro f file here
    refine ⟨?_, fun _ => by rw [added.phys]⟩
    rw [added.otherFiles f ?_]
    · exact here
    · rintro rfl
      rw [show t.files f = none from fresh] at here
      cases here
  dirs := by
    intro e other different here
    rw [added.otherDirs e different ?_]
    · exact here
    · rintro rfl
      rw [show t.dirs e = none from fresh] at here
      cases here
  parent := by
    intro other here
    cases present.symm.trans here
    obtain ⟨dir', present', _, name⟩ := added.parent
    exact ⟨dir', present', name⟩

/-- `finddir` finds an entry that was just added, if the others have other names. -/
theorem findEntry_added {t : Tmpfs} {dir dir' : TmpfsDir} {entry : TmpfsEntry} {name : CString}
    (others : ∀ old ∈ dir.files, t.entryName old ≠ some name) (named : t.entryName entry = some name)
    (files : dir'.files = dir.files ++ [entry]) : t.findEntry dir' name = some entry := by
  unfold Tmpfs.findEntry
  rw [files, List.find?_append, List.find?_eq_none.mpr fun old member => by simpa using others old member,
    Option.none_or, List.find?_cons_of_pos (by simpa using named)]

/-- A call for a name either fails and changes nothing, or it adds one structure with this name. -/
def Outcome (t : Tmpfs) (d : Nat) (name : CString) (result : Int) (t' : Tmpfs) : Prop :=
  ∃ dir, t.dirs d = some dir ∧
    ((t.findEntry dir name ≠ none ∧ result ≠ 0 ∧ t' = t) ∨
      (t.findEntry dir name = none ∧ result = 0 ∧
        ∃ entry, Added t t' d dir entry ∧ Fresh t entry ∧ t'.entryName entry = some name))

/-- The array of every directory has room for its entries. -/
def Roomy (t : Tmpfs) : Prop := ∀ d dir, t.dirs d = some dir → dir.files.length ≤ dir.filesCapacity

/-- A full array grows before an entry is appended. -/
theorem addEntry_roomy {t t' : Tmpfs} {d : Nat} {entry : TmpfsEntry}
    (added : t.addEntry d entry = some t') (roomy : Roomy t) : Roomy t' := by
  have others : ∀ (m : FrameMap) (dir' : TmpfsDir), dir'.files.length ≤ dir'.filesCapacity →
      Roomy ({ t with frames := m }.setDir d dir') := by
    intro m dir' fits e other here
    rw [setDir_dirs] at here
    by_cases same : e = d
    · rw [same, Function.update_self] at here
      cases here
      exact fits
    · rw [Function.update_of_ne same] at here
      exact roomy e other here
  unfold Tmpfs.addEntry at added
  split at added
  · cases added
  rename_i dir present
  have before := roomy d dir present
  split at added
  · split at added
    · cases added
    cases added
    refine others _ _ ?_
    rw [List.length_append, List.length_singleton]
    exact Nat.add_le_add before (by decide)
  · rename_i space
    cases added
    refine others t.frames _ ?_
    rw [List.length_append, List.length_singleton]
    exact Nat.lt_of_not_le space

/-- A call for a name either fails and changes nothing, or it adds the structure that was made for it. -/
def Adds (t : Tmpfs) (d : Nat) (name : CString) (made : Option TmpfsEntry) (result : Int)
    (t' : Tmpfs) : Prop :=
  ∃ dir, t.dirs d = some dir ∧
    ((t.findEntry dir name ≠ none ∧ result ≠ 0 ∧ t' = t) ∨
      (t.findEntry dir name = none ∧ result = 0 ∧ (Roomy t → Roomy t') ∧
        ∃ entry, made = some entry ∧ (∀ f file, entry = .file f → t'.files f = some file → file.blocks = []) ∧
          Added t t' d dir entry ∧ Fresh t entry ∧ t'.entryName entry = some name))

theorem Adds.outcome {t t' : Tmpfs} {d : Nat} {name : CString} {made : Option TmpfsEntry} {result : Int}
    (adds : Adds t d name made result t') : Outcome t d name result t' := by
  obtain ⟨dir, present, failed | ⟨new, done, _, entry, _, _, facts⟩⟩ := adds
  · exact ⟨dir, present, Or.inl failed⟩
  · exact ⟨dir, present, Or.inr ⟨new, done, entry, facts⟩⟩

/-- What was there before stays. -/
theorem Adds.kept {t t' : Tmpfs} {d : Nat} {name : CString} {made : Option TmpfsEntry} {result : Int}
    (adds : Adds t d name made result t') : Kept t t' d := by
  obtain ⟨dir, present, ⟨_, _, rfl⟩ | ⟨_, _, _, entry, _, _, added, fresh, _⟩⟩ := adds
  · exact .refl _ d
  · exact added.kept present fresh

/-- A file that was not there before has no blocks. -/
theorem Adds.newBlocks {t t' : Tmpfs} {d f : Nat} {name : CString} {made : Option TmpfsEntry} {result : Int}
    {file : TmpfsFile} (adds : Adds t d name made result t') (absent : t.files f = none)
    (present : t'.files f = some file) : file.blocks = [] := by
  obtain ⟨dir, _, ⟨_, _, rfl⟩ | ⟨_, _, _, entry, _, noBlocks, added, _, _⟩⟩ := adds
  · rw [absent] at present
    cases present
  · by_cases isNew : .file f = entry
    · exact noBlocks f file isNew.symm present
    · rw [added.otherFiles f isNew, absent] at present
      cases present

/-- The part that `create_tmpfs` and `symlink_tmpfs` share. -/
theorem adds_newFile {t t' : Tmpfs} {d f : Nat} {dir : TmpfsDir} {name : CString} {file : TmpfsFile}
    {m : FrameMap} (owned : Tmpfs.Owned t) (present : t.dirs d = some dir)
    (fresh : t.findEntry dir name = none) (new : NewFile t f file m) (named : file.name = name)
    (linked : ({ t with frames := m }.setFile f file).addEntry d (.file f) = some t') :
    Adds t d name (some (.file f)) 0 t' := by
  obtain ⟨added, absent, isNew⟩ := added_newFile owned present new linked
  refine ⟨dir, present, Or.inr ⟨fresh, rfl, fun roomy => addEntry_roomy linked roomy, .file f, rfl, ?_, added,
    absent, ?_⟩⟩
  · rintro g other ⟨⟩ here
    cases isNew.symm.trans here
    exact new.blocks
  · rw [Tmpfs.entryName, isNew, Option.map_some, named]

/-- `create_tmpfs` adds the structure that `tmpfs_new_file` makes. -/
theorem createTmpfs_adds {who : Credentials} {t t' : Tmpfs} {d : Nat} {name : CString}
    {mode : BitVec 32} {result : Int} (owned : Tmpfs.Owned t)
    (created : t.createTmpfs who d name mode = some (result, t')) :
    Adds t d name ((t.newFile name).map fun new => .file new.1) result t' := by
  unfold Tmpfs.createTmpfs at created
  split at created
  · cases created
  rename_i dir present
  split at created
  · rename_i exists_
    cases created
    exact ⟨dir, present, Or.inl ⟨Option.isSome_iff_ne_none.mp exists_, by decide, rfl⟩⟩
  rename_i fresh
  split at created
  · cases created
  rename_i f file t₁ made
  rw [Option.map_eq_some_iff] at created
  obtain ⟨t₂, linked, same⟩ := created
  cases same
  obtain ⟨m, rfl, new, _, named, _⟩ := newFile_spec made
  have withMode : NewFile t f { file with mask := mode, uid := who.uid, gid := who.gid } m :=
    ⟨new.takes, new.apart, new.parts, new.blocks⟩
  rw [made]
  exact adds_newFile owned present (Option.not_isSome_iff_eq_none.mp fresh) withMode named linked

/-- `symlink_tmpfs` adds the structure that `tmpfs_new_file` makes. -/
theorem symlinkTmpfs_adds {who : Credentials} {t t' : Tmpfs} {d : Nat} {target name : CString}
    {result : Int} (owned : Tmpfs.Owned t)
    (created : t.symlinkTmpfs who d target name = some (result, t')) :
    Adds t d name ((t.newFile name).map fun new => .file new.1) result t' := by
  unfold Tmpfs.symlinkTmpfs at created
  split at created
  · cases created
  rename_i dir present
  split at created
  · rename_i exists_
    cases created
    exact ⟨dir, present, Or.inl ⟨Option.isSome_iff_ne_none.mp exists_, by decide, rfl⟩⟩
  rename_i fresh
  split at created
  · cases created
  rename_i f file t₁ made
  split at created
  · cases created
  rename_i targetAt t₂ copied
  rw [Option.map_eq_some_iff] at created
  obtain ⟨t₃, linked, same⟩ := created
  cases same
  obtain ⟨m, rfl, new, noTarget, named, _⟩ := newFile_spec made
  unfold Tmpfs.strdup at copied
  split at copied
  · cases copied
  rename_i block m' allocated
  cases copied
  have withTarget := @NewFile.link t f _ file m m' target _ new noTarget allocated
  have whole : NewFile t f
      { file with
        target := some (target, targetAt)
        length := target.length
        mask := 0o777
        uid := who.uid
        gid := who.gid } m' :=
    ⟨withTarget.takes, withTarget.apart, withTarget.parts, withTarget.blocks⟩
  rw [made]
  exact adds_newFile owned present (Option.not_isSome_iff_eq_none.mp fresh) whole named linked

/-- `mkdir_tmpfs` adds the structure that `tmpfs_new_dir` makes. -/
theorem mkdirTmpfs_adds {who : Credentials} {t t' : Tmpfs} {d : Nat} {name : CString}
    {mode : BitVec 32} {result : Int} (owned : Tmpfs.Owned t) (notEmpty : name ≠ [])
    (made : t.mkdirTmpfs who d name mode = some (result, t')) :
    Adds t d name ((t.newDir name).map fun new => .dir new.1) result t' := by
  unfold Tmpfs.mkdirTmpfs at made
  rw [if_neg notEmpty] at made
  split at made
  · cases made
  rename_i dir present
  split at made
  · rename_i exists_
    cases made
    exact ⟨dir, present, Or.inl ⟨Option.isSome_iff_ne_none.mp exists_, by decide, rfl⟩⟩
  rename_i fresh
  split at made
  · cases made
  rename_i out outDir t₁ newlyMade
  rw [Option.map_eq_some_iff] at made
  obtain ⟨t₂, linked, same⟩ := made
  cases same
  obtain ⟨m, rfl, new, named⟩ := newDir_spec newlyMade
  have withMode : NewDir t out { outDir with mask := mode, uid := who.uid, gid := who.gid } m :=
    ⟨new.takes, new.apart, new.files⟩
  obtain ⟨added, absent, isNew⟩ := added_newDir owned present withMode linked
  have roomy : Roomy t → Roomy t' := by
    intro roomy
    refine addEntry_roomy linked fun e other here => ?_
    rw [setDir_dirs] at here
    by_cases same : e = out
    · rw [same, Function.update_self] at here
      cases here
      change outDir.files.length ≤ outDir.filesCapacity
      rw [new.files]
      exact Nat.zero_le _
    · rw [Function.update_of_ne same] at here
      exact roomy e other here
  rw [newlyMade]
  refine ⟨dir, present, Or.inr ⟨Option.not_isSome_iff_eq_none.mp fresh, rfl, roomy, .dir out, rfl, nofun,
    added, absent, ?_⟩⟩
  rw [Tmpfs.entryName, isNew]
  exact congrArg some named

theorem createTmpfs_outcome {who : Credentials} {t t' : Tmpfs} {d : Nat} {name : CString}
    {mode : BitVec 32} {result : Int} (owned : Tmpfs.Owned t)
    (created : t.createTmpfs who d name mode = some (result, t')) : Outcome t d name result t' :=
  (createTmpfs_adds owned created).outcome

theorem symlinkTmpfs_outcome {who : Credentials} {t t' : Tmpfs} {d : Nat} {target name : CString}
    {result : Int} (owned : Tmpfs.Owned t)
    (created : t.symlinkTmpfs who d target name = some (result, t')) : Outcome t d name result t' :=
  (symlinkTmpfs_adds owned created).outcome

theorem mkdirTmpfs_outcome {who : Credentials} {t t' : Tmpfs} {d : Nat} {name : CString}
    {mode : BitVec 32} {result : Int} (owned : Tmpfs.Owned t) (notEmpty : name ≠ [])
    (made : t.mkdirTmpfs who d name mode = some (result, t')) : Outcome t d name result t' :=
  (mkdirTmpfs_adds owned notEmpty made).outcome

/-! ## No entry dangles -/

/-- The directories that are listed are there. -/
def DirsPresent (t : Tmpfs) : Prop :=
  ∀ d dir, t.dirs d = some dir → ∀ e, .dir e ∈ dir.files → (t.dirs e).isSome

/-- A directory that was there is there when an entry was added. -/
theorem Added.dirs_isSome {t t' : Tmpfs} {d e : Nat} {dir : TmpfsDir} {entry : TmpfsEntry}
    (added : Added t t' d dir entry) (present : t.dirs d = some dir) (fresh : Fresh t entry)
    (isSome : (t.dirs e).isSome) : (t'.dirs e).isSome := by
  obtain ⟨other, here⟩ := Option.isSome_iff_exists.mp isSome
  have kept := added.kept present fresh
  by_cases same : e = d
  · subst same
    obtain ⟨dir', after, _⟩ := kept.parent other here
    rw [after]
    rfl
  · rw [kept.dirs e other same here]
    rfl

theorem DirsPresent.outcome {t t' : Tmpfs} {d : Nat} {name : CString} {result : Int}
    (holds : DirsPresent t) (outcome : Outcome t d name result t') : DirsPresent t' := by
  obtain ⟨dir, present, ⟨_, _, rfl⟩ | ⟨_, _, entry, added, fresh, named⟩⟩ := outcome
  · exact holds
  have still := fun e => @Added.dirs_isSome t t' d e dir entry added present fresh
  intro e other here x member
  by_cases parent : e = d
  · subst parent
    obtain ⟨dir', after, files, _⟩ := added.parent
    cases after.symm.trans here
    rw [files, List.mem_append, List.mem_singleton] at member
    rcases member with old | isNew
    · exact still x (holds e dir present x old)
    · obtain ⟨newDir, there, _⟩ := added.newDir x isNew
      rw [there]
      rfl
  · by_cases new : .dir e = entry
    · obtain ⟨newDir, there, noFiles⟩ := added.newDir e new
      cases there.symm.trans here
      rw [noFiles] at member
      cases member
    · rw [added.otherDirs e parent new] at here
      exact still x (holds e other here x member)

/-- No call removes a directory. -/
theorem DirsPresent.step {t t' : Tmpfs} {call : TmpfsCall} (holds : DirsPresent t)
    (sound : Tmpfs.Sound t) (allowed : call.Allowed t) (stepped : call.step t = some t') :
    DirsPresent t' := by
  cases call with
  | create who d name mode =>
      obtain ⟨⟨_, _⟩, created, rfl⟩ := Option.map_eq_some_iff.mp stepped
      exact holds.outcome (createTmpfs_outcome sound.owned created)
  | symlink who d target name =>
      obtain ⟨⟨_, _⟩, created, rfl⟩ := Option.map_eq_some_iff.mp stepped
      exact holds.outcome (symlinkTmpfs_outcome sound.owned created)
  | mkdir who d name mode =>
      obtain ⟨⟨_, _⟩, made, rfl⟩ := Option.map_eq_some_iff.mp stepped
      by_cases empty : name = []
      · unfold Tmpfs.mkdirTmpfs at made
        rw [if_pos empty] at made
        cases made
        exact holds
      · exact holds.outcome (mkdirTmpfs_outcome sound.owned empty made)
  | write f offset size buffer =>
      obtain ⟨⟨_, _⟩, wrote, rfl⟩ := Option.map_eq_some_iff.mp stepped
      obtain ⟨file, present⟩ := sound.linked_some allowed.1
      obtain ⟨_, file', grown, _⟩ := writeTmpfs_spec allowed.2 sound.owned present wrote
      have dirs := grown.dirs
      rw [setFile_dirs] at dirs
      unfold DirsPresent
      rw [dirs]
      exact holds
  | truncate f =>
      obtain ⟨⟨_, _⟩, truncated, rfl⟩ := Option.map_eq_some_iff.mp stepped
      obtain ⟨file, present⟩ := sound.linked_some allowed
      unfold Tmpfs.truncateTmpfs at truncated
      rw [present] at truncated
      cases truncated
      obtain ⟨⟨m, shape⟩, _⟩ := releaseBlocks_spec t file.blocks
      unfold DirsPresent
      rw [setFile_dirs, shape]
      exact holds
  | unlink d name =>
      obtain ⟨⟨_, _⟩, unlinked, rfl⟩ := Option.map_eq_some_iff.mp stepped
      unfold Tmpfs.unlinkTmpfs at unlinked
      split at unlinked
      · cases unlinked
      rename_i dir present
      split at unlinked
      · cases unlinked
        exact holds
      · cases unlinked
        exact holds
      split at unlinked
      · cases unlinked
      rename_i f _ file _
      cases unlinked
      obtain ⟨m, shape, _⟩ := freeFile_spec t file
      have dirs : (t.freeFile file).dirs = t.dirs := by rw [shape]
      intro e other here x member
      change (Function.update (t.freeFile file).dirs d _) e = some other at here
      change ((Function.update (t.freeFile file).dirs d _) x).isSome
      rw [dirs] at here ⊢
      have listed : (t.dirs x).isSome := by
        by_cases same : e = d
        · rw [same, Function.update_self] at here
          cases here
          exact holds d dir present x (List.mem_of_mem_erase member)
        · rw [Function.update_of_ne same] at here
          exact holds e other here x member
      by_cases same : x = d
      · rw [same, Function.update_self]
        rfl
      · rw [Function.update_of_ne same]
        exact listed

/-- In every reachable state the entries of a directory have names. -/
theorem Tmpfs.Reachable.named {t : Tmpfs} (reachable : Tmpfs.Reachable t) {d : Nat} {dir : TmpfsDir}
    (present : t.dirs d = some dir) : ∀ entry ∈ dir.files, ∃ name, t.entryName entry = some name := by
  have sound := reachable.sound
  have dirsPresent : DirsPresent t := by
    obtain ⟨frames, phys, rootName, start, calls, created, run⟩ := reachable
    have both : Tmpfs.Sound t ∧ DirsPresent t := by
      refine @Run.invariant _ _ _ _ (fun t => Tmpfs.Sound t ∧ DirsPresent t)
        (fun _ _ _ allowed stepped holds =>
          ⟨holds.1.step allowed stepped, holds.2.step holds.1 allowed stepped⟩)
        _ _ _ run ⟨tmpfsCreate_sound created, ?_⟩
      unfold Tmpfs.tmpfsCreate at created
      split at created
      · cases created
      rename_i root rootDir t₁ made
      obtain ⟨m, rfl, new, _⟩ := newDir_spec made
      cases created
      intro e other here x member
      rw [setDir_dirs] at here
      by_cases same : e = root
      · rw [same, Function.update_self] at here
        cases here
        rw [new.files] at member
        cases member
      · rw [Function.update_of_ne same] at here
        cases here
    exact both.2
  intro entry member
  cases entry with
  | file f =>
      obtain ⟨file, here⟩ := Option.isSome_iff_exists.mp
        ((sound.listed f).mp ⟨d, dir, present, member⟩)
      exact ⟨file.name, by rw [Tmpfs.entryName, here]; rfl⟩
  | dir e =>
      obtain ⟨other, here⟩ := Option.isSome_iff_exists.mp (dirsPresent d dir present e member)
      exact ⟨other.name, by rw [Tmpfs.entryName, here]; rfl⟩

end Voxel.Proofs
