/-
Module: Voxel.Proofs.Unlink
Layer: Proofs
Purpose: What `unlink_tmpfs` removes. The test for an empty directory looks at the pointer to its array,
  which is never null, so a directory is kept even if it has no entries; for every other name the call
  does what it should.
Trusted boundary: none
Main exports: EmptyDirectory, RemovesEntry, UnlinkSound, unlink_sound_iff
-/
import Voxel.Proofs.DirectoryMap

namespace Voxel.Proofs

open Voxel.Lib Voxel.Kernel

/-! ## What a name is bound to -/

/-- The name is bound to a file or a link. -/
def BoundFile (t : Tmpfs) (d : Nat) (name : CString) : Prop :=
  ∃ f, t.finddirTmpfs d name = some (.file f)

/-- The name is bound to a directory that has no entries. -/
def EmptyDirectory (t : Tmpfs) (d : Nat) (name : CString) : Prop :=
  ∃ e dir, t.finddirTmpfs d name = some (.dir e) ∧ t.dirs e = some dir ∧ dir.files = []

/-- The name is bound to a directory that has entries. -/
def FullDirectory (t : Tmpfs) (d : Nat) (name : CString) : Prop :=
  ∃ e dir, t.finddirTmpfs d name = some (.dir e) ∧ t.dirs e = some dir ∧ dir.files ≠ []

/-- The entry of a name is taken out of its directory, and nothing else of the tree changes. -/
structure RemovesEntry (t : Tmpfs) (d : Nat) (name : CString) (t' : Tmpfs) : Prop where
  entry : ∃ dir before entry after, t.dirs d = some dir ∧ dir.files = before ++ entry :: after ∧
    t.entryName entry = some name ∧ t'.dirs d = some { dir with files := before ++ after } ∧
    (∀ e, e ≠ d → .dir e ≠ entry → t'.dirs e = t.dirs e) ∧
    (∀ f, .file f ≠ entry → t'.files f = t.files f) ∧ ∀ f, .file f = entry → t'.files f = none
  phys : t'.phys = t.phys
  unbound : t'.finddirTmpfs d name = none
  others : ∀ e other, e ≠ d ∨ other ≠ name → t'.finddirTmpfs e other = t.finddirTmpfs e other

/-- What `unlink_tmpfs` must do with a name of a directory. -/
def UnlinkSound (t : Tmpfs) (d : Nat) (name : CString) : Prop :=
  ∃ result t', t.unlinkTmpfs d name = some (result, t') ∧
    (BoundFile t d name ∨ EmptyDirectory t d name → result = 0 ∧ RemovesEntry t d name t') ∧
    (FullDirectory t d name → result = negNotempty ∧ t' = t) ∧
    (t.finddirTmpfs d name = none → result = negNoent ∧ t' = t)

/-! ## The call -/

/-- The search of `unlink_tmpfs` comes to its end. -/
theorem unlinkTmpfs_none {t : Tmpfs} {d : Nat} {dir : TmpfsDir} {name : CString}
    (present : t.dirs d = some dir) (missing : t.findEntry dir name = none) :
    t.unlinkTmpfs d name = some (negNoent, t) := by
  rw [Tmpfs.unlinkTmpfs, present]
  dsimp only
  rw [missing]

/-- The search of `unlink_tmpfs` stops at a directory. -/
theorem unlinkTmpfs_dir {t : Tmpfs} {d e : Nat} {dir : TmpfsDir} {name : CString}
    (present : t.dirs d = some dir) (found : t.findEntry dir name = some (.dir e)) :
    t.unlinkTmpfs d name = some (negNotempty, t) := by
  rw [Tmpfs.unlinkTmpfs, present]
  dsimp only
  rw [found]

/-- The search of `unlink_tmpfs` stops at a file, and the structure of the file is there. -/
theorem unlinkTmpfs_file {t : Tmpfs} {d f : Nat} {dir : TmpfsDir} {name : CString} (sound : Tmpfs.Sound t)
    (present : t.dirs d = some dir) (found : t.findEntry dir name = some (.file f)) :
    ∃ result t', t.unlinkTmpfs d name = some (result, t') := by
  obtain ⟨file, here⟩ := sound.linked_some ⟨d, dir, present, List.mem_of_find?_eq_some found⟩
  rw [Tmpfs.unlinkTmpfs, present]
  dsimp only
  rw [found]
  dsimp only
  rw [here]
  exact ⟨_, _, rfl⟩

/-- A file that is unlinked takes its entry with it. -/
theorem unlinkTmpfs_removes {t t' : Tmpfs} {bindings : Bindings} {d f : Nat} {dir : TmpfsDir}
    {name : CString} {result : Int} (sound : Tmpfs.Sound t) (bound : Tmpfs.Bound t bindings)
    (present : t.dirs d = some dir) (found : t.findEntry dir name = some (.file f))
    (unlinked : t.unlinkTmpfs d name = some (result, t')) :
    result = 0 ∧ RemovesEntry t d name t' := by
  have after := bound.unlink sound unlinked
  obtain ⟨_, present', ⟨missing, _⟩ | ⟨_, other, _⟩ | ⟨g, file, found', _, rfl, files, dirs, phys⟩⟩ :=
    unlinkTmpfs_cases unlinked
  · cases present.symm.trans present'
    rw [found] at missing
    cases missing
  · cases present.symm.trans present'
    rw [found] at other
    cases other
  cases present.symm.trans present'
  cases found.symm.trans found'
  rw [if_pos rfl] at after
  -- `finddir_tmpfs` before and after is the record before and after
  have finds : ∀ e other, t.finddirTmpfs e other = bindings e other := by
    intro e other
    rw [Tmpfs.finddirTmpfs]
    cases here : t.dirs e with
    | none => rw [bound.absent e here]; rfl
    | some dir => rw [← bound.found e dir here]; rfl
  have findsAfter : ∀ e other, t'.finddirTmpfs e other = rebind bindings d name none e other := by
    intro e other
    rw [Tmpfs.finddirTmpfs]
    cases here : t'.dirs e with
    | none => rw [after.absent e here]; rfl
    | some dir => rw [← after.found e dir here]; rfl
  have distinct := bound.distinct d dir present
  have member := (distinct.find_eq_some.mp found).1
  obtain ⟨before, rest, notBefore, whole, erased⟩ := List.exists_erase_eq member
  refine ⟨rfl, ⟨dir, before, .file f, rest, present, whole, (distinct.find_eq_some.mp found).2, ?_, ?_,
    ?_, ?_⟩, phys, ?_, ?_⟩
  · rw [dirs, Function.update_self, erased]
  · intro e different _
    rw [dirs, Function.update_of_ne different]
  · intro g different
    rw [files, Function.update_of_ne fun same => different (by rw [same])]
  · rintro g ⟨⟩
    rw [files, Function.update_self]
  · rw [findsAfter, rebind, Function.update_self, Function.update_self]
  · intro e other different
    rw [findsAfter, finds, rebind]
    by_cases parent : e = d
    · subst parent
      rw [Function.update_self, Function.update_of_ne (different.resolve_left fun no => no rfl)]
    · rw [Function.update_of_ne parent]

/-- In every reachable state, unlinking a name of a directory does what it must exactly if the name is
not bound to a directory without entries. -/
theorem unlink_sound_iff {t : Tmpfs} (reachable : Tmpfs.Reachable t) {d : Nat} {dir : TmpfsDir}
    (present : t.dirs d = some dir) (name : CString) :
    UnlinkSound t d name ↔ ¬ EmptyDirectory t d name := by
  have sound := reachable.sound
  obtain ⟨bindings, bound⟩ := reachable.bound
  have finds : t.finddirTmpfs d name = t.findEntry dir name := by
    rw [Tmpfs.finddirTmpfs, present]
    rfl
  constructor
  · rintro ⟨result, t', unlinked, removes, _⟩ ⟨e, other, isDir, here, empty⟩
    rw [unlinkTmpfs_dir present (finds ▸ isDir)] at unlinked
    cases unlinked
    exact absurd (removes (Or.inr ⟨e, other, isDir, here, empty⟩)).1 (by decide)
  · intro notEmpty
    unfold UnlinkSound BoundFile FullDirectory
    rw [finds]
    cases found : t.findEntry dir name with
    | none =>
        refine ⟨_, _, unlinkTmpfs_none present found, ?_, ?_, fun _ => ⟨rfl, rfl⟩⟩
        · rintro (⟨_, isFile⟩ | empty)
          · cases isFile
          · exact absurd empty notEmpty
        · rintro ⟨_, _, isDir, _⟩
          cases isDir
    | some entry =>
        cases entry with
        | dir e =>
            refine ⟨_, _, unlinkTmpfs_dir present found, ?_, fun _ => ⟨rfl, rfl⟩, ?_⟩
            · rintro (⟨_, isFile⟩ | empty)
              · cases isFile
              · exact absurd empty notEmpty
            · intro missing
              cases missing
        | file f =>
            obtain ⟨result, t', unlinked⟩ := unlinkTmpfs_file sound present found
            refine ⟨_, _, unlinked, fun _ => unlinkTmpfs_removes sound bound present found unlinked, ?_,
              ?_⟩
            · rintro ⟨_, _, isDir, _⟩
              cases isDir
            · intro missing
              cases missing

/-- A file is made in a new root directory; its name can be unlinked. -/
theorem unlink_sound_iff_example : ∃ t, Tmpfs.Reachable t ∧ BoundFile t 0 [97] ∧ UnlinkSound t 0 [97] := by
  have completes : ((Tmpfs.tmpfsCreate freeMemory (fun _ => 0) []).bind fun start =>
      Run.exec (fun t call => if TmpfsCall.check 0 t call then call.step t else none) start
        [.create ⟨0, 0⟩ 0 [97] 0o644]).any (fun t =>
      (t.dirs 0).isSome && (t.finddirTmpfs 0 [97] == some (.file 3))) = true := by
    decide +kernel
  obtain ⟨t, reachable, facts⟩ := Tmpfs.Reachable.of_checked completes
  rw [Bool.and_eq_true, beq_iff_eq] at facts
  obtain ⟨dir, present⟩ := Option.isSome_iff_exists.mp facts.1
  refine ⟨t, reachable, ⟨3, facts.2⟩, (unlink_sound_iff reachable present [97]).mpr ?_⟩
  rintro ⟨e, other, isDir, _⟩
  rw [facts.2] at isDir
  cases isDir

/-- A directory that was just made has no entries, and unlinking it is refused. -/
theorem unlink_keeps_empty_directory : ∃ t, Tmpfs.Reachable t ∧ EmptyDirectory t 0 [97] ∧
    (t.unlinkTmpfs 0 [97]).map Prod.fst = some negNotempty ∧ ¬ UnlinkSound t 0 [97] := by
  have completes : ((Tmpfs.tmpfsCreate freeMemory (fun _ => 0) []).bind fun start =>
      Run.exec (fun t call => if TmpfsCall.check 0 t call then call.step t else none) start
        [.mkdir ⟨0, 0⟩ 0 [97] 0o755]).any (fun t =>
      (t.finddirTmpfs 0 [97] == some (.dir 3)) &&
        ((t.dirs 3).map TmpfsDir.files == some []) &&
        ((t.unlinkTmpfs 0 [97]).map Prod.fst == some negNotempty)) = true := by
    decide +kernel
  obtain ⟨t, reachable, facts⟩ := Tmpfs.Reachable.of_checked completes
  rw [Bool.and_eq_true, Bool.and_eq_true, beq_iff_eq, beq_iff_eq, beq_iff_eq] at facts
  obtain ⟨⟨isDir, noFiles⟩, refused⟩ := facts
  obtain ⟨dir, here, empty⟩ := Option.map_eq_some_iff.mp noFiles
  have isEmpty : EmptyDirectory t 0 [97] := ⟨3, dir, isDir, here, empty⟩
  refine ⟨t, reachable, isEmpty, refused, ?_⟩
  rintro ⟨result, t', unlinked, removes, _⟩
  rw [unlinked, (removes (Or.inr isEmpty)).1, Option.map_some] at refused
  have zero : (0 : Int) = negNotempty := Option.some.inj refused
  exact absurd zero (by decide)

end Voxel.Proofs
