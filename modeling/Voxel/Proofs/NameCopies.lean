/-
Module: Voxel.Proofs.NameCopies
Layer: Proofs
Purpose: The copies of names into records of 256 bytes. `create_file`, `mkdir` and `symlink` take names of any
  length; every copy that a lookup or a listing makes stays in its record exactly if no entry has a name of
  more than 255 characters.
Trusted boundary: none
Main exports: CopiesFit, PathCall, PathCall.Short, copiesFit_iff, path_names_fit
-/
import Voxel.Kernel.Dirent
import Voxel.Proofs.DirectoryMap
import Voxel.Proofs.OpenFiles

namespace Voxel.Proofs

open Voxel.Lib Voxel.Kernel

/-- Every copy of a name that `finddir_tmpfs` and `readdir_tmpfs` make stays in its record. -/
structure CopiesFit (t : Tmpfs) : Prop where
  finddir : ∀ d name, t.finddirName d name ≠ none
  readdir : ∀ d index junk, junk.length = nodeNameSize → t.readdirRecord d index junk ≠ none

/-- A name that fits in a record with its terminator. -/
def Fits (name : CString) : Prop := name.length < nodeNameSize

instance (name : CString) : Decidable (Fits name) := inferInstanceAs (Decidable (_ < _))

/-! ## The copies -/

section Copies

variable {t : Tmpfs} {bindings : Bindings} {d : Nat} {dir : TmpfsDir} {entry : TmpfsEntry}
  {name : CString} {field : List (BitVec 8)}

theorem strcpy_ne_none (room : field.length = nodeNameSize) : strcpy field name ≠ none ↔ Fits name := by
  rw [strcpy_eq, room]
  unfold Fits
  by_cases fits : name.length < nodeNameSize
  · rw [if_pos fits]
    simp [fits]
  · rw [if_neg fits]
    simp [fits]

/-- The node of an entry gets the name of the entry. -/
theorem finddirName_eq (found : t.finddirTmpfs d name = some entry) :
    t.finddirName d name = (strcpy (List.replicate nodeNameSize 0) name).map some := by
  have named := finddirTmpfs_named found
  unfold Tmpfs.finddirName
  rw [found]
  cases entry with
  | file f =>
      obtain ⟨file, present, same⟩ := Option.map_eq_some_iff.mp named
      dsimp only
      rw [present]
      dsimp only
      rw [TmpfsFile.nodeName, same]
  | dir e =>
      obtain ⟨other, present, same⟩ := Option.map_eq_some_iff.mp named
      dsimp only
      rw [present]
      dsimp only
      rw [TmpfsDir.nodeName, same]

/-- The record of an entry that is listed gets the name of the entry. -/
theorem readdirRecord_entry (present : t.dirs d = some dir) {i : Nat} (listed : dir.files[i]? = some entry)
    (named : t.entryName entry = some name) (junk : List (BitVec 8)) :
    t.readdirRecord d (if d ≠ t.tmpfsRoot then i + 2 else i) junk =
      (strcpy junk name).map fun field => some { ino := entry.address.setWidth 32, name := field } := by
  unfold Tmpfs.readdirRecord
  rw [present]
  dsimp only
  by_cases root : d = t.tmpfsRoot
  · simp [root, listed, named]
  · simp [root, listed, named]

/-- The names of all entries fit. -/
def NamesFit (t : Tmpfs) : Prop :=
  ∀ d dir entry name, t.dirs d = some dir → entry ∈ dir.files → t.entryName entry = some name → Fits name

/-- All copies fit exactly if all names do. -/
theorem copiesFit_iff : CopiesFit t ↔ NamesFit t := by
  constructor
  · intro copies d dir entry name present member named
    obtain ⟨i, listed⟩ := List.mem_iff_getElem?.mp member
    have record := copies.readdir d (if d ≠ t.tmpfsRoot then i + 2 else i) (List.replicate nodeNameSize 0)
      (List.length_replicate ..)
    rw [readdirRecord_entry present listed named] at record
    refine (@strcpy_ne_none name (List.replicate nodeNameSize 0) (List.length_replicate ..)).mp ?_
    exact fun none => record (by rw [none]; rfl)
  · intro names
    constructor
    · intro d name
      cases found : t.finddirTmpfs d name with
      | none =>
          rw [Tmpfs.finddirName, found]
          exact Option.some_ne_none _
      | some entry =>
          rw [finddirName_eq found]
          obtain ⟨dir, present, inDir⟩ := Option.bind_eq_some_iff.mp found
          have fits := names d dir entry name present (List.mem_of_find?_eq_some inDir)
            (finddirTmpfs_named found)
          rw [Ne, Option.map_eq_none_iff]
          exact (strcpy_ne_none (List.length_replicate ..)).mpr fits
    · intro d index junk room
      unfold Tmpfs.readdirRecord
      have own : ∀ short : CString, Fits short → Tmpfs.ownRecord short ≠ none := by
        intro short fits
        rw [Tmpfs.ownRecord, Ne, Option.map_eq_none_iff]
        exact (strcpy_ne_none (List.length_replicate ..)).mpr fits
      split
      · exact Option.some_ne_none _
      rename_i dir present
      split
      · exact own _ (by unfold Fits; decide)
      split
      · exact own _ (by unfold Fits; decide)
      split
      · exact Option.some_ne_none _
      rename_i entry listed
      split
      · exact Option.some_ne_none _
      rename_i name named
      rw [Ne, Option.map_eq_none_iff]
      exact (strcpy_ne_none room).mpr
        (names d dir entry name present (List.mem_of_getElem? listed) named)

/-- In terms of the record of a run. -/
theorem Tmpfs.Bound.namesFit_iff (bound : Tmpfs.Bound t bindings) :
    NamesFit t ↔ ∀ d name, bindings d name ≠ none → Fits name := by
  constructor
  · intro names d name isBound
    cases present : t.dirs d with
    | none =>
        rw [bound.absent d present] at isBound
        exact absurd rfl isBound
    | some dir =>
        rw [← bound.found d dir present] at isBound
        obtain ⟨entry, found⟩ := Option.ne_none_iff_exists'.mp isBound
        obtain ⟨member, named⟩ := (bound.distinct d dir present).find_eq_some.mp found
        exact names d dir entry name present member named
  · intro names d dir entry name present member named
    refine names d name ?_
    rw [← bound.found d dir present,
      (bound.distinct d dir present).find_eq_some.mpr ⟨member, named⟩]
    exact Option.some_ne_none _

end Copies

/-! ## Calls on paths -/

section Paths

variable {Foreign : Type} {s s' : FileSystem Foreign} {who : Credentials} {p : CString}
  {creation : Creation} {t' : Tmpfs} {bindings : Bindings}

/-- A call that creates something under a path, or a call on tmpfs that adds no name. -/
inductive PathCall
  | creates (creation : Creation) (who : Credentials) (p : CString)
  | other (call : TmpfsCall)

/-- The call adds no name. -/
def TmpfsCall.AddsNoName : TmpfsCall → Prop
  | .write _ _ _ _ => True
  | .truncate _ => True
  | .unlink _ _ => True
  | _ => False

/-- The file system after a call. -/
def PathCall.step (s : FileSystem Foreign) : PathCall → Option (FileSystem Foreign)
  | .creates creation who p => (creation.call s who p).join.map fun done => FileSystem.withTmpfs s done.2
  | .other call => (call.step s.tmpfs).map fun t => FileSystem.withTmpfs s t

/-- The last component of the path fits in a record. -/
def LastFits (p : CString) : Prop := ∀ filename, lastFilename p = some filename → Fits filename

/-- If the path is accepted, its last component fits. -/
def PathCall.Short (s : FileSystem Foreign) : PathCall → Prop
  | .creates creation who p => (∃ t', creation.call s who p = some (some (0, t'))) → LastFits p
  | .other call => call.Allowed s.tmpfs ∧ call.AddsNoName

/-- The call on tmpfs that a call on a path comes to. -/
def Creation.asks (creation : Creation) (who : Credentials) (d : Nat) (filename : CString) : TmpfsCall :=
  match creation with
  | .createFile mode => .create who d filename mode
  | .mkdir mode => .mkdir who d filename mode
  | .symlink target => .symlink who d target filename

/-- A call on a path fails and changes nothing, or it asks tmpfs for the last component. -/
theorem creation_asks {result : Int} (called : creation.call s who p = some (some (result, t'))) :
    (result ≠ 0 ∧ t' = s.tmpfs) ∨ ∃ d filename, lastFilename p = some filename ∧
      (creation.asks who d filename).perform s.tmpfs = some (result, t') := by
  cases creation with
  | createFile mode =>
      unfold Creation.call FileSystem.createFile at called
      dsimp only at called
      split at called
      · cases called
        exact Or.inl ⟨by decide, rfl⟩
      split at called
      · cases called
        exact Or.inl ⟨by decide, rfl⟩
      rcases createAt_cases (by decide) called with failed | ⟨_, d, filename, _, _, last, _, ran⟩
      · exact Or.inl failed
      · exact Or.inr ⟨d, filename, last, ran⟩
  | mkdir mode =>
      unfold Creation.call FileSystem.mkdir at called
      dsimp only at called
      split at called
      · cases called
        exact Or.inl ⟨by decide, rfl⟩
      rcases createAt_cases (by decide) called with failed | ⟨_, d, filename, _, _, last, _, ran⟩
      · exact Or.inl failed
      · exact Or.inr ⟨d, filename, last, ran⟩
  | symlink target =>
      unfold Creation.call FileSystem.symlink at called
      dsimp only at called
      split at called
      · cases called
        exact Or.inl ⟨by decide, rfl⟩
      rcases createAt_cases (by decide) called with failed | ⟨_, d, filename, _, _, last, _, ran⟩
      · exact Or.inl failed
      · exact Or.inr ⟨d, filename, last, ran⟩

/-- tmpfs adds the name, or it fails and changes nothing. -/
theorem asks_adds {t : Tmpfs} {d : Nat} {filename : CString} {result : Int} (owned : Tmpfs.Owned t)
    (performed : (creation.asks who d filename).perform t = some (result, t')) :
    (result ≠ 0 ∧ t' = t) ∨ ∃ made, Adds t d filename made result t' := by
  cases creation with
  | createFile mode => exact Or.inr ⟨_, createTmpfs_adds owned performed⟩
  | mkdir mode =>
      by_cases empty : filename = []
      · change t.mkdirTmpfs who d filename mode = some (result, t') at performed
        unfold Tmpfs.mkdirTmpfs at performed
        rw [if_pos empty] at performed
        cases performed
        exact Or.inl ⟨by decide, rfl⟩
      · exact Or.inr ⟨_, mkdirTmpfs_adds owned empty performed⟩
  | symlink target => exact Or.inr ⟨_, symlinkTmpfs_adds owned performed⟩

/-- A name is added: all names fit exactly if the others did and it does. -/
theorem Adds.namesFit_iff {t : Tmpfs} {d : Nat} {filename : CString} {made : Option TmpfsEntry}
    (bound : Tmpfs.Bound t bindings) (adds : Adds t d filename made 0 t') (names : NamesFit t) :
    NamesFit t' ↔ Fits filename := by
  have boundAfter := bound.adds adds
  rw [if_pos rfl] at boundAfter
  constructor
  · intro after
    obtain ⟨dir, present, ⟨_, failed, _⟩ | ⟨_, _, _, entry, _, _, added, _, named⟩⟩ := adds
    · exact absurd rfl failed
    · obtain ⟨dir', isParent, files, _⟩ := added.parent
      refine after d dir' entry filename isParent ?_ named
      rw [files]
      exact List.mem_append_right _ (List.mem_singleton.mpr rfl)
  · intro fits
    rw [boundAfter.namesFit_iff]
    intro e name isBound
    by_cases same : e = d ∧ name = filename
    · rw [same.2]
      exact fits
    · refine bound.namesFit_iff.mp names e name ?_
      unfold rebind at isBound
      by_cases sameDir : e = d
      · subst sameDir
        rw [Function.update_self, Function.update_of_ne fun sameName => same ⟨rfl, sameName⟩] at isBound
        exact isBound
      · rw [Function.update_of_ne sameDir] at isBound
        exact isBound

/-- The blocks and the names of a tmpfs are as they should be. -/
structure NamedWell (t : Tmpfs) : Prop where
  sound : Tmpfs.Sound t
  bound : ∃ bindings, Tmpfs.Bound t bindings
  names : NamesFit t

/-- A call on a path, if the last component fits. -/
theorem NamedWell.creates {result : Int} (well : NamedWell s.tmpfs)
    (called : creation.call s who p = some (some (result, t'))) (short : result = 0 → LastFits p) :
    NamedWell t' := by
  rcases creation_asks called with ⟨_, rfl⟩ | ⟨d, filename, last, performed⟩
  · exact well
  rcases asks_adds well.sound.owned performed with ⟨_, rfl⟩ | ⟨made, adds⟩
  · exact well
  obtain ⟨bindings, bound⟩ := well.bound
  have stepped := TmpfsCall.step_of_perform performed
  have allowed : (creation.asks who d filename).Allowed s.tmpfs := by
    cases creation <;> trivial
  refine ⟨well.sound.step allowed stepped, ⟨_, bound.adds adds⟩, ?_⟩
  by_cases zero : result = 0
  · subst zero
    exact (adds.namesFit_iff bound well.names).mpr (short rfl filename last)
  · obtain ⟨_, _, ⟨_, _, rfl⟩ | ⟨_, succeeded, _⟩⟩ := adds
    · exact well.names
    · exact absurd succeeded zero

/-- A call that adds no name. -/
theorem NamedWell.other {t : Tmpfs} {call : TmpfsCall} (well : NamedWell t) (allowed : call.Allowed t)
    (noName : call.AddsNoName) (stepped : call.step t = some t') : NamedWell t' := by
  obtain ⟨bindings, bound⟩ := well.bound
  obtain ⟨result, performed⟩ := TmpfsCall.perform_of_step stepped
  have boundAfter := bound.perform well.sound allowed performed
  refine ⟨well.sound.step allowed stepped, ⟨_, boundAfter⟩, boundAfter.namesFit_iff.mpr ?_⟩
  have before := bound.namesFit_iff.mp well.names
  cases call with
  | write | truncate => exact before
  | unlink d name =>
      intro e other isBound
      refine before e other fun unbound => isBound ?_
      change (if result = 0 then rebind bindings d name none else bindings) e other = none
      split
      · unfold rebind
        by_cases sameDir : e = d
        · subst sameDir
          rw [Function.update_self]
          by_cases sameName : other = name
          · rw [sameName, Function.update_self]
          · rw [Function.update_of_ne sameName]
            exact unbound
        · rw [Function.update_of_ne sameDir]
          exact unbound
      · exact unbound
  | create | symlink | mkdir => exact noName.elim

/-- One call. -/
theorem NamedWell.step {call : PathCall} (well : NamedWell s.tmpfs) (short : call.Short s)
    (stepped : call.step s = some s') : NamedWell s'.tmpfs := by
  cases call with
  | creates creation who p =>
      obtain ⟨⟨result, t'⟩, called, rfl⟩ := Option.map_eq_some_iff.mp stepped
      have called := Option.join_eq_some_iff.mp called
      exact well.creates called fun zero => short ⟨t', by rw [called, zero]⟩
  | other call =>
      obtain ⟨t', called, rfl⟩ := Option.map_eq_some_iff.mp stepped
      exact well.other short.1 short.2 called

/-- In every run of calls on paths whose accepted last components have at most 255 characters, every copy of a
name stays in its record; and after the next path that is accepted all of them do exactly if its last
component has at most 255 characters. -/
theorem path_names_fit {start : FileSystem Foreign} {calls : List PathCall}
    (reachable : Tmpfs.Reachable start.tmpfs) (fit : CopiesFit start.tmpfs)
    (run : Run PathCall.step (fun s call => call.Short s) start calls s) :
    CopiesFit s.tmpfs ∧ ∀ (creation : Creation) who p t', creation.call s who p = some (some (0, t')) →
      (CopiesFit t' ↔ LastFits p) := by
  have well : NamedWell s.tmpfs :=
    @Run.invariant _ _ _ _ (fun s => NamedWell s.tmpfs)
      (fun _ _ _ short stepped well => NamedWell.step well short stepped) _ _ _ run
      ⟨reachable.sound, reachable.bound, copiesFit_iff.mp fit⟩
  refine ⟨copiesFit_iff.mpr well.names, fun creation who p t' called => ?_⟩
  rw [copiesFit_iff]
  refine ⟨fun names filename last => ?_, fun lastFits => (well.creates called fun _ => lastFits).names⟩
  rcases creation_asks called with ⟨failed, _⟩ | ⟨d, filename', last', performed⟩
  · exact absurd rfl failed
  rcases asks_adds well.sound.owned performed with ⟨failed, _⟩ | ⟨made, adds⟩
  · exact absurd rfl failed
  obtain ⟨bindings, bound⟩ := well.bound
  cases last.symm.trans last'
  exact (adds.namesFit_iff bound well.names).mp names

end Paths

/-- A new tmpfs has no names to copy. -/
theorem tmpfsCreate_copiesFit {frames : FrameMap} {phys : Nat → BitVec 8} {rootName : CString} {t : Tmpfs}
    (created : Tmpfs.tmpfsCreate frames phys rootName = some t) : CopiesFit t := by
  rw [copiesFit_iff, (tmpfsCreate_bound created).namesFit_iff]
  intro d name isBound
  exact absurd rfl isBound

/-- A path of one component with this many characters. -/
def longPath (length : Nat) : CString := slash :: List.replicate length 0x61

/-- A new tmpfs in which `create_file` accepts a path of one long component, with some facts afterwards. -/
theorem longPath_accepted {length : Nat} {facts : Tmpfs → Bool}
    (completes : ((Tmpfs.tmpfsCreate freeMemory (fun _ => 0) []).any fun t =>
      ((Creation.createFile 0o644).call (plainSystem t) ⟨0, 0⟩ (longPath length)).any fun done =>
        done.any fun done => done.1 == 0 && facts done.2) = true) :
    ∃ t t', Tmpfs.Reachable t ∧ CopiesFit t ∧
      (Creation.createFile 0o644).call (plainSystem t) ⟨0, 0⟩ (longPath length) = some (some (0, t')) ∧
      facts t' = true := by
  obtain ⟨t, created, called⟩ := (Option.any_eq_true _ _).mp completes
  obtain ⟨done, called, ends⟩ := (Option.any_eq_true _ _).mp called
  obtain ⟨⟨result, t'⟩, rfl, holds⟩ := (Option.any_eq_true _ _).mp ends
  rw [Bool.and_eq_true] at holds
  have zero : result = 0 := eq_of_beq holds.1
  subst zero
  exact ⟨t, t', ⟨_, _, _, t, [], created, .refl _⟩, tmpfsCreate_copiesFit created, called, holds.2⟩

/-- A name of 255 characters is made. -/
theorem path_names_fit_example : ∃ t t', Tmpfs.Reachable t ∧
    (Creation.createFile 0o644).call (plainSystem t) ⟨0, 0⟩ (longPath 255) = some (some (0, t')) ∧
    CopiesFit t' := by
  obtain ⟨t, t', reachable, fit, called, _⟩ := @longPath_accepted 255 (fun _ => true) (by decide +kernel)
  have lastFits : LastFits (longPath 255) := by
    have last : (lastFilename (longPath 255)).all (fun filename => decide (Fits filename)) = true := by
      decide +kernel
    intro filename isLast
    rw [isLast] at last
    exact of_decide_eq_true last
  have run : Run PathCall.step (fun s call => call.Short s) (plainSystem t) [] (plainSystem t) := .refl _
  have fitAfter := (@path_names_fit _ _ (plainSystem t) _ reachable fit run).2 _ _ _ t' called
  exact ⟨t, t', reachable, called, fitAfter.mpr lastFits⟩

/-- A name of 256 characters is accepted; the terminator of its copies is behind their records. -/
theorem long_name_overflows : ∃ t t', Tmpfs.Reachable t ∧ CopiesFit t ∧
    (Creation.createFile 0o644).call (plainSystem t) ⟨0, 0⟩ (longPath 256) = some (some (0, t')) ∧
    ¬ CopiesFit t' := by
  obtain ⟨t, t', reachable, fit, called, overflows⟩ := @longPath_accepted 256
    (fun t => (t.dirs t.tmpfsRoot).any fun dir =>
      (dir.files.head?.bind t.entryName).any fun name => !decide (Fits name)) (by decide +kernel)
  refine ⟨t, t', reachable, fit, called, fun copies => ?_⟩
  obtain ⟨dir, present, named⟩ := (Option.any_eq_true _ _).mp overflows
  obtain ⟨name, first, tooLong⟩ := (Option.any_eq_true _ _).mp named
  obtain ⟨entry, isFirst, named⟩ := Option.bind_eq_some_iff.mp first
  have fits := copiesFit_iff.mp copies _ dir entry name present (List.mem_of_head? isFirst) named
  simp [fits] at tooLong

end Voxel.Proofs
