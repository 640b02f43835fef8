/-
Module: Voxel.Proofs.DirectoryScan
Layer: Proofs
Purpose: A scan of a tmpfs directory with `sys_readdir` 0, 1, 2, …, while entries are made and unlinked. The
  scan is an index into the array of the directory, and `unlink_tmpfs` moves the entries behind the one
  that it takes out; so an entry is skipped exactly when one that the scan has passed is unlinked.
Trusted boundary: none
Main exports: listing, TmpfsCall.listing_perform, Scan, Scan.step, scan_returns_survivors, scan_skips
-/
import Voxel.Lib.IndexScan
import Voxel.Proofs.DirectoryMap

namespace Voxel.Proofs

open Voxel.Lib Voxel.Kernel

/-! ## The entries of a directory -/

/-- Names are compared in one way. -/
theorem sameTest : (instBEqOfDecidableEq : BEq CString) = List.instBEq := lawful_beq_subsingleton _ _

/-- The names of the entries of a directory, in the order of its array. -/
def listing (t : Tmpfs) (d : Nat) : List CString :=
  match t.dirs d with
  | none => []
  | some dir => NamedList.names t.entryName dir.files

theorem listing_eq {t : Tmpfs} {d : Nat} {dir : TmpfsDir} (present : t.dirs d = some dir) :
    listing t d = NamedList.names t.entryName dir.files := by
  rw [listing, present]

theorem names_congr {nameOf nameOf' : TmpfsEntry → Option CString} {entries : List TmpfsEntry}
    (same : ∀ entry ∈ entries, nameOf' entry = nameOf entry) :
    NamedList.names nameOf' entries = NamedList.names nameOf entries :=
  List.filterMap_congr same

/-- The name of an entry that is taken out goes away. -/
theorem names_erase {nameOf : TmpfsEntry → Option CString} {entries : List TmpfsEntry} {entry : TmpfsEntry}
    {name : CString} (distinct : NamedList.Distinct nameOf entries) (named : nameOf entry = some name)
    (member : entry ∈ entries) :
    NamedList.names nameOf (entries.erase entry) = (NamedList.names nameOf entries).erase name := by
  obtain ⟨front, rest, outside, rfl, erased⟩ := List.exists_erase_eq member
  have before : name ∉ NamedList.names nameOf front := by
    intro inFront
    obtain ⟨other, otherMember, otherNamed⟩ := List.mem_filterMap.mp inFront
    have nodup := distinct.nodup
    rw [List.map_append, List.nodup_append] at nodup
    exact nodup.2.2 _ (List.mem_map_of_mem otherMember) _ (List.mem_map_of_mem List.mem_cons_self)
      (otherNamed.trans named.symm)
  rw [erased]
  unfold NamedList.names at before ⊢
  rw [List.filterMap_append, List.filterMap_append, List.filterMap_cons_some named,
    List.erase_append_right _ before, List.erase_cons_head]

/-- What a call that makes an entry does to the listings. -/
theorem Adds.listing {t t' : Tmpfs} {bindings : Bindings} {e d : Nat} {dir : TmpfsDir} {name : CString}
    {made : Option TmpfsEntry} {result : Int} (bound : Tmpfs.Bound t bindings)
    (adds : Adds t e name made result t') (present : t.dirs d = some dir) :
    (∃ dir', t'.dirs d = some dir') ∧
      (listing t' d = listing t d ∨
        name ∉ listing t d ∧ listing t' d = listing t d ++ [name]) := by
  obtain ⟨parent, here, ⟨_, _, rfl⟩ | ⟨new, _, _, entry, _, _, added, fresh, named⟩⟩ := adds
  · exact ⟨⟨dir, present⟩, .inl rfl⟩
  have kept := added.kept here fresh
  have names : ∀ old ∈ dir.files, t'.entryName old = t.entryName old := by
    intro old member
    obtain ⟨oldName, oldNamed⟩ := (bound.distinct d dir present).named old member
    rw [kept.entryName oldNamed, oldNamed]
  by_cases same : d = e
  · subst same
    cases here.symm.trans present
    obtain ⟨dir', after, files, _⟩ := added.parent
    have absent : name ∉ Proofs.listing t d := by
      rw [listing_eq present, (bound.distinct d dir present).mem_names]
      rintro ⟨other, found⟩
      rw [findEntry_eq] at new
      rw [new] at found
      cases found
    refine ⟨⟨dir', after⟩, .inr ⟨absent, ?_⟩⟩
    rw [listing_eq after, listing_eq present, files]
    unfold NamedList.names at *
    rw [List.filterMap_append, List.filterMap_congr names, List.filterMap_cons_some named,
      List.filterMap_nil]
  · have other : TmpfsEntry.dir d ≠ entry := by
      rintro rfl
      rw [show t.dirs d = none from fresh] at present
      cases present
    have after := (added.otherDirs d same other).trans present
    exact ⟨⟨dir, after⟩, .inl (by rw [listing_eq after, listing_eq present, names_congr names])⟩

/-- What `unlink_tmpfs` does to the listings. -/
theorem unlink_listing {t t' : Tmpfs} {bindings : Bindings} {e d : Nat} {dir : TmpfsDir} {name : CString}
    {result : Int} (sound : Tmpfs.Sound t) (bound : Tmpfs.Bound t bindings)
    (unlinked : t.unlinkTmpfs e name = some (result, t')) (present : t.dirs d = some dir) :
    (∃ dir', t'.dirs d = some dir') ∧
      (¬ (e = d ∧ result = 0) ∧ (e = d → ∀ f, t.finddirTmpfs d name ≠ some (.file f)) ∧
          listing t' d = listing t d ∨
        e = d ∧ result = 0 ∧ (∃ f, t.finddirTmpfs d name = some (.file f)) ∧ name ∈ listing t d ∧
          listing t' d = (listing t d).erase name) := by
  obtain ⟨parent, here, ⟨missing, rfl, rfl⟩ | ⟨e', found, rfl, rfl⟩ | ⟨f, file, found, _, rfl, files,
    dirs, _⟩⟩ :=
    unlinkTmpfs_cases unlinked
  · refine ⟨⟨dir, present⟩, .inl ⟨(by rintro ⟨_, wrong⟩; cases wrong), fun same g found => ?_, rfl⟩⟩
    subst same
    rw [Tmpfs.finddirTmpfs, here, Option.bind_some, missing] at found
    cases found
  · refine ⟨⟨dir, present⟩, .inl ⟨(by rintro ⟨_, wrong⟩; cases wrong), fun same g found' => ?_, rfl⟩⟩
    subst same
    rw [Tmpfs.finddirTmpfs, here, Option.bind_some, found] at found'
    cases found'
  obtain ⟨rest, others⟩ := unlink_entryName sound bound here found files dirs
  by_cases same : e = d
  · subst same
    cases here.symm.trans present
    have distinct := bound.distinct e dir present
    have foundHere : t.finddirTmpfs e name = some (.file f) := by
      rw [Tmpfs.finddirTmpfs, present, Option.bind_some, found]
    rw [findEntry_eq] at found
    obtain ⟨member, named⟩ := distinct.find_eq_some.mp found
    have after : t'.dirs e = some { dir with files := dir.files.erase (.file f) } := by
      rw [dirs, Function.update_self]
    refine ⟨⟨_, after⟩, .inr ⟨rfl, rfl, ⟨f, foundHere⟩, ?_, ?_⟩⟩
    · rw [listing_eq present, distinct.mem_names]
      exact ⟨_, found⟩
    · rw [listing_eq after, listing_eq present, names_congr rest, names_erase distinct named member]
  · have after : t'.dirs d = some dir := by
      rw [dirs, Function.update_of_ne (Ne.symm same), present]
    refine ⟨⟨dir, after⟩, .inl ⟨fun both => same both.1, fun wrong => absurd wrong same, ?_⟩⟩
    rw [listing_eq after, listing_eq present, names_congr (others d dir (Ne.symm same) present)]

/-- The root of the file system stays the same. -/
theorem TmpfsCall.perform_root {t t' : Tmpfs} {call : TmpfsCall} {result : Int}
    (onDirectory : call.OnDirectory) (performed : call.perform t = some (result, t')) :
    t'.tmpfsRoot = t.tmpfsRoot := by
  cases call with
  | create who d name mode =>
      change t.createTmpfs who d name mode = some (result, t') at performed
      unfold Tmpfs.createTmpfs at performed
      split at performed
      · cases performed
      split at performed
      · cases performed
        rfl
      split at performed
      · cases performed
      rename_i made
      obtain ⟨t₂, linked, same⟩ := Option.map_eq_some_iff.mp performed
      cases same
      obtain ⟨m, rfl, _⟩ := newFile_spec made
      exact (addEntry_root linked).trans rfl
  | symlink who d target name =>
      change t.symlinkTmpfs who d target name = some (result, t') at performed
      unfold Tmpfs.symlinkTmpfs at performed
      split at performed
      · cases performed
      split at performed
      · cases performed
        rfl
      split at performed
      · cases performed
      rename_i made
      split at performed
      · cases performed
      rename_i copied
      obtain ⟨t₃, linked, same⟩ := Option.map_eq_some_iff.mp performed
      cases same
      obtain ⟨m, rfl, _⟩ := newFile_spec made
      unfold Tmpfs.strdup at copied
      split at copied <;> cases copied
      exact (addEntry_root linked).trans rfl
  | mkdir who d name mode =>
      change t.mkdirTmpfs who d name mode = some (result, t') at performed
      unfold Tmpfs.mkdirTmpfs at performed
      split at performed
      · cases performed
        rfl
      split at performed
      · cases performed
      split at performed
      · cases performed
        rfl
      split at performed
      · cases performed
      rename_i made
      obtain ⟨t₂, linked, same⟩ := Option.map_eq_some_iff.mp performed
      cases same
      obtain ⟨m, rfl, _⟩ := newDir_spec made
      exact (addEntry_root linked).trans rfl
  | write f offset size buffer => exact onDirectory.elim
  | truncate f => exact onDirectory.elim
  | unlink d name =>
      change t.unlinkTmpfs d name = some (result, t') at performed
      unfold Tmpfs.unlinkTmpfs at performed
      split at performed
      · cases performed
      split at performed
      · cases performed
        rfl
      · cases performed
        rfl
      split at performed
      · cases performed
      rename_i file _
      cases performed
      obtain ⟨m, shape, _⟩ := freeFile_spec t file
      rw [shape]
      rfl

/-! ## The scan -/

/-- A process scans a directory while others work on it. -/
inductive ScanOp
  | readdir
  | call (call : TmpfsCall)

/-- The file system, the index of the next `sys_readdir`, the names that the scan has returned without `.` and
`..`, the entries that exist since it began, and whether it has got a 0. -/
structure Scan where
  tmpfs : Tmpfs
  index : Nat
  returned : List CString
  surviving : List CString
  finished : Bool

/-- A scan that begins. -/
def Scan.start (t : Tmpfs) (d : Nat) : Scan :=
  { tmpfs := t, index := 0, returned := [], surviving := listing t d, finished := false }

/-- The entries of a directory that still exist after a call with a result. -/
def TmpfsCall.survivors (d : Nat) (result : Int) (names : List CString) : TmpfsCall → List CString
  | .unlink e name => if e = d ∧ result = 0 then names.filter (· ≠ name) else names
  | _ => names

/-- One step: the scan goes on, or a call is made. -/
def Scan.step (d : Nat) (s : Scan) (op : ScanOp) : Option Scan :=
  if s.finished then none
  else
    match op with
    | .readdir =>
        match s.tmpfs.readdirTmpfs d s.index with
        | none => some { s with finished := true }
        | some name =>
            some { s with
              index := s.index + 1
              returned :=
                if s.index < (ownEntries s.tmpfs d).length then s.returned else s.returned ++ [name] }
    | .call call =>
        (call.perform s.tmpfs).map fun done =>
          { s with tmpfs := done.2, surviving := call.survivors d done.1 s.surviving }

/-- The scan of the array behind `.` and `..`. -/
def Scan.view (d : Nat) (s : Scan) : IndexScan CString :=
  { items := listing s.tmpfs d
    place := s.index - (ownEntries s.tmpfs d).length
    returned := s.returned
    surviving := s.surviving }

/-- The calls work on directories. -/
def ScanOp.OnDirectory : ScanOp → Prop
  | .readdir => True
  | .call other => other.OnDirectory

/-- No file that the scan has passed is unlinked while an entry that exists since it began is the next one. -/
def ScanOp.KeepsPlace (d : Nat) (s : Scan) : ScanOp → Prop
  | .call (.unlink e name) =>
      e = d → (∃ f, s.tmpfs.finddirTmpfs d name = some (.file f)) → (s.view d).KeepsPlace name
  | _ => True

/-- The invariant of a scan, up to the entries that it skips. -/
structure ScanHolds (d : Nat) (s : Scan) : Prop where
  sound : Tmpfs.Sound s.tmpfs
  bound : ∃ bindings, Tmpfs.Bound s.tmpfs bindings
  present : ∃ dir, s.tmpfs.dirs d = some dir
  formed : (s.view d).WellFormed
  ended : s.finished = true → (s.view d).items.length ≤ (s.view d).place

variable {d : Nat} {s next : Scan} {op : ScanOp}

theorem listing_nodup {t : Tmpfs} {bindings : Bindings} (bound : Tmpfs.Bound t bindings) {dir : TmpfsDir}
    (present : t.dirs d = some dir) : (listing t d).Nodup := by
  rw [listing_eq present]
  exact (bound.distinct d dir present).names_nodup

/-- A scan that begins has returned nothing, and everything is ahead. -/
theorem Scan.start_holds {t : Tmpfs} (reachable : Tmpfs.Reachable t) {dir : TmpfsDir}
    (present : t.dirs d = some dir) :
    ScanHolds d (Scan.start t d) ∧ ((Scan.start t d).view d).NoneSkipped := by
  obtain ⟨bindings, bound⟩ := reachable.bound
  have nodup := listing_nodup bound present
  refine ⟨⟨reachable.sound, ⟨bindings, bound⟩, ⟨dir, present⟩, ⟨nodup, fun _ there => there⟩,
    (by intro wrong; cases wrong)⟩, ?_⟩
  have place : 0 - (ownEntries t d).length = 0 := Nat.zero_sub _
  unfold Scan.view Scan.start
  rw [place]
  exact IndexScan.noneSkipped_start nodup

/-- What `sys_readdir` returns, in terms of the listing. -/
theorem readdirTmpfs_listing (holds : ScanHolds d s) :
    s.tmpfs.readdirTmpfs d s.index = (ownEntries s.tmpfs d ++ listing s.tmpfs d)[s.index]? := by
  obtain ⟨bindings, bound⟩ := holds.bound
  obtain ⟨dir, present⟩ := holds.present
  rw [listing_eq present]
  exact readdirTmpfs_eq present (bound.distinct d dir present) s.index

/-- What a step does to the scan of the array: nothing, or the scan reads an item, an item is appended, or one
is taken out. -/
inductive Moves (d : Nat) (s next : Scan) (op : ScanOp) : Prop
  | same (view : next.view d = s.view d) (keeps : op.KeepsPlace d s)
  | reads (name : CString) (found : (s.view d).items[(s.view d).place]? = some name)
      (view : next.view d = (s.view d).next name) (keeps : op.KeepsPlace d s)
  | appends (name : CString) (new : name ∉ (s.view d).items)
      (view : next.view d = (s.view d).append name) (keeps : op.KeepsPlace d s)
  | erases (name : CString) (view : next.view d = (s.view d).erase name)
      (keeps : op.KeepsPlace d s ↔ (s.view d).KeepsPlace name)

/-- The scan goes on. -/
theorem Scan.readdir_moves (holds : ScanHolds d s) (running : ¬ s.finished = true)
    (stepped : Scan.step d s .readdir = some next) :
    next.tmpfs = s.tmpfs ∧ Moves d s next .readdir ∧
      (next.finished = true → (next.view d).items.length ≤ (next.view d).place) := by
  rw [Scan.step, if_neg running, readdirTmpfs_listing holds] at stepped
  cases found : (ownEntries s.tmpfs d ++ listing s.tmpfs d)[s.index]? with
  | none =>
      simp only [found, Option.some.injEq] at stepped
      subst stepped
      have ended := List.getElem?_eq_none_iff.mp found
      rw [List.length_append] at ended
      refine ⟨rfl, .same rfl trivial, fun _ => ?_⟩
      show (listing s.tmpfs d).length ≤ s.index - (ownEntries s.tmpfs d).length
      omega
  | some name =>
      simp only [found, Option.some.injEq] at stepped
      subst stepped
      refine ⟨rfl, ?_, fun finished => ?_⟩
      · by_cases own : s.index < (ownEntries s.tmpfs d).length
        · refine .same ?_ trivial
          have place : s.index + 1 - (ownEntries s.tmpfs d).length =
              s.index - (ownEntries s.tmpfs d).length := by omega
          simp only [Scan.view, if_pos own, place]
        · rw [List.getElem?_append_right (by omega)] at found
          refine .reads name found ?_ trivial
          have place : s.index + 1 - (ownEntries s.tmpfs d).length =
              s.index - (ownEntries s.tmpfs d).length + 1 := by omega
          simp only [Scan.view, if_neg own, place, IndexScan.next]
      · exact absurd finished running

/-- A call that makes an entry. -/
theorem Adds.moves {call : TmpfsCall} {t' : Tmpfs} {e : Nat} {name : CString} {made : Option TmpfsEntry}
    {result : Int} (holds : ScanHolds d s) (adds : Adds s.tmpfs e name made result t')
    (root : t'.tmpfsRoot = s.tmpfs.tmpfsRoot)
    (survivors : call.survivors d result s.surviving = s.surviving)
    (keeps : ScanOp.KeepsPlace d s (.call call)) :
    (∃ dir, t'.dirs d = some dir) ∧
      Moves d s { s with tmpfs := t', surviving := call.survivors d result s.surviving } (.call call) := by
  obtain ⟨bindings, bound⟩ := holds.bound
  obtain ⟨dir, present⟩ := holds.present
  obtain ⟨there, same | ⟨new, more⟩⟩ := adds.listing bound present
  · refine ⟨there, .same ?_ keeps⟩
    simp only [Scan.view, survivors, ownEntries, root, same]
  · refine ⟨there, .appends name new ?_ keeps⟩
    simp only [Scan.view, survivors, ownEntries, root, more, IndexScan.append]

/-- A call on directories. -/
theorem Scan.call_moves {call : TmpfsCall} {t' : Tmpfs} {result : Int} (holds : ScanHolds d s)
    (onDirectory : call.OnDirectory) (performed : call.perform s.tmpfs = some (result, t')) :
    (∃ dir, t'.dirs d = some dir) ∧
      Moves d s { s with tmpfs := t', surviving := call.survivors d result s.surviving } (.call call) := by
  have root := TmpfsCall.perform_root onDirectory performed
  obtain ⟨bindings, bound⟩ := holds.bound
  obtain ⟨dir, present⟩ := holds.present
  cases call with
  | create who e name mode =>
      exact (createTmpfs_adds holds.sound.owned performed).moves holds root rfl trivial
  | symlink who e target name =>
      exact (symlinkTmpfs_adds holds.sound.owned performed).moves holds root rfl trivial
  | mkdir who e name mode =>
      by_cases empty : name = []
      · change s.tmpfs.mkdirTmpfs who e name mode = some (result, t') at performed
        unfold Tmpfs.mkdirTmpfs at performed
        rw [if_pos empty] at performed
        cases performed
        exact ⟨⟨dir, present⟩, .same rfl trivial⟩
      · exact (mkdirTmpfs_adds holds.sound.owned empty performed).moves holds root rfl trivial
  | write f offset size buffer => exact onDirectory.elim
  | truncate f => exact onDirectory.elim
  | unlink e name =>
      obtain ⟨there, ⟨missed, noFile, same⟩ | ⟨rfl, rfl, isFile, member, less⟩⟩ :=
        unlink_listing holds.sound bound performed present
      · refine ⟨there, .same ?_ fun same ⟨f, found⟩ => absurd found (noFile same f)⟩
        simp only [Scan.view, TmpfsCall.survivors, if_neg missed, ownEntries, root, same]
      · refine ⟨there, .erases name ?_ ⟨fun keeps => keeps rfl isFile, fun keeps _ _ => keeps⟩⟩
        simp only [Scan.view, TmpfsCall.survivors, and_self, if_true, ownEntries, root, less, IndexScan.erase]
        congr 2
        exact sameTest.symm

/-- Every step keeps the invariant. -/
theorem Scan.step_moves (holds : ScanHolds d s) (onDirectory : op.OnDirectory)
    (stepped : Scan.step d s op = some next) : ScanHolds d next ∧ Moves d s next op := by
  have running : ¬ s.finished = true := by
    intro finished
    unfold Scan.step at stepped
    rw [if_pos finished] at stepped
    cases stepped
  have formed : Moves d s next op → (next.view d).WellFormed := by
    rintro (⟨view, -⟩ | ⟨name, -, view, -⟩ | ⟨name, new, view, -⟩ | ⟨name, view, -⟩) <;> rw [view]
    · exact holds.formed
    · exact ⟨holds.formed.nodup, holds.formed.there⟩
    · exact holds.formed.append new
    · exact holds.formed.erase
  cases op with
  | readdir =>
      obtain ⟨same, moves, ended⟩ := Scan.readdir_moves holds running stepped
      exact ⟨⟨by rw [same]; exact holds.sound, by rw [same]; exact holds.bound,
        by rw [same]; exact holds.present, formed moves, ended⟩, moves⟩
  | call call =>
      rw [Scan.step, if_neg running] at stepped
      obtain ⟨⟨result, t'⟩, performed, rfl⟩ := Option.map_eq_some_iff.mp stepped
      obtain ⟨bindings, bound⟩ := holds.bound
      have allowed : call.Allowed s.tmpfs := by
        cases call <;> trivial
      obtain ⟨present, moves⟩ := Scan.call_moves holds onDirectory performed
      refine ⟨⟨holds.sound.step allowed (TmpfsCall.step_of_perform performed),
        ⟨_, bound.perform holds.sound allowed performed⟩, present, formed moves,
        fun finished => absurd finished running⟩, moves⟩

/-- A step skips nothing exactly if it keeps the place of the scan. -/
theorem Moves.noneSkipped (holds : ScanHolds d s) (before : (s.view d).NoneSkipped)
    (moves : Moves d s next op) : (next.view d).NoneSkipped ↔ op.KeepsPlace d s := by
  rcases moves with ⟨view, keeps⟩ | ⟨name, found, view, keeps⟩ | ⟨name, new, view, keeps⟩ | ⟨name, view,
    keeps⟩ <;>
    rw [view]
  · exact iff_of_true before keeps
  · exact iff_of_true ((IndexScan.noneSkipped_next found).mpr before) keeps
  · exact iff_of_true ((IndexScan.noneSkipped_append holds.formed new).mpr before) keeps
  · rw [keeps]
    exact IndexScan.noneSkipped_erase holds.formed before

/-- In every run of a scan and of calls on directories whose steps all keep the place of the scan, the scan
returns every entry that exists from its beginning to its end once; and the next step skips an entry
exactly if it does not keep the place. -/
theorem scan_returns_survivors {t : Tmpfs} (reachable : Tmpfs.Reachable t) {dir : TmpfsDir}
    (present : t.dirs d = some dir) {ops : List ScanOp}
    (run : Run (Scan.step d) (fun s op => op.OnDirectory ∧ op.KeepsPlace d s) (Scan.start t d) ops s) :
    (s.finished = true → ∀ name ∈ s.surviving, s.returned.count name = 1) ∧
      ∀ op next, op.OnDirectory → Scan.step d s op = some next →
        ((next.view d).NoneSkipped ↔ op.KeepsPlace d s) := by
  have invariant := @Run.invariant _ _ _ _ (fun s => ScanHolds d s ∧ (s.view d).NoneSkipped)
    (fun s op next allowed stepped holds => by
      obtain ⟨after, moves⟩ := Scan.step_moves holds.1 allowed.1 stepped
      exact ⟨after, (moves.noneSkipped holds.1 holds.2).mpr allowed.2⟩)
    _ _ _ run (Scan.start_holds reachable present)
  refine ⟨fun finished name survives => ?_, fun op next onDirectory stepped => ?_⟩
  · have once := invariant.2.ended (invariant.1.ended finished) name survives
    rw [sameTest] at once
    exact once
  · exact (Scan.step_moves invariant.1 onDirectory stepped).2.noneSkipped invariant.1 invariant.2

/-- A test of steps that keep the place: an unlinked entry was not passed. -/
def ScanOp.check (d : Nat) (s : Scan) : ScanOp → Bool
  | .readdir => true
  | .call (.create _ _ _ _) => true
  | .call (.unlink _ name) => decide (name ∉ (s.view d).items.take (s.view d).place)
  | _ => false

theorem ScanOp.check_sound (d : Nat) (s : Scan) (op : ScanOp) (checked : op.check d s = true) :
    op.OnDirectory ∧ op.KeepsPlace d s := by
  cases op with
  | readdir => exact ⟨trivial, trivial⟩
  | call call =>
      cases call with
      | create who e name mode => exact ⟨trivial, trivial⟩
      | unlink e name => exact ⟨trivial, fun _ _ passed => absurd passed (of_decide_eq_true checked)⟩
      | symlink | mkdir | write | truncate => cases checked

/-- The files `a`, `b` and `c` in a new root directory. -/
def threeFiles : List TmpfsCall :=
  [.create ⟨0, 0⟩ 0 [97] 0o644, .create ⟨0, 0⟩ 0 [98] 0o644, .create ⟨0, 0⟩ 0 [99] 0o644]

/-- `b` is unlinked before the scan gets to it, and a new file is made. -/
def goodScan : List ScanOp :=
  [.readdir, .call (.unlink 0 [98]), .call (.create ⟨0, 0⟩ 0 [100] 0o644), .readdir, .readdir, .readdir]

/-- The scan runs to its end, with steps that pass the test. -/
def goodScanEnds (t : Tmpfs) : Bool :=
  (t.dirs 0).isSome &&
    (Run.exec (fun s op => if op.check 0 s then Scan.step 0 s op else none) (Scan.start t 0) goodScan).any
      fun s => s.finished && decide (s.surviving = [[97], [99]])

theorem scan_returns_survivors_example : ∃ t s, Tmpfs.Reachable t ∧
    Run.exec (Scan.step 0) (Scan.start t 0) goodScan = some s ∧ s.finished = true ∧
    s.surviving = [[97], [99]] ∧ ∀ name ∈ s.surviving, s.returned.count name = 1 := by
  obtain ⟨t, reachable, facts⟩ := @Tmpfs.Reachable.of_checked 0 [] threeFiles goodScanEnds
    (by decide +kernel)
  rw [goodScanEnds, Bool.and_eq_true, Option.any_eq_true] at facts
  obtain ⟨there, s, ran, finished⟩ := facts
  obtain ⟨dir, present⟩ := Option.isSome_iff_exists.mp there
  rw [Bool.and_eq_true, decide_eq_true_eq] at finished
  have run := Run.of_checked (ScanOp.check_sound 0) ran
  exact ⟨t, s, reachable, run.executed, finished.1, finished.2,
    (scan_returns_survivors reachable present run).1 finished.1⟩

/-- `a` is unlinked when the scan has returned it: `b` takes its place and is never returned. -/
theorem scan_skips : ∃ t, Tmpfs.Reachable t ∧
    (Run.exec (Scan.step 0) (Scan.start t 0)
      [.readdir, .call (.unlink 0 [97]), .readdir, .readdir]).any (fun s =>
        s.finished && decide ([98] ∈ s.surviving) && decide (s.returned = [[97], [99]])) = true :=
  @Tmpfs.Reachable.of_checked 0 [] threeFiles _ (by decide +kernel)

end Voxel.Proofs
