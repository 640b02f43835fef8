/-
Module: Voxel.Proofs.OpenUnlinked
Layer: Proofs
Purpose: Unlinking and open descriptors. A run is followed by a record of the bytes that were written last. As
  long as no file with an open descriptor is unlinked, every descriptor has its record and its blocks, a
  write changes no other frame, and a read returns what was written.
Trusted boundary: none
Main exports: FileSyscall, Watched, DescriptorsSafe, AccessSafe, SafeCall, syscall_tmpfs, Watched.Sound.step,
  open_files_stay
-/
import Voxel.Proofs.OpenFiles

namespace Voxel.Proofs

open Voxel.Lib Voxel.Kernel

/-! ## Calls -/

/-- The calls on descriptors and on names, by any process. -/
inductive FileSyscall
  | onFd (call : FdCall)
  | sysUnlink (who : Credentials) (path : Option CString)
  | sysMkdir (who : Credentials) (path : Option CString) (mode : BitVec 64)
  | sysSymlink (who : Credentials) (target name : Option CString)

/-- The state of the files, and for every file the byte that was written last at every position in it. -/
structure Watched (Foreign : Type) where
  state : OpenFiles Foreign
  written : Written

section Watch

variable {Foreign : Type} {s s' : OpenFiles Foreign} {p f : Nat} {node : OpenNode Foreign}
  {result : BitVec 64} {call : FileSyscall}

/-- The result of a call and the state after it. -/
def FileSyscall.perform (s : OpenFiles Foreign) : FileSyscall → Option (BitVec 64 × OpenFiles Foreign)
  | .onFd call => call.perform s
  | .sysUnlink who path => s.sysUnlink who path
  | .sysMkdir who path mode => s.sysMkdir who path mode
  | .sysSymlink who target name => s.sysSymlink who target name

/-- The record with the buffer of a write that goes to a file. -/
def FileSyscall.store (s : OpenFiles Foreign) (written : Written) : FileSyscall → Written
  | .onFd (.sysWrite p fd ptr len valid buffer _) =>
      match s.accessNode p fd ptr len valid 0o2 with
      | .error _ => written
      | .ok node =>
          match node.device with
          | .tmpfs (.file f) =>
              if flagSet node.flags fsSymlink = true then written
              else
                Function.update written f
                  (overlay (written f) node.userOffset.toNat len.toNat buffer)
          | _ => written
  | _ => written

/-- The part of the record that is in the files: a truncation and the end of a file take it away. -/
def clip (t : Tmpfs) (written : Written) : Written :=
  fun f position =>
    if (t.files f).any (fun file => decide (position < file.length)) then written f position else none

/-- A call, and its entry in the record. -/
def Watched.step (w : Watched Foreign) (call : FileSyscall) : Option (Watched Foreign) :=
  (call.perform w.state).map fun done => ⟨done.2, clip done.2.tmpfs (call.store w.state w.written)⟩

/-- The read gets past the checks and goes to the tmpfs file `f`. -/
structure ReadsFrom (s : OpenFiles Foreign) (p : Nat) (fd ptr len : BitVec 64) (valid : Bool)
    (node : OpenNode Foreign) (f : Nat) : Prop where
  access : s.accessNode p fd ptr len valid 0o1 = .ok node
  device : node.device = .tmpfs (.file f)
  notLink : flagSet node.flags fsSymlink = false

/-! ## Safety -/

/-- A read returns the bytes of the blocks of its file, and what was written last where something was written.
A write changes no byte outside the blocks of its file, whose frames are in use. -/
def AccessSafe (w : Watched Foreign) (s' : OpenFiles Foreign) : FileSyscall → Prop
  | .onFd (.sysRead p fd ptr len valid buffer answer) => ∀ node f,
      ReadsFrom w.state p fd ptr len valid node f → ∃ file read after,
        w.state.tmpfs.files f = some file ∧
        w.state.sysRead p fd ptr len valid buffer answer =
          some ((BitVec.ofNat 64 (min len.toNat (file.length - node.userOffset.toNat)), read), after) ∧
        ∀ k < min len.toNat (file.length - node.userOffset.toNat),
          TmpfsFile.byteAt file w.state.tmpfs.phys (node.userOffset.toNat + k) = some (read k) ∧
          ∀ byte, w.written f (node.userOffset.toNat + k) = some byte → read k = byte
  | .onFd (.sysWrite p fd ptr len valid _ _) => ∀ node f, WritesTo w.state p fd ptr len valid node f →
      ∃ file, s'.tmpfs.files f = some file ∧ (∀ block ∈ file.blocks, Used s'.tmpfs.frames block) ∧
        ∀ address, address / blockSize ∉ file.blocks →
          s'.tmpfs.phys address = w.state.tmpfs.phys address
  | _ => True

/-- The path names the file in a directory that the process may write to. -/
def NamesFile (s : OpenFiles Foreign) (who : Credentials) (name : CString) (f : Nat) : Prop :=
  ∃ parent d filename, s.system.vfs.kopen name true = some (some parent) ∧
    checkPermission who parent.attributes 0o2 = true ∧ lastFilename name = some filename ∧
    parent.device = .tmpfs (.dir d) ∧ s.tmpfs.finddirTmpfs d filename = some (.file f)

/-- No file with an open descriptor is unlinked; a read begins in its file or at its end, and no access wraps
around. -/
def SafeCall (s : OpenFiles Foreign) : FileSyscall → Prop
  | .onFd (.sysRead p fd ptr len valid _ _) => ∀ node f file, ReadsFrom s p fd ptr len valid node f →
      s.tmpfs.files f = some file →
        node.userOffset.toNat ≤ file.length ∧ NoWrap node.userOffset.toNat len.toNat
  | .onFd (.sysWrite p fd ptr len valid _ _) => ∀ node f, WritesTo s p fd ptr len valid node f →
      NoWrap node.userOffset.toNat len.toNat
  | .sysUnlink who path => ∀ name f, path = some name → NamesFile s who name f →
      ∀ p node, some node ∈ s.fds p → node.device ≠ .tmpfs (.file f)
  | _ => True

/-! ## What the calls ask of tmpfs -/

/-- The nodes in the tables are on files that are there, and are links if these are. -/
def OpenPresent (s : OpenFiles Foreign) : Prop :=
  ∀ p node f, some node ∈ s.fds p → node.device = .tmpfs (.file f) →
    ∃ file, s.tmpfs.files f = some file ∧ flagSet node.flags fsSymlink = file.target.isSome

/-- A call that adds a name. -/
theorem addsName_tmpfs {system : FileSystem Foreign} {who : Credentials} {name : CString} {looks : Bool}
    {missing code : Int} {callback : Tmpfs → Nat → CString → Option (Int × Tmpfs)} {t' : Tmpfs}
    {asks : Nat → CString → TmpfsCall} (isError : missing ≠ 0)
    (stepped : ∀ d filename result t', callback system.tmpfs d filename = some (result, t') →
      (asks d filename).step system.tmpfs = some t')
    (called : system.createAt who name looks missing callback = some (some (code, t'))) :
    t' = system.tmpfs ∨ ∃ d filename, (asks d filename).step system.tmpfs = some t' := by
  rcases createAt_cases isError called with ⟨_, same⟩ | ⟨_, d, filename, _, _, _, _, ran⟩
  · exact Or.inl same
  · exact Or.inr ⟨d, filename, stepped d filename code t' ran⟩

/-- `sys_mkdir` asks tmpfs for a directory. -/
theorem sysMkdir_tmpfs {who : Credentials} {path : Option CString} {mode : BitVec 64}
    (made : s.sysMkdir who path mode = some (result, s')) :
    s' = { s with tmpfs := s'.tmpfs } ∧
      (s'.tmpfs = s.tmpfs ∨ ∃ d name, TmpfsCall.step s.tmpfs (.mkdir who d name (mode.setWidth 32)) =
        some s'.tmpfs) := by
  unfold OpenFiles.sysMkdir at made
  split at made
  · cases made
    exact ⟨rfl, Or.inl rfl⟩
  rename_i name
  obtain ⟨⟨code, t'⟩, called, same⟩ := Option.map_eq_some_iff.mp made
  cases same
  refine ⟨rfl, ?_⟩
  have called := Option.join_eq_some_iff.mp called
  unfold FileSystem.mkdir at called
  split at called
  · cases called
    exact Or.inl rfl
  · exact @addsName_tmpfs _ s.system _ _ _ _ _ _ _
      (fun d filename => .mkdir who d filename (mode.setWidth 32)) (by decide)
      (fun d filename result t' ran => Option.map_eq_some_iff.mpr ⟨_, ran, rfl⟩) called

/-- `sys_symlink` asks tmpfs for a link. -/
theorem sysSymlink_tmpfs {who : Credentials} {target name : Option CString}
    (made : s.sysSymlink who target name = some (result, s')) :
    s' = { s with tmpfs := s'.tmpfs } ∧
      (s'.tmpfs = s.tmpfs ∨ ∃ d target name, TmpfsCall.step s.tmpfs (.symlink who d target name) =
        some s'.tmpfs) := by
  unfold OpenFiles.sysSymlink at made
  split at made
  · rename_i target name
    obtain ⟨⟨code, t'⟩, called, same⟩ := Option.map_eq_some_iff.mp made
    cases same
    refine ⟨rfl, ?_⟩
    have called := Option.join_eq_some_iff.mp called
    unfold FileSystem.symlink at called
    split at called
    · cases called
      exact Or.inl rfl
    · rcases @addsName_tmpfs _ s.system _ _ _ _ _ _ _ (fun d filename => .symlink who d target filename)
        (by decide) (fun d filename result t' ran => Option.map_eq_some_iff.mpr ⟨_, ran, rfl⟩) called with
        same | ⟨d, filename, ran⟩
      · exact Or.inl same
      · exact Or.inr ⟨d, target, filename, ran⟩
  · cases made
    exact ⟨rfl, Or.inl rfl⟩

/-- `sys_unlink` asks tmpfs to unlink a name, and if a file goes, the path named it. -/
theorem sysUnlink_tmpfs {who : Credentials} {path : Option CString}
    (unlinked : s.sysUnlink who path = some (result, s')) :
    s' = { s with tmpfs := s'.tmpfs } ∧
      (s'.tmpfs = s.tmpfs ∨ ∃ name d filename f, path = some name ∧ NamesFile s who name f ∧
        TmpfsCall.step s.tmpfs (.unlink d filename) = some s'.tmpfs ∧
        s'.tmpfs.files = Function.update s.tmpfs.files f none) := by
  unfold OpenFiles.sysUnlink at unlinked
  split at unlinked
  · cases unlinked
    exact ⟨rfl, Or.inl rfl⟩
  rename_i name
  obtain ⟨⟨code, t'⟩, called, same⟩ := Option.map_eq_some_iff.mp unlinked
  cases same
  refine ⟨rfl, ?_⟩
  have called := Option.join_eq_some_iff.mp called
  unfold OpenFiles.unlink at called
  split at called
  · cases called
    exact Or.inl rfl
  rcases createAt_cases (by decide) called with
    ⟨_, same⟩ | ⟨parent, d, filename, walked, may, last, device, ran⟩
  · exact Or.inl same
  obtain ⟨dir, present, ⟨_, _, same⟩ | ⟨_, _, _, same⟩ | ⟨f, file, found, _, _, files, _⟩⟩ :=
    unlinkTmpfs_cases ran
  · exact Or.inl same
  · exact Or.inl same
  · refine Or.inr ⟨name, d, filename, f, rfl, ⟨parent, d, filename, walked, may, last, device, ?_⟩,
      Option.map_eq_some_iff.mpr ⟨_, ran, rfl⟩, files⟩
    change s.tmpfs.dirs d = some dir at present
    rw [Tmpfs.finddirTmpfs, present]
    exact found

/-- The state of tmpfs and the record `before` become `after` by allowed calls. -/
def LeadsTo (before after : Noted) : Prop :=
  ∃ calls, Run Noted.step (fun n call => call.Allowed n.tmpfs) before calls after

theorem LeadsTo.refl (n : Noted) : LeadsTo n n := ⟨[], .refl n⟩

theorem LeadsTo.trans {n n' n'' : Noted} (first : LeadsTo n n') (second : LeadsTo n' n'') :
    LeadsTo n n'' := by
  obtain ⟨calls, run⟩ := first
  obtain ⟨more, runMore⟩ := second
  exact ⟨calls ++ more, run.trans runMore⟩

theorem LeadsTo.ask {t t' : Tmpfs} {written : Written} (asked : TmpfsCall) (allowed : asked.Allowed t)
    (stepped : asked.step t = some t') : LeadsTo ⟨t, written⟩ ⟨t', asked.note t written⟩ :=
  ⟨[asked], .single allowed (Option.map_eq_some_iff.mpr ⟨t', stepped, rfl⟩)⟩

theorem LeadsTo.sound {n n' : Noted} (follows : LeadsTo n n')
    (start : Tmpfs.Sound n.tmpfs ∧ Remembers n.tmpfs n.written) :
    Tmpfs.Sound n'.tmpfs ∧ Remembers n'.tmpfs n'.written := by
  obtain ⟨calls, run⟩ := follows
  have keeps : ∀ n call n', TmpfsCall.Allowed n.tmpfs call → Noted.step n call = some n' →
      (Tmpfs.Sound n.tmpfs ∧ Remembers n.tmpfs n.written) →
        (Tmpfs.Sound n'.tmpfs ∧ Remembers n'.tmpfs n'.written) := by
    intro n call n' allowed stepped both
    obtain ⟨t, called, rfl⟩ := Option.map_eq_some_iff.mp stepped
    exact ⟨both.1.step allowed called, both.2.step both.1 allowed called⟩
  exact run.invariant keeps start

/-- The files of one state are in the other one, as links or as regular files. -/
def FilesKept (t t' : Tmpfs) : Prop :=
  ∀ f file, t.files f = some file → ∃ file', t'.files f = some file' ∧ file'.target = file.target

theorem FilesKept.refl (t : Tmpfs) : FilesKept t t := fun _ file present => ⟨file, present, rfl⟩

theorem FilesKept.update {t t' : Tmpfs} {file file' : TmpfsFile} (present : t.files f = some file)
    (files : t'.files = Function.update t.files f (some file')) (target : file'.target = file.target) :
    FilesKept t t' := by
  intro g other here
  rw [files]
  by_cases same : g = f
  · subst same
    cases present.symm.trans here
    exact ⟨file', Function.update_self g _ _, target⟩
  · exact ⟨other, by rw [Function.update_of_ne same]; exact here, rfl⟩

theorem OpenPresent.follows (open_ : OpenPresent s) (nodes : NodesFrom s s')
    (kept : FilesKept s.tmpfs s'.tmpfs) : OpenPresent s' := by
  intro p node f member isFile
  obtain ⟨q, old, before, same⟩ := nodes p node member
  rw [same] at isFile ⊢
  obtain ⟨file, present, isLink⟩ := open_ q old f before isFile
  obtain ⟨file', present', target⟩ := kept f file present
  exact ⟨file', present', by rw [target]; exact isLink⟩

/-- What is in the clipped record was in the record. -/
theorem clip_some {t : Tmpfs} {written : Written} {position : Nat} {byte : BitVec 8}
    (here : clip t written f position = some byte) :
    written f position = some byte ∧ ∃ file, t.files f = some file ∧ position < file.length := by
  unfold clip at here
  split at here
  · rename_i inside
    obtain ⟨file, present, below⟩ := (Option.any_eq_true _ _).mp inside
    exact ⟨here, file, present, of_decide_eq_true below⟩
  · cases here

/-- The record of a file without bytes can be forgotten. -/
theorem clip_forget {t : Tmpfs} {written : Written} {g position : Nat} {byte : BitVec 8}
    (empty : ∀ file, t.files f = some file → file.length = 0)
    (here : clip t written g position = some byte) :
    Function.update written f (fun _ => none) g position = some byte := by
  obtain ⟨noted, file, present, below⟩ := clip_some here
  have different : g ≠ f := by
    rintro rfl
    have none_ := empty file present
    omega
  rw [Function.update_of_ne different]
  exact noted

/-- One call: what it asks of tmpfs, the record, and the files of the descriptors. -/
structure Asked (s s' : OpenFiles Foreign) (written written' : Written) : Prop where
  follows : ∃ noted, LeadsTo ⟨s.tmpfs, written⟩ ⟨s'.tmpfs, noted⟩ ∧
    ∀ f position byte, clip s'.tmpfs written' f position = some byte → noted f position = some byte
  open_ : OpenPresent s'

/-- Calls of tmpfs that only add names. -/
theorem Asked.adds {written : Written} (asked : TmpfsCall) (open_ : OpenPresent s)
    (sound : Tmpfs.Sound s.tmpfs) (adding : asked.Adding) (shape : s' = { s with tmpfs := s'.tmpfs })
    (stepped : asked.step s.tmpfs = some s'.tmpfs) : Asked s s' written written := by
  have noted : asked.Allowed s.tmpfs ∧ asked.note s.tmpfs written = written := by
    cases asked with
    | create | symlink | mkdir => exact ⟨trivial, rfl⟩
    | write | truncate | unlink => exact adding.elim
  have follows : LeadsTo ⟨s.tmpfs, written⟩ ⟨s'.tmpfs, asked.note s.tmpfs written⟩ :=
    .ask asked noted.1 stepped
  rw [noted.2] at follows
  refine ⟨⟨written, follows, fun _ _ _ here => (clip_some here).1⟩, ?_⟩
  obtain ⟨d, kept, _⟩ := adding_step sound adding stepped
  refine open_.follows (fun q node member => ⟨q, node, ?_, .refl node⟩)
    fun f file present => ⟨file, (kept.files f file present).1, rfl⟩
  rw [shape] at member
  exact member

theorem Asked.nothing {written : Written} (open_ : OpenPresent s) (same : s'.tmpfs = s.tmpfs)
    (nodes : NodesFrom s s') : Asked s s' written written :=
  ⟨⟨written, same ▸ .refl _, fun _ _ _ here => (clip_some here).1⟩,
    open_.follows nodes (same ▸ .refl _)⟩

/-- Making a missing file asks tmpfs for it. -/
theorem Made.follows {t t' : Tmpfs} {written : Written} (made : Made t t') :
    LeadsTo ⟨t, written⟩ ⟨t', written⟩ := by
  rcases made with rfl | ⟨who, d, name, mode, created⟩
  · exact .refl _
  · exact .ask (.create who d name mode) trivial (Option.map_eq_some_iff.mpr ⟨_, created, rfl⟩)

/-- `sys_open` asks tmpfs to make a file, to truncate it, or both. -/
theorem Asked.opens {who : Credentials} {file : Option CString} {flags mode : BitVec 64} {written : Written}
    (open_ : OpenPresent s) (sound : Tmpfs.Sound s.tmpfs) (remembers : Remembers s.tmpfs written)
    (opened : s.sysOpen p who file flags mode = some (result, s')) : Asked s s' written written := by
  have keeps : ∀ {made}, Made s.tmpfs made → FilesKept s.tmpfs made :=
    fun isMade f file present => ⟨file, ((isMade.kept sound.owned).2 f file present).1, rfl⟩
  rcases sysOpen_cases opened with ⟨made, isMade, rfl⟩ | ⟨path, made, node, accessBit, _, opens⟩
  · exact ⟨⟨written, isMade.follows, fun _ _ _ here => (clip_some here).1⟩,
      open_.follows (.refl s) (keeps isMade)⟩
  have isMade : Made s.tmpfs made := opens.before.imp And.left And.right
  have soundMade := (@Made.follows _ _ written isMade).sound ⟨sound, remembers⟩
  obtain ⟨_, files⟩ := opens.files (isMade.kept sound.owned).1
  -- the truncation leaves the records, with their kinds
  have kept : FilesKept made s'.tmpfs := by
    rcases files with ⟨same, _⟩ | ⟨_, f, file, _, _, present, changed⟩
    · exact same ▸ .refl _
    · exact .update present changed rfl
  constructor
  · rcases files with ⟨same, _⟩ | ⟨_, f, file, _, stepped, present, changed⟩
    · exact ⟨written, same ▸ isMade.follows, fun _ _ _ here => (clip_some here).1⟩
    · have linked : Tmpfs.Linked made f := by
        rw [soundMade.1.listed f, present]
        rfl
      refine ⟨_, isMade.follows.trans (.ask (.truncate f) linked stepped), ?_⟩
      intro g position byte here
      refine clip_forget (fun other isOther => ?_) here
      rw [changed, Function.update_self] at isOther
      cases isOther
      rfl
  · intro q other g member isFile
    rw [opens.table] at member
    have old : some other ∈ s.fds q → ∃ record, s'.tmpfs.files g = some record ∧
        flagSet other.flags fsSymlink = record.target.isSome := by
      intro before
      obtain ⟨record, present, isLink⟩ := open_ q other g before isFile
      obtain ⟨record', present', target⟩ := keeps isMade g record present
      obtain ⟨record'', present'', target'⟩ := kept g record' present'
      exact ⟨record'', present'', by rw [target', target]; exact isLink⟩
    by_cases here : q = p
    · rw [here, Function.update_self] at member
      rcases List.mem_append.mp member with before | last
      · exact old (here ▸ before)
      · cases List.mem_singleton.mp last
        obtain ⟨record, present, _, isLink, _⟩ := kopen_file opens.found isFile
        obtain ⟨record', present', target⟩ := kept g record present
        exact ⟨record', present', by rw [target]; exact isLink⟩
    · rw [Function.update_of_ne here] at member
      exact old member

/-- The record after a write. -/
theorem store_write {fd ptr len : BitVec 64} {valid : Bool} (buffer : Nat → BitVec 8) (answer : Nat)
    (written : Written) :
    ((∀ node f, ¬ WritesTo s p fd ptr len valid node f) →
        FileSyscall.store s written (.onFd (.sysWrite p fd ptr len valid buffer answer)) = written) ∧
      ∀ node f, WritesTo s p fd ptr len valid node f →
        FileSyscall.store s written (.onFd (.sysWrite p fd ptr len valid buffer answer)) =
          Function.update written f (overlay (written f) node.userOffset.toNat len.toNat buffer) := by
  constructor
  · intro nowhere
    rw [FileSyscall.store]
    split
    · rfl
    rename_i node access
    split
    · rename_i f device
      refine if_pos ?_
      by_contra notLink
      exact nowhere node f ⟨access, device, by simpa using notLink⟩
    · rfl
  · intro node f writes
    rw [FileSyscall.store, writes.access]
    dsimp only
    rw [writes.device]
    exact if_neg (by rw [writes.notLink]; decide)

/-- `sys_write` asks tmpfs for a write. -/
theorem Asked.writes {fd ptr len : BitVec 64} {valid : Bool} {buffer : Nat → BitVec 8} {answer : Nat}
    {written : Written} (open_ : OpenPresent s) (sound : Tmpfs.Sound s.tmpfs)
    (inside : ∀ node f, WritesTo s p fd ptr len valid node f → NoWrap node.userOffset.toNat len.toNat)
    (wrote : s.sysWrite p fd ptr len valid buffer answer = some (result, s')) :
    Asked s s' written
      (FileSyscall.store s written (.onFd (.sysWrite p fd ptr len valid buffer answer))) := by
  obtain ⟨nodes, _, ⟨same, nowhere, _⟩ | ⟨node, f, n, writes, _, done, _⟩⟩ := sysWrite_cases wrote
  · rw [(store_write buffer answer written).1 nowhere]
    exact .nothing open_ same nodes
  · rw [(store_write buffer answer written).2 node f writes]
    obtain ⟨file, present, _⟩ := open_ p node f (accessNode_member writes.access) writes.device
    have linked : Tmpfs.Linked s.tmpfs f := by
      rw [sound.listed f, present]
      rfl
    have stepped : TmpfsCall.step s.tmpfs (.write f node.userOffset.toNat len.toNat buffer) =
        some s'.tmpfs := Option.map_eq_some_iff.mpr ⟨_, done, rfl⟩
    obtain ⟨old, file', presentOld, files, _, target, _⟩ := writeTmpfs_grows done
    refine ⟨⟨_, .ask (.write f _ _ buffer) ⟨linked, inside node f writes⟩ stepped, ?_⟩,
      open_.follows nodes (.update presentOld files target)⟩
    exact fun _ _ _ here => (clip_some here).1

/-- Every safe call asks tmpfs for what is allowed. -/
theorem syscall_tmpfs {written : Written} (open_ : OpenPresent s) (sound : Tmpfs.Sound s.tmpfs)
    (remembers : Remembers s.tmpfs written) (safe : SafeCall s call)
    (performed : call.perform s = some (result, s')) :
    Asked s s' written (call.store s written) := by
  cases call with
  | onFd call =>
      have called : call.perform s = some (result, s') := performed
      cases call with
      | sysOpen p who file flags mode => exact .opens open_ sound remembers performed
      | sysWrite p fd ptr len valid buffer answer => exact .writes open_ sound safe performed
      | sysRead | sysSeek | sysClose | processDup2 | spawnFds | exitFds | execFds =>
          obtain ⟨same, _, nodes⟩ := perform_quiet called trivial
          exact .nothing open_ same nodes
  | sysMkdir who path mode =>
      obtain ⟨shape, same | ⟨d, name, stepped⟩⟩ := sysMkdir_tmpfs performed
      · exact .nothing open_ same (shape ▸ .refl s)
      · exact .adds (.mkdir who d name (mode.setWidth 32)) open_ sound trivial shape stepped
  | sysSymlink who target name =>
      obtain ⟨shape, same | ⟨d, target, name, stepped⟩⟩ := sysSymlink_tmpfs performed
      · exact .nothing open_ same (shape ▸ .refl s)
      · exact .adds (.symlink who d target name) open_ sound trivial shape stepped
  | sysUnlink who path =>
      obtain ⟨shape, same | ⟨name, d, filename, f, isPath, names, stepped, files⟩⟩ :=
        sysUnlink_tmpfs performed
      · exact .nothing open_ same (shape ▸ .refl s)
      · have closed := safe name f isPath names
        constructor
        · refine ⟨_, .ask (.unlink d filename) trivial stepped, fun g position byte here => ?_⟩
          rcases unlink_step written stepped with ⟨_, noted⟩ | ⟨g', files', _, noted⟩
          · rw [noted]
            exact (clip_some here).1
          · rw [noted]
            refine clip_forget (fun file present => ?_) here
            rw [files', Function.update_self] at present
            cases present
        · intro q node g member isFile
          rw [shape] at member
          have different : g ≠ f := by
            rintro rfl
            exact closed q node member isFile
          rw [files, Function.update_of_ne different]
          exact open_ q node g member isFile

/-! ## Runs -/

variable {w w' : Watched Foreign}

/-- What every state of a run of safe calls has. -/
structure Watched.Sound (w : Watched Foreign) : Prop where
  sound : Tmpfs.Sound w.state.tmpfs
  remembers : Remembers w.state.tmpfs w.written
  open_ : OpenPresent w.state

theorem Watched.Sound.step (sound : Watched.Sound w) (safe : SafeCall w.state call)
    (stepped : Watched.step w call = some w') : Watched.Sound w' := by
  obtain ⟨⟨result, s'⟩, performed, rfl⟩ := Option.map_eq_some_iff.mp stepped
  obtain ⟨⟨noted, follows, inNoted⟩, open_⟩ :=
    syscall_tmpfs sound.open_ sound.sound sound.remembers safe performed
  obtain ⟨soundAfter, remembers⟩ := follows.sound ⟨sound.sound, sound.remembers⟩
  exact ⟨soundAfter, fun f position byte here => remembers f position byte (inNoted f position byte here),
    open_⟩

/-- A record and its blocks are in frames that are in use. -/
theorem Tmpfs.Sound.frames_used {t : Tmpfs} {file : TmpfsFile} (sound : Tmpfs.Sound t)
    (present : t.files f = some file) : Used t.frames f ∧ ∀ block ∈ file.blocks, Used t.frames block := by
  have struct : Tmpfs.Owns t (.fileStruct f) f := ⟨rfl, by rw [present]; rfl⟩
  refine ⟨sound.owned.inUse struct, fun block member => ?_⟩
  obtain ⟨i, here⟩ := List.getElem?_of_mem member
  exact @Exclusive.inUse _ _ _ _ sound.owned (.filePart f (.block i)) block ⟨file, present, here⟩

/-- A read that begins inside its file. -/
theorem Watched.Sound.read {fd ptr len : BitVec 64} {valid : Bool} (sound : Watched.Sound w)
    (buffer : Nat → BitVec 8) (answer : Nat × (Nat → BitVec 8))
    (safe : SafeCall w.state (.onFd (.sysRead p fd ptr len valid buffer answer))) :
    AccessSafe w s' (.onFd (.sysRead p fd ptr len valid buffer answer)) := by
  intro node f reads
  obtain ⟨file, present, isLink⟩ :=
    sound.open_ p node f (accessNode_member reads.access) reads.device
  rw [reads.notLink] at isLink
  have regular : file.target = none := by
    cases target : file.target with
    | none => rfl
    | some _ =>
        rw [target] at isLink
        cases isLink
  obtain ⟨inFile, inside⟩ := safe node f file reads present
  obtain ⟨read, done, bytes, _⟩ := readTmpfs_spec buffer present
    (sound.sound.fits f file present regular).2 inside inFile
  refine ⟨file, read, w.state.advance p fd node
    (BitVec.ofNat 64 (min len.toNat (file.length - node.userOffset.toNat))), present, ?_, ?_⟩
  · unfold OpenFiles.sysRead OpenFiles.readFs
    rw [reads.access]
    dsimp only
    rw [reads.device]
    dsimp only
    rw [if_neg (by rw [reads.notLink]; decide), done]
  · intro k below
    refine ⟨bytes k below, fun byte noted => ?_⟩
    obtain ⟨_, presentToo, _, isByte⟩ := sound.remembers f _ byte noted
    cases present.symm.trans presentToo
    exact Option.some.inj ((bytes k below).symm.trans isByte)

/-- A write that does not wrap around. -/
theorem Watched.Sound.write {fd ptr len : BitVec 64} {valid : Bool} {buffer : Nat → BitVec 8} {answer : Nat}
    (sound : Watched.Sound w) (soundAfter : Tmpfs.Sound s'.tmpfs)
    (safe : SafeCall w.state (.onFd (.sysWrite p fd ptr len valid buffer answer)))
    (wrote : w.state.sysWrite p fd ptr len valid buffer answer = some (result, s')) :
    AccessSafe w s' (.onFd (.sysWrite p fd ptr len valid buffer answer)) := by
  intro node f writes
  obtain ⟨_, _, ⟨_, nowhere, _⟩ | ⟨other, g, n, writesToo, _, done, _⟩⟩ := sysWrite_cases wrote
  · exact absurd writes (nowhere node f)
  have same : other = node := Except.ok.inj (writesToo.access.symm.trans writes.access)
  subst same
  cases writes.device.symm.trans writesToo.device
  obtain ⟨file, present, _⟩ := sound.open_ p other f (accessNode_member writes.access) writes.device
  obtain ⟨_, file', grown, effect⟩ := writeTmpfs_spec (safe other f writes) sound.sound.owned present done
  exact ⟨file', grown.present, (soundAfter.frames_used grown.present).2, effect.outside⟩

end Watch

end Voxel.Proofs
