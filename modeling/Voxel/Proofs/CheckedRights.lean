/-
Module: Voxel.Proofs.CheckedRights
Layer: Proofs
Purpose: The rights of a descriptor. `sys_open` gives a right only if `check_permission` held for the node or
  the file was made by the call, it truncates no other file without the write check, and the copies that
  `process_dup2` and `spawn_process` make carry no more than the descriptor they come from.
Trusted boundary: none
Main exports: MayUse, Truncates, copiesAfter, CarriesOnly, rights_checked
-/
import Voxel.Proofs.OpenUnlinked

namespace Voxel.Proofs

open Voxel.Lib Voxel.Kernel

/-! ## The file that a create makes -/

section Create

variable {Foreign : Type} {s : OpenFiles Foreign} {who : Credentials} {path : CString}
  {flags : BitVec 64} {mode : BitVec 32} {made : Tmpfs} {node : OpenNode Foreign}

/-- If `kopen` finds a node for a string only after an entry was added to its parent, it is this entry. -/
theorem kopen_added_device {t' : Tmpfs} {d : Nat} {dir : TmpfsDir} {entry : TmpfsEntry}
    {system : FileSystem Foreign} {parent below : FsNode Foreign} (isString : IsCString path)
    (reachable : Tmpfs.Reachable system.tmpfs) (opened : system.vfs.kopen path true = some (some parent))
    (inParent : parent.device = .tmpfs (.dir d)) (added : Added system.tmpfs t' d dir entry)
    (present : system.tmpfs.dirs d = some dir) (fresh : Fresh system.tmpfs entry)
    (missing : system.vfs.kopen path false = some none)
    (found : (FileSystem.withTmpfs system t').vfs.kopen path false = some (some below)) :
    below.device = .tmpfs entry := by
  by_cases empty : pathBody path = []
  · rw [kopen_eq_walk _ isString rfl, pathSteps, empty, rawComponents] at missing
    cases missing
  have toParent := kopen_parent_walk (fun _ => rfl) isString rfl empty opened
  rw [kopen_last (fun _ => rfl) isString rfl empty toParent] at missing
  obtain ⟨parent', device, result⟩ := kopen_added isString empty reachable opened added present fresh
  rw [result] at found
  have missing := Option.some.inj missing
  have found := Option.some.inj found
  unfold lookup at missing found
  rw [show (FileSystem.withTmpfs system t').vfs.getMountpoint (pathLead path ++ pathBody path) =
    system.vfs.getMountpoint (pathLead path ++ pathBody path) from rfl] at found
  cases mounted : system.vfs.getMountpoint (pathLead path ++ pathBody path) with
  | some other =>
      rw [mounted] at missing
      cases missing
  | none =>
      rw [mounted] at missing found
      dsimp only at missing found
      have missed : system.finddirNode d (lastRaw path) = none := by
        unfold Vfs.finddirFs FileSystem.vfs at missing
        dsimp only at missing
        rw [inParent] at missing
        exact missing
      have node : (FileSystem.withTmpfs system t').finddirNode d (lastRaw path) = some below := by
        unfold Vfs.finddirFs FileSystem.vfs at found
        dsimp only at found
        rw [device, inParent] at found
        exact found
      have isTmpfs : ∃ other, below.device = .tmpfs other := by
        unfold FileSystem.finddirNode at node
        split at node
        · cases node
        split at node
        · obtain ⟨_, _, rfl⟩ := Option.map_eq_some_iff.mp node
          exact ⟨_, rfl⟩
        · cases node
      obtain ⟨other, isOther⟩ := isTmpfs
      obtain ⟨short, inDir⟩ := finddirNode_some_iff.mp ⟨below, node, isOther⟩
      rcases finddirTmpfs_added added present fresh inDir with rfl | before
      · exact isOther
      · obtain ⟨old, there, _⟩ := (@finddirNode_some_iff _ system d _ other).mpr ⟨short, before⟩
        rw [missed] at there
        cases there

/-- `create_file` that returns zero has found the parent and added a file to it. -/
theorem createFile_zero {system : FileSystem Foreign} (reachable : Tmpfs.Reachable system.tmpfs)
    (created : system.createFile who path mode = some (some (0, made))) :
    ∃ parent d dir f file, system.vfs.kopen path true = some (some parent) ∧
      parent.device = .tmpfs (.dir d) ∧ system.tmpfs.dirs d = some dir ∧
      Added system.tmpfs made d dir (.file f) ∧ system.tmpfs.files f = none ∧ made.files f = some file := by
  unfold FileSystem.createFile at created
  split at created
  · cases created
  split at created
  · cases created
  rcases createAt_cases (by decide) created with ⟨wrong, _⟩ | ⟨parent, d, filename, opened, _, _, inDir, ran⟩
  · exact absurd rfl wrong
  · obtain ⟨dir, f, file, present, added, absent, isNew, _⟩ := createTmpfs_new reachable.sound.owned ran
    exact ⟨parent, d, dir, f, file, opened, inDir, present, added, absent, isNew⟩

/-- The node that is opened after `create_file` is the file that was made. -/
theorem createFile_opens (reachable : Tmpfs.Reachable s.tmpfs) (isString : IsCString path)
    (missing : s.kopen path flags = some none)
    (created : s.system.createFile who path mode = some (some (0, made)))
    (opened : ({ s with tmpfs := made } : OpenFiles Foreign).kopen path flags = some (some node)) :
    ∃ f, node.device = .tmpfs (.file f) ∧ s.tmpfs.files f = none ∧ (made.files f).isSome := by
  obtain ⟨parent, d, dir, f, file, found, inDir, present, added, absent, isNew⟩ :=
    createFile_zero reachable created
  obtain ⟨none?, walked, noNode⟩ := Option.map_eq_some_iff.mp missing
  cases Option.map_eq_none_iff.mp noNode
  obtain ⟨below?, walkedAgain, isNode⟩ := Option.map_eq_some_iff.mp opened
  obtain ⟨below, rfl, rfl⟩ := Option.map_eq_some_iff.mp isNode
  -- with the flag for the parent the first lookup had found it
  cases asks : flagSet flags openFlagParent with
  | true =>
      rw [asks] at walked
      cases walked.symm.trans found
  | false =>
      rw [asks] at walked walkedAgain
      exact ⟨f, kopen_added_device isString reachable found inDir added present absent walked walkedAgain,
        absent, by rw [isNew]; rfl⟩

end Create

/-! ## What an open returns -/

section Open

variable {Foreign : Type} {s s' : OpenFiles Foreign} {p : Nat} {who : Credentials} {path : CString}
  {flags mode result : BitVec 64} {node : OpenNode Foreign} {accessBit : BitVec 32}

/-- An error of a call, as a `long`. -/
def IsError (result : BitVec 64) : Prop := result.toInt < 0

instance (result : BitVec 64) : Decidable (IsError result) := inferInstanceAs (Decidable (_ < _))

/-- The access bits of an existing node were checked. -/
theorem openAccess_checked (access : OpenFiles.openAccess who flags (some node) = .ok accessBit) :
    (flagSet accessBit 0o1 = true → checkPermission who node.attributes 0o4 = true) ∧
      (flagSet accessBit 0o2 = true → checkPermission who node.attributes 0o2 = true) := by
  unfold OpenFiles.openAccess at access
  split at access
  · cases access
  split at access
  · cases access
  rename_i reads
  split at access
  · cases access
  rename_i writes
  split at access
  · cases access
  cases access
  have noRead : OpenFiles.opensToRead flags = false ∨ checkPermission who node.attributes 0o4 = true := by
    simpa [or_iff_not_imp_left] using reads
  have noWrite : OpenFiles.opensToWrite flags = false ∨ checkPermission who node.attributes 0o2 = true := by
    simpa [or_iff_not_imp_left] using writes
  constructor
  · intro granted
    rcases noRead with asksNot | checked
    · rw [asksNot] at granted
      cases asks : OpenFiles.opensToWrite flags <;> rw [asks] at granted <;> cases granted
    · exact checked
  · intro granted
    rcases noWrite with asksNot | checked
    · rw [asksNot] at granted
      cases asks : OpenFiles.opensToRead flags <;> rw [asks] at granted <;> cases granted
    · exact checked

/-- The errors before a descriptor is made. -/
theorem openAccess_error {found : Option (OpenNode Foreign)} {e : BitVec 64}
    (denied : OpenFiles.openAccess who flags found = .error e) : IsError e := by
  unfold OpenFiles.openAccess at denied
  split at denied
  · cases denied
    decide
  split at denied
  · cases denied
    decide
  split at denied
  · cases denied
    decide
  split at denied
  · cases denied
    decide
  · cases denied

/-- What `create_tmpfs` returns. -/
theorem createTmpfs_code {t t' : Tmpfs} {d : Nat} {name : CString} {mode : BitVec 32} {code : Int}
    (created : t.createTmpfs who d name mode = some (code, t')) : code = negExist ∨ code = 0 := by
  unfold Tmpfs.createTmpfs at created
  split at created
  · cases created
  split at created
  · cases created
    exact Or.inl rfl
  split at created
  · cases created
  · obtain ⟨_, _, same⟩ := Option.map_eq_some_iff.mp created
    cases same
    exact Or.inr rfl

/-- An error of `create_file`. -/
theorem createFile_error {system : FileSystem Foreign} {mode : BitVec 32} {code : Int} {made : Tmpfs}
    (created : system.createFile who path mode = some (some (code, made))) (failed : code ≠ 0) :
    IsError (BitVec.ofInt 64 code) := by
  unfold FileSystem.createFile at created
  split at created
  · cases created
    decide
  split at created
  · cases created
    decide
  unfold FileSystem.createAt at created
  split at created
  · cases created
  · cases created
    decide
  split at created
  · cases created
    decide
  split at created
  · cases created
  split at created
  · cases created
    decide
  split at created
  · rcases createTmpfs_code (Option.some.inj created) with rfl | rfl
    · decide
    · exact absurd rfl failed
  · cases created
    decide

/-- The last part of `sys_open` returns an error and makes no descriptor, or it appends one. -/
theorem openDescriptor_result {found : Option (OpenNode Foreign)}
    (done : s.openDescriptor p flags accessBit found = some (result, s')) :
    (IsError result ∧ s'.fds = s.fds) ∨
      (result = (BitVec.ofNat 32 (s.fds p).length).signExtend 64 ∧ s'.fds p ≠ s.fds p) := by
  unfold OpenFiles.openDescriptor at done
  split at done
  · cases done
    exact Or.inl ⟨by decide, rfl⟩
  split at done
  · cases done
    exact Or.inl ⟨by decide, rfl⟩
  split at done
  · cases done
    exact Or.inl ⟨by decide, rfl⟩
  split at done
  · cases done
  rename_i after truncated
  have fds : after.fds = s.fds := by
    split at truncated
    · rw [truncateFs_tmpfs truncated]
    · cases truncated
      rfl
  split at done
  · cases done
    exact Or.inl ⟨by decide, fds⟩
  · rw [OpenFiles.appendProcessFd, fds] at done
    cases done
    refine Or.inr ⟨rfl, fun same => ?_⟩
    have lengths := congrArg List.length same
    simp at lengths

/-- `sys_open` on a string that `kopen` finds. -/
theorem sysOpen_existing (found : s.kopen path flags = some (some node))
    (opened : s.sysOpen p who (some path) flags mode = some (result, s')) :
    (IsError result ∧ s'.fds = s.fds) ∨ ∃ accessBit,
      OpenFiles.openAccess who flags (some node) = .ok accessBit ∧
      s.openDescriptor p flags accessBit (some node) = some (result, s') := by
  unfold OpenFiles.sysOpen at opened
  dsimp only at opened
  rw [found] at opened
  dsimp only at opened
  cases access : OpenFiles.openAccess who flags (some node) with
  | error e =>
      rw [access] at opened
      cases opened
      exact Or.inl ⟨openAccess_error access, rfl⟩
  | ok accessBit =>
      rw [access] at opened
      exact Or.inr ⟨accessBit, rfl, opened⟩

/-- `sys_open` on a string that `kopen` does not find: the file is made, and the string is looked up again. -/
theorem sysOpen_missing (missing : s.kopen path flags = some none)
    (opened : s.sysOpen p who (some path) flags mode = some (result, s')) :
    (IsError result ∧ s'.fds = s.fds) ∨ ∃ made found accessBit,
      s.system.createFile who path (mode.setWidth 32) = some (some (0, made)) ∧
      ({ s with tmpfs := made } : OpenFiles Foreign).kopen path flags = some found ∧
      ({ s with tmpfs := made } : OpenFiles Foreign).openDescriptor p flags accessBit found =
        some (result, s') := by
  unfold OpenFiles.sysOpen at opened
  dsimp only at opened
  rw [missing] at opened
  dsimp only at opened
  split at opened
  · rename_i e denied
    cases opened
    exact Or.inl ⟨openAccess_error denied, rfl⟩
  rename_i accessBit _
  unfold OpenFiles.createMissing at opened
  by_cases creates : (none : Option (OpenNode Foreign)).isNone && flagSet flags oCreat
  · rw [if_pos creates] at opened
    cases created : (s.system.createFile who path (mode.setWidth 32)).join with
    | none =>
        rw [created] at opened
        cases opened
    | some done =>
        obtain ⟨code, made⟩ := done
        have created := Option.join_eq_some_iff.mp created
        rw [created] at opened
        dsimp only [Option.join_some] at opened
        by_cases zero : code = 0
        · rw [if_pos zero] at opened
          cases again : ({ s with tmpfs := made } : OpenFiles Foreign).kopen path flags with
          | none =>
              rw [again] at opened
              cases opened
          | some found =>
              rw [again] at opened
              exact Or.inr ⟨made, found, accessBit, by rw [created, zero], again, opened⟩
        · rw [if_neg zero] at opened
          cases opened
          exact Or.inl ⟨createFile_error created zero, rfl⟩
  · rw [if_neg creates] at opened
    cases opened
    exact Or.inl ⟨by decide, rfl⟩

/-- `check_permission` held for the node, or the call has made its file. -/
def MayUse (s s' : OpenFiles Foreign) (who : Credentials) (node : OpenNode Foreign) (perm : BitVec 32) :
    Prop :=
  checkPermission who node.attributes perm = true ∨
    ∃ f, node.device = .tmpfs (.file f) ∧ s.tmpfs.files f = none ∧ (s'.tmpfs.files f).isSome

/-- The call appended the node to the table of the process, with the rights that it may have. -/
structure Grants (s : OpenFiles Foreign) (p : Nat) (who : Credentials) (result : BitVec 64)
    (s' : OpenFiles Foreign) (node : OpenNode Foreign) : Prop where
  isLast : result = (BitVec.ofNat 32 (s.fds p).length).signExtend 64
  table : s'.fds = Function.update s.fds p (s.fds p ++ [some node])
  mayRead : flagSet node.userMode 0o1 = true → MayUse s s' who node 0o4
  mayWrite : flagSet node.userMode 0o2 = true → MayUse s s' who node 0o2

/-- A truncation keeps the other files, and the file itself. -/
theorem truncateFs_files {f : Nat} (truncated : s.truncateFs node = some s')
    (present : (s.tmpfs.files f).isSome) : (s'.tmpfs.files f).isSome := by
  unfold OpenFiles.truncateFs at truncated
  split at truncated
  · rename_i g isFile
    obtain ⟨⟨code, t'⟩, done, rfl⟩ := Option.map_eq_some_iff.mp truncated
    have stepped : TmpfsCall.step s.tmpfs (.truncate g) = some t' := by
      rw [TmpfsCall.step]
      exact Option.map_eq_some_iff.mpr ⟨_, done, rfl⟩
    obtain ⟨file, _, files, _⟩ := truncate_step stepped
    change (t'.files f).isSome
    rw [files, Function.update_apply]
    split
    · rfl
    · exact present
  · cases truncated
    exact present

/-- A call of `sys_open` fails without a descriptor, or grants what was checked. -/
theorem sysOpen_grants {file : Option CString} (reachable : Tmpfs.Reachable s.tmpfs)
    (strings : ∀ path, file = some path → IsCString path)
    (opened : s.sysOpen p who file flags mode = some (result, s')) :
    (IsError result ∧ s'.fds = s.fds) ∨ ∃ node, Grants s p who result s' node := by
  cases file with
  | none =>
      cases opened
      exact Or.inl ⟨by decide, rfl⟩
  | some path =>
  cases walked : s.kopen path flags with
  | none =>
      unfold OpenFiles.sysOpen at opened
      dsimp only at opened
      rw [walked] at opened
      cases opened
  | some found =>
  cases found with
  | some node =>
      rcases sysOpen_existing walked opened with failed | ⟨accessBit, access, done⟩
      · exact Or.inl failed
      rcases openDescriptor_result done with failed | ⟨isLast, grown⟩
      · exact Or.inl failed
      obtain ⟨reads, writes⟩ := openAccess_checked access
      rcases openDescriptor_cases walked done with rfl | ⟨other, same, _, _, _, _, table⟩
      · exact absurd rfl grown
      · cases same
        exact Or.inr ⟨_, isLast, table, fun granted => Or.inl (reads granted),
          fun granted => Or.inl (writes granted)⟩
  | none =>
      rcases sysOpen_missing walked opened with failed | ⟨made, found, accessBit, created, again, done⟩
      · exact Or.inl failed
      rcases openDescriptor_result done with failed | ⟨isLast, grown⟩
      · exact Or.inl failed
      rcases openDescriptor_cases again done with rfl | ⟨node, rfl, _, _, truncates, _, table⟩
      · exact absurd rfl grown
      obtain ⟨f, isFile, absent, isMade⟩ :=
        createFile_opens reachable (strings path rfl) walked created again
      have there : (s'.tmpfs.files f).isSome := by
        split at truncates
        · have kept := truncateFs_files truncates isMade
          exact kept
        · rw [truncates]
          exact isMade
      have own : ∀ perm, MayUse s s' who { node with
          userMode := accessBit
          userOffset := if flagSet flags oAppend then node.length.setWidth 64 else 0 } perm :=
        fun _ => Or.inr ⟨f, isFile, absent, there⟩
      exact Or.inr ⟨_, isLast, table, fun _ => own 0o4, fun _ => own 0o2⟩

/-- A file whose record is another one after `sys_open` was found by it and may be written to. -/
theorem sysOpen_truncates {file : Option CString} {f : Nat} {record : TmpfsFile}
    (reachable : Tmpfs.Reachable s.tmpfs)
    (opened : s.sysOpen p who file flags mode = some (result, s'))
    (present : s.tmpfs.files f = some record) (changed : s'.tmpfs.files f ≠ some record) :
    ∃ path node, file = some path ∧ s.kopen path flags = some (some node) ∧
      node.device = .tmpfs (.file f) ∧ checkPermission who node.attributes 0o2 = true := by
  have owned := reachable.sound.owned
  rcases sysOpen_cases opened with ⟨made, isMade, rfl⟩ | ⟨path, made, node, accessBit, isPath, opens⟩
  · exact absurd ((isMade.kept owned).2 f record present).1 changed
  have isMade : Made s.tmpfs made := opens.before.imp And.left And.right
  obtain ⟨ownedMade, kept⟩ := isMade.kept owned
  have still := (kept f record present).1
  rcases (opens.files ownedMade).2 with ⟨same, _⟩ | ⟨truncates, g, old, isFile, _, _, files⟩
  · rw [same] at changed
    exact absurd still changed
  by_cases other : f = g
  · subst other
    obtain ⟨_, _, _, ⟨_, found, access⟩ | ⟨absent, _⟩⟩ := opens.origin owned isFile
    · exact ⟨path, node, isPath, found, isFile,
        (openAccess_checked access).2 (opens.granted truncates)⟩
    · rw [absent] at present
      cases present
  · rw [files, Function.update_of_ne other] at changed
    exact absurd still changed

end Open

/-! ## Copies of a descriptor -/

section Copies

variable {Foreign : Type} {s s' : OpenFiles Foreign} {p q i : Nat} {node other : OpenNode Foreign}
  {held : Nat → Nat → Prop} {fd result : BitVec 64}

/-- The entry of a table that a descriptor names. -/
def slot (fd : BitVec 64) : Nat := (fd.setWidth 32).toNat

/-- The entry that `process_dup2` writes, and the one that it copies; `none` if it fails. -/
def dupSlots (s : OpenFiles Foreign) (p : Nat) (source target : BitVec 64) : Option (Nat × Nat) :=
  if (s.getProcessFd p source).isNone then none
  else if (target.setWidth 32).toInt = -1 then some ((s.fds p).length, slot source)
  else if ((s.fds p).length : Int) ≤ (target.setWidth 32).toInt ∨ (target.setWidth 32).toInt < 0 then none
  else some (slot target, slot source)

/-- The entries that are copies of one descriptor after a call, if `held` says which were before it. -/
def FdCall.copies (s : OpenFiles Foreign) (held : Nat → Nat → Prop) : FdCall → Nat → Nat → Prop
  | .sysOpen p _ _ _ _, q, i => held q i ∧ ¬ (q = p ∧ i = (s.fds p).length)
  | .sysClose p fd, q, i => held q i ∧ ¬ (q = p ∧ i = slot fd)
  | .processDup2 p source target, q, i =>
      match dupSlots s p source target with
      | none => held q i
      | some (copy, original) => if q = p ∧ i = copy then held p original else held q i
  | .spawnFds parent child, q, i => held (if q = child then parent else q) i
  | .exitFds p, q, i => held q i ∧ q ≠ p
  | .execFds p, q, i => held q i ∧ ¬ (q = p ∧ 3 ≤ i)
  | _, q, i => held q i

/-- The copies after a call; calls on names leave the tables alone. -/
def FileSyscall.copies (s : OpenFiles Foreign) (held : Nat → Nat → Prop) : FileSyscall → Nat → Nat → Prop
  | .onFd call => call.copies s held
  | _ => held

/-- The state of the files, and the entries that are copies of one descriptor. -/
structure CopiesIn (Foreign : Type) where
  state : OpenFiles Foreign
  held : Nat → Nat → Prop

/-- A call, and the copies after it. -/
def CopiesIn.step (c : CopiesIn Foreign) (call : FileSyscall) : Option (CopiesIn Foreign) :=
  (call.perform c.state).map fun done => ⟨done.2, call.copies c.state c.held⟩

/-- The entries that are copies are free or hold the node, at some position. -/
def Same (node : OpenNode Foreign) (c : CopiesIn Foreign) : Prop :=
  ∀ q i other, c.held q i → (c.state.fds q)[i]? = some (some other) → SameOpenNode node other

theorem SameOpenNode.trans {first second third : OpenNode Foreign} (one : SameOpenNode first second)
    (two : SameOpenNode second third) : SameOpenNode first third := by
  unfold SameOpenNode at *
  rw [two, one]

/-- The entry behind a descriptor. -/
theorem getProcessFd_slot (found : s.getProcessFd p fd = some node) :
    (s.fds p)[slot fd]? = some (some node) := by
  unfold OpenFiles.getProcessFd at found
  dsimp only at found
  split at found
  · cases found
  rename_i inTable
  have small : (fd.setWidth 32).toInt.toNat = (fd.setWidth 32).toNat := by
    rw [BitVec.toInt_eq_toNat_cond] at inTable ⊢
    split <;> omega
  rw [small] at found
  exact Option.join_eq_some_iff.mp found

/-- An entry after it or another one was written. -/
theorem store_slot {entry : Option (OpenNode Foreign)}
    (there : ((s.store p fd entry).fds q)[i]? = some (some other)) :
    (q = p ∧ i = slot fd ∧ entry = some other) ∨
      (¬ (q = p ∧ i = slot fd) ∧ (s.fds q)[i]? = some (some other)) := by
  change (Function.update s.fds p ((s.fds p).set (slot fd) entry) q)[i]? = _ at there
  by_cases sameTable : q = p
  · subst sameTable
    rw [Function.update_self, List.getElem?_set] at there
    by_cases sameEntry : slot fd = i
    · rw [if_pos sameEntry] at there
      split at there
      · exact Or.inl ⟨rfl, sameEntry.symm, Option.some.inj there⟩
      · cases there
    · rw [if_neg sameEntry] at there
      exact Or.inr ⟨fun both => sameEntry both.2.symm, there⟩
  · rw [Function.update_of_ne sameTable] at there
    exact Or.inr ⟨fun both => sameTable both.1, there⟩

/-- An entry after one was appended. -/
theorem append_slot {last : OpenNode Foreign}
    (there : (Function.update s.fds p (s.fds p ++ [some last]) q)[i]? = some (some other)) :
    (q = p ∧ i = (s.fds p).length ∧ other = last) ∨
      (¬ (q = p ∧ i = (s.fds p).length) ∧ (s.fds q)[i]? = some (some other)) := by
  by_cases sameTable : q = p
  · subst sameTable
    rw [Function.update_self, List.getElem?_append] at there
    split at there
    · rename_i before
      exact Or.inr ⟨fun both => by omega, there⟩
    · rename_i behind
      obtain ⟨isFirst, isLast⟩ := List.getElem?_eq_some_iff.mp there
      rw [List.length_singleton] at isFirst
      have isEnd : i = (s.fds q).length := by omega
      subst isEnd
      simp only [Nat.sub_self, List.getElem_cons_zero, Option.some.injEq] at isLast
      exact Or.inl ⟨rfl, rfl, isLast.symm⟩
  · rw [Function.update_of_ne sameTable] at there
    exact Or.inr ⟨fun both => sameTable both.1, there⟩

/-- The node of a table is stored again with another position. -/
theorem Same.store {position : BitVec 64} (same : Same node ⟨s, held⟩) (t : Tmpfs)
    (found : s.getProcessFd p fd = some other) :
    Same node ⟨({ s with tmpfs := t } : OpenFiles Foreign).store p fd
      (some { other with userOffset := position }), held⟩ := by
  intro q i third isHeld there
  rcases store_slot there with ⟨rfl, rfl, isNew⟩ | ⟨_, before⟩
  · cases isNew
    exact (same q (slot fd) other isHeld (getProcessFd_slot found)).trans rfl
  · exact same q i third isHeld before

theorem accessNode_fd {ptr len : BitVec 64} {valid : Bool} {bit : BitVec 32}
    (access : s.accessNode p fd ptr len valid bit = .ok node) :
    s.getProcessFd p fd = some node ∧ node.userMode &&& bit ≠ 0 := by
  unfold OpenFiles.accessNode at access
  split at access
  · cases access
  rename_i other found
  split at access
  · cases access
  split at access
  · cases access
  split at access
  · cases access
  rename_i granted
  cases access
  exact ⟨found, granted⟩

/-- Reading and writing move the position. -/
theorem Same.advance {out : BitVec 64} (same : Same node ⟨s, held⟩) (t : Tmpfs)
    (found : s.getProcessFd p fd = some other) :
    Same node ⟨({ s with tmpfs := t } : OpenFiles Foreign).advance p fd other out, held⟩ := by
  unfold OpenFiles.advance
  split
  · exact same.store t found
  · exact same

/-- A write touches tmpfs only. -/
theorem writeFs_tmpfs {offset size answer n : Nat} {buffer : Nat → BitVec 8}
    (wrote : s.writeFs node offset size buffer answer = some (n, s')) :
    s' = { s with tmpfs := s'.tmpfs } := by
  unfold OpenFiles.writeFs at wrote
  split at wrote
  · split at wrote
    · cases wrote
      rfl
    · obtain ⟨_, _, same⟩ := Option.map_eq_some_iff.mp wrote
      cases same
      rfl
  · cases wrote
    rfl
  · cases wrote
    rfl

/-- `process_dup2`, by the entries that it copies. -/
theorem processDup2_cases {source target : BitVec 64}
    (done : s.processDup2 p source target = (result, s')) :
    (dupSlots s p source target = none ∧ s' = s) ∨
      ∃ copy other, dupSlots s p source target = some (copy, slot source) ∧
        s.getProcessFd p source = some other ∧
        (copy = (s.fds p).length ∧ s' = (s.appendProcessFd p other).2 ∨
          copy = slot target ∧ s' = s.store p target (some other)) := by
  unfold OpenFiles.processDup2 at done
  unfold dupSlots
  cases found : s.getProcessFd p source with
  | none =>
      rw [found] at done
      cases done
      exact Or.inl ⟨if_pos rfl, rfl⟩
  | some other =>
      rw [found] at done
      dsimp only at done
      rw [if_neg (by simp)]
      by_cases appends : (target.setWidth 32).toInt = -1
      · rw [if_pos appends] at done ⊢
        exact Or.inr ⟨_, other, rfl, rfl, Or.inl ⟨rfl, (congrArg Prod.snd done).symm⟩⟩
      rw [if_neg appends] at done ⊢
      by_cases outside : ((s.fds p).length : Int) ≤ (target.setWidth 32).toInt ∨
          (target.setWidth 32).toInt < 0
      · rw [if_pos outside] at done ⊢
        cases done
        exact Or.inl ⟨rfl, rfl⟩
      · rw [if_neg outside] at done ⊢
        cases done
        exact Or.inr ⟨_, other, rfl, rfl, Or.inr ⟨rfl, rfl⟩⟩

/-- What a call on descriptors makes a copy is the node of a copy. -/
theorem Same.onFd {call : FdCall} (same : Same node ⟨s, held⟩)
    (performed : call.perform s = some (result, s')) : Same node ⟨s', call.copies s held⟩ := by
  cases call with
  | sysOpen p who file flags mode =>
      intro q i third isHeld there
      rcases sysOpen_cases performed with ⟨made, _, rfl⟩ | ⟨path, made, opened, accessBit, _, opens⟩
      · exact same q i third isHeld.1 there
      · rw [show s'.fds = _ from opens.table] at there
        rcases append_slot there with ⟨rfl, isNew, _⟩ | ⟨_, before⟩
        · exact absurd ⟨rfl, isNew⟩ isHeld.2
        · exact same q i third isHeld.1 before
  | sysRead p fd ptr len valid buffer answer =>
      obtain ⟨done, read, isDone⟩ := Option.map_eq_some_iff.mp performed
      cases isDone
      unfold OpenFiles.sysRead at read
      split at read
      · cases read
        exact same
      rename_i opened access
      split at read
      · cases read
      · cases read
        exact same.advance s.tmpfs (accessNode_fd access).1
  | sysWrite p fd ptr len valid buffer answer =>
      have wrote : s.sysWrite p fd ptr len valid buffer answer = some (result, s') := performed
      unfold OpenFiles.sysWrite at wrote
      split at wrote
      · cases wrote
        exact same
      rename_i opened access
      split at wrote
      · cases wrote
      rename_i n after written
      cases wrote
      rw [writeFs_tmpfs written]
      exact same.advance after.tmpfs (accessNode_fd access).1
  | sysSeek p fd offset whence =>
      have done := Option.some.inj performed
      unfold OpenFiles.sysSeek at done
      split at done
      · cases done
        exact same
      rename_i opened found
      dsimp only at done
      split at done
      · cases done
        exact same
      split at done
      · cases done
        exact same.store s.tmpfs found
      split at done
      · cases done
        exact same.store s.tmpfs found
      split at done
      · cases done
        exact same.store s.tmpfs found
      · cases done
        exact same
  | sysClose p fd =>
      intro q i third isHeld there
      have done := Option.some.inj performed
      unfold OpenFiles.sysClose at done
      split at done
      · cases done
        exact same q i third isHeld.1 there
      · cases done
        rcases store_slot there with ⟨_, _, isNone⟩ | ⟨_, before⟩
        · cases isNone
        · exact same q i third isHeld.1 before
  | processDup2 p source target =>
      intro q i third isHeld there
      change (match dupSlots s p source target with
        | none => held q i
        | some (copy, original) => if q = p ∧ i = copy then held p original else held q i) at isHeld
      rcases processDup2_cases
        (Option.some.inj performed) with ⟨fails, rfl⟩ | ⟨copy, other, slots, found, wrote⟩
      · rw [fails] at isHeld
        exact same q i third isHeld there
      rw [slots] at isHeld
      dsimp only at isHeld
      have entries : (q = p ∧ i = copy ∧ third = other) ∨
          (¬ (q = p ∧ i = copy) ∧ (s.fds q)[i]? = some (some third)) := by
        rcases wrote with ⟨rfl, rfl⟩ | ⟨rfl, rfl⟩
        · exact append_slot there
        · rcases store_slot there with ⟨sameTable, sameEntry, isNew⟩ | before
          · exact Or.inl ⟨sameTable, sameEntry, (Option.some.inj isNew).symm⟩
          · exact Or.inr before
      rcases entries with ⟨rfl, rfl, rfl⟩ | ⟨elsewhere, before⟩
      · rw [if_pos ⟨rfl, rfl⟩] at isHeld
        exact same q (slot source) third isHeld (getProcessFd_slot found)
      · rw [if_neg elsewhere] at isHeld
        exact same q i third isHeld before
  | spawnFds parent child =>
      intro q i third isHeld there
      change (if (s.fds child).isEmpty then some (0, s.spawnFds parent child) else none) = _ at performed
      change held (if q = child then parent else q) i at isHeld
      split at performed
      · cases performed
        change (Function.update s.fds child (s.fds parent) q)[i]? = _ at there
        by_cases isChild : q = child
        · rw [isChild, Function.update_self] at there
          rw [if_pos isChild] at isHeld
          exact same parent i third isHeld there
        · rw [Function.update_of_ne isChild] at there
          rw [if_neg isChild] at isHeld
          exact same q i third isHeld there
      · cases performed
  | exitFds p =>
      intro q i third isHeld there
      cases performed
      change (Function.update s.fds p _ q)[i]? = _ at there
      rw [Function.update_of_ne isHeld.2] at there
      exact same q i third isHeld.1 there
  | execFds p =>
      intro q i third isHeld there
      cases performed
      change (Function.update s.fds p ((s.fds p).take 3) q)[i]? = _ at there
      by_cases isOwn : q = p
      · rw [isOwn, Function.update_self, List.getElem?_take] at there
        split at there
        · exact same q i third isHeld.1 (isOwn ▸ there)
        · cases there
      · rw [Function.update_of_ne isOwn] at there
        exact same q i third isHeld.1 there

/-- One call of any kind. -/
theorem Same.step {c c' : CopiesIn Foreign} {call : FileSyscall} (same : Same node c)
    (stepped : c.step call = some c') : Same node c' := by
  obtain ⟨⟨result, s'⟩, performed, rfl⟩ := Option.map_eq_some_iff.mp stepped
  cases call with
  | onFd call => exact same.onFd performed
  | sysUnlink who path =>
      have fds : s'.fds = c.state.fds := by rw [(sysUnlink_tmpfs performed).1]
      intro q i other isHeld there
      exact same q i other isHeld (fds ▸ there)
  | sysMkdir who path mode =>
      have fds : s'.fds = c.state.fds := by rw [(sysMkdir_tmpfs performed).1]
      intro q i other isHeld there
      exact same q i other isHeld (fds ▸ there)
  | sysSymlink who target name =>
      have fds : s'.fds = c.state.fds := by rw [(sysSymlink_tmpfs performed).1]
      intro q i other isHeld there
      exact same q i other isHeld (fds ▸ there)

/-- Reading needs the read bit of the node, writing its write bit; without it the call returns an error, and
nothing was copied or changed. -/
structure CarriesOnly (node : OpenNode Foreign) (s : OpenFiles Foreign) (p : Nat) (fd : BitVec 64) :
    Prop where
  read : ∀ ptr len valid buffer answer, flagSet node.userMode 0o1 = false →
    ∃ e, IsError e ∧ s.sysRead p fd ptr len valid buffer answer = some ((e, buffer), s)
  write : ∀ ptr len valid buffer answer, flagSet node.userMode 0o2 = false →
    ∃ e, IsError e ∧ s.sysWrite p fd ptr len valid buffer answer = some (e, s)

/-- Without the bit, `sys_read` and `sys_write` stop at their checks. -/
theorem accessNode_denied {ptr len : BitVec 64} {valid : Bool} {bit : BitVec 32}
    (denied : ∀ other, s.getProcessFd p fd = some other → flagSet other.userMode bit = false) :
    ∃ e, IsError e ∧ s.accessNode p fd ptr len valid bit = .error e := by
  unfold OpenFiles.accessNode
  cases found : s.getProcessFd p fd with
  | none => exact ⟨_, by decide, rfl⟩
  | some other =>
      dsimp only
      have noBit : other.userMode &&& bit = 0 := by simpa [flagSet] using denied other found
      rw [if_pos noBit]
      split
      · exact ⟨_, by decide, rfl⟩
      split
      · exact ⟨_, by decide, rfl⟩
      · exact ⟨_, by decide, rfl⟩

/-- The copies of a node carry no more than it. -/
theorem Same.carriesOnly (same : Same node ⟨s, held⟩) (isHeld : held p (slot fd)) :
    CarriesOnly node s p fd := by
  have mode : ∀ other, s.getProcessFd p fd = some other → other.userMode = node.userMode := by
    intro other found
    have isNode := same p (slot fd) other isHeld (getProcessFd_slot found)
    unfold SameOpenNode at isNode
    rw [isNode]
  refine ⟨fun ptr len valid buffer answer noBit => ?_, fun ptr len valid buffer answer noBit => ?_⟩
  · obtain ⟨e, isError, denied⟩ := @accessNode_denied _ s p fd ptr len valid 0o1
      fun other found => by rw [mode other found, noBit]
    exact ⟨e, isError, by rw [OpenFiles.sysRead, denied]⟩
  · obtain ⟨e, isError, denied⟩ := @accessNode_denied _ s p fd ptr len valid 0o2
      fun other found => by rw [mode other found, noBit]
    exact ⟨e, isError, by rw [OpenFiles.sysWrite, denied]⟩

/-- Every call of `sys_open` fails without a descriptor, or grants only what was checked or belongs to a file
that it made, and after any further calls the descriptor and its copies carry no more than was granted. A
file whose record it changes was there for writing. -/
theorem rights_checked {who : Credentials} {file : Option CString} {flags mode : BitVec 64}
    (reachable : Tmpfs.Reachable s.tmpfs) (strings : ∀ path, file = some path → IsCString path)
    (opened : s.sysOpen p who file flags mode = some (result, s')) :
    ((IsError result ∧ s'.fds = s.fds) ∨ ∃ node, Grants s p who result s' node ∧
      ∀ calls c, Run CopiesIn.step (fun _ _ => True) ⟨s', fun q i => q = p ∧ i = (s.fds p).length⟩ calls c →
        ∀ q fd, c.held q (slot fd) → CarriesOnly node c.state q fd) ∧
    ∀ f record, s.tmpfs.files f = some record → s'.tmpfs.files f ≠ some record →
      ∃ path node, file = some path ∧ s.kopen path flags = some (some node) ∧
        node.device = .tmpfs (.file f) ∧ checkPermission who node.attributes 0o2 = true := by
  refine ⟨?_, fun f record present changed => sysOpen_truncates reachable opened present changed⟩
  rcases sysOpen_grants reachable strings opened with failed | ⟨node, grants⟩
  · exact Or.inl failed
  refine Or.inr ⟨node, grants, fun calls c run q fd isHeld => ?_⟩
  have start : Same node ⟨s', fun q i => q = p ∧ i = (s.fds p).length⟩ := by
    intro q i other isNew there
    rw [show s'.fds = _ from grants.table] at there
    rcases append_slot there with ⟨_, _, rfl⟩ | ⟨elsewhere, _⟩
    · exact .refl _
    · exact absurd isNew elsewhere
  have same := run.invariant (fun _ _ _ _ stepped same => Same.step same stepped) start
  exact same.carriesOnly isHeld

end Copies

/-- A file that only its owner may use is opened by its owner. -/
theorem rights_checked_example : ∃ (t : Tmpfs) (s : OpenFiles Empty), Tmpfs.Reachable t ∧
    (noneOpen t).sysOpen 1 ⟨7, 7⟩ (some [slash, 97]) 0 0 = some (0, s) ∧
    ∃ node, Grants (noneOpen t) 1 ⟨7, 7⟩ 0 s node := by
  have completes : ((Tmpfs.tmpfsCreate freeMemory (fun _ => 0) []).bind fun start =>
      Run.exec (fun t call => if TmpfsCall.check 0 t call then call.step t else none) start
        [.create ⟨7, 7⟩ 0 [97] 0o600]).any (fun t =>
      ((noneOpen t).sysOpen 1 ⟨7, 7⟩ (some [slash, 97]) 0 0).any fun done => done.1 == 0) = true := by
    decide +kernel
  obtain ⟨t, reachable, facts⟩ := Tmpfs.Reachable.of_checked completes
  obtain ⟨⟨result, s⟩, opened, isFirst⟩ := (Option.any_eq_true _ _).mp facts
  have isFirst : result = 0 := eq_of_beq isFirst
  subst isFirst
  have strings : ∀ path, some [slash, 97] = some path → IsCString path := by
    intro path same
    cases same
    unfold IsCString
    decide
  refine ⟨t, s, reachable, opened, ?_⟩
  rcases (rights_checked reachable strings opened).1 with ⟨isError, _⟩ | ⟨node, grants, _⟩
  · exact absurd isError (by decide)
  · exact ⟨node, grants⟩

end Voxel.Proofs
