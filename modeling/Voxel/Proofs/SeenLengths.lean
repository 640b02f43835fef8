/-
Module: Voxel.Proofs.SeenLengths
Layer: Proofs
Purpose: The length of a file as its descriptors see it. A descriptor has the length that the file had when it
  was opened, so it sees the length of the file as long as no write and no truncation changes it.
Trusted boundary: none
Main exports: LengthsSeen, AppendStarts, KeepsLengths, Agrees.step, lengths_seen
-/
import Voxel.Proofs.OpenFiles

namespace Voxel.Proofs

open Voxel.Lib Voxel.Kernel

section Lengths

variable {Foreign : Type} {s s' : OpenFiles Foreign} {p f : Nat} {node : OpenNode Foreign}
  {result : BitVec 64} {call : FdCall}

/-! ## What is seen -/

/-- On every open descriptor of a tmpfs file, `sys_seek(fd, 0, SEEK_END)` returns the length of the file and
sets the position to it, and `sys_stat` reports it. -/
def LengthsSeen (s : OpenFiles Foreign) : Prop :=
  ∀ p fd node f file, s.getProcessFd p fd = some node → node.device = .tmpfs (.file f) →
    s.tmpfs.files f = some file →
      (s.sysSeek p fd 0 2).1.toNat = file.length ∧
      (∃ after, (s.sysSeek p fd 0 2).2.getProcessFd p fd = some after ∧
        after.userOffset.toNat = file.length) ∧
      ∀ ptr junk, ptr ≠ 0 → ∃ st, s.sysStat p fd ptr junk = .ok st ∧ st.stSize.toNat = file.length

/-- If the call is an open with `O_APPEND` that adds a descriptor of a tmpfs file, it starts at the length
that the file has afterwards. -/
def AppendStarts (s : OpenFiles Foreign) (call : FdCall) (s' : OpenFiles Foreign) : Prop :=
  ∀ p who file flags mode node f record, call = .sysOpen p who file flags mode →
    flagSet flags oAppend = true → s'.fds p = s.fds p ++ [some node] → node.device = .tmpfs (.file f) →
    s'.tmpfs.files f = some record → node.userOffset.toNat = record.length

/-- An open that truncates finds its file empty, any other finds it shorter than 2^32, both up to multiples
of 2^32, which the copy of the length does not have; a write ends in its file. -/
def KeepsLengths (s : OpenFiles Foreign) : FdCall → Prop
  | .sysOpen _ who file flags _ => ∀ path node accessBit f record, file = some path →
      s.kopen path flags = some (some node) → node.device = .tmpfs (.file f) →
      s.tmpfs.files f = some record → OpenFiles.openAccess who flags (some node) = .ok accessBit →
      (flagSet flags oTrunc = true → flagSet accessBit 0o2 = true) →
      flagSet flags oDirectory = false →
        record.length % 2 ^ 32 = if flagSet flags oTrunc = true then 0 else record.length
  | .sysWrite p fd ptr len valid _ _ => ∀ node f record, WritesTo s p fd ptr len valid node f →
      s.tmpfs.files f = some record → writeEnd node.userOffset.toNat len.toNat ≤ record.length
  | _ => True

/-! ## The invariant -/

/-- Every node in a table has the length of its file. -/
structure Agrees (s : OpenFiles Foreign) : Prop where
  owned : Tmpfs.Owned s.tmpfs
  lengths : ∀ p node f, some node ∈ s.fds p → node.device = .tmpfs (.file f) →
    ∃ file, s.tmpfs.files f = some file ∧ node.length.toNat = file.length

theorem getProcessFd_store {fd : BitVec 64} {old : OpenNode Foreign}
    (found : s.getProcessFd p fd = some old) : (s.store p fd (some node)).getProcessFd p fd = some node := by
  unfold OpenFiles.getProcessFd at found ⊢
  dsimp only at found ⊢
  split at found
  · cases found
  rename_i inTable
  have length : ((s.store p fd (some node)).fds p).length = (s.fds p).length := by
    change (Function.update s.fds p _ p).length = _
    rw [Function.update_self, List.length_set]
  rw [length, if_neg inTable]
  change ((Function.update s.fds p _ p)[_]?).join = some node
  have small : (fd.setWidth 32).toInt = ((fd.setWidth 32).toNat : Int) := by
    rw [BitVec.toInt_eq_toNat_cond] at inTable ⊢
    split <;> omega
  rw [small] at inTable ⊢
  rw [Function.update_self, Int.toNat_natCast, List.getElem?_set_self (by omega)]
  rfl

/-- A node that has the length of its file shows it. -/
theorem Agrees.seen (agrees : Agrees s) : LengthsSeen s := by
  intro p fd node f file found isFile present
  obtain ⟨file', present', length⟩ := agrees.lengths p node f (getProcessFd_member found) isFile
  cases present.symm.trans present'
  have whole : (node.length.setWidth 64).toNat = file.length := by
    rw [BitVec.toNat_setWidth, ← length]
    exact Nat.mod_eq_of_lt (Nat.lt_trans node.length.isLt (by decide))
  have zero : node.length.setWidth 64 + 0 = node.length.setWidth 64 := by simp
  have seeked : s.sysSeek p fd 0 2 = (node.length.setWidth 64,
      s.store p fd (some { node with userOffset := node.length.setWidth 64 })) := by
    unfold OpenFiles.sysSeek
    rw [found]
    dsimp only
    rw [if_neg (not_not_intro (node.seekable _ isFile)), if_neg (by decide), if_neg (by decide),
      if_pos rfl, zero]
  rw [seeked]
  refine ⟨whole, ⟨_, getProcessFd_store found, whole⟩, fun ptr junk notNull => ?_⟩
  refine ⟨OpenFiles.statNode junk node, ?_, whole⟩
  unfold OpenFiles.sysStat
  rw [found]
  exact if_neg notNull

/-! ## One call -/

/-- An open that meets the condition. -/
theorem Agrees.opened {who : Credentials} {file : Option CString} {path : CString} {flags mode : BitVec 64}
    {made : Tmpfs} {accessBit : BitVec 32} (agrees : Agrees s) (isPath : file = some path)
    (keeps : KeepsLengths s (.sysOpen p who file flags mode))
    (opens : OpensFile s p who path flags made node accessBit s') : Agrees s' := by
  have isMade : Made s.tmpfs made := opens.before.imp And.left And.right
  obtain ⟨ownedMade, kept⟩ := isMade.kept agrees.owned
  obtain ⟨owned, files⟩ := opens.files ownedMade
  refine ⟨owned, ?_⟩
  -- the length of the file that is opened is the same before and after the truncation
  have length : ∀ f, node.device = .tmpfs (.file f) → ∃ record, made.files f = some record ∧
      node.length = BitVec.ofNat 32 record.length ∧
      record.length % 2 ^ 32 = (if flagSet flags oTrunc = true then 0 else record.length) := by
    intro f isFile
    obtain ⟨record, present, copied, ⟨same, found, access⟩ | ⟨_, empty, _⟩⟩ :=
      opens.origin agrees.owned isFile
    · refine ⟨record, present, copied, keeps path node accessBit f record isPath found isFile
        (same ▸ present) access opens.granted ?_⟩
      obtain ⟨_, _, _, _, notDir⟩ := kopen_file found isFile
      by_contra isSet
      rw [opens.directory (by simpa using isSet)] at notDir
      cases notDir
    · refine ⟨record, present, copied, ?_⟩
      rw [empty]
      split <;> rfl
  -- the files afterwards, as every node that agreed with them sees them
  have after : ∀ g record, made.files g = some record → (node.device = .tmpfs (.file g) →
      record.length % 2 ^ 32 = record.length) → ∃ record', s'.tmpfs.files g = some record' ∧
        record'.length = record.length := by
    intro g record present small
    rcases files with ⟨same, _⟩ | ⟨truncates, f, old, isFile, _, presentOld, changed⟩
    · exact ⟨record, same ▸ present, rfl⟩
    · rw [changed]
      by_cases same : g = f
      · subst same
        cases present.symm.trans presentOld
        obtain ⟨record', present', _, bound⟩ := length g isFile
        cases present.symm.trans present'
        rw [if_pos truncates, small isFile] at bound
        exact ⟨_, Function.update_self g _ _, bound.symm⟩
      · exact ⟨record, by rw [Function.update_of_ne same]; exact present, rfl⟩
  intro q other g member isFile
  rw [opens.table] at member
  have old : some other ∈ s.fds q → ∃ record, s'.tmpfs.files g = some record ∧
      other.length.toNat = record.length := by
    intro before
    obtain ⟨record, present, seen⟩ := agrees.lengths q other g before isFile
    obtain ⟨record', present', same⟩ := after g record (kept g record present).1 fun _ => by
      rw [← seen]
      exact Nat.mod_eq_of_lt other.length.isLt
    exact ⟨record', present', seen.trans same.symm⟩
  by_cases here : q = p
  · rw [here, Function.update_self] at member
    rcases List.mem_append.mp member with before | last
    · exact old (here ▸ before)
    · cases List.mem_singleton.mp last
      obtain ⟨record, present, copied, bound⟩ := length g isFile
      have seen : node.length.toNat = record.length % 2 ^ 32 := by rw [copied, BitVec.toNat_ofNat]
      rcases files with ⟨same, notTruncated⟩ | ⟨truncates, f, old, isFile', _, presentOld, changed⟩
      · rw [notTruncated g isFile] at bound
        exact ⟨record, same ▸ present, seen.trans bound⟩
      · cases isFile.symm.trans isFile'
        rw [if_pos truncates] at bound
        exact ⟨_, by rw [changed, Function.update_self], seen.trans bound⟩
  · rw [Function.update_of_ne here] at member
    exact old member

/-- A call that meets the condition keeps the lengths of the nodes. -/
theorem Agrees.step (agrees : Agrees s) (keeps : KeepsLengths s call)
    (performed : call.perform s = some (result, s')) : Agrees s' := by
  -- nodes of the state before, with files that have the same lengths
  have follows : NodesFrom s s' → Tmpfs.Owned s'.tmpfs → (∀ f file, s.tmpfs.files f = some file →
      ∃ file', s'.tmpfs.files f = some file' ∧ file'.length = file.length) → Agrees s' := by
    intro nodes owned files
    refine ⟨owned, fun p node f member isFile => ?_⟩
    obtain ⟨q, old, before, same⟩ := nodes p node member
    rw [same] at isFile
    obtain ⟨file, present, seen⟩ := agrees.lengths q old f before isFile
    obtain ⟨file', present', length⟩ := files f file present
    refine ⟨file', present', ?_⟩
    rw [same]
    exact seen.trans length.symm
  cases call with
  | sysOpen p who file flags mode =>
      rcases sysOpen_cases performed with ⟨made, isMade, rfl⟩ | ⟨path, made, node, accessBit, isPath, opens⟩
      · obtain ⟨owned, kept⟩ := isMade.kept agrees.owned
        exact follows (.refl s) owned fun f file present => ⟨file, (kept f file present).1, rfl⟩
      · exact agrees.opened isPath keeps opens
  | sysWrite p fd ptr len valid buffer answer =>
      obtain ⟨nodes, _, ⟨same, _⟩ | ⟨node, f, n, to_, _, wrote, _⟩⟩ := sysWrite_cases performed
      · exact follows nodes (same ▸ agrees.owned) fun f file present => ⟨file, same ▸ present, rfl⟩
      · obtain ⟨file, file', present, files, length, _, owned⟩ := writeTmpfs_grows wrote
        refine follows nodes (owned agrees.owned) fun g other here => ?_
        rw [files]
        by_cases same : g = f
        · subst same
          cases here.symm.trans present
          have inFile := keeps node g file to_ present
          exact ⟨file', Function.update_self g _ _, by omega⟩
        · exact ⟨other, by rw [Function.update_of_ne same]; exact here, rfl⟩
  | sysRead | sysSeek | sysClose | processDup2 | spawnFds | exitFds | execFds =>
      obtain ⟨same, _, nodes⟩ := perform_quiet performed trivial
      exact follows nodes (same ▸ agrees.owned) fun f file present => ⟨file, same ▸ present, rfl⟩

/-- The descriptor of an open with `O_APPEND` starts at the length of its file. -/
theorem Agrees.appendStarts (agrees : Agrees s') (performed : call.perform s = some (result, s')) :
    AppendStarts s call s' := by
  rintro p who file flags mode node f record rfl appends table isFile present
  have member : some node ∈ s'.fds p := by
    rw [table]
    exact List.mem_append_right _ (List.mem_singleton.mpr rfl)
  obtain ⟨record', present', seen⟩ := agrees.lengths p node f member isFile
  cases present.symm.trans present'
  rcases sysOpen_cases performed with ⟨made, _, rfl⟩ | ⟨path, made, found, accessBit, _, opens⟩
  · have lengths := congrArg List.length table
    rw [List.length_append, List.length_singleton] at lengths
    change (s.fds p).length = (s.fds p).length + 1 at lengths
    omega
  · rw [opens.table, Function.update_self] at table
    have same := List.append_cancel_left table
    cases same
    rw [← seen]
    change (if flagSet flags oAppend = true then found.length.setWidth 64 else 0).toNat = found.length.toNat
    rw [if_pos appends, BitVec.toNat_setWidth]
    exact Nat.mod_eq_of_lt (Nat.lt_trans found.length.isLt (by decide))

/-! ## Runs -/

/-- In every run that starts without descriptors and whose opens and writes keep the lengths of the files that
they change, every descriptor sees the length of its file, and every further open with `O_APPEND` that meets
the condition starts there. -/
theorem lengths_seen {start : OpenFiles Foreign} {calls : List FdCall}
    (reachable : Tmpfs.Reachable start.tmpfs) (closed : ∀ p, start.fds p = [])
    (run : Run FdCall.step KeepsLengths start calls s) :
    LengthsSeen s ∧
      ∀ call s', KeepsLengths s call → FdCall.step s call = some s' → AppendStarts s call s' := by
  have agreesAtStart : Agrees start := by
    refine ⟨reachable.sound.owned, fun p node f member => ?_⟩
    rw [closed p] at member
    cases member
  have agrees : Agrees s := run.invariant (fun s call s' keeps stepped agrees => by
    obtain ⟨⟨result, _⟩, performed, rfl⟩ := Option.map_eq_some_iff.mp stepped
    exact agrees.step keeps performed) agreesAtStart
  refine ⟨agrees.seen, fun call s' keeps stepped => ?_⟩
  obtain ⟨⟨result, _⟩, performed, rfl⟩ := Option.map_eq_some_iff.mp stepped
  exact (agrees.step keeps performed).appendStarts performed

/-- A check that a call meets the condition. -/
def FdCall.keepsLengths (s : OpenFiles Foreign) : FdCall → Bool
  | .sysOpen _ _ file flags _ =>
      ((file.bind fun path => s.kopen path flags).bind id).all fun node =>
        match node.device with
        | .tmpfs (.file f) => (s.tmpfs.files f).all fun record =>
            record.length % 2 ^ 32 == if flagSet flags oTrunc = true then 0 else record.length
        | _ => true
  | .sysWrite p fd ptr len valid _ _ =>
      (s.accessNode p fd ptr len valid 0o2).toOption.all fun node =>
        match node.device with
        | .tmpfs (.file f) => (s.tmpfs.files f).all fun record =>
            decide (writeEnd node.userOffset.toNat len.toNat ≤ record.length)
        | _ => true
  | _ => true

theorem FdCall.keepsLengths_sound (s : OpenFiles Foreign) (call : FdCall)
    (checked : call.keepsLengths s = true) : KeepsLengths s call := by
  cases call with
  | sysOpen p who file flags mode =>
      rintro path node accessBit f record rfl opened isFile present _ _ _
      rw [FdCall.keepsLengths, Option.bind_some, opened, Option.bind_some, id, Option.all_some, isFile]
        at checked
      dsimp only at checked
      rw [present, Option.all_some, beq_iff_eq] at checked
      exact checked
  | sysWrite p fd ptr len valid buffer answer =>
      intro node f record to_ present
      rw [FdCall.keepsLengths, to_.access, Except.toOption, Option.all_some, to_.device] at checked
      dsimp only at checked
      rw [present, Option.all_some, decide_eq_true_eq] at checked
      exact checked
  | sysRead | sysSeek | sysClose | processDup2 | spawnFds | exitFds | execFds => trivial

end Lengths

/-- A file of five bytes is opened, written at its start, and opened again to append. -/
theorem lengths_seen_example : ∃ (t : Tmpfs) (s : OpenFiles Empty), Tmpfs.Reachable t ∧
    Run FdCall.step KeepsLengths (noneOpen t)
      [.sysOpen 1 ⟨0, 0⟩ (some [slash, 97]) oRdwr 0, .sysWrite 1 0 1 3 true (fun _ => 8) 0,
        .sysOpen 1 ⟨0, 0⟩ (some [slash, 97]) (oRdwr ||| oAppend) 0] s ∧
    (∃ node, s.getProcessFd 1 1 = some node ∧ node.device = .tmpfs (.file 3)) ∧ LengthsSeen s := by
  have completes : ((Tmpfs.tmpfsCreate freeMemory (fun _ => 0) []).bind fun start =>
      Run.exec (fun t call => if TmpfsCall.check 0 t call then call.step t else none) start
        [.create ⟨0, 0⟩ 0 [97] 0o644, .write 3 0 5 fun _ => 7]).any (fun t =>
      (Run.exec (fun s call => if FdCall.keepsLengths s call then FdCall.step s call else none) (noneOpen t)
        [.sysOpen 1 ⟨0, 0⟩ (some [slash, 97]) oRdwr 0, .sysWrite 1 0 1 3 true (fun _ => 8) 0,
          .sysOpen 1 ⟨0, 0⟩ (some [slash, 97]) (oRdwr ||| oAppend) 0]).any fun s =>
            (s.getProcessFd 1 1).any fun node => node.device == .tmpfs (.file 3)) = true := by
    decide +kernel
  obtain ⟨t, reachable, facts⟩ := Tmpfs.Reachable.of_checked completes
  obtain ⟨s, executed, isOpen⟩ := (Option.any_eq_true _ _).mp facts
  obtain ⟨node, found, device⟩ := (Option.any_eq_true _ _).mp isOpen
  have run := Run.of_checked FdCall.keepsLengths_sound executed
  exact ⟨t, s, reachable, run, ⟨node, found, beq_iff_eq.mp device⟩,
    (lengths_seen reachable (fun _ => rfl) run).1⟩

/-- An empty file is opened and one byte is written: the descriptor still sees the length zero. -/
theorem write_leaves_seen_length : ∃ (t : Tmpfs) (s : OpenFiles Empty), Tmpfs.Reachable t ∧
    Run FdCall.step (fun _ _ => True) (noneOpen t)
      [.sysOpen 1 ⟨0, 0⟩ (some [slash, 97]) oRdwr 0, .sysWrite 1 0 1 1 true (fun _ => 8) 0] s ∧
    ¬ LengthsSeen s := by
  have completes : ((Tmpfs.tmpfsCreate freeMemory (fun _ => 0) []).bind fun start =>
      Run.exec (fun t call => if TmpfsCall.check 0 t call then call.step t else none) start
        [.create ⟨0, 0⟩ 0 [97] 0o644]).any (fun t =>
      (Run.exec FdCall.step (noneOpen t)
        [.sysOpen 1 ⟨0, 0⟩ (some [slash, 97]) oRdwr 0, .sysWrite 1 0 1 1 true (fun _ => 8) 0]).any fun s =>
            (s.getProcessFd 1 0).any (fun node => node.device == .tmpfs (.file 3)) &&
            (s.tmpfs.files 3).any (fun file => file.length == 1) && ((s.sysSeek 1 0 0 2).1 == 0)) = true := by
    decide +kernel
  obtain ⟨t, reachable, facts⟩ := Tmpfs.Reachable.of_checked completes
  obtain ⟨s, executed, ends⟩ := (Option.any_eq_true _ _).mp facts
  rw [Bool.and_eq_true, Bool.and_eq_true] at ends
  obtain ⟨node, found, device⟩ := (Option.any_eq_true _ _).mp ends.1.1
  obtain ⟨file, present, length⟩ := (Option.any_eq_true _ _).mp ends.1.2
  refine ⟨t, s, reachable, Run.of_exec executed, fun seen => ?_⟩
  have sought := (seen 1 0 node 3 file found (beq_iff_eq.mp device) present).1
  rw [beq_iff_eq.mp ends.2, beq_iff_eq.mp length] at sought
  cases sought

end Voxel.Proofs
