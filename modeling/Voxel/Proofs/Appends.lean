/-
Module: Voxel.Proofs.Appends
Layer: Proofs
Purpose: Appending through several descriptors. The position of a descriptor is the length of the file when it
  was opened, moved by its own writes. The contents of the file are those at the start and the buffers one
  after the other exactly if every write begins at the end that the file has then.
Trusted boundary: none
Main exports: HasContents, FdCall.appended, appendedBy, Appending, AtEnd, HasContents.step, Behind.step,
  appends_concatenate_iff
-/
import Voxel.Proofs.OpenFiles
import Voxel.Proofs.TmpfsSeek

namespace Voxel.Proofs

open Voxel.Lib Voxel.Kernel

/-! ## Contents -/

/-- The bytes of a regular file. -/
def HasContents (t : Tmpfs) (f : Nat) (bytes : List (BitVec 8)) : Prop :=
  ∃ file, t.files f = some file ∧ file.target = none ∧ file.length = bytes.length ∧
    ∀ i < bytes.length, TmpfsFile.byteAt file t.phys i = bytes[i]?

section Appends

variable {Foreign : Type} {s s' : OpenFiles Foreign} {p f : Nat} {node : OpenNode Foreign}
  {result : BitVec 64} {call : FdCall}

/-- The buffer of a write that goes to the file `f`. -/
def FdCall.appended (f : Nat) (s : OpenFiles Foreign) : FdCall → List (BitVec 8)
  | .sysWrite p fd ptr len valid buffer _ =>
      match s.accessNode p fd ptr len valid 0o2 with
      | .error _ => []
      | .ok node =>
          match node.device with
          | .tmpfs (.file g) =>
              if g = f ∧ flagSet node.flags fsSymlink = false then (List.range len.toNat).map buffer else []
          | _ => []
  | _ => []

/-- The buffers that were written to the file, in the order of the calls. -/
def appendedBy (f : Nat) (s : OpenFiles Foreign) : List FdCall → List (BitVec 8)
  | [] => []
  | call :: calls =>
      call.appended f s ++
        match FdCall.step s call with
        | some s' => appendedBy f s' calls
        | none => []

/-- Opens with `O_APPEND` that do not truncate, and writes to no other file of tmpfs than `f`. -/
def Appending (f : Nat) (s : OpenFiles Foreign) : FdCall → Prop
  | .sysOpen _ _ _ flags _ => flagSet flags oAppend = true ∧ flagSet flags oTrunc = false
  | .sysWrite p fd ptr len valid _ _ => ∀ node g, WritesTo s p fd ptr len valid node g → g = f
  | _ => False

/-- A write to the file begins at its end and does not wrap around; an empty one begins in it. -/
def AtEnd (f : Nat) (s : OpenFiles Foreign) : FdCall → Prop
  | .sysWrite p fd ptr len valid _ _ => ∀ node file, WritesTo s p fd ptr len valid node f →
      s.tmpfs.files f = some file →
        (node.userOffset.toNat = file.length ∧ NoWrap node.userOffset.toNat len.toNat) ∨
          (len = 0 ∧ node.userOffset.toNat ≤ file.length)
  | _ => True

/-- The buffer of a write that gets to the file. -/
theorem appended_writes {fd ptr len : BitVec 64} {valid : Bool} (buffer : Nat → BitVec 8) (answer : Nat)
    (writes : WritesTo s p fd ptr len valid node f) :
    FdCall.appended f s (.sysWrite p fd ptr len valid buffer answer) = (List.range len.toNat).map buffer := by
  rw [FdCall.appended, writes.access]
  dsimp only
  rw [writes.device]
  exact if_pos ⟨rfl, writes.notLink⟩

/-- The buffer of a write that gets to no file. -/
theorem appended_nothing {fd ptr len : BitVec 64} {valid : Bool} (buffer : Nat → BitVec 8) (answer : Nat)
    (nowhere : ∀ node g, ¬ WritesTo s p fd ptr len valid node g) :
    FdCall.appended f s (.sysWrite p fd ptr len valid buffer answer) = [] := by
  rw [FdCall.appended]
  split
  · rfl
  rename_i node access
  split
  · rename_i g device
    refine if_neg fun both => nowhere node g ⟨access, device, both.2⟩
  · rfl

/-! ## Appending at the end -/

/-- An allowed open keeps the contents of every file. -/
theorem HasContents.opened {who : Credentials} {file : Option CString} {flags mode : BitVec 64}
    {bytes : List (BitVec 8)} (contents : HasContents s.tmpfs f bytes) (owned : Tmpfs.Owned s.tmpfs)
    (notTruncated : flagSet flags oTrunc = false)
    (opened : s.sysOpen p who file flags mode = some (result, s')) :
    HasContents s'.tmpfs f bytes ∧ Tmpfs.Owned s'.tmpfs := by
  have ofMade : Made s.tmpfs s'.tmpfs → HasContents s'.tmpfs f bytes ∧ Tmpfs.Owned s'.tmpfs := by
    intro made
    obtain ⟨ownedAfter, kept⟩ := made.kept owned
    obtain ⟨record, present, regular, length, isByte⟩ := contents
    obtain ⟨still, same⟩ := kept f record present
    exact ⟨⟨record, still, regular, length, fun i inside => (same i).trans (isByte i inside)⟩, ownedAfter⟩
  rcases sysOpen_cases opened with ⟨made, isMade, rfl⟩ | ⟨path, made, node, accessBit, _, opens⟩
  · exact ofMade isMade
  · have after := opens.tmpfs
    rw [if_neg (by rw [notTruncated]; decide)] at after
    exact ofMade (after ▸ opens.before.imp And.left And.right)

/-- A call that appends at the end. -/
theorem HasContents.step {bytes : List (BitVec 8)} (contents : HasContents s.tmpfs f bytes)
    (owned : Tmpfs.Owned s.tmpfs) (appending : Appending f s call) (atEnd : AtEnd f s call)
    (performed : call.perform s = some (result, s')) :
    HasContents s'.tmpfs f (bytes ++ call.appended f s) ∧ Tmpfs.Owned s'.tmpfs := by
  cases call with
  | sysOpen p who file flags mode =>
      rw [show FdCall.appended f s (.sysOpen p who file flags mode) = [] from rfl, List.append_nil]
      exact contents.opened owned appending.2 performed
  | sysWrite p fd ptr len valid buffer answer =>
      obtain ⟨_, _, ⟨same, nowhere, _⟩ | ⟨node, g, n, writes, _, wrote, _⟩⟩ := sysWrite_cases performed
      · rw [appended_nothing buffer answer nowhere, List.append_nil, same]
        exact ⟨contents, owned⟩
      · have isFile : g = f := appending node g writes
        subst isFile
        obtain ⟨file, present, regular, length, isByte⟩ := contents
        rw [appended_writes buffer answer writes]
        have place := atEnd node file writes present
        have inside : NoWrap node.userOffset.toNat len.toNat := by
          rcases place with ⟨_, noWrap⟩ | ⟨none_, _⟩
          · exact noWrap
          · rw [none_]
            exact node.userOffset.isLt
        obtain ⟨_, file', grown, done⟩ := writeTmpfs_spec inside owned present wrote
        refine ⟨⟨file', grown.present, ?_, ?_, ?_⟩, grown.owned (owned.setLength present _)⟩
        · rw [grown.rest]
          exact regular
        · rw [done.length, List.length_append, List.length_map, List.length_range, ← length]
          rcases place with ⟨there, _⟩ | ⟨none_, before⟩
          · omega
          · rw [show len.toNat = 0 by rw [none_]; rfl]
            omega
        · intro i below
          rw [List.length_append, List.length_map, List.length_range] at below
          by_cases old : i < bytes.length
          · rw [List.getElem?_append_left old, ← isByte i old]
            obtain ⟨byte, here⟩ : ∃ byte, bytes[i]? = some byte := ⟨_, List.getElem?_eq_getElem old⟩
            refine done.kept i (byteAt_block ((isByte i old).trans here)) ?_
            rcases place with ⟨there, _⟩ | ⟨none_, before⟩
            · omega
            · rw [show len.toNat = 0 by rw [none_]; rfl]
              omega
          · rcases place with ⟨there, _⟩ | ⟨none_, _⟩
            · have written := done.written (i - bytes.length) (by omega)
              rw [there, length, Nat.add_sub_cancel' (Nat.le_of_not_lt old)] at written
              rw [written, List.getElem?_append_right (Nat.le_of_not_lt old), List.getElem?_map,
                List.getElem?_range (by omega)]
              rfl
            · rw [show len.toNat = 0 by rw [none_]; rfl] at below
              exact absurd below old
  | sysRead | sysSeek | sysClose | processDup2 | spawnFds | exitFds | execFds => exact appending.elim

/-! ## Lengths -/

/-- The file is there, and the descriptors on it are not behind its end. -/
structure Behind (f : Nat) (s : OpenFiles Foreign) (length : Nat) : Prop where
  owned : Tmpfs.Owned s.tmpfs
  there : ∃ file, s.tmpfs.files f = some file ∧ file.length = length
  positions : ∀ p node, some node ∈ s.fds p → node.device = .tmpfs (.file f) →
    node.userOffset.toNat ≤ length

theorem Behind.opened {who : Credentials} {file : Option CString} {flags mode : BitVec 64} {length : Nat}
    (behind : Behind f s length) (notTruncated : flagSet flags oTrunc = false)
    (opened : s.sysOpen p who file flags mode = some (result, s')) : Behind f s' length := by
  obtain ⟨record, present, isLength⟩ := behind.there
  rcases sysOpen_cases opened with ⟨made, isMade, rfl⟩ | ⟨path, made, node, accessBit, _, opens⟩
  · obtain ⟨owned, kept⟩ := isMade.kept behind.owned
    exact ⟨owned, ⟨record, (kept f record present).1, isLength⟩, behind.positions⟩
  · have isMade : Made s.tmpfs made := opens.before.imp And.left And.right
    obtain ⟨owned, kept⟩ := isMade.kept behind.owned
    have after := opens.tmpfs
    rw [if_neg (by rw [notTruncated]; decide)] at after
    refine ⟨after ▸ owned, ⟨record, after ▸ (kept f record present).1, isLength⟩, ?_⟩
    intro q other member isFile
    rw [opens.table] at member
    by_cases here : q = p
    · rw [here, Function.update_self] at member
      rcases List.mem_append.mp member with before | last
      · exact behind.positions p other before isFile
      · cases List.mem_singleton.mp last
        obtain ⟨found, presentFound, copied, _⟩ := opens.origin behind.owned isFile
        cases presentFound.symm.trans (kept f record present).1
        change (if flagSet flags oAppend = true then node.length.setWidth 64 else 0).toNat ≤ length
        split
        · rw [BitVec.toNat_setWidth, copied, BitVec.toNat_ofNat, isLength]
          exact Nat.le_trans (Nat.mod_le _ _) (Nat.mod_le _ _)
        · exact Nat.zero_le _
    · rw [Function.update_of_ne here] at member
      exact behind.positions q other member isFile

/-- The file does not grow by more than what is written, and by as much only if this is appended at its
end. -/
theorem Behind.step {length : Nat} (behind : Behind f s length) (appending : Appending f s call)
    (performed : call.perform s = some (result, s')) :
    ∃ length', Behind f s' length' ∧ length' ≤ length + (call.appended f s).length ∧
      (length' = length + (call.appended f s).length → AtEnd f s call) := by
  cases call with
  | sysOpen p who file flags mode =>
      exact ⟨length, behind.opened appending.2 performed, Nat.le_add_right _ _, fun _ => trivial⟩
  | sysWrite p fd ptr len valid buffer answer =>
      obtain ⟨_, _, ⟨same, nowhere, nodes⟩ | ⟨node, g, n, writes, returned, wrote, moved⟩⟩ :=
        sysWrite_cases performed
      · rw [appended_nothing buffer answer nowhere]
        exact ⟨length, ⟨same ▸ behind.owned, same ▸ behind.there, fun q other member isFile =>
          behind.positions q other (nodes q other f member isFile) isFile⟩, Nat.le_refl _,
          fun _ node file writes => absurd writes (nowhere node f)⟩
      · have isFile : g = f := appending node g writes
        subst isFile
        rw [appended_writes buffer answer writes, List.length_map, List.length_range]
        obtain ⟨file, file', present, files, grown, _, owned⟩ := writeTmpfs_grows wrote
        obtain ⟨record, presentToo, isLength⟩ := behind.there
        cases present.symm.trans presentToo
        have inside := behind.positions p node (accessNode_member writes.access) writes.device
        have offsetSmall := node.userOffset.isLt
        have sizeSmall := len.isLt
        have size : n = len.toNat := (writeTmpfs_result wrote).trans (sizeToRead_eq offsetSmall sizeSmall)
        have ending : writeEnd node.userOffset.toNat len.toNat =
            (node.userOffset.toNat + len.toNat) % 2 ^ 64 := rfl
        refine ⟨file'.length, ⟨owned behind.owned, ⟨file', ?_, rfl⟩, ?_⟩, by omega, ?_⟩
        · rw [files, Function.update_self]
        · intro q other member isFile
          rw [moved] at member
          rcases advance_member member with old | ⟨_, rfl⟩
          · have before := behind.positions q other old isFile
            omega
          · change (node.userOffset + result).toNat ≤ file'.length
            rw [returned, size, BitVec.ofNat_toNat, BitVec.setWidth_eq, BitVec.toNat_add]
            omega
        · intro whole other record writesToo presentToo
          cases present.symm.trans presentToo
          have same : other = node := Except.ok.inj (writesToo.access.symm.trans writes.access)
          subst same
          unfold NoWrap
          by_cases empty : len.toNat = 0
          · exact Or.inr ⟨BitVec.eq_of_toNat_eq empty, by omega⟩
          · exact Or.inl (by omega)
  | sysRead | sysSeek | sysClose | processDup2 | spawnFds | exitFds | execFds => exact appending.elim

/-! ## Runs -/

/-- What is appended by the first call and by the rest. -/
theorem appendedBy_cons {calls : List FdCall} (stepped : FdCall.step s call = some s') :
    appendedBy f s (call :: calls) = call.appended f s ++ appendedBy f s' calls := by
  rw [appendedBy, stepped]

/-- The contents after a run whose writes append at the end. -/
theorem HasContents.run {bytes : List (BitVec 8)} {calls : List FdCall}
    (contents : HasContents s.tmpfs f bytes) (owned : Tmpfs.Owned s.tmpfs)
    (run : Run FdCall.step (fun s call => Appending f s call ∧ AtEnd f s call) s calls s') :
    HasContents s'.tmpfs f (bytes ++ appendedBy f s calls) := by
  induction run generalizing bytes with
  | refl s =>
      rw [appendedBy, List.append_nil]
      exact contents
  | head allowed stepped _ inductionHypothesis =>
      obtain ⟨⟨result, _⟩, performed, rfl⟩ := Option.map_eq_some_iff.mp stepped
      obtain ⟨next, ownedNext⟩ := contents.step owned allowed.1 allowed.2 performed
      rw [appendedBy_cons stepped, ← List.append_assoc]
      exact inductionHypothesis next ownedNext

/-- The length after a run of appending calls, and what follows if nothing of it was lost. -/
theorem Behind.run {length : Nat} {calls : List FdCall} (behind : Behind f s length)
    (run : Run FdCall.step (Appending f) s calls s') :
    ∃ length', Behind f s' length' ∧ length' ≤ length + (appendedBy f s calls).length ∧
      (length' = length + (appendedBy f s calls).length →
        Run FdCall.step (fun s call => Appending f s call ∧ AtEnd f s call) s calls s') := by
  induction run generalizing length with
  | refl s => exact ⟨length, behind, Nat.le_add_right _ _, fun _ => .refl s⟩
  | head appending stepped _ inductionHypothesis =>
      obtain ⟨⟨result, _⟩, performed, rfl⟩ := Option.map_eq_some_iff.mp stepped
      obtain ⟨middle, behindMiddle, short, atEnd⟩ := behind.step appending performed
      obtain ⟨last, behindLast, shortRest, allAtEnd⟩ := inductionHypothesis behindMiddle
      rw [appendedBy_cons stepped, List.length_append]
      refine ⟨last, behindLast, by omega, fun whole => ?_⟩
      exact .head ⟨appending, atEnd (by omega)⟩ stepped (allAtEnd (by omega))

/-- In every interleaving of opens with `O_APPEND` and writes through the descriptors of a file, the final
contents are the initial ones and the written buffers in the order of the calls exactly if every write begins
at the end of the file and does not wrap around. -/
theorem appends_concatenate_iff {start : OpenFiles Foreign} {calls : List FdCall} {f : Nat}
    {initial : List (BitVec 8)} (reachable : Tmpfs.Reachable start.tmpfs) (closed : ∀ p, start.fds p = [])
    (contents : HasContents start.tmpfs f initial) (run : Run FdCall.step (Appending f) start calls s) :
    HasContents s.tmpfs f (initial ++ appendedBy f start calls) ↔
      Run FdCall.step (fun s call => Appending f s call ∧ AtEnd f s call) start calls s := by
  have owned := reachable.sound.owned
  constructor
  · rintro ⟨final, present, _, length, _⟩
    obtain ⟨file, there, _, isLength, _⟩ := contents
    have behind : Behind f start initial.length := by
      refine ⟨owned, ⟨file, there, isLength⟩, fun p node member => ?_⟩
      rw [closed p] at member
      cases member
    obtain ⟨length', ⟨_, ⟨file', present', isLength'⟩, _⟩, _, allAtEnd⟩ := behind.run run
    cases present.symm.trans present'
    rw [List.length_append] at length
    exact allAtEnd (by omega)
  · exact contents.run owned

/-- A check that a call is allowed, and if asked, that it appends at the end. -/
def FdCall.checkAppending (f : Nat) (atEnd : Bool) (s : OpenFiles Foreign) : FdCall → Bool
  | .sysOpen _ _ _ flags _ => flagSet flags oAppend && !flagSet flags oTrunc
  | .sysWrite p fd ptr len valid _ _ =>
      (s.accessNode p fd ptr len valid 0o2).toOption.all fun node =>
        match node.device with
        | .tmpfs (.file g) => g == f && (!atEnd || (s.tmpfs.files f).all fun file =>
            node.userOffset.toNat == file.length && decide (node.userOffset.toNat + len.toNat < 2 ^ 64))
        | _ => true
  | _ => false

theorem FdCall.checkAppending_sound (f : Nat) (atEnd : Bool) (s : OpenFiles Foreign) (call : FdCall)
    (checked : call.checkAppending f atEnd s = true) :
    Appending f s call ∧ (atEnd = true → AtEnd f s call) := by
  cases call with
  | sysOpen p who file flags mode =>
      rw [FdCall.checkAppending, Bool.and_eq_true, Bool.not_eq_true'] at checked
      exact ⟨checked, fun _ => trivial⟩
  | sysWrite p fd ptr len valid buffer answer =>
      rw [FdCall.checkAppending] at checked
      constructor
      · intro node g writes
        rw [writes.access, Except.toOption, Option.all_some, writes.device] at checked
        dsimp only at checked
        rw [Bool.and_eq_true, beq_iff_eq] at checked
        exact checked.1
      · rintro rfl node file writes present
        rw [writes.access, Except.toOption, Option.all_some, writes.device] at checked
        dsimp only at checked
        rw [Bool.and_eq_true, present, Option.all_some, Bool.not_true, Bool.false_or, Bool.and_eq_true,
          decide_eq_true_eq] at checked
        exact Or.inl ⟨beq_iff_eq.mp checked.2.1, checked.2.2⟩
  | sysRead | sysSeek | sysClose | processDup2 | spawnFds | exitFds | execFds => cases checked

end Appends

/-- A new file has no contents. -/
theorem hasContents_empty {t : Tmpfs} {f : Nat}
    (empty : (t.files f).any (fun file => file.target.isNone && file.length == 0) = true) :
    HasContents t f [] := by
  obtain ⟨file, present, facts⟩ := (Option.any_eq_true _ _).mp empty
  rw [Bool.and_eq_true, Option.isNone_iff_eq_none, beq_iff_eq] at facts
  exact ⟨file, present, facts.1, facts.2, fun i none_ => absurd none_ (Nat.not_lt_zero i)⟩

/-- Two processes append one after the other, the second one after it has opened the longer file. -/
theorem appends_concatenate_iff_example : ∃ (t : Tmpfs) (s : OpenFiles Empty), Tmpfs.Reachable t ∧
    HasContents s.tmpfs 3 ([] ++ appendedBy 3 (noneOpen t)
      [.sysOpen 1 ⟨0, 0⟩ (some [slash, 97]) (oRdwr ||| oAppend) 0, .sysWrite 1 0 1 2 true (fun _ => 8) 0,
        .sysOpen 2 ⟨0, 0⟩ (some [slash, 97]) (oRdwr ||| oAppend) 0,
        .sysWrite 2 0 1 3 true (fun _ => 9) 0]) := by
  have completes : ((Tmpfs.tmpfsCreate freeMemory (fun _ => 0) []).bind fun start =>
      Run.exec (fun t call => if TmpfsCall.check 0 t call then call.step t else none) start
        [.create ⟨0, 0⟩ 0 [97] 0o644]).any (fun t =>
      (t.files 3).any (fun file => file.target.isNone && file.length == 0) &&
      (Run.exec (fun s call => if FdCall.checkAppending 3 true s call then FdCall.step s call else none)
        (noneOpen t)
        [.sysOpen 1 ⟨0, 0⟩ (some [slash, 97]) (oRdwr ||| oAppend) 0, .sysWrite 1 0 1 2 true (fun _ => 8) 0,
          .sysOpen 2 ⟨0, 0⟩ (some [slash, 97]) (oRdwr ||| oAppend) 0,
          .sysWrite 2 0 1 3 true (fun _ => 9) 0]).isSome) = true := by
    decide +kernel
  obtain ⟨t, reachable, facts⟩ := Tmpfs.Reachable.of_checked completes
  rw [Bool.and_eq_true] at facts
  obtain ⟨s, executed⟩ := Option.isSome_iff_exists.mp facts.2
  have run := Run.of_checked (FdCall.checkAppending_sound 3 true) executed
  refine ⟨t, s, reachable, (appends_concatenate_iff reachable (fun _ => rfl) (hasContents_empty facts.1)
    (run.mono fun _ _ both => both.1)).mpr (run.mono fun _ _ both => ⟨both.1, both.2 rfl⟩)⟩

/-- Two processes open an empty file and write one byte each: the second write overwrites the first. -/
theorem append_overwrites_append : ∃ (t : Tmpfs) (s : OpenFiles Empty), Tmpfs.Reachable t ∧
    HasContents t 3 [] ∧ (∀ p, (noneOpen t).fds p = []) ∧
    Run FdCall.step (Appending 3) (noneOpen t)
      [.sysOpen 1 ⟨0, 0⟩ (some [slash, 97]) (oRdwr ||| oAppend) 0,
        .sysOpen 2 ⟨0, 0⟩ (some [slash, 97]) (oRdwr ||| oAppend) 0,
        .sysWrite 1 0 1 1 true (fun _ => 8) 0, .sysWrite 2 0 1 1 true (fun _ => 9) 0] s ∧
    ¬ HasContents s.tmpfs 3 ([] ++ appendedBy 3 (noneOpen t)
      [.sysOpen 1 ⟨0, 0⟩ (some [slash, 97]) (oRdwr ||| oAppend) 0,
        .sysOpen 2 ⟨0, 0⟩ (some [slash, 97]) (oRdwr ||| oAppend) 0,
        .sysWrite 1 0 1 1 true (fun _ => 8) 0, .sysWrite 2 0 1 1 true (fun _ => 9) 0]) := by
  have completes : ((Tmpfs.tmpfsCreate freeMemory (fun _ => 0) []).bind fun start =>
      Run.exec (fun t call => if TmpfsCall.check 0 t call then call.step t else none) start
        [.create ⟨0, 0⟩ 0 [97] 0o644]).any (fun t =>
      (t.files 3).any (fun file => file.target.isNone && file.length == 0) &&
      ((appendedBy 3 (noneOpen t)
        [.sysOpen 1 ⟨0, 0⟩ (some [slash, 97]) (oRdwr ||| oAppend) 0,
          .sysOpen 2 ⟨0, 0⟩ (some [slash, 97]) (oRdwr ||| oAppend) 0,
          .sysWrite 1 0 1 1 true (fun _ => 8) 0, .sysWrite 2 0 1 1 true (fun _ => 9) 0]).length == 2) &&
      (Run.exec (fun s call => if FdCall.checkAppending 3 false s call then FdCall.step s call else none)
        (noneOpen t)
        [.sysOpen 1 ⟨0, 0⟩ (some [slash, 97]) (oRdwr ||| oAppend) 0,
          .sysOpen 2 ⟨0, 0⟩ (some [slash, 97]) (oRdwr ||| oAppend) 0,
          .sysWrite 1 0 1 1 true (fun _ => 8) 0, .sysWrite 2 0 1 1 true (fun _ => 9) 0]).any fun s =>
            (s.tmpfs.files 3).any fun file => file.length == 1) = true := by
    decide +kernel
  obtain ⟨t, reachable, facts⟩ := Tmpfs.Reachable.of_checked completes
  rw [Bool.and_eq_true, Bool.and_eq_true, beq_iff_eq] at facts
  obtain ⟨s, executed, ends⟩ := (Option.any_eq_true _ _).mp facts.2
  obtain ⟨file, present, one⟩ := (Option.any_eq_true _ _).mp ends
  have run := Run.of_checked (FdCall.checkAppending_sound 3 false) executed
  refine ⟨t, s, reachable, hasContents_empty facts.1.1, fun _ => rfl, run.mono fun _ _ both => both.1, ?_⟩
  rintro ⟨file', present', _, length, _⟩
  cases present.symm.trans present'
  rw [List.nil_append, facts.1.2, beq_iff_eq.mp one] at length
  cases length

end Voxel.Proofs
