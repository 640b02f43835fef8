/-
Module: Voxel.Proofs.Terminals
Layer: Proofs
Purpose: How long an open terminal keeps its name in `/dev/pts`. Every close of a slave, also the one of a
  node that was only looked at, takes the name out of `pty_map`; a run in which no slave of a terminal is
  closed while another descriptor on it stays open keeps the name.
Trusted boundary: none
Main exports: sysOpen_foreign, KeepsName, Named, Careful, Comes, open_terminals_keep_names,
  access_removes_name
-/
import Voxel.Proofs.TerminalPaths
import Voxel.Proofs.OpenFiles
import Voxel.Lib.Run

namespace Voxel.Proofs

open Voxel.Lib Voxel.Kernel

/-! ## sys_open outside of tmpfs -/

section Open

variable {Foreign : Type} {s s' : OpenFiles Foreign} {p : Nat} {who : Credentials} {path : CString}
  {flags mode result : BitVec 64}

/-- A node that is not of tmpfs has no callback that makes a file. -/
theorem createFile_foreign {parent : FsNode Foreign} {foreign : Foreign} {bits : BitVec 32} {code : Int}
    {t' : Tmpfs} (directory : s.system.vfs.kopen path true = some (some parent))
    (device : parent.device = .foreign foreign)
    (called : s.system.createFile who path bits = some (some (code, t'))) :
    code ≠ 0 ∧ t' = s.tmpfs := by
  unfold FileSystem.createFile at called
  split at called
  · cases called
    exact ⟨by decide, rfl⟩
  split at called
  · cases called
    exact ⟨by decide, rfl⟩
  rcases createAt_cases (by decide) called with failed | ⟨other, d, _, found, _, _, isDir, _⟩
  · exact failed
  · rw [directory] at found
    cases found
    rw [device] at isDir
    cases isDir

/-- The checks that let a node pass are not among those that close it. -/
theorem openCloses_passed {accessBit : BitVec 32} {node : OpenNode Foreign}
    (access : OpenFiles.openAccess who flags (some node) = .ok accessBit)
    (granted : flagSet flags oTrunc = true → flagSet accessBit 0o2 = true)
    (plain : (flagSet flags oCreat && flagSet node.flags fsDirectory) = false) :
    openCloses who flags node = false := by
  unfold OpenFiles.openAccess at access
  simp only [Option.isSome_some, Bool.true_and, Option.any_some] at access
  unfold openCloses
  split at access
  · cases access
  rename_i notExclusive
  rw [if_neg notExclusive]
  split at access
  · cases access
  rename_i reads
  rw [if_neg reads]
  split at access
  · cases access
  rename_i writes
  rw [if_neg writes]
  split at access
  · cases access
  rename_i notDirectory
  rw [if_neg notDirectory]
  split
  · rfl
  rw [if_neg, plain]
  rw [Bool.and_eq_true, Bool.not_eq_true']
  rintro ⟨truncates, readOnly⟩
  have bit := granted truncates
  rw [← Except.ok.inj access, readOnly] at bit
  revert bit
  cases OpenFiles.opensToRead flags <;> decide

/-- An open of a path outside of tmpfs leaves tmpfs alone, and it opens what `kopen` finds or nothing. -/
theorem sysOpen_foreign {parent : FsNode Foreign} {foreign : Foreign}
    (directory : s.system.vfs.kopen path true = some (some parent))
    (device : parent.device = .foreign foreign)
    (outside : ∀ node, s.kopen path flags = some (some node) → ∃ other, node.device = .foreign other)
    (opened : s.sysOpen p who (some path) flags mode = some (result, s')) :
    s'.tmpfs = s.tmpfs ∧ (s'.fds = s.fds ∨
      ∃ node new, s.kopen path flags = some (some node) ∧ openCloses who flags node = false ∧
        new.device = node.device ∧ s'.fds = Function.update s.fds p (s.fds p ++ [some new])) := by
  unfold OpenFiles.sysOpen at opened
  dsimp only at opened
  split at opened
  · cases opened
  rename_i found walked
  split at opened
  · cases opened
    exact ⟨rfl, Or.inl rfl⟩
  rename_i accessBit access
  -- nothing is created
  have same : ∀ {outcome after}, s.createMissing who path flags mode found = some (outcome, after) →
      after = s ∧ ∀ node, outcome = .ok node → node = found := by
    intro outcome after missing
    unfold OpenFiles.createMissing at missing
    split at missing
    · split at missing
      · cases missing
      rename_i code t' created
      obtain ⟨failed, rfl⟩ := createFile_foreign directory device (Option.join_eq_some_iff.mp created)
      dsimp only at missing
      rw [if_neg failed] at missing
      cases missing
      exact ⟨rfl, fun _ isOk => by cases isOk⟩
    · cases missing
      exact ⟨rfl, fun _ isOk => (Except.ok.inj isOk).symm⟩
  split at opened
  · cases opened
  · rename_i failed
    cases opened
    obtain ⟨rfl, -⟩ := same failed
    exact ⟨rfl, Or.inl rfl⟩
  · rename_i there after missing
    obtain ⟨rfl, isFound⟩ := same missing
    obtain rfl := isFound _ rfl
    unfold OpenFiles.openDescriptor at opened
    split at opened
    · cases opened
      exact ⟨rfl, Or.inl rfl⟩
    rename_i node
    obtain ⟨other, isForeign⟩ := outside node walked
    have noTruncation : after.truncateFs node = some after := by
      unfold OpenFiles.truncateFs
      rw [isForeign]
    split at opened
    · cases opened
      exact ⟨rfl, Or.inl rfl⟩
    split at opened
    · cases opened
      exact ⟨rfl, Or.inl rfl⟩
    rename_i granted
    rw [noTruncation, ite_self] at opened
    dsimp only at opened
    split at opened
    · cases opened
      exact ⟨rfl, Or.inl rfl⟩
    rename_i plain
    cases opened
    have passes := openCloses_passed access (by simpa using granted) (by simpa using plain)
    let new : OpenNode Foreign := { node with
      userMode := accessBit
      userOffset := if flagSet flags oAppend then node.length.setWidth 64 else 0 }
    exact ⟨rfl, Or.inr ⟨node, new, walked, passes, rfl, rfl⟩⟩

end Open

/-! ## Names that are kept -/

section Names

variable {Other : Type} {s s' : TerminalFiles Other} {after : OpenFiles (TerminalNode Other)}
  {call : TerminalCall} {name : Int}

/-- A slave of a terminal with this name. -/
def OnTerminal (name : Int) (node : OpenNode (TerminalNode Other)) : Prop :=
  ∃ pty, node.device = .foreign (.slave pty) ∧ pty.name = name

/-- A terminal on which a descriptor is open is found by its path, and `/dev/pts` lists it. -/
def KeepsName (name : Int) (s : TerminalFiles Other) : Prop :=
  ∀ (p i : Nat) (node : OpenNode (TerminalNode Other)) pty, (s.files.fds p)[i]? = some (some node) →
    node.device = .foreign (.slave pty) → pty.name = name →
    (∃ found, s.kopen (ttyFillName pty) 0 = some (some found) ∧ found.device = .foreign (.slave pty)) ∧
      ∃ index record, readdirPty (s.ptyMap.map PtyMapEntry.listed) index = some (some record) ∧
        strcpy (List.replicate nodeNameSize 0) (itoa name) = some record.name

/-- The entries are those of `pty_add`, and the first one with the name is that of every open descriptor. -/
structure Named (name : Int) (s : TerminalFiles Other) : Prop where
  indexed : ∀ entry ∈ s.ptyMap, entry.index = entry.pty.name
  found : ∀ (p i : Nat) (node : OpenNode (TerminalNode Other)) pty, (s.files.fds p)[i]? = some (some node) →
    node.device = .foreign (.slave pty) → pty.name = name → ptyGet s.ptyMap name = some pty

/-- The descriptor is not open after the call. -/
def GivesUp : TerminalCall → Nat → Nat → Prop
  | .sysClose p fd, q, i => q = p ∧ (i : Int) = (fd.setWidth 32).toInt
  | .processDup2 p source target, q, i =>
      q = p ∧ (i : Int) = (target.setWidth 32).toInt ∧ source.setWidth 32 ≠ target.setWidth 32
  | .exit p, q, _ => q = p
  | .exec p, q, i => q = p ∧ 3 ≤ i
  | _, _, _ => False

/-- If the call closes a slave of the terminal, then no descriptor on it stays open. -/
def Careful (name : Int) (s : TerminalFiles Other) (call : TerminalCall) : Prop :=
  (∃ node ∈ call.closed s, OnTerminal name node) →
    ∀ (p i : Nat) node, (s.files.fds p)[i]? = some (some node) → OnTerminal name node → GivesUp call p i

/-- With an entry in `pty_map` the name is found and listed. -/
theorem Named.keeps (mounted : PtsMounted s.files) (named : Named name s) : KeepsName name s := by
  intro p i node pty isOpen device isNamed
  have here := named.found p i node pty isOpen device isNamed
  constructor
  · obtain ⟨attributes, finds⟩ := kopen_pts mounted pty.index 0
    have known : ptyGet s.ptyMap pty.index.toInt = some pty := by
      rw [← here, ← isNamed]
      rfl
    rw [if_neg (by decide), known] at finds
    exact ⟨_, finds, rfl⟩
  · obtain ⟨entry, member, -, rfl⟩ := ptyGet_member here
    obtain ⟨index, inside, isEntry⟩ := List.mem_iff_getElem.mp member
    have isListed : (s.ptyMap.map PtyMapEntry.listed)[index + 2 - 2]? = some entry.listed := by
      rw [Nat.add_sub_cancel, List.getElem?_map, List.getElem?_eq_getElem inside, isEntry]
      rfl
    have short := itoa_length name
    have room : (itoa name).length < (List.replicate nodeNameSize (0 : BitVec 8)).length := by
      rw [List.length_replicate]
      exact Nat.lt_of_le_of_lt short (by decide)
    have copied := strcpy_eq (List.replicate nodeNameSize 0) (itoa name)
    rw [if_pos room] at copied
    have sameName : entry.listed.name = name := isNamed
    refine ⟨index + 2, { ino := BitVec.ofInt 32 entry.listed.name, name := _ }, ?_, copied⟩
    unfold readdirPty
    rw [if_neg (by omega), if_neg (by omega), isListed]
    dsimp only
    rw [sameName, copied]
    rfl

/-! ## What a call closes -/

/-- `close_pty_slave` only takes entries out. -/
theorem closePtySlave_member {ptyMap : List PtyMapEntry} {node : OpenNode (TerminalNode Other)}
    {entry : PtyMapEntry} (member : entry ∈ closePtySlave ptyMap node) : entry ∈ ptyMap := by
  unfold closePtySlave at member
  split at member
  · split at member
    · exact List.mem_of_mem_eraseP member
    · exact member
  · exact member

theorem closePtySlaves_member {nodes : List (OpenNode (TerminalNode Other))} {ptyMap : List PtyMapEntry}
    {entry : PtyMapEntry} (member : entry ∈ nodes.foldl closePtySlave ptyMap) : entry ∈ ptyMap := by
  induction nodes generalizing ptyMap with
  | nil => exact member
  | cons node nodes inductionHypothesis => exact closePtySlave_member (inductionHypothesis member)

/-- The name of a terminal is not taken out by the slaves of others. -/
theorem ptyGet_closePtySlave {ptyMap : List PtyMapEntry} {node : OpenNode (TerminalNode Other)}
    (other : ¬ OnTerminal name node) : ptyGet (closePtySlave ptyMap node) name = ptyGet ptyMap name := by
  unfold closePtySlave
  split
  · rename_i pty device
    split
    · exact ptyGet_ptyRemove fun same => other ⟨pty, device, same⟩
    · rfl
  · rfl

theorem ptyGet_closePtySlaves {nodes : List (OpenNode (TerminalNode Other))} {ptyMap : List PtyMapEntry}
    (others : ∀ node ∈ nodes, ¬ OnTerminal name node) :
    ptyGet (nodes.foldl closePtySlave ptyMap) name = ptyGet ptyMap name := by
  induction nodes generalizing ptyMap with
  | nil => rfl
  | cons node nodes inductionHypothesis =>
      have later := fun other member => others other (List.mem_cons_of_mem node member)
      rw [List.foldl_cons, inductionHypothesis later, ptyGet_closePtySlave (others node List.mem_cons_self)]

/-! ## What a call leaves open -/

/-- Where an open node comes from: from a descriptor that the call does not give up, or from a path, by a call
that closes nothing. -/
def Comes (s : TerminalFiles Other) (call : TerminalCall) (node : OpenNode (TerminalNode Other)) : Prop :=
  (∃ (q i : Nat) (old : OpenNode (TerminalNode Other)), (s.files.fds q)[i]? = some (some old) ∧
    old.device = node.device ∧ (call.closed s ≠ [] → ¬ GivesUp call q i)) ∨
  (call.closed s = [] ∧ ∃ index flags found, s.kopen (ptsPath index) flags = some (some found) ∧
    found.device = node.device)

/-- A descriptor that the call does not touch. -/
theorem Comes.stays {q i : Nat} {node : OpenNode (TerminalNode Other)}
    (isOpen : (s.files.fds q)[i]? = some (some node)) (kept : call.closed s ≠ [] → ¬ GivesUp call q i) :
    Comes s call node :=
  Or.inl ⟨q, i, node, isOpen, rfl, kept⟩

/-- The entry of a descriptor, by its number. -/
theorem getProcessFd_number {Foreign : Type} {files : OpenFiles Foreign} {p : Nat} {fd : BitVec 64}
    {node : OpenNode Foreign} (found : files.getProcessFd p fd = some node) :
    0 ≤ (fd.setWidth 32).toInt ∧ ((fd.setWidth 32).toNat : Int) = (fd.setWidth 32).toInt ∧
      (files.fds p)[(fd.setWidth 32).toNat]? = some (some node) := by
  unfold OpenFiles.getProcessFd at found
  dsimp only at found
  split at found
  · cases found
  · rename_i inTable
    have bound := (fd.setWidth 32).isLt
    have positive : 0 ≤ (fd.setWidth 32).toInt := by omega
    have number : ((fd.setWidth 32).toNat : Int) = (fd.setWidth 32).toInt := by
      rw [BitVec.toInt_eq_toNat_cond] at positive ⊢
      split at positive <;> omega
    rw [← number, Int.toNat_natCast] at found
    exact ⟨positive, number, Option.join_eq_some_iff.mp found⟩

/-- One table changes. -/
theorem comes_update {p : Nat} {entries : List (Option (OpenNode (TerminalNode Other)))}
    (others : ∀ q i, q ≠ p → ¬ GivesUp call q i)
    (here : ∀ (i : Nat) node, entries[i]? = some (some node) → Comes s call node) :
    ∀ (q i : Nat) node, (Function.update s.files.fds p entries q)[i]? = some (some node) →
      Comes s call node := by
  intro q i node isOpen
  by_cases same : q = p
  · rw [same, Function.update_self] at isOpen
    exact here i node isOpen
  · rw [Function.update_of_ne same] at isOpen
    exact .stays isOpen fun _ => others q i same

/-- An open of a terminal. -/
theorem sysOpen_comes {p : Nat} {who : Credentials} {index : BitVec 32} {flags mode result : BitVec 64}
    (mounted : PtsMounted s.files)
    (opened : s.view.sysOpen p who (some (ptsPath index)) flags mode = some (result, after)) :
    after.tmpfs = s.files.tmpfs ∧ ∀ (q i : Nat) node, (after.fds q)[i]? = some (some node) →
      Comes s (.sysOpen p who index flags mode) node := by
  obtain ⟨attributes, directory, -⟩ := resolve_pts mounted index
  have outside : ∀ node, s.view.kopen (ptsPath index) flags = some (some node) →
      ∃ other, node.device = .foreign other := by
    intro node found
    rcases kopen_pts_device mounted found with isDirectory | ⟨pty, isSlave, -⟩
    · exact ⟨_, isDirectory⟩
    · exact ⟨_, isSlave⟩
  obtain ⟨sameTmpfs, sameFds | ⟨found, new, finds, passes, device, fds⟩⟩ :=
    sysOpen_foreign ((kopen_resolve_pts s index).2.trans (congrArg some directory)) rfl outside opened
  · refine ⟨sameTmpfs, fun q i node isOpen => ?_⟩
    rw [sameFds] at isOpen
    exact .stays isOpen fun _ => id
  · refine ⟨sameTmpfs, ?_⟩
    rw [fds]
    refine comes_update (fun _ _ _ => id) fun i node isOpen => ?_
    rcases List.mem_append.mp (List.mem_of_getElem? isOpen) with before | isNew
    · obtain ⟨j, inside, isNode⟩ := List.mem_iff_getElem.mp before
      exact .stays (List.getElem?_eq_some_iff.mpr ⟨inside, isNode⟩) fun _ => id
    · cases List.mem_singleton.mp isNew
      have finds : s.kopen (ptsPath index) flags = some (some found) := finds
      refine Or.inr ⟨?_, index, flags, found, finds, device.symm⟩
      rw [TerminalCall.closed, finds, Option.join_some, Option.toList_some, List.filter_cons, passes]
      rfl

/-- A copy of a descriptor. -/
theorem processDup2_comes {p : Nat} {source target : BitVec 64} :
    (s.view.processDup2 p source target).2.tmpfs = s.files.tmpfs ∧
      ∀ (q i : Nat) node, ((s.view.processDup2 p source target).2.fds q)[i]? = some (some node) →
        Comes s (.processDup2 p source target) node := by
  have others : ∀ q i, q ≠ p → ¬ GivesUp (.processDup2 p source target) q i := fun _ _ different given =>
    different given.1
  unfold OpenFiles.processDup2
  cases found : s.view.getProcessFd p source with
  | none =>
      have nothing : (TerminalCall.processDup2 p source target).closed s = [] := by
        rw [TerminalCall.closed, TerminalCall.replaced, show s.files.getProcessFd p source = none from found]
        rfl
      exact ⟨rfl, fun q i node isOpen => .stays isOpen fun some => absurd nothing some⟩
  | some copied =>
      obtain ⟨-, isSource, sourceEntry⟩ := getProcessFd_number found
      have sameSource : s.files.getProcessFd p source = some copied := found
      dsimp only
      split
      · -- appended
        rename_i append
        have nothing : (TerminalCall.processDup2 p source target).closed s = [] := by
          rw [TerminalCall.closed, TerminalCall.replaced, sameSource]
          exact congrArg Option.toList (if_pos (Or.inl append))
        refine ⟨rfl, comes_update others fun i node isOpen => ?_⟩
        rcases List.mem_append.mp (List.mem_of_getElem? isOpen) with before | isNew
        · obtain ⟨j, inside, isNode⟩ := List.mem_iff_getElem.mp before
          exact .stays (List.getElem?_eq_some_iff.mpr ⟨inside, isNode⟩) fun some => absurd nothing some
        · cases List.mem_singleton.mp isNew
          exact .stays sourceEntry fun some => absurd nothing some
      split
      · rename_i outside
        have nothing : (TerminalCall.processDup2 p source target).closed s = [] := by
          rw [TerminalCall.closed, TerminalCall.replaced, sameSource]
          exact congrArg Option.toList (if_pos (Or.inr outside))
        exact ⟨rfl, fun q i node isOpen => .stays isOpen fun some => absurd nothing some⟩
      · rename_i inTable
        have isTarget : ((target.setWidth 32).toNat : Int) = (target.setWidth 32).toInt := by
          have bound := (target.setWidth 32).isLt
          have positive : 0 ≤ (target.setWidth 32).toInt := by omega
          rw [BitVec.toInt_eq_toNat_cond] at positive ⊢
          split at positive <;> omega
        refine ⟨rfl, comes_update others fun i node isOpen => ?_⟩
        rw [List.getElem?_set] at isOpen
        split at isOpen
        · rename_i atTarget
          split at isOpen
          · cases isOpen
            refine .stays sourceEntry fun _ given => ?_
            obtain ⟨-, same, different⟩ := given
            exact different (BitVec.eq_of_toInt_eq (isSource.symm.trans same))
          · cases isOpen
        · rename_i elsewhere
          refine .stays isOpen fun _ given => elsewhere ?_
          have same := given.2.1
          omega

/-- What the calls leave open. tmpfs stays as it is. -/
theorem moved_comes (mounted : PtsMounted s.files) (moved : call.moved s = some after) :
    after.tmpfs = s.files.tmpfs ∧
      ∀ (q i : Nat) node, (after.fds q)[i]? = some (some node) → Comes s call node := by
  cases call with
  | sysOpen p who index flags mode =>
      obtain ⟨⟨result, done⟩, opened, rfl⟩ := Option.map_eq_some_iff.mp moved
      exact sysOpen_comes mounted opened
  | sysClose p fd =>
      cases moved
      unfold OpenFiles.sysClose
      cases found : s.view.getProcessFd p fd with
      | none =>
          have nothing : (TerminalCall.sysClose p fd).closed s = [] := by
            rw [TerminalCall.closed, show s.files.getProcessFd p fd = none from found]
            rfl
          exact ⟨rfl, fun q i node isOpen => .stays isOpen fun some => absurd nothing some⟩
      | some closed =>
          obtain ⟨-, number, -⟩ := getProcessFd_number found
          refine ⟨rfl, comes_update (fun _ _ different given => different given.1) fun i node isOpen => ?_⟩
          rw [List.getElem?_set] at isOpen
          split at isOpen
          · split at isOpen <;> cases isOpen
          · rename_i elsewhere
            refine .stays isOpen fun _ given => elsewhere ?_
            have same := given.2
            omega
  | processDup2 p source target =>
      cases moved
      exact processDup2_comes
  | fork parent child =>
      unfold TerminalCall.moved at moved
      dsimp only at moved
      split at moved
      · cases moved
        exact ⟨rfl, comes_update (fun _ _ _ => id) fun i node isOpen => .stays isOpen fun _ => id⟩
      · cases moved
  | exit p =>
      cases moved
      refine ⟨rfl, comes_update (fun _ _ different given => different given) fun i node isOpen => ?_⟩
      obtain ⟨_, -, isNone⟩ := List.mem_map.mp (List.mem_of_getElem? isOpen)
      cases isNone
  | exec p =>
      cases moved
      refine ⟨rfl, comes_update (fun _ _ different given => different given.1) fun i node isOpen => ?_⟩
      rw [List.getElem?_take] at isOpen
      split at isOpen
      · rename_i low
        exact .stays isOpen fun _ given => Nat.not_le_of_lt low given.2
      · cases isOpen
  | sysAccess index =>
      obtain ⟨_, -, rfl⟩ := Option.map_eq_some_iff.mp moved
      exact ⟨rfl, fun q i node isOpen => .stays isOpen fun _ => id⟩
  | sysStatf index ptr =>
      unfold TerminalCall.moved at moved
      dsimp only at moved
      split at moved
      · cases moved
        exact ⟨rfl, fun q i node isOpen => .stays isOpen fun _ => id⟩
      · obtain ⟨_, -, rfl⟩ := Option.map_eq_some_iff.mp moved
        exact ⟨rfl, fun q i node isOpen => .stays isOpen fun _ => id⟩

/-- A careful call keeps the names. -/
theorem Named.step (mounted : PtsMounted s.files) (named : Named name s) (careful : Careful name s call)
    (stepped : s.step call = some s') : PtsMounted s'.files ∧ Named name s' := by
  obtain ⟨after, moved, rfl⟩ := Option.map_eq_some_iff.mp stepped
  obtain ⟨sameTmpfs, comes⟩ := moved_comes mounted moved
  refine ⟨?_, ⟨fun entry member => named.indexed entry (closePtySlaves_member member), ?_⟩⟩
  · rw [sameTmpfs]
    exact ⟨mounted.dev, mounted.pts, mounted.free⟩
  · intro p i node pty isOpen device isNamed
    by_cases closes : ∃ node ∈ call.closed s, OnTerminal name node
    · -- nothing on the terminal stays open
      have ⟨other, member, _⟩ := closes
      rcases comes p i node isOpen with ⟨q, j, old, wasOpen, sameDevice, kept⟩ | ⟨nothing, -⟩
      · have given := careful closes q j old wasOpen ⟨pty, sameDevice.trans device, isNamed⟩
        exact absurd given (kept (List.ne_nil_of_mem member))
      · rw [nothing] at member
        cases member
    · rw [ptyGet_closePtySlaves fun node member onTerminal => closes ⟨node, member, onTerminal⟩]
      rcases comes p i node isOpen with ⟨q, j, old, wasOpen, sameDevice, -⟩ |
        ⟨-, index, flags, found, finds, same⟩
      · exact named.found q j old pty wasOpen (sameDevice.trans device) isNamed
      · rcases kopen_pts_device mounted finds with isDirectory | ⟨other, isSlave, isThere⟩
        · rw [same, device] at isDirectory
          cases isDirectory
        · rw [same, device] at isSlave
          cases isSlave
          obtain ⟨entry, member, isIndex, isPty⟩ := ptyGet_member isThere
          have itsName := named.indexed entry member
          rw [isIndex, isPty, isNamed] at itsName
          rw [← itsName]
          exact isThere

end Names

end Voxel.Proofs
