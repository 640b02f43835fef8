/-
Module: Voxel.Proofs.OpenFiles
Layer: Proofs
Purpose: What a system call on open files does to the descriptors and to tmpfs, said once: where every
  node that is in a table afterwards comes from, and what became of the files.
Trusted boundary: none
Main exports: FdCall, FdCall.perform
-/
import Voxel.Kernel.OpenFiles
import Voxel.Proofs.TmpfsContents
import Voxel.Proofs.CreateByPath

namespace Voxel.Proofs

open Voxel.Lib Voxel.Kernel

/-! ## The nodes that kopen finds -/

section Walk

variable {Node : Type} {v v' : Vfs Node} {P : Node → Prop} {parent : Bool}

/-- A property of the start and of all that is mounted or found below a node that has it. -/
structure Closed (v : Vfs Node) (P : Node → Prop) : Prop where
  plain : ∀ node, v.ptr node = none
  mounted : ∀ mount ∈ v.mountpoints, P mount.2
  found : ∀ node name below, P node → v.finddirFs node name = some below → P below

theorem Closed.follow (closed : Closed v P) (node : Node) : v.follow node = node := by
  rw [Vfs.follow, closed.plain]
  rfl

theorem Closed.getMountpoint (closed : Closed v P) {path : CString} {node : Node}
    (mounted : v.getMountpoint path = some node) : P node := by
  obtain ⟨mount, found, rfl⟩ := Option.map_eq_some_iff.mp mounted
  exact closed.mounted mount (List.mem_of_find?_eq_some found)

/-- The node of the component that the loop of `_kopen` has just cut off. -/
def componentNode (v : Vfs Node) (cut : CString) (nodename : Nat) (wd : Node) : Option Node :=
  if charAt cut nodename = nul then some wd else lookup v wd (cstringAt cut 0) (cstringAt cut nodename)

/-- One round of the loop. -/
theorem kopenLoop_succ (v : Vfs Node) (rest : Nat) (name : CString) (nodename p : Nat) (wd : Node) :
    v.kopenLoop parent (rest + 1) name nodename p wd =
      if charAt name p = slash ∨ charAt name p = nul then
        if charAt name p = nul ∧ parent then some (some (v.follow wd))
        else
          match componentNode v (name.set p nul) nodename wd with
          | none => some none
          | some node =>
              if charAt name p = nul then some (some (v.follow node))
              else
                match rest with
                | 0 => none
                | rest + 1 =>
                    v.kopenLoop parent rest ((name.set p nul).set p slash) (p + 1) (p + 2) (v.follow node)
      else v.kopenLoop parent rest name nodename (p + 1) wd := by
  rw [Vfs.kopenLoop]
  rfl

theorem Closed.component (closed : Closed v P) {cut : CString} {nodename : Nat} {wd node : Node}
    (start : P wd) (found : componentNode v cut nodename wd = some node) : P node := by
  unfold componentNode lookup at found
  split at found
  · cases found
    exact start
  · split at found
    · rename_i mount mounted
      cases found
      exact closed.getMountpoint mounted
    · exact closed.found wd _ node start found

/-- The loop of `_kopen` stays among the nodes with a closed property. -/
theorem Closed.kopenLoop (closed : Closed v P) {rest : Nat} {name : CString} {nodename p : Nat}
    {wd node : Node} (start : P wd)
    (opened : v.kopenLoop parent rest name nodename p wd = some (some node)) : P node := by
  induction rest using Nat.strong_induction_on generalizing name nodename p wd with
  | _ rest inductionHypothesis =>
  cases rest with
  | zero => cases opened
  | succ rest =>
      rw [kopenLoop_succ] at opened
      simp only [closed.follow] at opened
      split at opened
      · split at opened
        · cases opened
          exact start
        · split at opened
          · cases opened
          rename_i next isNext
          have isGood := closed.component start isNext
          split at opened
          · cases opened
            exact isGood
          · split at opened
            · cases opened
            · exact inductionHypothesis _ (by omega) isGood opened
      · exact inductionHypothesis rest (Nat.lt_succ_self rest) start opened

/-- A tree `v'` that is larger than `v`, with the same root and mounts: what is found in it is found in `v`
as well, up to a relation of the nodes, or it has a property that is closed in `v'`. -/
structure Extends (v v' : Vfs Node) (R : Node → Node → Prop) (P : Node → Prop) : Prop where
  closed : Closed v' P
  plain : ∀ node, v.ptr node = none
  root : v'.fsRoot = v.fsRoot
  mounts : v'.mountpoints = v.mountpoints
  refl : ∀ node, R node node
  added : ∀ node node' name below', R node node' → v'.finddirFs node' name = some below' →
    (∃ below, v.finddirFs node name = some below ∧ R below below') ∨ P below'

variable {R : Node → Node → Prop}

theorem Extends.component (larger : Extends v v' R P) {cut : CString} {nodename : Nat} {wd wd' next' : Node}
    (related : R wd wd') (found : componentNode v' cut nodename wd' = some next') :
    (∃ next, componentNode v cut nodename wd = some next ∧ R next next') ∨ P next' := by
  unfold componentNode lookup Vfs.getMountpoint at found ⊢
  rw [larger.mounts] at found
  split at found
  · rename_i empty
    rw [if_pos empty]
    cases found
    exact Or.inl ⟨wd, rfl, related⟩
  · rename_i notEmpty
    rw [if_neg notEmpty]
    split at found
    · cases found
      exact Or.inl ⟨_, rfl, larger.refl _⟩
    · exact larger.added wd wd' _ next' related found

/-- The loop of `_kopen` in a larger tree. -/
theorem Extends.kopenLoop (larger : Extends v v' R P) {rest : Nat} {name : CString} {nodename p : Nat}
    {wd wd' node' : Node} (related : R wd wd')
    (opened : v'.kopenLoop parent rest name nodename p wd' = some (some node')) :
    (∃ node, v.kopenLoop parent rest name nodename p wd = some (some node) ∧ R node node') ∨ P node' := by
  have follow : ∀ node, v.follow node = node := by
    intro node
    rw [Vfs.follow, larger.plain]
    rfl
  induction rest using Nat.strong_induction_on generalizing name nodename p wd wd' with
  | _ rest inductionHypothesis =>
  cases rest with
  | zero => cases opened
  | succ rest =>
      rw [kopenLoop_succ] at opened ⊢
      simp only [larger.closed.follow, follow] at opened ⊢
      by_cases isEnd : charAt name p = slash ∨ charAt name p = nul
      · rw [if_pos isEnd] at opened ⊢
        by_cases last : charAt name p = nul ∧ parent = true
        · rw [if_pos last] at opened ⊢
          cases opened
          exact Or.inl ⟨wd, rfl, related⟩
        rw [if_neg last] at opened ⊢
        split at opened
        · cases opened
        rename_i next' isNext
        -- the node of this component has its counterpart in the smaller tree, or it has the property
        rcases larger.component related isNext with ⟨next, before, relatedNext⟩ | isNew
        · rw [before]
          dsimp only
          split at opened
          · rename_i ended
            rw [if_pos ended]
            cases opened
            exact Or.inl ⟨next, rfl, relatedNext⟩
          · rename_i more
            rw [if_neg more]
            split at opened
            · cases opened
            · exact inductionHypothesis _ (by omega) relatedNext opened
        · refine Or.inr ?_
          split at opened
          · cases opened
            exact isNew
          · split at opened
            · cases opened
            · exact larger.closed.kopenLoop isNew opened
      · rw [if_neg isEnd] at opened ⊢
        exact inductionHypothesis rest (Nat.lt_succ_self rest) related opened

/-- `kopen` from a root with a closed property. -/
theorem Closed.kopen (closed : Closed v P) {path : CString} {node : Node}
    (start : ∀ root, v.fsRoot = some root → P root)
    (opened : v.kopen path parent = some (some node)) : P node := by
  unfold Vfs.kopen Vfs.kopenFrom at opened
  dsimp only at opened
  split at opened
  · cases opened
  rename_i root isRoot
  split at opened
  · cases opened
    exact start _ isRoot
  split at opened
  · cases opened
  · exact closed.kopenLoop (start _ isRoot) opened

/-- `kopen` in a larger tree. -/
theorem Extends.kopen (larger : Extends v v' R P) {path : CString} {node' : Node}
    (opened : v'.kopen path parent = some (some node')) :
    (∃ node, v.kopen path parent = some (some node) ∧ R node node') ∨ P node' := by
  unfold Vfs.kopen Vfs.kopenFrom at opened ⊢
  rw [larger.root] at opened
  dsimp only at opened ⊢
  split at opened
  · cases opened
  split at opened
  · rename_i empty
    rw [if_pos empty]
    cases opened
    exact Or.inl ⟨_, rfl, larger.refl _⟩
  rename_i notEmpty
  rw [if_neg notEmpty]
  split at opened
  · cases opened
  · exact larger.kopenLoop (larger.refl _) opened

end Walk

/-! ## Nodes of tmpfs -/

section Nodes

variable {Foreign : Type} {s s' : OpenFiles Foreign} {p f : Nat} {path : CString} {flags : BitVec 64}
  {node : OpenNode Foreign}

/-- A node that is found below a node. -/
theorem finddirFs_cases {mounts : Mounts Foreign} {t : Tmpfs} {wd below : FsNode Foreign} {name : CString}
    (found : (mounts.fileSystem t).vfs.finddirFs wd name = some below) :
    (∃ d entry, wd.device = .tmpfs (.dir d) ∧ name.length < nodeNameSize ∧ below.device = .tmpfs entry ∧
        t.finddirTmpfs d name = some entry) ∨
      ∃ up down, wd.device = .foreign up ∧ below.device = .foreign down := by
  unfold Vfs.finddirFs FileSystem.vfs at found
  dsimp only at found
  cases device : wd.device with
  | tmpfs entry =>
      rw [device] at found
      cases entry with
      | file f => cases found
      | dir d =>
          dsimp only at found
          have isTmpfs : ∃ entry, below.device = .tmpfs entry := by
            unfold FileSystem.finddirNode at found
            split at found
            · cases found
            split at found
            · obtain ⟨_, _, rfl⟩ := Option.map_eq_some_iff.mp found
              exact ⟨_, rfl⟩
            · cases found
          obtain ⟨entry, isEntry⟩ := isTmpfs
          obtain ⟨short, inDir⟩ := finddirNode_some_iff.mp ⟨below, found, isEntry⟩
          exact Or.inl ⟨d, entry, rfl, short, isEntry, inDir⟩
  | foreign up =>
      rw [device] at found
      dsimp only at found
      rw [show (mounts.fileSystem t).foreignFinddir up = mounts.finddir up from rfl] at found
      cases has : mounts.finddir up with
      | none =>
          rw [has] at found
          cases found
      | some finddir =>
          rw [has, Option.map_some] at found
          obtain ⟨⟨down, _⟩, _, rfl⟩ := Option.map_eq_some_iff.mp found
          exact Or.inr ⟨up, down, rfl, rfl⟩

/-- The mounted nodes are not of tmpfs. -/
theorem mounted_foreign {mounts : Mounts Foreign} {t : Tmpfs} {mount : CString × FsNode Foreign}
    (member : mount ∈ (mounts.fileSystem t).vfs.mountpoints) : ∃ other, mount.2.device = .foreign other := by
  obtain ⟨entry, _, rfl⟩ := List.mem_map.mp member
  exact ⟨entry.2.1, rfl⟩

/-- `kopen` only finds files that are there, and the node is made from their records. -/
theorem kopen_file (opened : s.kopen path flags = some (some node))
    (isFile : node.device = .tmpfs (.file f)) :
    ∃ file, s.tmpfs.files f = some file ∧ node.length = BitVec.ofNat 32 file.length ∧
      flagSet node.flags fsSymlink = file.target.isSome ∧ flagSet node.flags fsDirectory = false := by
  obtain ⟨found, walked, isNode⟩ := Option.map_eq_some_iff.mp opened
  obtain ⟨below, rfl, rfl⟩ := Option.map_eq_some_iff.mp isNode
  have closed : Closed s.system.vfs fun below =>
      ∀ f, below.device = .tmpfs (.file f) → ∃ file, s.tmpfs.files f = some file := by
    refine ⟨fun _ => rfl, ?_, ?_⟩
    · intro mount member f isFile
      obtain ⟨other, isOther⟩ := mounted_foreign member
      rw [isOther] at isFile
      cases isFile
    · intro wd name below _ found f isFile
      rcases finddirFs_cases found with ⟨d, entry, _, _, isEntry, inDir⟩ | ⟨_, _, _, isOther⟩
      · cases isFile.symm.trans isEntry
        obtain ⟨file, present, _⟩ := Option.map_eq_some_iff.mp (finddirTmpfs_named inDir)
        exact ⟨file, present⟩
      · rw [isOther] at isFile
        cases isFile
  have isFile' : below.device = .tmpfs (.file f) := isFile
  obtain ⟨file, present⟩ := closed.kopen (fun root isRoot f isFile => by
    cases isRoot
    cases isFile) walked f isFile'
  refine ⟨file, present, ?_, ?_, ?_⟩
  · change s.mounts.deviceLength s.tmpfs below.device = _
    rw [isFile', Mounts.deviceLength, present]
    rfl
  · change flagSet (s.mounts.deviceFlags s.tmpfs below.device) fsSymlink = _
    rw [isFile', Mounts.deviceFlags, present]
    cases target : file.target with
    | none => simp [target, flagSet, fsFile, fsSymlink]
    | some _ => simp [target, flagSet, fsFile, fsSymlink]
  · change flagSet (s.mounts.deviceFlags s.tmpfs below.device) fsDirectory = _
    rw [isFile', Mounts.deviceFlags]
    split <;> decide

end Nodes

/-! ## A file that is made -/

section Create

variable {Foreign : Type} {t t' : Tmpfs} {d : Nat} {dir : TmpfsDir} {entry : TmpfsEntry}

/-- A structure other than the new one keeps its name. -/
theorem Added.entryName_other (added : Added t t' d dir entry) (present : t.dirs d = some dir)
    {other : TmpfsEntry} (different : other ≠ entry) : t'.entryName other = t.entryName other := by
  cases other with
  | file f => rw [Tmpfs.entryName, Tmpfs.entryName, added.otherFiles f different]
  | dir e =>
      by_cases same : e = d
      · subst same
        obtain ⟨dir', after, _, name⟩ := added.parent
        rw [Tmpfs.entryName, Tmpfs.entryName, after, present, Option.map_some, Option.map_some, name]
      · rw [Tmpfs.entryName, Tmpfs.entryName, added.otherDirs e same different]

/-- What `finddir_tmpfs` finds afterwards is the new entry, or it was found before. -/
theorem finddirTmpfs_added (added : Added t t' d dir entry) (present : t.dirs d = some dir)
    (fresh : Fresh t entry) {e : Nat} {name : CString} {found : TmpfsEntry}
    (here : t'.finddirTmpfs e name = some found) :
    found = entry ∨ t.finddirTmpfs e name = some found := by
  by_cases isNew : found = entry
  · exact Or.inl isNew
  refine Or.inr ?_
  obtain ⟨other', after, inDir⟩ := Option.bind_eq_some_iff.mp here
  -- the entries in front of the new one are searched as before
  have before : ∀ files : List TmpfsEntry,
      files.find? (fun old => t'.entryName old = some name) = some found →
      files.find? (fun old => t.entryName old = some name) = some found := by
    intro files inFiles
    rw [List.find?_eq_some_iff_append] at inFiles ⊢
    obtain ⟨named, front, back, split, others⟩ := inFiles
    refine ⟨?_, front, back, split, fun old member => ?_⟩
    · rwa [added.entryName_other present isNew] at named
    · by_cases same : old = entry
      · have noName : t.entryName old = none := by
          rw [same]
          cases entry with
          | file f => rw [Tmpfs.entryName, show t.files f = none from fresh]; rfl
          | dir e => rw [Tmpfs.entryName, show t.dirs e = none from fresh]; rfl
        simp [noName]
      · have unnamed := others old member
        rwa [added.entryName_other present same] at unnamed
  by_cases same : e = d
  · subst same
    obtain ⟨dir', isParent, files, _⟩ := added.parent
    cases after.symm.trans isParent
    rw [Tmpfs.finddirTmpfs, present]
    rw [Tmpfs.findEntry, files, List.find?_append] at inDir
    refine before dir.files ?_
    cases front : dir.files.find? fun old => t'.entryName old = some name with
    | some old =>
        rw [front, Option.some_or] at inDir
        exact inDir
    | none =>
        rw [front, Option.none_or] at inDir
        exact absurd (List.mem_singleton.mp (List.mem_of_find?_eq_some inDir)) isNew
  · by_cases isEntry : .dir e = entry
    · obtain ⟨dir', isDir, empty⟩ := added.newDir e isEntry
      cases after.symm.trans isDir
      rw [Tmpfs.findEntry, empty] at inDir
      cases inDir
    · rw [added.otherDirs e same isEntry] at after
      rw [Tmpfs.finddirTmpfs, after]
      exact before other'.files inDir

/-- `create_tmpfs` returns zero exactly with a new, empty file. -/
theorem createTmpfs_new {who : Credentials} {name : CString} {mode : BitVec 32} (owned : Tmpfs.Owned t)
    (created : t.createTmpfs who d name mode = some (0, t')) :
    ∃ dir f file, t.dirs d = some dir ∧ Added t t' d dir (.file f) ∧ t.files f = none ∧
      t'.files f = some file ∧ file.length = 0 ∧ file.target = none := by
  unfold Tmpfs.createTmpfs at created
  split at created
  · cases created
  rename_i dir present
  split at created
  · cases created
  split at created
  · cases created
  rename_i f file t₁ made
  obtain ⟨t₂, linked, same⟩ := Option.map_eq_some_iff.mp created
  cases same
  obtain ⟨m, rfl, new, regular, _, fits⟩ := newFile_spec made
  have withMode : NewFile t f { file with mask := mode, uid := who.uid, gid := who.gid } m :=
    ⟨new.takes, new.apart, new.parts, new.blocks⟩
  obtain ⟨added, absent, isNew⟩ := added_newFile owned present withMode linked
  have empty : file.length = 0 := by
    have reach := fits.2
    rw [TmpfsFile.blockCount, new.blocks, List.length_nil, Nat.zero_mul] at reach
    exact Nat.le_zero.mp reach
  exact ⟨dir, f, _, present, added, absent, isNew, empty, regular⟩

/-- `create_tmpfs` that fails changes nothing. -/
theorem createTmpfs_failed {who : Credentials} {name : CString} {mode : BitVec 32} {result : Int}
    (created : t.createTmpfs who d name mode = some (result, t')) (failed : result ≠ 0) : t' = t := by
  unfold Tmpfs.createTmpfs at created
  split at created
  · cases created
  split at created
  · cases created
    rfl
  split at created
  · cases created
  obtain ⟨t₂, _, same⟩ := Option.map_eq_some_iff.mp created
  cases same
  exact absurd rfl failed

/-- If `kopen` finds a file for a string only after a file was made, it is that file. -/
theorem kopen_added_file {s : OpenFiles Foreign} {path : CString} {flags : BitVec 64}
    {node : OpenNode Foreign} {f g : Nat} (added : Added s.tmpfs t' d dir (.file f))
    (present : s.tmpfs.dirs d = some dir) (absent : s.tmpfs.files f = none)
    (missing : s.kopen path flags = some none)
    (opened : ({ s with tmpfs := t' } : OpenFiles Foreign).kopen path flags = some (some node))
    (isFile : node.device = .tmpfs (.file g)) : g = f := by
  let P : FsNode Foreign → Prop := fun below =>
    (∃ other, below.device = .foreign other) ∨ below.device = .tmpfs (.file f)
  have larger : Extends s.system.vfs (s.mounts.fileSystem t').vfs
      (fun before after => before.device = after.device) P := by
    refine ⟨⟨fun _ => rfl, fun mount member => Or.inl (mounted_foreign member), ?_⟩, fun _ => rfl, rfl, rfl,
      fun _ => rfl, ?_⟩
    · intro wd name below start found
      rcases finddirFs_cases found with ⟨e, _, isDir, _⟩ | ⟨_, down, _, isForeign⟩
      · rcases start with ⟨_, isForeign⟩ | isNew
        · rw [isDir] at isForeign
          cases isForeign
        · rw [isDir] at isNew
          cases isNew
      · exact Or.inl ⟨down, isForeign⟩
    · intro wd wd' name below' same found
      rcases finddirFs_cases found with ⟨e, other, isDir, short, isEntry, inDir⟩ | ⟨up, down, isUp, isForeign⟩
      · rcases finddirTmpfs_added added present absent inDir with rfl | before
        · exact Or.inr (Or.inr isEntry)
        · obtain ⟨below, isBelow, device⟩ :=
            (@finddirNode_some_iff _ s.system e name other).mpr ⟨short, before⟩
          refine Or.inl ⟨below, ?_, device.trans isEntry.symm⟩
          unfold Vfs.finddirFs FileSystem.vfs
          dsimp only
          rw [same, isDir]
          exact isBelow
      · exact Or.inr (Or.inl ⟨down, isForeign⟩)
  obtain ⟨found, walked, isNode⟩ := Option.map_eq_some_iff.mp opened
  obtain ⟨below, rfl, rfl⟩ := Option.map_eq_some_iff.mp isNode
  rcases larger.kopen walked with ⟨before, foundBefore, _⟩ | ⟨other, isForeign⟩ | isNew
  · rw [OpenFiles.kopen, foundBefore] at missing
    cases missing
  · exact absurd (isForeign.symm.trans isFile) (by simp)
  · cases isNew.symm.trans isFile
    rfl

end Create

/-! ## sys_open -/

section Open

variable {Foreign : Type} {s s' : OpenFiles Foreign} {p : Nat} {who : Credentials}
  {flags mode result : BitVec 64}

/-- What the functions on names do: they fail and change nothing, or the parent directory's callback runs. -/
theorem createAt_cases {system : FileSystem Foreign} {name : CString} {looks : Bool} {missing code : Int}
    {callback : Tmpfs → Nat → CString → Option (Int × Tmpfs)} {t' : Tmpfs} (isError : missing ≠ 0)
    (called : system.createAt who name looks missing callback = some (some (code, t'))) :
    (code ≠ 0 ∧ t' = system.tmpfs) ∨
      ∃ parent d filename, system.vfs.kopen name true = some (some parent) ∧
        checkPermission who parent.attributes 0o2 = true ∧ lastFilename name = some filename ∧
        parent.device = .tmpfs (.dir d) ∧ callback system.tmpfs d filename = some (code, t') := by
  unfold FileSystem.createAt at called
  split at called
  · cases called
  · cases called
    exact Or.inl ⟨by decide, rfl⟩
  rename_i parent opened
  split at called
  · cases called
    exact Or.inl ⟨by decide, rfl⟩
  rename_i permitted
  split at called
  · cases called
  rename_i filename last
  split at called
  · cases called
    exact Or.inl ⟨by decide, rfl⟩
  split at called
  · rename_i d device
    refine Or.inr ⟨parent, d, filename, opened, ?_, last, device, Option.some.inj called⟩
    simpa using permitted
  · cases called
    exact Or.inl ⟨isError, rfl⟩

/-- tmpfs after a missing file was made, or as it was. -/
def Made (t t' : Tmpfs) : Prop :=
  t' = t ∨ ∃ who d name mode, t.createTmpfs who d name mode = some (0, t')

/-- `create_file` that returns zero has made a file; otherwise nothing changed. -/
theorem createFile_cases {system : FileSystem Foreign} {name : CString} {mode : BitVec 32} {code : Int}
    {t' : Tmpfs} (called : system.createFile who name mode = some (some (code, t'))) :
    (code ≠ 0 ∧ t' = system.tmpfs) ∨
      (code = 0 ∧ ∃ d filename, system.tmpfs.createTmpfs who d filename mode = some (0, t')) := by
  unfold FileSystem.createFile at called
  split at called
  · cases called
    exact Or.inl ⟨by decide, rfl⟩
  split at called
  · cases called
    exact Or.inl ⟨by decide, rfl⟩
  rcases createAt_cases (by decide) called with failed | ⟨_, d, filename, _, _, _, _, created⟩
  · exact Or.inl failed
  · by_cases done : code = 0
    · subst done
      exact Or.inr ⟨rfl, d, filename, created⟩
    · exact Or.inl ⟨done, createTmpfs_failed created done⟩

/-- An open that returns a descriptor: `made` is tmpfs after a missing file was made, `node` what `kopen`
finds in it. -/
structure OpensFile (s : OpenFiles Foreign) (p : Nat) (who : Credentials) (path : CString)
    (flags : BitVec 64) (made : Tmpfs) (node : OpenNode Foreign) (accessBit : BitVec 32)
    (s' : OpenFiles Foreign) : Prop where
  found : ({ s with tmpfs := made } : OpenFiles Foreign).kopen path flags = some (some node)
  before : (made = s.tmpfs ∧ OpenFiles.openAccess who flags (some node) = .ok accessBit) ∨
    (s.kopen path flags = some none ∧
      ∃ who d name mode, s.tmpfs.createTmpfs who d name mode = some (0, made))
  directory : flagSet flags oDirectory = true → flagSet node.flags fsDirectory = true
  granted : flagSet flags oTrunc = true → flagSet accessBit 0o2 = true
  tmpfs : if flagSet flags oTrunc = true then
      ({ s with tmpfs := made } : OpenFiles Foreign).truncateFs node = some { s with tmpfs := s'.tmpfs }
    else s'.tmpfs = made
  mounts : s'.mounts = s.mounts
  table : s'.fds = Function.update s.fds p (s.fds p ++
    [some { node with
      userMode := accessBit
      userOffset := if flagSet flags oAppend then node.length.setWidth 64 else 0 }])

/-- A directory is not truncated. -/
theorem truncateFs_directory {path : CString} {node : OpenNode Foreign}
    (found : s.kopen path flags = some (some node)) (isDir : flagSet node.flags fsDirectory = true) :
    s.truncateFs node = some s := by
  unfold OpenFiles.truncateFs
  split
  · rename_i f isFile
    obtain ⟨_, _, _, _, notDir⟩ := kopen_file found isFile
    rw [notDir] at isDir
    cases isDir
  · rfl

/-- Truncating touches tmpfs only. -/
theorem truncateFs_tmpfs {node : OpenNode Foreign} (truncated : s.truncateFs node = some s') :
    s' = { s with tmpfs := s'.tmpfs } := by
  unfold OpenFiles.truncateFs at truncated
  split at truncated
  · obtain ⟨_, _, rfl⟩ := Option.map_eq_some_iff.mp truncated
    rfl
  · cases truncated
    rfl

/-- The last part of `sys_open`. -/
theorem openDescriptor_cases {path : CString} {found : Option (OpenNode Foreign)} {accessBit : BitVec 32}
    (opened : s.kopen path flags = some found)
    (done : s.openDescriptor p flags accessBit found = some (result, s')) :
    s' = s ∨ ∃ node, found = some node ∧
      (flagSet flags oDirectory = true → flagSet node.flags fsDirectory = true) ∧
      (flagSet flags oTrunc = true → flagSet accessBit 0o2 = true) ∧
      (if flagSet flags oTrunc = true then s.truncateFs node = some { s with tmpfs := s'.tmpfs }
        else s'.tmpfs = s.tmpfs) ∧ s'.mounts = s.mounts ∧
      s'.fds = Function.update s.fds p (s.fds p ++
        [some { node with
          userMode := accessBit
          userOffset := if flagSet flags oAppend then node.length.setWidth 64 else 0 }]) := by
  unfold OpenFiles.openDescriptor at done
  split at done
  · cases done
    exact Or.inl rfl
  rename_i node
  split at done
  · cases done
    exact Or.inl rfl
  rename_i directory
  split at done
  · cases done
    exact Or.inl rfl
  rename_i granted
  split at done
  · cases done
  rename_i after truncated
  split at done
  · rename_i isDir
    rw [Bool.and_eq_true] at isDir
    cases done
    refine Or.inl ?_
    split at truncated
    · rw [truncateFs_directory opened isDir.2] at truncated
      exact (Option.some.inj truncated).symm
    · exact (Option.some.inj truncated).symm
  · rw [OpenFiles.appendProcessFd] at done
    cases done
    refine Or.inr ⟨node, rfl, by simpa using directory, by simpa using granted, ?_⟩
    by_cases truncates : flagSet flags oTrunc = true
    · rw [if_pos truncates] at truncated ⊢
      have shape := truncateFs_tmpfs truncated
      rw [truncated, shape]
      exact ⟨rfl, rfl, rfl⟩
    · rw [if_neg truncates] at truncated ⊢
      cases truncated
      exact ⟨rfl, rfl, rfl⟩

/-- `sys_open` returns without a descriptor, or it opens the file. -/
theorem sysOpen_cases {file : Option CString}
    (opened : s.sysOpen p who file flags mode = some (result, s')) :
    (∃ made, Made s.tmpfs made ∧ s' = { s with tmpfs := made }) ∨
      ∃ path made node accessBit, file = some path ∧ OpensFile s p who path flags made node accessBit s' := by
  have unchanged : s' = s → ∃ made, Made s.tmpfs made ∧ s' = { s with tmpfs := made } :=
    fun same => ⟨s.tmpfs, Or.inl rfl, same⟩
  unfold OpenFiles.sysOpen at opened
  split at opened
  · cases opened
    exact Or.inl (unchanged rfl)
  rename_i path
  split at opened
  · cases opened
  rename_i found walked
  split at opened
  · cases opened
    exact Or.inl (unchanged rfl)
  rename_i accessBit access
  split at opened
  · cases opened
  · rename_i e after failed
    cases opened
    unfold OpenFiles.createMissing at failed
    split at failed
    · split at failed
      · cases failed
      rename_i code t' created
      dsimp only at failed
      split at failed
      · obtain ⟨_, _, same⟩ := Option.map_eq_some_iff.mp failed
        cases same
      · cases failed
        rcases createFile_cases (Option.join_eq_some_iff.mp created) with ⟨_, same⟩ | ⟨done, _⟩
        · exact Or.inl ⟨t', Or.inl same, rfl⟩
        · contradiction
    · cases failed
  · rename_i there after missing
    unfold OpenFiles.createMissing at missing
    split at missing
    · rename_i isMissing
      rw [Bool.and_eq_true, Option.isNone_iff_eq_none] at isMissing
      split at missing
      · cases missing
      rename_i code t' created
      dsimp only at missing
      split at missing
      · obtain ⟨again, walkedAgain, same⟩ := Option.map_eq_some_iff.mp missing
        cases same
        rcases createFile_cases (Option.join_eq_some_iff.mp created) with ⟨failed, _⟩ | ⟨_, d, name, made⟩
        · contradiction
        rcases openDescriptor_cases walkedAgain opened with same | ⟨node, rfl, rest⟩
        · exact Or.inl ⟨t', Or.inr ⟨who, d, name, _, made⟩, same⟩
        · exact Or.inr ⟨path, t', node, accessBit, rfl, walkedAgain,
            Or.inr ⟨isMissing.1 ▸ walked, who, d, name, _, made⟩, rest.1, rest.2.1, rest.2.2.1, rest.2.2.2.1,
            rest.2.2.2.2⟩
      · cases missing
    · cases missing
      rcases openDescriptor_cases walked opened with same | ⟨node, rfl, rest⟩
      · exact Or.inl (unchanged same)
      · exact Or.inr ⟨path, s.tmpfs, node, accessBit, rfl, walked, Or.inl ⟨rfl, access⟩, rest.1, rest.2.1,
          rest.2.2.1, rest.2.2.2.1, rest.2.2.2.2⟩

/-- Making a file keeps the others, with their bytes, and what is owned. -/
theorem Made.kept {t t' : Tmpfs} (made : Made t t') (owned : Tmpfs.Owned t) :
    Tmpfs.Owned t' ∧ ∀ f file, t.files f = some file → t'.files f = some file ∧
      ∀ position, TmpfsFile.byteAt file t'.phys position = TmpfsFile.byteAt file t.phys position := by
  rcases made with rfl | ⟨who, d, name, mode, created⟩
  · exact ⟨owned, fun _ _ present => ⟨present, fun _ => rfl⟩⟩
  · obtain ⟨dir, g, file, present, added, absent, _⟩ := createTmpfs_new owned created
    exact ⟨added.owned, (added.kept present absent).files⟩

/-- The file that an open finds: it was there before, or it is new and empty. -/
theorem OpensFile.origin {f : Nat} {path : CString} {made : Tmpfs} {node : OpenNode Foreign}
    {accessBit : BitVec 32} (opens : OpensFile s p who path flags made node accessBit s')
    (owned : Tmpfs.Owned s.tmpfs) (isFile : node.device = .tmpfs (.file f)) :
    ∃ file, made.files f = some file ∧ node.length = BitVec.ofNat 32 file.length ∧
      ((made = s.tmpfs ∧ s.kopen path flags = some (some node) ∧
          OpenFiles.openAccess who flags (some node) = .ok accessBit) ∨
        (s.tmpfs.files f = none ∧ file.length = 0 ∧ file.target = none)) := by
  obtain ⟨file, present, length, _⟩ := kopen_file opens.found isFile
  refine ⟨file, present, length, ?_⟩
  rcases opens.before with ⟨same, access⟩ | ⟨missing, who', d, name, mode, created⟩
  · have found := opens.found
    rw [same] at found
    exact Or.inl ⟨same, found, access⟩
  · obtain ⟨dir, g, new, parent, added, absent, isNew, empty, regular⟩ := createTmpfs_new owned created
    have same : f = g := kopen_added_file added parent absent missing opens.found isFile
    subst same
    cases present.symm.trans isNew
    exact Or.inr ⟨absent, empty, regular⟩

/-- What the truncation in an open does to the files. -/
theorem OpensFile.files {path : CString} {made : Tmpfs} {node : OpenNode Foreign} {accessBit : BitVec 32}
    (opens : OpensFile s p who path flags made node accessBit s')
    (owned : Tmpfs.Owned made) : Tmpfs.Owned s'.tmpfs ∧
      (s'.tmpfs = made ∧ (∀ f, node.device = .tmpfs (.file f) → flagSet flags oTrunc = false) ∨
        flagSet flags oTrunc = true ∧ ∃ f file, node.device = .tmpfs (.file f) ∧
          TmpfsCall.step made (.truncate f) = some s'.tmpfs ∧ made.files f = some file ∧
          s'.tmpfs.files = Function.update made.files f (some { file with blocks := [], length := 0 })) := by
  have after := opens.tmpfs
  by_cases truncates : flagSet flags oTrunc = true
  · rw [if_pos truncates] at after
    unfold OpenFiles.truncateFs at after
    split at after
    · rename_i f isFile
      obtain ⟨⟨code, t'⟩, truncated, same⟩ := Option.map_eq_some_iff.mp after
      have isAfter : t' = s'.tmpfs := congrArg OpenFiles.tmpfs same
      subst isAfter
      change made.truncateTmpfs f = _ at truncated
      have stepped : TmpfsCall.step made (.truncate f) = some s'.tmpfs := by
        rw [TmpfsCall.step, truncated]
        rfl
      obtain ⟨file, present, files, _⟩ := truncate_step stepped
      exact ⟨owned.truncate present truncated,
        Or.inr ⟨truncates, f, file, isFile, stepped, present, files⟩⟩
    · rename_i notFile
      have same : made = s'.tmpfs := congrArg OpenFiles.tmpfs (Option.some.inj after)
      exact ⟨same ▸ owned, Or.inl ⟨same.symm, fun f isFile => absurd isFile (notFile f)⟩⟩
  · rw [if_neg truncates] at after
    exact ⟨after ▸ owned, Or.inl ⟨after, fun _ _ => by simpa using truncates⟩⟩

end Open

/-! ## Calls -/

/-- A call on descriptors, with the process that makes it. `valid` is the verdict of `mmu_validate_user`,
`answer` what a callback of another file system would return. -/
inductive FdCall
  | sysOpen (p : Nat) (who : Credentials) (file : Option CString) (flags mode : BitVec 64)
  | sysRead (p : Nat) (fd ptr len : BitVec 64) (valid : Bool) (buffer : Nat → BitVec 8)
      (answer : Nat × (Nat → BitVec 8))
  | sysWrite (p : Nat) (fd ptr len : BitVec 64) (valid : Bool) (buffer : Nat → BitVec 8) (answer : Nat)
  | sysSeek (p : Nat) (fd offset whence : BitVec 64)
  | sysClose (p : Nat) (fd : BitVec 64)
  | processDup2 (p : Nat) (source target : BitVec 64)
  | spawnFds (parent child : Nat)
  | exitFds (p : Nat)
  | execFds (p : Nat)

section Calls

variable {Foreign : Type} {s s' : OpenFiles Foreign} {p q f : Nat} {node : OpenNode Foreign}
  {result : BitVec 64}

/-- The result of a call and the state after it. A new process has no descriptors of its own. -/
def FdCall.perform (s : OpenFiles Foreign) : FdCall → Option (BitVec 64 × OpenFiles Foreign)
  | .sysOpen p who file flags mode => s.sysOpen p who file flags mode
  | .sysRead p fd ptr len valid buffer answer =>
      (s.sysRead p fd ptr len valid buffer answer).map fun done => (done.1.1, done.2)
  | .sysWrite p fd ptr len valid buffer answer => s.sysWrite p fd ptr len valid buffer answer
  | .sysSeek p fd offset whence => some (s.sysSeek p fd offset whence)
  | .sysClose p fd => some (s.sysClose p fd)
  | .processDup2 p source target => some (s.processDup2 p source target)
  | .spawnFds parent child => if (s.fds child).isEmpty then some (0, s.spawnFds parent child) else none
  | .exitFds p => some (0, s.exitFds p)
  | .execFds p => some (0, s.execFds p)

/-- The state after a call. -/
def FdCall.step (s : OpenFiles Foreign) (call : FdCall) : Option (OpenFiles Foreign) :=
  (call.perform s).map Prod.snd

theorem getProcessFd_member {fd : BitVec 64} (found : s.getProcessFd p fd = some node) :
    some node ∈ s.fds p := by
  unfold OpenFiles.getProcessFd at found
  dsimp only at found
  split at found
  · cases found
  · exact List.mem_of_getElem? (Option.join_eq_some_iff.mp found)

theorem accessNode_member {fd ptr len : BitVec 64} {valid : Bool} {bit : BitVec 32}
    (access : s.accessNode p fd ptr len valid bit = .ok node) : some node ∈ s.fds p := by
  unfold OpenFiles.accessNode at access
  split at access
  · cases access
  rename_i other found
  split at access
  · cases access
  split at access
  · cases access
  split at access
  · cases access
  · cases access
    exact getProcessFd_member found

/-- The nodes of two tables are the same but for the position. -/
def SameOpenNode (old node : OpenNode Foreign) : Prop := node = { old with userOffset := node.userOffset }

theorem SameOpenNode.refl (node : OpenNode Foreign) : SameOpenNode node node := rfl

/-- Every node of the second state is one of the first. -/
def NodesFrom (s s' : OpenFiles Foreign) : Prop :=
  ∀ q node, some node ∈ s'.fds q → ∃ q' old, some old ∈ s.fds q' ∧ SameOpenNode old node

theorem NodesFrom.refl (s : OpenFiles Foreign) : NodesFrom s s :=
  fun q node member => ⟨q, node, member, .refl node⟩

/-- One table changes, and its nodes are known. -/
theorem NodesFrom.table {entries : List (Option (OpenNode Foreign))}
    (fds : s'.fds = Function.update s.fds p entries)
    (known : ∀ node, some node ∈ entries → ∃ q old, some old ∈ s.fds q ∧ SameOpenNode old node) :
    NodesFrom s s' := by
  intro q node member
  rw [fds] at member
  by_cases same : q = p
  · rw [same, Function.update_self] at member
    exact known node member
  · rw [Function.update_of_ne same] at member
    exact ⟨q, node, member, .refl node⟩

/-- An entry is replaced by nothing or by a node that is known. -/
theorem nodesFrom_store {fd : BitVec 64} {entry : Option (OpenNode Foreign)} (t : Tmpfs)
    (known : ∀ node, entry = some node → ∃ q old, some old ∈ s.fds q ∧ SameOpenNode old node) :
    NodesFrom s (({ s with tmpfs := t } : OpenFiles Foreign).store p fd entry) := by
  refine .table rfl fun node member => ?_
  rcases List.mem_or_eq_of_mem_set member with old | isNew
  · exact ⟨p, node, old, .refl node⟩
  · exact known node isNew.symm

theorem nodesFrom_advance {fd out : BitVec 64} (t : Tmpfs) (member : some node ∈ s.fds p) :
    NodesFrom s (({ s with tmpfs := t } : OpenFiles Foreign).advance p fd node out) := by
  unfold OpenFiles.advance
  split
  · refine nodesFrom_store t fun other same => ⟨p, node, member, ?_⟩
    cases same
    rfl
  · exact .refl s

theorem nodesFrom_append (t : Tmpfs) (member : some node ∈ s.fds p) :
    NodesFrom s (({ s with tmpfs := t } : OpenFiles Foreign).appendProcessFd p node).2 := by
  refine .table rfl fun other inTable => ?_
  rcases List.mem_append.mp inTable with old | last
  · exact ⟨p, other, old, .refl other⟩
  · cases List.mem_singleton.mp last
    exact ⟨p, node, member, .refl node⟩

theorem advance_tmpfs (fd out : BitVec 64) :
    (s.advance p fd node out).tmpfs = s.tmpfs ∧ (s.advance p fd node out).mounts = s.mounts := by
  unfold OpenFiles.advance
  split <;> exact ⟨rfl, rfl⟩

/-- Advancing a position changes one node. -/
theorem advance_member {fd out : BitVec 64} {other : OpenNode Foreign}
    (member : some other ∈ (s.advance p fd node out).fds q) :
    some other ∈ s.fds q ∨
      (0 < out.toInt ∧ other = { node with userOffset := node.userOffset + out }) := by
  unfold OpenFiles.advance at member
  split at member
  · rename_i positive
    change some other ∈ Function.update s.fds p _ q at member
    by_cases same : q = p
    · subst same
      rw [Function.update_self] at member
      rcases List.mem_or_eq_of_mem_set member with old | isNew
      · exact Or.inl old
      · exact Or.inr ⟨positive, Option.some.inj isNew⟩
    · rw [Function.update_of_ne same] at member
      exact Or.inl member
  · exact Or.inl member

/-- The write gets past the checks and goes to the tmpfs file `f`. -/
structure WritesTo (s : OpenFiles Foreign) (p : Nat) (fd ptr len : BitVec 64) (valid : Bool)
    (node : OpenNode Foreign) (f : Nat) : Prop where
  access : s.accessNode p fd ptr len valid 0o2 = .ok node
  device : node.device = .tmpfs (.file f)
  notLink : flagSet node.flags fsSymlink = false

/-- What `sys_write` does: no file changes, or the one that it goes to is written. -/
theorem sysWrite_cases {fd ptr len : BitVec 64} {valid : Bool} {buffer : Nat → BitVec 8} {answer : Nat}
    (wrote : s.sysWrite p fd ptr len valid buffer answer = some (result, s')) :
    NodesFrom s s' ∧ s'.mounts = s.mounts ∧
      ((s'.tmpfs = s.tmpfs ∧ (∀ node f, ¬ WritesTo s p fd ptr len valid node f) ∧
          ∀ q node f, some node ∈ s'.fds q → node.device = .tmpfs (.file f) → some node ∈ s.fds q) ∨
        ∃ node f n, WritesTo s p fd ptr len valid node f ∧ result = BitVec.ofNat 64 n ∧
          s.tmpfs.writeTmpfs f node.userOffset.toNat len.toNat buffer = some (n, s'.tmpfs) ∧
          s' = ({ s with tmpfs := s'.tmpfs } : OpenFiles Foreign).advance p fd node result) := by
  unfold OpenFiles.sysWrite at wrote
  split at wrote
  · rename_i e denied
    cases wrote
    refine ⟨.refl s, rfl, Or.inl ⟨rfl, fun node f to_ => ?_, fun _ _ _ member _ => member⟩⟩
    rw [to_.access] at denied
    cases denied
  rename_i node access
  have member := accessNode_member access
  have unique : ∀ other f, WritesTo s p fd ptr len valid other f → other = node := by
    intro other f to_
    exact Except.ok.inj (to_.access.symm.trans access)
  split at wrote
  · cases wrote
  rename_i out after written
  cases wrote
  unfold OpenFiles.writeFs at written
  split at written
  · rename_i f device
    split at written
    · rename_i isLink
      cases written
      refine ⟨nodesFrom_advance s.tmpfs member, (advance_tmpfs _ _).2,
        Or.inl ⟨(advance_tmpfs _ _).1, fun other g to_ => ?_, fun q other g inTable _ => ?_⟩⟩
      · have notLink := to_.notLink
        rw [unique other g to_, isLink] at notLink
        cases notLink
      · exact (advance_member inTable).resolve_right fun moved => absurd moved.1 (by decide)
    · rename_i notLink
      obtain ⟨⟨n, t⟩, done, same⟩ := Option.map_eq_some_iff.mp written
      cases same
      refine ⟨nodesFrom_advance t member, (advance_tmpfs _ _).2,
        Or.inr ⟨node, f, n, ⟨access, device, by simpa using notLink⟩, rfl, ?_, ?_⟩⟩
      · rw [(advance_tmpfs _ _).1]
        exact done
      · rw [(advance_tmpfs _ _).1]
  · rename_i d device
    cases written
    refine ⟨nodesFrom_advance s.tmpfs member, (advance_tmpfs _ _).2,
      Or.inl ⟨(advance_tmpfs _ _).1, fun other g to_ => ?_, fun q other g inTable isFile => ?_⟩⟩
    · have isFile := to_.device
      rw [unique other g to_, device] at isFile
      cases isFile
    · refine (advance_member inTable).resolve_right fun moved => ?_
      rw [moved.2, device] at isFile
      cases isFile
  · rename_i other device
    cases written
    refine ⟨nodesFrom_advance s.tmpfs member, (advance_tmpfs _ _).2,
      Or.inl ⟨(advance_tmpfs _ _).1, fun other g to_ => ?_, fun q other g inTable isFile => ?_⟩⟩
    · have isFile := to_.device
      rw [unique other g to_, device] at isFile
      cases isFile
    · refine (advance_member inTable).resolve_right fun moved => ?_
      rw [moved.2, device] at isFile
      cases isFile

/-- The call opens and writes nothing. -/
def FdCall.Quiet : FdCall → Prop
  | .sysOpen _ _ _ _ _ => False
  | .sysWrite _ _ _ _ _ _ _ => False
  | _ => True

/-- The calls that open and write nothing leave tmpfs alone, and every node was there before. -/
theorem perform_quiet {call : FdCall} (performed : call.perform s = some (result, s'))
    (quiet : call.Quiet) :
    s'.tmpfs = s.tmpfs ∧ s'.mounts = s.mounts ∧ NodesFrom s s' := by
  have unchanged : s' = s → s'.tmpfs = s.tmpfs ∧ s'.mounts = s.mounts ∧ NodesFrom s s' := by
    rintro rfl
    exact ⟨rfl, rfl, .refl _⟩
  cases call with
  | sysOpen p who file flags mode => exact quiet.elim
  | sysWrite p fd ptr len valid buffer answer => exact quiet.elim
  | sysRead p fd ptr len valid buffer answer =>
      obtain ⟨done, read, same⟩ := Option.map_eq_some_iff.mp performed
      cases same
      unfold OpenFiles.sysRead at read
      split at read
      · cases read
        exact unchanged rfl
      rename_i node access
      split at read
      · cases read
      · cases read
        exact ⟨(advance_tmpfs _ _).1, (advance_tmpfs _ _).2,
          nodesFrom_advance s.tmpfs (accessNode_member access)⟩
  | sysSeek p fd offset whence =>
      have moved : ∀ node position, s.getProcessFd p fd = some node →
          NodesFrom s (s.store p fd (some { node with userOffset := position })) := by
        intro node position found
        refine nodesFrom_store s.tmpfs fun other same => ⟨p, node, getProcessFd_member found, ?_⟩
        cases same
        rfl
      have done := Option.some.inj performed
      unfold OpenFiles.sysSeek at done
      split at done
      · cases done
        exact unchanged rfl
      rename_i node found
      dsimp only at done
      split at done
      · cases done
        exact unchanged rfl
      split at done
      · cases done
        exact ⟨rfl, rfl, moved node _ found⟩
      split at done
      · cases done
        exact ⟨rfl, rfl, moved node _ found⟩
      split at done
      · cases done
        exact ⟨rfl, rfl, moved node _ found⟩
      · cases done
        exact unchanged rfl
  | sysClose p fd =>
      have done := Option.some.inj performed
      unfold OpenFiles.sysClose at done
      split at done
      · cases done
        exact unchanged rfl
      · cases done
        refine ⟨rfl, rfl, nodesFrom_store s.tmpfs fun _ same => ?_⟩
        cases same
  | processDup2 p source target =>
      have done := Option.some.inj performed
      unfold OpenFiles.processDup2 at done
      split at done
      · cases done
        exact unchanged rfl
      rename_i node found
      have member := getProcessFd_member found
      dsimp only at done
      split at done
      · rw [← show (s.appendProcessFd p node).2 = s' from congrArg Prod.snd done]
        exact ⟨rfl, rfl, nodesFrom_append s.tmpfs member⟩
      split at done
      · cases done
        exact unchanged rfl
      · cases done
        refine ⟨rfl, rfl, nodesFrom_store s.tmpfs fun other same => ⟨p, node, member, ?_⟩⟩
        cases same
        exact .refl _
  | spawnFds parent child =>
      change (if (s.fds child).isEmpty then some (0, s.spawnFds parent child) else none) = _ at performed
      split at performed
      · cases performed
        exact ⟨rfl, rfl, .table rfl fun node member => ⟨parent, node, member, .refl node⟩⟩
      · cases performed
  | exitFds p =>
      cases performed
      refine ⟨rfl, rfl, .table rfl fun node member => ?_⟩
      obtain ⟨_, _, isNone⟩ := List.mem_map.mp member
      cases isNone
  | execFds p =>
      cases performed
      exact ⟨rfl, rfl, .table rfl fun node member => ⟨p, node, List.mem_of_mem_take member, .refl node⟩⟩

end Calls

/-- A tmpfs with nothing mounted in it, and no process with a descriptor. -/
def noneOpen (t : Tmpfs) : OpenFiles Empty where
  tmpfs := t
  mounts :=
    { root := t.tmpfsRoot
      rootAttributes := { mask := 0o777, uid := 0, gid := 0 }
      mountpoints := []
      finddir := Empty.elim
      flags := Empty.elim
      length := Empty.elim }
  fds _ := []

end Voxel.Proofs
