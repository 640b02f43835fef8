/-
Module: Voxel.Proofs.TmpfsContents
Layer: Proofs
Purpose: Where the bytes of a file come from. A run is followed by a record of the byte that was last written
  at every position of every file. The files agree with the record; if no write begins behind the end of
  its file, the record has every byte of every file, and two runs over different memories read the same.
Trusted boundary: none
Main exports: Written, TmpfsCall.note, Remembers, Remembers.step, Covered, NoGap, step_withPhys,
  contents_come_from_writes
-/
import Voxel.Proofs.DirectoryMap
import Voxel.Proofs.TmpfsRead

namespace Voxel.Proofs

open Voxel.Lib Voxel.Kernel

/-! ## The record of the writes -/

/-- The byte that was last written at a position of a file, since the file was made or truncated. -/
abbrev Written := Nat → Nat → Option (BitVec 8)

/-- The bytes of a buffer over what was written before. -/
def overlay (before : Nat → Option (BitVec 8)) (offset size : Nat) (buffer : Nat → BitVec 8) :
    Nat → Option (BitVec 8) :=
  fun position =>
    if offset ≤ position ∧ position < offset + size then some (buffer (position - offset))
    else before position

/-- The record without the file of an entry. -/
def forgetEntry (written : Written) : Option TmpfsEntry → Written
  | some (.file f) => Function.update written f fun _ => none
  | _ => written

/-- The record after a call. -/
def TmpfsCall.note (t : Tmpfs) (written : Written) : TmpfsCall → Written
  | .write f offset size buffer =>
      Function.update written f (overlay (written f) offset size buffer)
  | .truncate f => Function.update written f fun _ => none
  | .unlink d name => forgetEntry written (t.finddirTmpfs d name)
  | .create _ _ _ _ => written
  | .symlink _ _ _ _ => written
  | .mkdir _ _ _ _ => written

/-- What the record has is in the files. -/
def Remembers (t : Tmpfs) (written : Written) : Prop :=
  ∀ f position byte, written f position = some byte → ∃ file, t.files f = some file ∧
    position < file.length ∧ TmpfsFile.byteAt file t.phys position = some byte

/-- The record has every byte of every regular file, and the lengths are 64-bit numbers. -/
structure Covered (t : Tmpfs) (written : Written) : Prop where
  every : ∀ f file, t.files f = some file → file.target = none → ∀ position < file.length,
    ∃ byte, written f position = some byte
  short : ∀ f file, t.files f = some file → file.target = none → file.length < 2 ^ 64

/-- A write begins in its file or at its end. -/
def NoGap (t : Tmpfs) : TmpfsCall → Prop
  | .write f offset _ _ => ∀ file, t.files f = some file → offset ≤ file.length
  | _ => True

/-! ## One call -/

/-- The call adds an entry to a directory. -/
def TmpfsCall.Adding : TmpfsCall → Prop
  | .create _ _ _ _ => True
  | .symlink _ _ _ _ => True
  | .mkdir _ _ _ _ => True
  | _ => False

/-- What a call that adds an entry does to the files: all stay, and new ones have no blocks. -/
theorem adding_step {t t' : Tmpfs} {call : TmpfsCall} (sound : Tmpfs.Sound t) (adding : call.Adding)
    (stepped : call.step t = some t') :
    ∃ d, Kept t t' d ∧
      ∀ f file, t.files f = none → t'.files f = some file → file.blocks = [] := by
  have ofAdds : ∀ {d name made result}, Adds t d name made result t' → ∃ d, Kept t t' d ∧
      ∀ f file, t.files f = none → t'.files f = some file → file.blocks = [] :=
    fun adds => ⟨_, adds.kept, fun _ _ absent present => adds.newBlocks absent present⟩
  cases call with
  | create who d name mode =>
      obtain ⟨⟨_, _⟩, created, rfl⟩ := Option.map_eq_some_iff.mp stepped
      exact ofAdds (createTmpfs_adds sound.owned created)
  | symlink who d target name =>
      obtain ⟨⟨_, _⟩, created, rfl⟩ := Option.map_eq_some_iff.mp stepped
      exact ofAdds (symlinkTmpfs_adds sound.owned created)
  | mkdir who d name mode =>
      obtain ⟨⟨_, _⟩, made, rfl⟩ := Option.map_eq_some_iff.mp stepped
      by_cases empty : name = []
      · unfold Tmpfs.mkdirTmpfs at made
        rw [if_pos empty] at made
        cases made
        refine ⟨d, .refl _ d, fun f file absent present => ?_⟩
        rw [absent] at present
        cases present
      · exact ofAdds (mkdirTmpfs_adds sound.owned empty made)
  | write | truncate | unlink => exact adding.elim

/-- A write changes no byte of another file. -/
theorem write_otherBytes {t t' : Tmpfs} {f g : Nat} {file' other : TmpfsFile}
    {offset size : Nat} {buffer : Nat → BitVec 8} {file : TmpfsFile} (owned : Tmpfs.Owned t')
    (present : t'.files f = some file') (presentOther : t'.files g = some other) (different : g ≠ f)
    (done : WriteDone offset size buffer file file' t.phys t'.phys) (position : Nat) :
    TmpfsFile.byteAt other t'.phys position = TmpfsFile.byteAt other t.phys position := by
  unfold TmpfsFile.byteAt
  cases block : other.blocks[position / blockSize]? with
  | none => rfl
  | some frame =>
      rw [Option.map_some, Option.map_some, done.outside]
      have inBlock : position % blockSize < blockSize := Nat.mod_lt _ (by decide)
      have place : (frame * blockSize + position % blockSize) / blockSize = frame := by
        rw [Nat.mul_comm, Nat.mul_add_div (by decide), Nat.div_eq_of_lt inBlock, Nat.add_zero]
      rw [place]
      intro member
      obtain ⟨i, here⟩ := List.getElem?_of_mem member
      have same := @Exclusive.unique _ _ _ _ owned (.filePart g (.block (position / blockSize)))
        (.filePart f (.block i)) frame ⟨other, presentOther, block⟩ ⟨file', present, here⟩
      cases same
      exact different rfl

/-- What a write does to the files and to memory. -/
theorem write_step {t t' : Tmpfs} {f offset size : Nat} {buffer : Nat → BitVec 8} (sound : Tmpfs.Sound t)
    (linked : Tmpfs.Linked t f) (inside : NoWrap offset size)
    (stepped : TmpfsCall.step t (.write f offset size buffer) = some t') :
    ∃ file file', t.files f = some file ∧ t'.files = Function.update t.files f (some file') ∧
      file'.target = file.target ∧ WriteDone offset size buffer file file' t.phys t'.phys ∧
      ∀ g other position, g ≠ f → t.files g = some other →
        TmpfsFile.byteAt other t'.phys position = TmpfsFile.byteAt other t.phys position := by
  obtain ⟨⟨_, t'⟩, wrote, rfl⟩ := Option.map_eq_some_iff.mp stepped
  obtain ⟨file, present⟩ := sound.linked_some linked
  obtain ⟨_, file', grown, done⟩ := writeTmpfs_spec inside sound.owned present wrote
  have files : t'.files = Function.update t.files f (some file') := by
    rw [grown.files, setFile_files, Function.update_idem]
  have target : file'.target = file.target := by rw [grown.rest]
  refine ⟨file, file', present, files, target, done, fun g other position different here => ?_⟩
  refine write_otherBytes (sound.write linked inside wrote).owned ?_ ?_ different done position
  · rw [files, Function.update_self]
  · rw [files, Function.update_of_ne different]
    exact here

/-- What a truncation does to the files and to memory. -/
theorem truncate_step {t t' : Tmpfs} {f : Nat} (stepped : TmpfsCall.step t (.truncate f) = some t') :
    ∃ file, t.files f = some file ∧
      t'.files = Function.update t.files f (some { file with blocks := [], length := 0 }) ∧
      t'.phys = t.phys := by
  obtain ⟨⟨result, t'⟩, truncated, rfl⟩ := Option.map_eq_some_iff.mp stepped
  unfold Tmpfs.truncateTmpfs at truncated
  split at truncated
  · cases truncated
  rename_i file present
  cases truncated
  obtain ⟨⟨m, shape⟩, _⟩ := releaseBlocks_spec t file.blocks
  refine ⟨file, present, ?_, ?_⟩
  · rw [setFile_files, shape]
  · rw [shape]
    rfl

/-- What unlinking does to the files and to the record. -/
theorem unlink_step {t t' : Tmpfs} {d : Nat} {name : CString} (written : Written)
    (stepped : TmpfsCall.step t (.unlink d name) = some t') :
    (t' = t ∧ TmpfsCall.note t written (.unlink d name) = written) ∨
      ∃ f, t'.files = Function.update t.files f none ∧ t'.phys = t.phys ∧
        TmpfsCall.note t written (.unlink d name) = Function.update written f fun _ => none := by
  obtain ⟨⟨result, t'⟩, unlinked, rfl⟩ := Option.map_eq_some_iff.mp stepped
  have noted : ∀ {dir}, t.dirs d = some dir →
      TmpfsCall.note t written (.unlink d name) = forgetEntry written (t.findEntry dir name) := by
    intro dir present
    rw [TmpfsCall.note, Tmpfs.finddirTmpfs, present]
    rfl
  obtain ⟨dir, present, ⟨missing, _, same⟩ | ⟨e, found, _, same⟩ | ⟨f, file, found, _, _, files, _, phys⟩⟩ :=
    unlinkTmpfs_cases unlinked
  · refine Or.inl ⟨same, ?_⟩
    rw [noted present, missing]
    rfl
  · refine Or.inl ⟨same, ?_⟩
    rw [noted present, found]
    rfl
  · refine Or.inr ⟨f, files, phys, ?_⟩
    rw [noted present, found]
    rfl

/-- A position with a byte is in a block of the file. -/
theorem byteAt_block {file : TmpfsFile} {phys : Nat → BitVec 8} {position : Nat} {byte : BitVec 8}
    (here : TmpfsFile.byteAt file phys position = some byte) : position / blockSize < file.blockCount := by
  unfold TmpfsFile.byteAt at here
  obtain ⟨frame, block, _⟩ := Option.map_eq_some_iff.mp here
  exact (List.getElem?_eq_some_iff.mp block).1

/-- Every call keeps the record true. -/
theorem Remembers.step {t t' : Tmpfs} {written : Written} {call : TmpfsCall} (sound : Tmpfs.Sound t)
    (remembers : Remembers t written) (allowed : call.Allowed t) (stepped : call.step t = some t') :
    Remembers t' (call.note t written) := by
  have ofAdding : call.Adding → Remembers t' written := by
    intro adding f position byte here
    obtain ⟨d, kept, _⟩ := adding_step sound adding stepped
    obtain ⟨file, present, inside, isByte⟩ := remembers f position byte here
    obtain ⟨still, bytes⟩ := kept.files f file present
    exact ⟨file, still, inside, (bytes position).trans isByte⟩
  -- a file that loses its record, while memory and the other files stay
  have cleared : ∀ f entry, t'.files = Function.update t.files f entry → t'.phys = t.phys →
      Remembers t' (Function.update written f fun _ => none) := by
    intro f entry files phys g position byte here
    by_cases same : g = f
    · rw [same, Function.update_self] at here
      cases here
    · rw [Function.update_of_ne same] at here
      rw [files, Function.update_of_ne same, phys]
      exact remembers g position byte here
  cases call with
  | create | symlink | mkdir => exact ofAdding trivial
  | write f offset size buffer =>
      obtain ⟨file, file', present, files, _, done, others⟩ :=
        write_step sound allowed.1 allowed.2 stepped
      intro g position byte here
      change Function.update written f _ g position = some byte at here
      rw [files]
      by_cases same : g = f
      · subst same
        rw [Function.update_self] at here ⊢
        refine ⟨file', rfl, ?_⟩
        rw [done.length]
        unfold overlay at here
        split at here
        · rename_i inWrite
          cases here
          refine ⟨by omega, ?_⟩
          have stored := done.written (position - offset) (by omega)
          rw [Nat.add_sub_cancel' inWrite.1] at stored
          exact stored
        · rename_i outside
          obtain ⟨_, present', inside, isByte⟩ := remembers g position byte here
          cases present.symm.trans present'
          refine ⟨by omega, ?_⟩
          rw [done.kept position (byteAt_block isByte) (by omega)]
          exact isByte
      · rw [Function.update_of_ne same] at here ⊢
        obtain ⟨other, presentOther, inside, isByte⟩ := remembers g position byte here
        exact ⟨other, presentOther, inside, (others g other position same presentOther).trans isByte⟩
  | truncate f =>
      obtain ⟨file, _, files, phys⟩ := truncate_step stepped
      exact cleared f _ files phys
  | unlink d name =>
      rcases unlink_step written stepped with ⟨rfl, noted⟩ | ⟨f, files, phys, noted⟩
      · rw [noted]
        exact remembers
      · rw [noted]
        exact cleared f _ files phys

/-- A call without a gap keeps the record complete. -/
theorem Covered.step {t t' : Tmpfs} {written : Written} {call : TmpfsCall} (sound : Tmpfs.Sound t)
    (covered : Covered t written) (allowed : call.Allowed t) (noGap : NoGap t call)
    (stepped : call.step t = some t') : Covered t' (call.note t written) := by
  have soundAfter := sound.step allowed stepped
  have ofAdding : call.Adding → Covered t' written := by
    intro adding
    obtain ⟨d, kept, new⟩ := adding_step sound adding stepped
    have origin : ∀ f file, t'.files f = some file → file.target = none →
        t.files f = some file ∨ file.length = 0 := by
      intro f file here regular
      cases before : t.files f with
      | some old =>
          cases here.symm.trans (kept.files f old before).1
          exact Or.inl rfl
      | none =>
          have reach := (soundAfter.fits f file here regular).2
          rw [TmpfsFile.blockCount, new f file before here, List.length_nil, Nat.zero_mul] at reach
          exact Or.inr (Nat.le_zero.mp reach)
    constructor
    · intro f file here regular position inside
      rcases origin f file here regular with old | empty
      · exact covered.every f file old regular position inside
      · omega
    · intro f file here regular
      rcases origin f file here regular with old | empty
      · exact covered.short f file old regular
      · rw [empty]
        decide
  -- one file changes, and its own record is complete
  have changed : ∀ f entry (record : Nat → Option (BitVec 8)),
      t'.files = Function.update t.files f entry →
      (∀ file, entry = some file → file.target = none →
        (∀ position < file.length, ∃ byte, record position = some byte) ∧ file.length < 2 ^ 64) →
      Covered t' (Function.update written f record) := by
    intro f entry record files complete
    constructor
    · intro g other here regular position inside
      rw [files] at here
      by_cases same : g = f
      · subst same
        rw [Function.update_self] at here ⊢
        exact (complete other here regular).1 position inside
      · rw [Function.update_of_ne same] at here ⊢
        exact covered.every g other here regular position inside
    · intro g other here regular
      rw [files] at here
      by_cases same : g = f
      · subst same
        rw [Function.update_self] at here
        exact (complete other here regular).2
      · rw [Function.update_of_ne same] at here
        exact covered.short g other here regular
  cases call with
  | create | symlink | mkdir => exact ofAdding trivial
  | write f offset size buffer =>
      obtain ⟨file, file', present, files, target, done, _⟩ :=
        write_step sound allowed.1 allowed.2 stepped
      refine changed f (some file') _ files ?_
      rintro _ ⟨⟩ regular
      have inFile : offset ≤ file.length := noGap file present
      rw [target] at regular
      have short := covered.short f file present regular
      have inside : offset + size < 2 ^ 64 := allowed.2
      rw [done.length]
      refine ⟨fun position below => ?_, by omega⟩
      unfold overlay
      split
      · exact ⟨_, rfl⟩
      · exact covered.every f file present regular position (by omega)
  | truncate f =>
      obtain ⟨file, _, files, _⟩ := truncate_step stepped
      refine changed f _ _ files ?_
      rintro _ ⟨⟩ _
      exact ⟨fun position below => absurd below (Nat.not_lt_zero _), (by decide : 0 < 2 ^ 64)⟩
  | unlink d name =>
      rcases unlink_step written stepped with ⟨rfl, noted⟩ | ⟨f, files, _, noted⟩
      · rw [noted]
        exact covered
      · rw [noted]
        refine changed f none _ files ?_
        intro other absent
        cases absent

/-! ## Another memory -/

/-- The same structures over another memory. -/
def Tmpfs.withPhys (t : Tmpfs) (phys : Nat → BitVec 8) : Tmpfs := { t with phys := phys }

variable {t t' : Tmpfs} {d f : Nat} {name : CString}

/-- `tmpfs_new_file` does not look at the bytes of blocks. -/
theorem newFile_withPhys (t : Tmpfs) (phys : Nat → BitVec 8) (name : CString) :
    (Tmpfs.withPhys t phys).newFile name =
      (t.newFile name).map fun new => (new.1, new.2.1, Tmpfs.withPhys new.2.2 phys) := by
  unfold Tmpfs.newFile Tmpfs.strdup Tmpfs.withPhys
  dsimp only
  cases malloc t.frames fileSize with
  | none => rfl
  | some struct =>
      dsimp only
      cases malloc struct.2 (name.length + 1) with
      | none => rfl
      | some nameAt =>
          dsimp only
          cases malloc nameAt.2 (2 * pointerSize) with
          | none => rfl
          | some blocksAt => rfl

/-- `tmpfs_new_dir` does not look at the bytes of blocks. -/
theorem newDir_withPhys (t : Tmpfs) (phys : Nat → BitVec 8) (name : CString) :
    (Tmpfs.withPhys t phys).newDir name =
      (t.newDir name).map fun new => (new.1, new.2.1, Tmpfs.withPhys new.2.2 phys) := by
  unfold Tmpfs.newDir Tmpfs.strdup Tmpfs.withPhys
  dsimp only
  cases malloc t.frames dirSize with
  | none => rfl
  | some struct =>
      dsimp only
      cases malloc struct.2 (name.length + 1) with
      | none => rfl
      | some nameAt =>
          dsimp only
          cases malloc nameAt.2 (8 * pointerSize) with
          | none => rfl
          | some filesAt => rfl

theorem addEntry_withPhys (t : Tmpfs) (phys : Nat → BitVec 8) (d : Nat) (entry : TmpfsEntry) :
    (Tmpfs.withPhys t phys).addEntry d entry =
      (t.addEntry d entry).map fun t => Tmpfs.withPhys t phys := by
  unfold Tmpfs.addEntry Tmpfs.withPhys
  dsimp only
  cases t.dirs d with
  | none => rfl
  | some dir =>
      dsimp only
      split
      · cases realloc t.frames dir.filesAt (pointerSize * (dir.filesCapacity + 8)) with
        | none => rfl
        | some grown => rfl
      · rfl

theorem findEntry_withPhys (t : Tmpfs) (phys : Nat → BitVec 8) (dir : TmpfsDir) (name : CString) :
    (Tmpfs.withPhys t phys).findEntry dir name = t.findEntry dir name :=
  rfl

theorem createTmpfs_withPhys {who : Credentials} {mode : BitVec 32} {result : Int}
    (phys : Nat → BitVec 8) (created : t.createTmpfs who d name mode = some (result, t')) :
    (Tmpfs.withPhys t phys).createTmpfs who d name mode = some (result, Tmpfs.withPhys t' phys) := by
  unfold Tmpfs.createTmpfs at created ⊢
  rw [newFile_withPhys, show (Tmpfs.withPhys t phys).dirs d = t.dirs d from rfl]
  split at created
  · cases created
  rename_i dir _
  rw [findEntry_withPhys]
  split at created
  · rename_i exists_
    cases created
    rw [if_pos exists_]
  rename_i fresh
  rw [if_neg fresh]
  split at created
  · cases created
  rename_i f file t₁ made
  obtain ⟨t₂, linked, same⟩ := Option.map_eq_some_iff.mp created
  cases same
  rw [made, Option.map_some]
  dsimp only
  rw [show (Tmpfs.withPhys t₁ phys).setFile f { file with mask := mode, uid := who.uid, gid := who.gid } =
    Tmpfs.withPhys (t₁.setFile f { file with mask := mode, uid := who.uid, gid := who.gid }) phys from rfl,
    addEntry_withPhys, linked]
  rfl

theorem symlinkTmpfs_withPhys {who : Credentials} {target : CString} {result : Int}
    (phys : Nat → BitVec 8) (created : t.symlinkTmpfs who d target name = some (result, t')) :
    (Tmpfs.withPhys t phys).symlinkTmpfs who d target name = some (result, Tmpfs.withPhys t' phys) := by
  unfold Tmpfs.symlinkTmpfs at created ⊢
  rw [newFile_withPhys, show (Tmpfs.withPhys t phys).dirs d = t.dirs d from rfl]
  split at created
  · cases created
  rename_i dir _
  rw [findEntry_withPhys]
  split at created
  · rename_i exists_
    cases created
    rw [if_pos exists_]
  rename_i fresh
  rw [if_neg fresh]
  split at created
  · cases created
  rename_i f file t₁ made
  rw [made, Option.map_some]
  dsimp only
  split at created
  · cases created
  rename_i targetAt t₂ copied
  obtain ⟨t₃, linked, same⟩ := Option.map_eq_some_iff.mp created
  cases same
  have copiedToo : (Tmpfs.withPhys t₁ phys).strdup target = some (targetAt, Tmpfs.withPhys t₂ phys) := by
    unfold Tmpfs.strdup at copied ⊢
    rw [show (Tmpfs.withPhys t₁ phys).frames = t₁.frames from rfl]
    split at copied
    · cases copied
    · cases copied
      rfl
  rw [copiedToo]
  dsimp only
  generalize { file with
    target := some (target, targetAt), length := target.length, mask := 0o777, uid := who.uid
    gid := who.gid } = link at linked ⊢
  rw [show (Tmpfs.withPhys t₂ phys).setFile f link = Tmpfs.withPhys (t₂.setFile f link) phys from rfl,
    addEntry_withPhys, linked]
  rfl

theorem mkdirTmpfs_withPhys {who : Credentials} {mode : BitVec 32} {result : Int}
    (phys : Nat → BitVec 8) (made : t.mkdirTmpfs who d name mode = some (result, t')) :
    (Tmpfs.withPhys t phys).mkdirTmpfs who d name mode = some (result, Tmpfs.withPhys t' phys) := by
  unfold Tmpfs.mkdirTmpfs at made ⊢
  split at made
  · rename_i empty
    cases made
    rw [if_pos empty]
  rename_i notEmpty
  rw [if_neg notEmpty, newDir_withPhys, show (Tmpfs.withPhys t phys).dirs d = t.dirs d from rfl]
  split at made
  · cases made
  rename_i dir _
  rw [findEntry_withPhys]
  split at made
  · rename_i exists_
    cases made
    rw [if_pos exists_]
  rename_i fresh
  rw [if_neg fresh]
  split at made
  · cases made
  rename_i out outDir t₁ newlyMade
  obtain ⟨t₂, linked, same⟩ := Option.map_eq_some_iff.mp made
  cases same
  rw [newlyMade, Option.map_some]
  dsimp only
  rw [show (Tmpfs.withPhys t₁ phys).setDir out { outDir with mask := mode, uid := who.uid, gid := who.gid } =
    Tmpfs.withPhys (t₁.setDir out { outDir with mask := mode, uid := who.uid, gid := who.gid }) phys from rfl,
    addEntry_withPhys, linked]
  rfl

/-- `tmpfs_file_blocks_embiggen` does not look at the bytes of blocks. -/
theorem embiggen_withPhys (phys : Nat → BitVec 8) (blockid fuel : Nat) (file : TmpfsFile) (t : Tmpfs) :
    Tmpfs.embiggen blockid fuel file (Tmpfs.withPhys t phys) =
      (Tmpfs.embiggen blockid fuel file t).map fun grown => (grown.1, Tmpfs.withPhys grown.2 phys) := by
  induction fuel generalizing file t with
  | zero => rfl
  | succ fuel inductionHypothesis =>
      rw [Tmpfs.embiggen, Tmpfs.embiggen]
      split
      · rw [show (Tmpfs.withPhys t phys).frames = t.frames from rfl]
        cases realloc t.frames file.blocksAt (pointerSize * (file.pointers * 2)) with
        | none => rfl
        | some grown => exact inductionHypothesis _ { t with frames := grown.2 }
      · rfl

theorem appendBlocks_withPhys (phys : Nat → BitVec 8) (count : Nat) (file : TmpfsFile) (t : Tmpfs) :
    Tmpfs.appendBlocks count file (Tmpfs.withPhys t phys) =
      (Tmpfs.appendBlocks count file t).map fun grown => (grown.1, Tmpfs.withPhys grown.2 phys) := by
  induction count generalizing file t with
  | zero => rfl
  | succ count inductionHypothesis =>
      rw [Tmpfs.appendBlocks, Tmpfs.appendBlocks,
        show (Tmpfs.withPhys t phys).frames = t.frames from rfl]
      cases mmuAllocateFrame t.frames with
      | none => rfl
      | some taken =>
          exact inductionHypothesis _
            { t with frames := taken.2, totalBlocks := t.totalBlocks + 1 }

theorem getsetBlock_withPhys (phys : Nat → BitVec 8) (f blockid : Nat) (t : Tmpfs) :
    (Tmpfs.withPhys t phys).getsetBlock f blockid =
      (t.getsetBlock f blockid).map fun got => (got.1, Tmpfs.withPhys got.2 phys) := by
  unfold Tmpfs.getsetBlock
  rw [show (Tmpfs.withPhys t phys).files f = t.files f from rfl]
  cases t.files f with
  | none => rfl
  | some file =>
      dsimp only
      rw [embiggen_withPhys]
      cases Tmpfs.embiggen blockid (blockid + 2) file t with
      | none => rfl
      | some larger =>
          rw [Option.map_some]
          dsimp only
          rw [appendBlocks_withPhys]
          cases Tmpfs.appendBlocks (blockid + 1 - larger.1.blockCount) larger.1 larger.2 with
          | none => rfl
          | some grown =>
              rw [Option.map_some]
              dsimp only
              cases grown.1.blocks[blockid]? with
              | none => rfl
              | some frame => rfl

/-- The copies of a write go to the same blocks. -/
theorem runCopies_withPhys {copies : List Copy} {buffer : Nat → BitVec 8} (phys : Nat → BitVec 8)
    (ran : Tmpfs.runCopies f buffer copies t = some t') :
    ∃ phys', Tmpfs.runCopies f buffer copies (Tmpfs.withPhys t phys) = some (Tmpfs.withPhys t' phys') := by
  induction copies generalizing t phys with
  | nil =>
      cases ran
      exact ⟨phys, rfl⟩
  | cons c copies inductionHypothesis =>
      rw [Tmpfs.runCopies] at ran ⊢
      rw [getsetBlock_withPhys]
      split at ran
      · cases ran
      rename_i frame middle got
      rw [got, Option.map_some]
      dsimp only
      exact @inductionHypothesis { middle with phys := c.run frame buffer middle.phys }
        (c.run frame buffer phys) ran

theorem writeTmpfs_withPhys {offset size n : Nat} {buffer : Nat → BitVec 8} (phys : Nat → BitVec 8)
    (wrote : t.writeTmpfs f offset size buffer = some (n, t')) :
    ∃ phys', (Tmpfs.withPhys t phys).writeTmpfs f offset size buffer =
      some (n, Tmpfs.withPhys t' phys') := by
  unfold Tmpfs.writeTmpfs at wrote ⊢
  rw [show (Tmpfs.withPhys t phys).files f = t.files f from rfl]
  split at wrote
  · cases wrote
  rename_i file _
  dsimp only at wrote ⊢
  generalize (if file.length < writeEnd offset size then writeEnd offset size else file.length) = length
    at wrote ⊢
  split at wrote
  · cases wrote
  rename_i done ran
  cases wrote
  obtain ⟨phys', ranToo⟩ := runCopies_withPhys phys ran
  refine ⟨phys', ?_⟩
  rw [show (Tmpfs.withPhys t phys).setFile f { file with length := length } =
    Tmpfs.withPhys (t.setFile f { file with length := length }) phys from rfl, ranToo]

/-- Releasing blocks does not touch their bytes. -/
theorem releaseBlocks_withPhys (phys : Nat → BitVec 8) (blocks : List Nat) (t : Tmpfs) :
    (Tmpfs.withPhys t phys).releaseBlocks blocks = Tmpfs.withPhys (t.releaseBlocks blocks) phys := by
  induction blocks generalizing t with
  | nil => rfl
  | cons block blocks inductionHypothesis =>
      exact inductionHypothesis
        { t with frames := mmuReleaseFrame t.frames block, totalBlocks := t.totalBlocks - 1 }

theorem freeFile_withPhys (phys : Nat → BitVec 8) (file : TmpfsFile) (t : Tmpfs) :
    (Tmpfs.withPhys t phys).freeFile file = Tmpfs.withPhys (t.freeFile file) phys := by
  unfold Tmpfs.freeFile
  split
  · rename_i targetAt _
    exact releaseBlocks_withPhys phys file.blocks { t with frames := free t.frames targetAt }
  · exact releaseBlocks_withPhys phys file.blocks t

theorem unlinkTmpfs_withPhys {result : Int} (phys : Nat → BitVec 8)
    (unlinked : t.unlinkTmpfs d name = some (result, t')) :
    (Tmpfs.withPhys t phys).unlinkTmpfs d name = some (result, Tmpfs.withPhys t' phys) := by
  unfold Tmpfs.unlinkTmpfs at unlinked ⊢
  rw [show (Tmpfs.withPhys t phys).dirs d = t.dirs d from rfl]
  split at unlinked
  · cases unlinked
  rename_i dir _
  rw [findEntry_withPhys]
  split at unlinked
  · cases unlinked
    rfl
  · cases unlinked
    rfl
  rename_i g _
  rw [show (Tmpfs.withPhys t phys).files g = t.files g from rfl]
  split at unlinked
  · cases unlinked
  rename_i file _
  cases unlinked
  dsimp only
  rw [freeFile_withPhys]
  rfl

/-- A call does the same to the structures over another memory. -/
theorem step_withPhys {call : TmpfsCall} (phys : Nat → BitVec 8) (stepped : call.step t = some t') :
    ∃ phys', call.step (Tmpfs.withPhys t phys) = some (Tmpfs.withPhys t' phys') := by
  cases call with
  | create who d name mode =>
      obtain ⟨⟨_, _⟩, created, rfl⟩ := Option.map_eq_some_iff.mp stepped
      exact ⟨phys, Option.map_eq_some_iff.mpr ⟨_, createTmpfs_withPhys phys created, rfl⟩⟩
  | symlink who d target name =>
      obtain ⟨⟨_, _⟩, created, rfl⟩ := Option.map_eq_some_iff.mp stepped
      exact ⟨phys, Option.map_eq_some_iff.mpr ⟨_, symlinkTmpfs_withPhys phys created, rfl⟩⟩
  | mkdir who d name mode =>
      obtain ⟨⟨_, _⟩, made, rfl⟩ := Option.map_eq_some_iff.mp stepped
      exact ⟨phys, Option.map_eq_some_iff.mpr ⟨_, mkdirTmpfs_withPhys phys made, rfl⟩⟩
  | write f offset size buffer =>
      obtain ⟨⟨_, _⟩, wrote, rfl⟩ := Option.map_eq_some_iff.mp stepped
      obtain ⟨phys', wroteToo⟩ := writeTmpfs_withPhys phys wrote
      exact ⟨phys', Option.map_eq_some_iff.mpr ⟨_, wroteToo, rfl⟩⟩
  | truncate f =>
      obtain ⟨⟨_, _⟩, truncated, rfl⟩ := Option.map_eq_some_iff.mp stepped
      refine ⟨phys, ?_⟩
      unfold Tmpfs.truncateTmpfs at truncated
      split at truncated
      · cases truncated
      rename_i file present
      cases truncated
      rw [TmpfsCall.step, Tmpfs.truncateTmpfs, show (Tmpfs.withPhys t phys).files f = t.files f from rfl,
        present]
      dsimp only
      rw [releaseBlocks_withPhys]
      rfl
  | unlink d name =>
      obtain ⟨⟨_, _⟩, unlinked, rfl⟩ := Option.map_eq_some_iff.mp stepped
      exact ⟨phys, Option.map_eq_some_iff.mpr ⟨_, unlinkTmpfs_withPhys phys unlinked, rfl⟩⟩

/-! ## Runs -/

/-- A state and the record of the writes of the run that led to it. -/
structure Noted where
  tmpfs : Tmpfs
  written : Written

/-- A call, and its entry in the record. -/
def Noted.step (s : Noted) (call : TmpfsCall) : Option Noted :=
  (call.step s.tmpfs).map fun t => ⟨t, call.note s.tmpfs s.written⟩

/-- The steps of a run in which no write leaves a gap. -/
def Noted.Gapless (s : Noted) (call : TmpfsCall) : Prop := call.Allowed s.tmpfs ∧ NoGap s.tmpfs call

/-- A read in the range of a regular file finds the same bytes in both states, and they are those that were
written last, or zero where nothing was written. -/
def ContentsFromWrites (s s' : Noted) : Prop :=
  ∀ f file offset size buffer, s.tmpfs.files f = some file → file.target = none →
    offset + size ≤ file.length → ∃ read read',
      s.tmpfs.readTmpfs f offset size buffer = some (size, read) ∧
      s'.tmpfs.readTmpfs f offset size buffer = some (size, read') ∧
      (∀ i < 2 ^ 64, read i = read' i) ∧
      ∀ k < size, read k = (s.written f (offset + k)).getD 0

/-- What every state of such a run has. -/
structure Noted.Sound (s : Noted) : Prop where
  sound : Tmpfs.Sound s.tmpfs
  remembers : Remembers s.tmpfs s.written
  covered : Covered s.tmpfs s.written

theorem Noted.Sound.step {s s' : Noted} {call : TmpfsCall} (sound : Noted.Sound s)
    (gapless : Noted.Gapless s call) (stepped : Noted.step s call = some s') : Noted.Sound s' := by
  obtain ⟨t, called, rfl⟩ := Option.map_eq_some_iff.mp stepped
  exact ⟨sound.sound.step gapless.1 called, sound.remembers.step sound.sound gapless.1 called,
    sound.covered.step sound.sound gapless.1 gapless.2 called⟩

/-- A new tmpfs has no files to remember. -/
theorem noted_start {frames : FrameMap} {phys : Nat → BitVec 8} {rootName : CString} {start : Tmpfs}
    (created : Tmpfs.tmpfsCreate frames phys rootName = some start) :
    Noted.Sound ⟨start, fun _ _ => none⟩ := by
  refine ⟨tmpfsCreate_sound created, nofun, ?_⟩
  unfold Tmpfs.tmpfsCreate at created
  split at created
  · cases created
  rename_i root dir t made
  obtain ⟨m, rfl, _⟩ := newDir_spec made
  cases created
  exact ⟨nofun, nofun⟩

/-- A read in the range of a file finds the record. -/
theorem Noted.Sound.read {s : Noted} (sound : Noted.Sound s) {file : TmpfsFile} {offset size : Nat}
    (buffer : Nat → BitVec 8) (present : s.tmpfs.files f = some file) (regular : file.target = none)
    (inRange : offset + size ≤ file.length) :
    ∃ read, s.tmpfs.readTmpfs f offset size buffer = some (size, read) ∧
      (∀ k < size, s.written f (offset + k) = some (read k)) ∧
      ∀ i < 2 ^ 64, size ≤ i → read i = buffer i := by
  have reach := (sound.sound.fits f file present regular).2
  have short := sound.covered.short f file present regular
  obtain ⟨read, done, bytes, rest⟩ := @readTmpfs_spec s.tmpfs f offset size file buffer present reach
    (Nat.lt_of_le_of_lt inRange short) (by omega)
  rw [Nat.min_eq_left (by omega)] at done bytes rest
  refine ⟨read, done, fun k inside => ?_, rest⟩
  obtain ⟨byte, noted⟩ := sound.covered.every f file present regular (offset + k) (by omega)
  obtain ⟨other, presentToo, _, isByte⟩ := sound.remembers f (offset + k) byte noted
  cases present.symm.trans presentToo
  rw [noted, ← isByte]
  exact bytes k inside

/-- The same run over another memory. -/
theorem run_withPhys {s e : Noted} {calls : List TmpfsCall} (run : Run Noted.step Noted.Gapless s calls e)
    (phys : Nat → BitVec 8) :
    ∃ phys', Run Noted.step Noted.Gapless ⟨Tmpfs.withPhys s.tmpfs phys, s.written⟩ calls
      ⟨Tmpfs.withPhys e.tmpfs phys', e.written⟩ := by
  induction run generalizing phys with
  | refl s => exact ⟨phys, .refl _⟩
  | @head s middle e call calls gapless stepped _ inductionHypothesis =>
      obtain ⟨t, called, rfl⟩ := Option.map_eq_some_iff.mp stepped
      obtain ⟨phys₁, calledToo⟩ := step_withPhys phys called
      obtain ⟨phys', rest⟩ := inductionHypothesis phys₁
      refine ⟨phys', .head ?_ ?_ rest⟩
      · cases call with
        | write | truncate | create | symlink | mkdir | unlink => exact gapless
      · refine Option.map_eq_some_iff.mpr ⟨_, calledToo, ?_⟩
        cases call with
        | write | truncate | create | symlink | mkdir | unlink => rfl

/-- In every run whose writes begin in their file or at its end, and do not wrap, the contents of the files
come from the writes of the run alone: over any other contents of the memory the same run is possible,
every read finds the same there, and finds the bytes that were written last. -/
theorem contents_come_from_writes {frames : FrameMap} {phys : Nat → BitVec 8} {rootName : CString}
    {start : Tmpfs} {calls : List TmpfsCall} {s : Noted}
    (created : Tmpfs.tmpfsCreate frames phys rootName = some start)
    (run : Run Noted.step Noted.Gapless ⟨start, fun _ _ => none⟩ calls s) (other : Nat → BitVec 8) :
    ∃ start' s', Tmpfs.tmpfsCreate frames other rootName = some start' ∧
      Run Noted.step Noted.Gapless ⟨start', fun _ _ => none⟩ calls s' ∧ ContentsFromWrites s s' := by
  have createdToo : Tmpfs.tmpfsCreate frames other rootName = some (Tmpfs.withPhys start other) := by
    unfold Tmpfs.tmpfsCreate at created ⊢
    rw [show ({ frames := frames, files := fun _ => none, dirs := fun _ => none, tmpfsRoot := 0
                totalBlocks := 0, phys := other } : Tmpfs) =
      Tmpfs.withPhys { frames := frames, files := fun _ => none, dirs := fun _ => none, tmpfsRoot := 0
                       totalBlocks := 0, phys := phys } other from rfl, newDir_withPhys]
    split at created
    · cases created
    · rename_i root dir t made
      cases created
      rw [made]
      rfl
  obtain ⟨phys', runToo⟩ := run_withPhys run other
  have keeps := fun s call s' gapless stepped sound =>
    @Noted.Sound.step s s' call sound gapless stepped
  have sound := run.invariant keeps (noted_start created)
  have soundToo := runToo.invariant keeps (noted_start createdToo)
  refine ⟨_, _, createdToo, runToo, ?_⟩
  intro f file offset size buffer present regular inRange
  obtain ⟨read, done, bytes, rest⟩ := sound.read buffer present regular inRange
  obtain ⟨read', doneToo, bytesToo, restToo⟩ := soundToo.read buffer present regular inRange
  refine ⟨read, read', done, doneToo, fun i distance => ?_, fun k inside => ?_⟩
  · by_cases inside : i < size
    · exact Option.some.inj ((bytes i inside).symm.trans (bytesToo i inside))
    · rw [rest i distance (by omega), restToo i distance (by omega)]
  · rw [bytes k inside]
    rfl

instance (t : Tmpfs) (call : TmpfsCall) : Decidable (NoGap t call) :=
  match call with
  | .write f offset _ _ =>
      decidable_of_iff (∀ file ∈ t.files f, offset ≤ file.length) Iff.rfl
  | .create _ _ _ _ => inferInstanceAs (Decidable True)
  | .symlink _ _ _ _ => inferInstanceAs (Decidable True)
  | .mkdir _ _ _ _ => inferInstanceAs (Decidable True)
  | .truncate _ => inferInstanceAs (Decidable True)
  | .unlink _ _ => inferInstanceAs (Decidable True)

/-- A check that a step on the files of one directory leaves no gap. -/
def Noted.check (d : Nat) (s : Noted) (call : TmpfsCall) : Bool :=
  TmpfsCall.check d s.tmpfs call && decide (NoGap s.tmpfs call)

theorem Noted.check_sound (d : Nat) (s : Noted) (call : TmpfsCall) (checked : Noted.check d s call = true) :
    Noted.Gapless s call := by
  unfold Noted.check at checked
  rw [Bool.and_eq_true, decide_eq_true_eq] at checked
  exact ⟨TmpfsCall.check_sound d s.tmpfs call checked.1, checked.2⟩

/-- A file is made and written twice without a gap, over zeros and over other bytes. -/
theorem contents_come_from_writes_example : ∃ start s start' s',
    Tmpfs.tmpfsCreate freeMemory (fun _ => 0) [] = some start ∧
    Tmpfs.tmpfsCreate freeMemory (fun _ => 0xAA) [] = some start' ∧
    Run Noted.step Noted.Gapless ⟨start, fun _ _ => none⟩
      [.create ⟨0, 0⟩ 0 [97] 0o644, .write 3 0 5 fun _ => 7, .write 3 5 4096 fun _ => 8] s ∧
    Run Noted.step Noted.Gapless ⟨start', fun _ _ => none⟩
      [.create ⟨0, 0⟩ 0 [97] 0o644, .write 3 0 5 fun _ => 7, .write 3 5 4096 fun _ => 8] s' ∧
    ContentsFromWrites s s' := by
  have completes : ((Tmpfs.tmpfsCreate freeMemory (fun _ => 0) []).bind fun start =>
      Run.exec (fun s call => if Noted.check 0 s call then Noted.step s call else none)
        ⟨start, fun _ _ => none⟩
        [.create ⟨0, 0⟩ 0 [97] 0o644, .write 3 0 5 fun _ => 7, .write 3 5 4096 fun _ => 8]).isSome =
        true := by
    decide +kernel
  obtain ⟨s, ran⟩ := Option.isSome_iff_exists.mp completes
  obtain ⟨start, created, executed⟩ := Option.bind_eq_some_iff.mp ran
  have run := Run.of_checked (Noted.check_sound 0) executed
  obtain ⟨start', s', createdToo, runToo, same⟩ := contents_come_from_writes created run fun _ => 0xAA
  exact ⟨start, s, start', s', created, createdToo, run, runToo, same⟩

/-- A file is made, and one byte is written behind its end: the byte in front of it is what the frame had. -/
theorem gap_shows_old_bytes : ∃ start s start' s',
    Tmpfs.tmpfsCreate freeMemory (fun _ => 0) [] = some start ∧
    Tmpfs.tmpfsCreate freeMemory (fun _ => 0xAA) [] = some start' ∧
    Run Noted.step (fun s call => call.Allowed s.tmpfs) ⟨start, fun _ _ => none⟩
      [.create ⟨0, 0⟩ 0 [97] 0o644, .write 3 1 1 fun _ => 7] s ∧
    Run Noted.step (fun s call => call.Allowed s.tmpfs) ⟨start', fun _ _ => none⟩
      [.create ⟨0, 0⟩ 0 [97] 0o644, .write 3 1 1 fun _ => 7] s' ∧
    ¬ ContentsFromWrites s s' := by
  have completes : ∀ old : BitVec 8, old = 0 ∨ old = 0xAA →
      ((Tmpfs.tmpfsCreate freeMemory (fun _ => old) []).bind fun start =>
        Run.exec (fun s call => if TmpfsCall.check 0 s.tmpfs call then Noted.step s call else none)
          ⟨start, fun _ _ => none⟩ [.create ⟨0, 0⟩ 0 [97] 0o644, .write 3 1 1 fun _ => 7]).any (fun s =>
          (s.tmpfs.files 3).any (fun file => file.target.isNone && (file.length == 2)) &&
            (s.tmpfs.readTmpfs 3 0 1 fun _ => 0).any fun done => done.2 0 == old) = true := by
    rintro old (rfl | rfl) <;> decide +kernel
  have reached : ∀ old : BitVec 8, old = 0 ∨ old = 0xAA → ∃ start s,
      Tmpfs.tmpfsCreate freeMemory (fun _ => old) [] = some start ∧
      Run Noted.step (fun s call => call.Allowed s.tmpfs) ⟨start, fun _ _ => none⟩
        [.create ⟨0, 0⟩ 0 [97] 0o644, .write 3 1 1 fun _ => 7] s ∧
      (∃ file, s.tmpfs.files 3 = some file ∧ file.target = none ∧ file.length = 2) ∧
      ∃ done, s.tmpfs.readTmpfs 3 0 1 (fun _ => 0) = some done ∧ done.2 0 = old := by
    intro old either
    obtain ⟨s, ran, facts⟩ := (Option.any_eq_true _ _).mp (completes old either)
    obtain ⟨start, created, executed⟩ := Option.bind_eq_some_iff.mp ran
    rw [Bool.and_eq_true] at facts
    obtain ⟨file, present, shape⟩ := (Option.any_eq_true _ _).mp facts.1
    obtain ⟨done, read, byte⟩ := (Option.any_eq_true _ _).mp facts.2
    rw [Bool.and_eq_true, beq_iff_eq, Option.isNone_iff_eq_none] at shape
    have run := Run.of_checked (fun (s : Noted) call => TmpfsCall.check_sound 0 s.tmpfs call) executed
    exact ⟨start, s, created, run, ⟨file, present, shape.1, shape.2⟩, done, read, by simpa using byte⟩
  obtain ⟨start, s, created, run, ⟨file, present, regular, length⟩, done, read, byte⟩ :=
    reached 0 (Or.inl rfl)
  obtain ⟨start', s', createdToo, runToo, _, doneToo, readToo, byteToo⟩ := reached 0xAA (Or.inr rfl)
  refine ⟨start, s, start', s', created, createdToo, run, runToo, fun same => ?_⟩
  obtain ⟨_, _, readIs, readTooIs, equal, _⟩ := same 3 file 0 1 (fun _ => 0) present regular (by omega)
  rw [readIs] at read
  rw [readTooIs] at readToo
  cases read
  cases readToo
  exact absurd (byte.symm.trans ((equal 0 (by decide)).trans byteToo)) (by decide)

end Voxel.Proofs
