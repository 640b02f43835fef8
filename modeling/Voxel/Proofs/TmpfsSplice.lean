/-
Module: Voxel.Proofs.TmpfsSplice
Layer: Proofs
Purpose: Reading and writing as operations on the contents of a file. A write that begins inside its file
  splices the buffer in and leaves all other files alone, in every state that calls of any kind reach; a
  read delivers a part of the contents exactly if it begins inside the file and does not wrap.
Trusted boundary: none
Main exports: splice, Tmpfs.Reached, write_is_splice, ReadSound, read_sound_iff
-/
import Voxel.Proofs.Appends
import Voxel.Proofs.TmpfsProgress

namespace Voxel.Proofs

open Voxel.Lib Voxel.Kernel

/-! ## Splicing -/

/-- `data` over the part of a list that begins at `offset`. -/
def splice {α : Type*} (list : List α) (offset : Nat) (data : List α) : List α :=
  list.take offset ++ data ++ list.drop (offset + data.length)

theorem splice_length {α : Type*} {list : List α} {offset : Nat} (inside : offset ≤ list.length)
    (data : List α) : (splice list offset data).length = max list.length (offset + data.length) := by
  rw [splice, List.length_append, List.length_append, List.length_take, List.length_drop]
  omega

theorem splice_inside {α : Type*} {list : List α} {offset : Nat} (inside : offset ≤ list.length)
    (data : List α) {i : Nat} (written : i < data.length) :
    (splice list offset data)[offset + i]? = data[i]? := by
  have front : (list.take offset).length = offset := List.length_take_of_le inside
  rw [splice, List.append_assoc, List.getElem?_append_right (by omega), front, Nat.add_sub_cancel_left,
    List.getElem?_append_left written]

theorem splice_outside {α : Type*} {list : List α} {offset : Nat} (inside : offset ≤ list.length)
    (data : List α) {i : Nat} (outside : i < offset ∨ offset + data.length ≤ i) :
    (splice list offset data)[i]? = list[i]? := by
  have front : (list.take offset).length = offset := List.length_take_of_le inside
  rw [splice, List.append_assoc]
  rcases outside with before | behind
  · rw [List.getElem?_append_left (by omega), List.getElem?_take_of_lt before]
  · rw [List.getElem?_append_right (by omega), List.getElem?_append_right (by omega), List.getElem?_drop]
    congr 1
    omega

/-! ## The states -/

/-- The states that any calls reach from a new tmpfs. -/
def Tmpfs.Reached (t : Tmpfs) : Prop :=
  ∃ frames phys name start calls, Tmpfs.tmpfsCreate frames phys name = some start ∧
    Run TmpfsCall.step (fun _ _ => True) start calls t

/-- What every call keeps: the frames have one owner each, and every file has room for a pointer. -/
structure Tmpfs.Solid (t : Tmpfs) : Prop where
  owned : Tmpfs.Owned t
  positive : ∀ f file, t.files f = some file → 0 < file.pointers

/-- A new file has room for two pointers. -/
theorem newFile_pointers {t t' : Tmpfs} {name : CString} {f : Nat} {file : TmpfsFile}
    (made : t.newFile name = some (f, file, t')) : file.pointers = 2 := by
  unfold Tmpfs.newFile at made
  split at made
  · cases made
  split at made
  · cases made
  split at made
  · cases made
  cases made
  rfl

/-- Linking an entry changes no file. -/
theorem addEntry_files {t t' : Tmpfs} {d : Nat} {entry : TmpfsEntry}
    (added : t.addEntry d entry = some t') : t'.files = t.files := by
  obtain ⟨_, _, _, _, rfl, _⟩ := addEntry_spec added
  rfl

/-- A file is added with room for a pointer, or none is. -/
def FileAdded (t t' : Tmpfs) : Prop :=
  t'.files = t.files ∨ ∃ f file, t'.files = Function.update t.files f (some file) ∧ 0 < file.pointers

theorem createTmpfs_fileAdded {who : Credentials} {t t' : Tmpfs} {d : Nat} {name : CString}
    {mode : BitVec 32} {result : Int} (created : t.createTmpfs who d name mode = some (result, t')) :
    FileAdded t t' := by
  unfold Tmpfs.createTmpfs at created
  split at created
  · cases created
  split at created
  · cases created
    exact .inl rfl
  split at created
  · cases created
  rename_i f file t₁ made
  obtain ⟨t₂, added, same⟩ := Option.map_eq_some_iff.mp created
  cases same
  obtain ⟨m, rfl, _⟩ := newFile_spec made
  have pointers := newFile_pointers made
  exact .inr ⟨f, _, addEntry_files added, by rw [pointers]; decide⟩

theorem symlinkTmpfs_fileAdded {who : Credentials} {t t' : Tmpfs} {d : Nat} {target name : CString}
    {result : Int} (created : t.symlinkTmpfs who d target name = some (result, t')) : FileAdded t t' := by
  unfold Tmpfs.symlinkTmpfs at created
  split at created
  · cases created
  split at created
  · cases created
    exact .inl rfl
  split at created
  · cases created
  rename_i f file t₁ made
  obtain ⟨m, rfl, _⟩ := newFile_spec made
  have pointers := newFile_pointers made
  split at created
  · cases created
  rename_i targetAt t₂ copied
  unfold Tmpfs.strdup at copied
  split at copied
  · cases copied
  cases copied
  obtain ⟨t₃, added, same⟩ := Option.map_eq_some_iff.mp created
  cases same
  exact .inr ⟨f, _, addEntry_files added, by rw [pointers]; decide⟩

/-- New blocks take no pointers away. -/
theorem appendBlocks_pointers {count : Nat} {file file' : TmpfsFile} {t t' : Tmpfs}
    (grown : Tmpfs.appendBlocks count file t = some (file', t')) : file'.pointers = file.pointers := by
  induction count generalizing file t with
  | zero =>
      cases grown
      rfl
  | succ count inductionHypothesis =>
      unfold Tmpfs.appendBlocks at grown
      split at grown
      · cases grown
      exact (inductionHypothesis grown).trans rfl

/-- A block that was found has a pointer. -/
theorem getsetBlock_pointers {t t' : Tmpfs} {f blockid frame : Nat}
    (got : t.getsetBlock f blockid = some (frame, t')) :
    ∃ file', t'.files f = some file' ∧ 0 < file'.pointers := by
  unfold Tmpfs.getsetBlock at got
  split at got
  · cases got
  split at got
  · cases got
  rename_i larger t₁ embiggened
  obtain ⟨_, _, room, _⟩ := @embiggen_grows blockid f _ _ _ _ _ embiggened
  split at got
  · cases got
  rename_i file' t₂ appended
  split at got
  · cases got
  cases got
  refine ⟨file', Function.update_self f _ _, ?_⟩
  rw [appendBlocks_pointers appended]
  exact Nat.zero_lt_of_lt room

theorem runCopies_pointers {f : Nat} {copies : List Copy} {buffer : Nat → BitVec 8} {t t' : Tmpfs}
    (ran : Tmpfs.runCopies f buffer copies t = some t')
    (before : ∃ file, t.files f = some file ∧ 0 < file.pointers) :
    ∃ file', t'.files f = some file' ∧ 0 < file'.pointers := by
  induction copies generalizing t with
  | nil =>
      cases ran
      exact before
  | cons c copies inductionHypothesis =>
      unfold Tmpfs.runCopies at ran
      split at ran
      · cases ran
      rename_i frame middle got
      obtain ⟨file', present, positive⟩ := getsetBlock_pointers got
      exact inductionHypothesis ran ⟨file', present, positive⟩

/-- A write, also one that wraps around. -/
theorem Tmpfs.Solid.write {t t' : Tmpfs} {f offset size n : Nat} {buffer : Nat → BitVec 8}
    (solid : Tmpfs.Solid t) (wrote : t.writeTmpfs f offset size buffer = some (n, t')) :
    Tmpfs.Solid t' := by
  obtain ⟨file, file', present, files, _, _, owned⟩ := writeTmpfs_grows wrote
  refine ⟨owned solid.owned, fun g other here => ?_⟩
  by_cases same : g = f
  · subst same
    unfold Tmpfs.writeTmpfs at wrote
    rw [present] at wrote
    dsimp only at wrote
    split at wrote
    · cases wrote
    rename_i done ran
    cases wrote
    obtain ⟨after, presentAfter, positive⟩ := runCopies_pointers ran
      ⟨_, Function.update_self g _ t.files, solid.positive g file present⟩
    cases here.symm.trans presentAfter
    exact positive
  · rw [files, Function.update_of_ne same] at here
    exact solid.positive g other here

/-- Adding a file. -/
theorem FileAdded.positive {t t' : Tmpfs} (added : FileAdded t t')
    (positive : ∀ f file, t.files f = some file → 0 < file.pointers) :
    ∀ f file, t'.files f = some file → 0 < file.pointers := by
  obtain same | ⟨f, file, files, room⟩ := added
  · rw [same]
    exact positive
  · intro g other here
    rw [files] at here
    by_cases same : g = f
    · rw [same, Function.update_self] at here
      cases here
      exact room
    · rw [Function.update_of_ne same] at here
      exact positive g other here

theorem Adds.owned {t t' : Tmpfs} {d : Nat} {name : CString} {made : Option TmpfsEntry} {result : Int}
    (adds : Adds t d name made result t') (owned : Tmpfs.Owned t) : Tmpfs.Owned t' := by
  obtain ⟨_, _, ⟨_, _, rfl⟩ | ⟨_, _, _, _, _, _, added, _⟩⟩ := adds
  · exact owned
  · exact added.owned

/-- `mkdir_tmpfs` changes no file. -/
theorem mkdirTmpfs_files {who : Credentials} {t t' : Tmpfs} {d : Nat} {name : CString}
    {mode : BitVec 32} {result : Int} (owned : Tmpfs.Owned t)
    (made : t.mkdirTmpfs who d name mode = some (result, t')) :
    Tmpfs.Owned t' ∧ ∀ f file, t'.files f = some file → t.files f = some file := by
  by_cases empty : name = []
  · unfold Tmpfs.mkdirTmpfs at made
    rw [if_pos empty] at made
    cases made
    exact ⟨owned, fun _ _ here => here⟩
  · have adds := mkdirTmpfs_adds owned empty made
    refine ⟨adds.owned owned, fun f file here => ?_⟩
    obtain ⟨_, _, ⟨_, _, rfl⟩ | ⟨_, _, _, entry, isEntry, _, added, _⟩⟩ := adds
    · exact here
    · obtain ⟨new, _, rfl⟩ := Option.map_eq_some_iff.mp isEntry
      rw [added.otherFiles f (by simp)] at here
      exact here

/-- Every call keeps it. -/
theorem Tmpfs.Solid.step {t t' : Tmpfs} {call : TmpfsCall} (solid : Tmpfs.Solid t)
    (stepped : call.step t = some t') : Tmpfs.Solid t' := by
  cases call with
  | create who d name mode =>
      obtain ⟨⟨_, _⟩, created, rfl⟩ := Option.map_eq_some_iff.mp stepped
      exact ⟨(createTmpfs_adds solid.owned created).owned solid.owned,
        (createTmpfs_fileAdded created).positive solid.positive⟩
  | symlink who d target name =>
      obtain ⟨⟨_, _⟩, created, rfl⟩ := Option.map_eq_some_iff.mp stepped
      exact ⟨(symlinkTmpfs_adds solid.owned created).owned solid.owned,
        (symlinkTmpfs_fileAdded created).positive solid.positive⟩
  | mkdir who d name mode =>
      obtain ⟨⟨_, _⟩, made, rfl⟩ := Option.map_eq_some_iff.mp stepped
      obtain ⟨owned, older⟩ := mkdirTmpfs_files solid.owned made
      exact ⟨owned, fun f file here => solid.positive f file (older f file here)⟩
  | write f offset size buffer =>
      obtain ⟨⟨_, _⟩, wrote, rfl⟩ := Option.map_eq_some_iff.mp stepped
      exact solid.write wrote
  | truncate f =>
      obtain ⟨file, present, files, _⟩ := truncate_step stepped
      obtain ⟨⟨_, _⟩, truncated, rfl⟩ := Option.map_eq_some_iff.mp stepped
      refine ⟨solid.owned.truncate present truncated, fun g other here => ?_⟩
      rw [files] at here
      by_cases same : g = f
      · rw [same, Function.update_self] at here
        cases here
        exact solid.positive f file present
      · rw [Function.update_of_ne same] at here
        exact solid.positive g other here
  | unlink d name =>
      obtain ⟨⟨_, _⟩, unlinked, rfl⟩ := Option.map_eq_some_iff.mp stepped
      refine ⟨solid.owned.unlink unlinked, fun g other here => ?_⟩
      obtain rfl | ⟨_, f, _, _, _, _, files, _⟩ := unlinkTmpfs_shape unlinked
      · exact solid.positive g other here
      · rw [files] at here
        by_cases same : g = f
        · rw [same, Function.update_self] at here
          cases here
        · rw [Function.update_of_ne same] at here
          exact solid.positive g other here

theorem Tmpfs.Reached.solid {t : Tmpfs} (reached : Tmpfs.Reached t) : Tmpfs.Solid t := by
  obtain ⟨frames, phys, name, start, calls, created, run⟩ := reached
  have new : start.files = fun _ => none := by
    unfold Tmpfs.tmpfsCreate at created
    split at created
    · cases created
    rename_i root dir t₁ made
    obtain ⟨m, shape, _⟩ := newDir_spec made
    cases created
    rw [shape]
    rfl
  have begins : Tmpfs.Solid start := by
    refine ⟨(tmpfsCreate_sound created).owned, fun f file present => ?_⟩
    rw [new] at present
    cases present
  exact run.invariant (fun _ _ _ _ stepped solid => solid.step stepped) begins

/-! ## Writing -/

/-- The bytes behind a pointer. -/
def bufferBytes (buffer : Nat → BitVec 8) (size : Nat) : List (BitVec 8) := (List.range size).map buffer

@[simp] theorem bufferBytes_length (buffer : Nat → BitVec 8) (size : Nat) :
    (bufferBytes buffer size).length = size := by
  rw [bufferBytes, List.length_map, List.length_range]

theorem bufferBytes_get (buffer : Nat → BitVec 8) {size i : Nat} (inside : i < size) :
    (bufferBytes buffer size)[i]? = some (buffer i) := by
  rw [bufferBytes, List.getElem?_map, List.getElem?_range inside]
  rfl

/-- A write that begins in its file splices the buffer in. -/
theorem HasContents.write {t t' : Tmpfs} {f offset size n : Nat} {buffer : Nat → BitVec 8}
    {contents : List (BitVec 8)} (has : HasContents t f contents) (owned : Tmpfs.Owned t)
    (inFile : offset ≤ contents.length) (inside : NoWrap offset size)
    (wrote : t.writeTmpfs f offset size buffer = some (n, t')) :
    HasContents t' f (splice contents offset (bufferBytes buffer size)) := by
  obtain ⟨file, present, regular, length, isByte⟩ := has
  obtain ⟨_, file', grown, done⟩ := writeTmpfs_spec inside owned present wrote
  refine ⟨file', grown.present, by rw [grown.rest]; exact regular, ?_, fun i below => ?_⟩
  · rw [done.length, splice_length inFile, bufferBytes_length, length]
  · rw [splice_length inFile, bufferBytes_length] at below
    by_cases written : offset ≤ i ∧ i < offset + size
    · obtain ⟨k, rfl⟩ := Nat.exists_eq_add_of_le written.1
      rw [done.written k (by omega), splice_inside inFile _ (by rw [bufferBytes_length]; omega),
        bufferBytes_get buffer (by omega)]
    · -- the byte was in the file before, and in a block that was there before
      have old : i < contents.length := by omega
      rw [splice_outside inFile _ (by rw [bufferBytes_length]; omega), ← isByte i old]
      have here := (isByte i old).trans (List.getElem?_eq_getElem old)
      exact done.kept i (byteAt_block here) (by omega)

/-- It changes no other file. -/
theorem HasContents.other {t t' : Tmpfs} {f g offset size n : Nat} {buffer : Nat → BitVec 8}
    {contents : List (BitVec 8)} {file : TmpfsFile} (has : HasContents t g contents) (different : g ≠ f)
    (owned : Tmpfs.Owned t) (present : t.files f = some file) (inside : NoWrap offset size)
    (wrote : t.writeTmpfs f offset size buffer = some (n, t')) : HasContents t' g contents := by
  obtain ⟨other, presentOther, regular, length, isByte⟩ := has
  obtain ⟨_, file', grown, done⟩ := writeTmpfs_spec inside owned present wrote
  have files : t'.files = Function.update t.files f (some file') := by
    rw [grown.files, setFile_files, Function.update_idem]
  have still : t'.files g = some other := by rw [files, Function.update_of_ne different, presentOther]
  refine ⟨other, still, regular, length, fun i inFile => ?_⟩
  rw [write_otherBytes (grown.owned (owned.setLength present _)) grown.present still different done,
    isByte i inFile]

/-- In every state that calls reach, a write that begins in its file or at its end, and does not wrap, returns
its size, splices the buffer into the contents and leaves those of all other files. It returns if there is
a run of free frames for its blocks and block arrays. -/
theorem write_is_splice {t : Tmpfs} (reached : Tmpfs.Reached t) {f offset size : Nat}
    {contents : List (BitVec 8)} (has : HasContents t f contents) (inFile : offset ≤ contents.length)
    (inside : NoWrap offset size) (buffer : Nat → BitVec 8) :
    (∀ n t', t.writeTmpfs f offset size buffer = some (n, t') →
      n = size ∧ HasContents t' f (splice contents offset (bufferBytes buffer size)) ∧
        ∀ g other, g ≠ f → HasContents t g other → HasContents t' g other) ∧
    ((∃ file, t.files f = some file ∧ (offset + size) / blockSize < 2 ^ 32 ∧
        Available t.frames (reserve ((offset + size) / blockSize + 1) file)) →
      ∃ t', t.writeTmpfs f offset size buffer = some (size, t')) := by
  have solid := reached.solid
  have owned := solid.owned
  constructor
  · intro n t' wrote
    have ⟨file, present, _⟩ := has
    refine ⟨(writeTmpfs_spec inside owned present wrote).1, has.write owned inFile inside wrote, ?_⟩
    exact fun g other different there => there.other different owned present inside wrote
  · rintro ⟨file, present, small, available⟩
    obtain ⟨t', _, wrote, _⟩ := @writeTmpfs_progress ((offset + size) / blockSize + 1) 0 f offset size buffer
      file t inside present (Nat.lt_succ_self _) small (solid.positive f file present)
      (by rw [Nat.zero_add]; exact available)
    exact ⟨t', wrote⟩

theorem Tmpfs.Reachable.reached {t : Tmpfs} (reachable : Tmpfs.Reachable t) : Tmpfs.Reached t := by
  obtain ⟨frames, phys, name, start, calls, created, run⟩ := reachable
  exact ⟨frames, phys, name, start, calls, created, run.mono fun _ _ _ => trivial⟩

/-- Five bytes for a new file. -/
theorem write_is_splice_example : ∃ t t', Tmpfs.Reached t ∧ HasContents t 3 [] ∧
    t.writeTmpfs 3 0 5 (fun i => BitVec.ofNat 8 i) = some (5, t') ∧ HasContents t' 3 [0, 1, 2, 3, 4] := by
  have completes : ((Tmpfs.tmpfsCreate freeMemory (fun _ => 0) []).bind fun start =>
      Run.exec (fun t call => if TmpfsCall.check 0 t call then call.step t else none) start
        [.create ⟨0, 0⟩ 0 [97] 0o644]).any (fun t =>
      (t.files 3).any (fun file => file.target.isNone && file.length == 0) &&
      (t.writeTmpfs 3 0 5 fun i => BitVec.ofNat 8 i).isSome) = true := by
    decide +kernel
  obtain ⟨t, reachable, facts⟩ := Tmpfs.Reachable.of_checked completes
  rw [Bool.and_eq_true] at facts
  have empty := hasContents_empty facts.1
  obtain ⟨⟨n, t'⟩, wrote⟩ := Option.isSome_iff_exists.mp facts.2
  obtain ⟨rfl, written, _⟩ := (write_is_splice reachable.reached empty (Nat.le_refl 0)
    (show NoWrap 0 5 by unfold NoWrap; decide) _).1 n t' wrote
  exact ⟨t, t', reachable.reached, empty, wrote, written⟩

/-! ## Reading -/

/-- A read returns how much of the contents lies behind its offset, up to its size, stores just these bytes,
and changes no other byte of the buffer. -/
def ReadSound (t : Tmpfs) (f : Nat) (contents : List (BitVec 8)) (offset size : Nat)
    (buffer : Nat → BitVec 8) : Prop :=
  ∃ buffer', t.readTmpfs f offset size buffer = some (min size (contents.length - offset), buffer') ∧
    (∀ k < min size (contents.length - offset), contents[offset + k]? = some (buffer' k)) ∧
    ∀ i < 2 ^ 64, min size (contents.length - offset) ≤ i → buffer' i = buffer i

/-- The blocks of a file reach to the end of its contents. -/
theorem contents_in_blocks {t : Tmpfs} {f : Nat} {contents : List (BitVec 8)}
    (has : HasContents t f contents) :
    ∃ file, t.files f = some file ∧ file.length = contents.length ∧
      file.length ≤ file.blockCount * blockSize ∧
      ∀ i < contents.length, TmpfsFile.byteAt file t.phys i = contents[i]? := by
  obtain ⟨file, present, _, length, isByte⟩ := has
  refine ⟨file, present, length, ?_, isByte⟩
  by_cases empty : contents.length = 0
  · rw [length, empty]
    exact Nat.zero_le _
  · have last : contents.length - 1 < contents.length := by omega
    have block := byteAt_block ((isByte _ last).trans (List.getElem?_eq_getElem last))
    rw [length]
    simp only [blockSize] at *
    omega

/-- What a read returns. -/
theorem readTmpfs_result {t : Tmpfs} {f offset size n : Nat} {file : TmpfsFile}
    {buffer buffer' : Nat → BitVec 8} (present : t.files f = some file)
    (read : t.readTmpfs f offset size buffer = some (n, buffer')) : n = readSize file.length offset size := by
  rw [Tmpfs.readTmpfs, present] at read
  obtain ⟨_, _, same⟩ := Option.map_eq_some_iff.mp read
  cases same
  rfl

/-- The difference of the end and the offset is right only for an offset inside the file and an end inside
the 64-bit numbers. -/
theorem readSize_right {length offset size : Nat} (short : length < 2 ^ 64) (offsetSmall : offset < 2 ^ 64)
    (sizeSmall : size < 2 ^ 64) (right : readSize length offset size = min size (length - offset)) :
    offset ≤ length ∧ NoWrap offset size := by
  unfold readSize readEnd writeEnd at right
  unfold NoWrap
  split at right <;> omega

/-- A read delivers its part of the contents exactly if it begins inside the file or at its end and its end
is a 64-bit number. -/
theorem read_sound_iff {t : Tmpfs} {f : Nat} {contents : List (BitVec 8)} (has : HasContents t f contents)
    (short : contents.length < 2 ^ 64) (offset size : BitVec 64) (buffer : Nat → BitVec 8) :
    ReadSound t f contents offset.toNat size.toNat buffer ↔
      offset.toNat ≤ contents.length ∧ NoWrap offset.toNat size.toNat := by
  obtain ⟨file, present, length, reach, isByte⟩ := contents_in_blocks has
  constructor
  · rintro ⟨buffer', read, _⟩
    have result := readTmpfs_result present read
    rw [length] at result
    exact readSize_right short offset.isLt size.isLt result.symm
  · rintro ⟨inFile, inside⟩
    obtain ⟨buffer', read, bytes, rest⟩ := readTmpfs_spec buffer present reach inside (length ▸ inFile)
    rw [length] at read bytes rest
    refine ⟨buffer', read, fun k below => ?_, rest⟩
    rw [← isByte _ (by omega)]
    exact bytes k below

/-- A check for the contents of a file of one byte. -/
theorem hasContents_single {t : Tmpfs} {f : Nat} {byte : BitVec 8}
    (single : (t.files f).any (fun file => file.target.isNone && (file.length == 1 &&
      TmpfsFile.byteAt file t.phys 0 == some byte)) = true) : HasContents t f [byte] := by
  obtain ⟨file, present, facts⟩ := (Option.any_eq_true _ _).mp single
  rw [Bool.and_eq_true, Bool.and_eq_true, Option.isNone_iff_eq_none, beq_iff_eq, beq_iff_eq] at facts
  refine ⟨file, present, facts.1, facts.2.1, fun i below => ?_⟩
  obtain rfl := Nat.lt_one_iff.mp below
  exact facts.2.2

/-- A file of one byte, read from its start. -/
theorem read_sound_iff_example : ∃ t, Tmpfs.Reachable t ∧ ReadSound t 3 [97] 0 5 fun _ => 0 := by
  have completes : ((Tmpfs.tmpfsCreate freeMemory (fun _ => 0) []).bind fun start =>
      Run.exec (fun t call => if TmpfsCall.check 0 t call then call.step t else none) start
        [.create ⟨0, 0⟩ 0 [97] 0o644, .write 3 0 1 fun _ => 97]).any (fun t =>
      (t.files 3).any fun file => file.target.isNone && (file.length == 1 &&
        TmpfsFile.byteAt file t.phys 0 == some 97)) = true := by
    decide +kernel
  obtain ⟨t, reachable, facts⟩ := Tmpfs.Reachable.of_checked completes
  exact ⟨t, reachable, (read_sound_iff (hasContents_single facts) (by decide) 0 5 _).mpr
    ⟨by decide, by unfold NoWrap; decide⟩⟩

/-- The same file, read from offset 4096: one byte of the file is stored, and the result is no size. -/
theorem read_behind_end : ∃ t, Tmpfs.Reachable t ∧ HasContents t 3 [97] ∧
    ((t.readTmpfs 3 4096 1 fun _ => 0).any fun done => done.1 == 2 ^ 64 - 4095 && done.2 0 == 97) = true ∧
    ¬ ReadSound t 3 [97] 4096 1 fun _ => 0 := by
  have completes : ((Tmpfs.tmpfsCreate freeMemory (fun _ => 0) []).bind fun start =>
      Run.exec (fun t call => if TmpfsCall.check 0 t call then call.step t else none) start
        [.create ⟨0, 0⟩ 0 [97] 0o644, .write 3 0 1 fun _ => 97]).any (fun t =>
      (t.files 3).any (fun file => file.target.isNone && (file.length == 1 &&
        TmpfsFile.byteAt file t.phys 0 == some 97)) &&
      (t.readTmpfs 3 4096 1 fun _ => 0).any fun done => done.1 == 2 ^ 64 - 4095 && done.2 0 == 97) =
      true := by
    decide +kernel
  obtain ⟨t, reachable, facts⟩ := Tmpfs.Reachable.of_checked completes
  rw [Bool.and_eq_true] at facts
  refine ⟨t, reachable, hasContents_single facts.1, facts.2, ?_⟩
  rintro ⟨buffer', read, _⟩
  have wrong := facts.2
  rw [read] at wrong
  simp at wrong

end Voxel.Proofs
