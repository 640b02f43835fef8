/-
Module: Voxel.Proofs.TmpfsWrite
Layer: Proofs
Purpose: What a write to a file of tmpfs does. A write that does not run over the end of the 64-bit
  positions consists of straight copies: each stays inside the buffer and inside one block, and together
  they cover the written range; so the file holds the bytes of the buffer afterwards, and every other
  byte is as before.
Trusted boundary: none
Main exports: TmpfsFile.byteAt, Copy.Straight, writeCopies_straight, writeCopies_cover,
  writeTmpfs_spec
-/
import Voxel.Proofs.TmpfsFrames

namespace Voxel.Proofs

open Voxel.Lib Voxel.Kernel

/-! ## Copies -/

/-- The byte of a file at a position, if the file has a block for it. -/
def TmpfsFile.byteAt (file : TmpfsFile) (phys : Nat → BitVec 8) (position : Nat) :
    Option (BitVec 8) :=
  file.blocks[position / blockSize]?.map fun frame =>
    phys (frame * blockSize + position % blockSize)

/-- A copy writes the byte at a position of the file. -/
def Copy.Covers (c : Copy) (position : Nat) : Prop :=
  c.blockid * blockSize + c.blockOffset ≤ position ∧
    position < c.blockid * blockSize + c.blockOffset + c.len

/-- A copy of a write to `offset` that reads inside the buffer, writes inside a block, and puts every byte
where it belongs. -/
structure Copy.Straight (offset size : Nat) (c : Copy) : Prop where
  inBlock : c.blockOffset + c.len ≤ blockSize
  inBuffer : c.source + c.len ≤ size
  aligned : c.blockid * blockSize + c.blockOffset = offset + c.source

/-- No byte of the write runs over the end of the 64-bit positions. -/
def NoWrap (offset size : Nat) : Prop := offset + size < 2 ^ 64

theorem writeEnd_noWrap {offset size : Nat} (inside : NoWrap offset size) :
    writeEnd offset size = offset + size :=
  Nat.mod_eq_of_lt inside

theorem sizeToRead_noWrap {offset size : Nat} (inside : NoWrap offset size) :
    sizeToRead offset size = size := by
  unfold sizeToRead
  rw [writeEnd_noWrap inside]
  unfold NoWrap at inside
  omega

/-- How far the start of a block is behind the position of a write that began in an earlier block. -/
theorem bufferOffset_eq {offset blocksRead : Nat} (later : 0 < blocksRead)
    (small : blockSize * blocksRead < 2 ^ 64) :
    bufferOffset offset blocksRead = blockSize * blocksRead - offset % blockSize := by
  have inside : offset % blockSize < blockSize := Nat.mod_lt _ (by decide)
  have atLeast : blockSize ≤ blockSize * blocksRead := Nat.le_mul_of_pos_right _ later
  unfold bufferOffset
  rw [show blockSize * blocksRead + 2 ^ 64 - offset % blockSize =
    blockSize * blocksRead - offset % blockSize + 2 ^ 64 by omega, Nat.add_mod_right]
  exact Nat.mod_eq_of_lt (by omega)

/-- Every copy of a write that does not wrap is straight. -/
theorem writeCopies_straight {offset size : Nat} (inside : NoWrap offset size) :
    ∀ c ∈ writeCopies offset size, Copy.Straight offset size c := by
  have ending := writeEnd_noWrap inside
  have total := sizeToRead_noWrap inside
  unfold NoWrap at inside
  intro c member
  unfold writeCopies at member
  rw [ending, total] at member
  dsimp only at member
  split at member
  · rename_i sameBlock
    rw [List.mem_singleton] at member
    subst member
    refine ⟨?_, ?_, ?_⟩ <;> simp only [blockSize] at * <;> omega
  · rename_i different
    rw [List.mem_append, List.mem_map] at member
    rcases member with ⟨i, round, rfl⟩ | last
    · rw [List.mem_range] at round
      unfold loopCopy
      split
      · refine ⟨?_, ?_, ?_⟩ <;> simp only [blockSize] at * <;> omega
      · rename_i later
        have source := @bufferOffset_eq offset i (by omega) (by simp only [blockSize] at *; omega)
        refine ⟨?_, ?_, ?_⟩ <;> simp only [source] <;> simp only [blockSize] at * <;> omega
    · split at last
      · cases last
      · rw [List.mem_singleton] at last
        subst last
        have source := @bufferOffset_eq offset ((offset + size) / blockSize - offset / blockSize)
          (by simp only [blockSize] at *; omega) (by simp only [blockSize] at *; omega)
        refine ⟨?_, ?_, ?_⟩ <;> simp only [source] <;> simp only [blockSize] at * <;> omega

/-- The copies of a write that does not wrap reach every position that it writes to. -/
theorem writeCopies_cover {offset size k : Nat} (inside : NoWrap offset size) (written : k < size) :
    ∃ c ∈ writeCopies offset size, Copy.Covers c (offset + k) := by
  have ending := writeEnd_noWrap inside
  have total := sizeToRead_noWrap inside
  unfold NoWrap at inside
  unfold writeCopies
  rw [ending, total]
  dsimp only
  split
  · refine ⟨_, List.mem_singleton.mpr rfl, ?_⟩
    unfold Copy.Covers
    simp only [blockSize] at *
    omega
  · rename_i different
    by_cases inLoop : (offset + k) / blockSize < (offset + size) / blockSize
    · refine ⟨loopCopy offset ((offset + k) / blockSize - offset / blockSize), ?_, ?_⟩
      · refine List.mem_append_left _ (List.mem_map_of_mem (List.mem_range.mpr ?_))
        simp only [blockSize] at *
        omega
      · unfold loopCopy Copy.Covers
        split <;> simp only [blockSize] at * <;> omega
    · have rest : (offset + size) - (offset + size) / blockSize * blockSize ≠ 0 := by
        simp only [blockSize] at *
        omega
      rw [if_neg rest]
      refine ⟨_, List.mem_append_right _ (List.mem_singleton.mpr rfl), ?_⟩
      unfold Copy.Covers
      simp only [blockSize] at *
      omega

/-- A straight copy covers positions of the write only. -/
theorem Copy.Straight.position {offset size position : Nat} {c : Copy}
    (straight : Copy.Straight offset size c) (covers : Copy.Covers c position) :
    offset ≤ position ∧ position < offset + size ∧ position / blockSize = c.blockid ∧
      c.blockOffset ≤ position % blockSize ∧
      position % blockSize < c.blockOffset + c.len ∧
      c.source + (position % blockSize - c.blockOffset) = position - offset := by
  obtain ⟨inBlock, inBuffer, aligned⟩ := straight
  unfold Copy.Covers at covers
  simp only [blockSize] at *
  refine ⟨by omega, by omega, by omega, by omega, by omega, by omega⟩

/-! ## Contents -/

/-- No two blocks of a file are in one frame. -/
theorem Tmpfs.Owned.blocks_inj {t : Tmpfs} {f : Nat} {file : TmpfsFile} (owned : Tmpfs.Owned t)
    (present : t.files f = some file) {i j frame : Nat} (left : file.blocks[i]? = some frame)
    (right : file.blocks[j]? = some frame) : i = j := by
  have same := @Exclusive.unique _ _ _ _ owned (.filePart f (.block i)) (.filePart f (.block j)) frame
    ⟨file, present, left⟩ ⟨file, present, right⟩
  cases same
  rfl

/-- A straight copy puts the bytes of the buffer where it covers the file and nowhere else. -/
theorem copyRun_byteAt {offset size : Nat} {c : Copy} {file : TmpfsFile} {frame position : Nat}
    {buffer phys : Nat → BitVec 8} (straight : Copy.Straight offset size c) (small : size < 2 ^ 64)
    (here : file.blocks[c.blockid]? = some frame)
    (distinct : ∀ i, file.blocks[i]? = some frame → i = c.blockid) :
    (Copy.Covers c position →
        TmpfsFile.byteAt file (c.run frame buffer phys) position = some (buffer (position - offset))) ∧
      (¬ Copy.Covers c position →
        TmpfsFile.byteAt file (c.run frame buffer phys) position =
          TmpfsFile.byteAt file phys position) := by
  have inPage : position % blockSize < blockSize := Nat.mod_lt _ (by decide)
  constructor
  · intro covers
    obtain ⟨_, _, block, low, high, source⟩ := straight.position covers
    unfold TmpfsFile.byteAt
    rw [block, here, Option.map_some]
    have inBuffer := straight.inBuffer
    have place : frame * blockSize + position % blockSize - c.target frame =
        position % blockSize - c.blockOffset := by
      unfold Copy.target
      omega
    unfold Copy.run
    rw [if_pos (by unfold Copy.target; omega), place, source, Nat.mod_eq_of_lt (by omega)]
  · intro outside
    unfold TmpfsFile.byteAt
    cases block : file.blocks[position / blockSize]? with
    | none => rfl
    | some other =>
        rw [Option.map_some, Option.map_some]
        unfold Copy.run
        rw [if_neg]
        intro ⟨low, high⟩
        have inBlock := straight.inBlock
        unfold Copy.target at low high
        have sameFrame : other = frame := by
          simp only [blockSize] at *
          omega
        have sameBlock := distinct _ (sameFrame ▸ block)
        apply outside
        unfold Copy.Covers
        subst sameFrame
        simp only [blockSize] at *
        omega

/-- A straight copy changes no byte outside its frame. -/
theorem copyRun_outside {offset size : Nat} {c : Copy} {frame address : Nat}
    {buffer phys : Nat → BitVec 8} (straight : Copy.Straight offset size c)
    (outside : address / blockSize ≠ frame) : c.run frame buffer phys address = phys address := by
  have inBlock := straight.inBlock
  unfold Copy.run
  rw [if_neg]
  unfold Copy.target
  simp only [blockSize] at *
  omega

/-- Bytes of blocks that were there stay where they are when a file grows. -/
theorem FileGrown.byteAt {t t' : Tmpfs} {f : Nat} {file file' : TmpfsFile}
    (grown : FileGrown t t' f file file') (phys : Nat → BitVec 8) {position : Nat}
    (existing : position / blockSize < file.blockCount) :
    TmpfsFile.byteAt file' phys position = TmpfsFile.byteAt file phys position := by
  obtain ⟨extra, blocks, _⟩ := grown.blocks
  unfold TmpfsFile.byteAt
  rw [blocks, List.getElem?_append_left existing]

theorem FileGrown.blockCount_le {t t' : Tmpfs} {f : Nat} {file file' : TmpfsFile}
    (grown : FileGrown t t' f file file') : file.blockCount ≤ file'.blockCount := by
  obtain ⟨extra, blocks, _⟩ := grown.blocks
  unfold TmpfsFile.blockCount
  rw [blocks, List.length_append]
  omega

/-- What a file owns does not depend on the bytes of memory. -/
theorem FileGrown.withPhys {t t' : Tmpfs} {f : Nat} {file file' : TmpfsFile}
    (grown : FileGrown t t' f file file') (phys : Nat → BitVec 8) :
    FileGrown t { t' with phys := phys } f file file' :=
  ⟨grown.files, grown.dirs, grown.root, grown.rest, grown.blocks, grown.pointers, grown.owned⟩

/-- The effect of a list of straight copies on the bytes of the file they are made to, and on memory. -/
structure CopiesDone (offset : Nat) (copies : List Copy) (buffer : Nat → BitVec 8)
    (file file' : TmpfsFile) (phys phys' : Nat → BitVec 8) : Prop where
  reached : ∀ c ∈ copies, c.blockid < file'.blockCount
  written : ∀ position, (∃ c ∈ copies, Copy.Covers c position) →
    TmpfsFile.byteAt file' phys' position = some (buffer (position - offset))
  kept : ∀ position, position / blockSize < file.blockCount →
    (∀ c ∈ copies, ¬ Copy.Covers c position) →
    TmpfsFile.byteAt file' phys' position = TmpfsFile.byteAt file phys position
  outside : ∀ address, address / blockSize ∉ file'.blocks → phys' address = phys address

theorem runCopies_spec {offset size f : Nat} {copies : List Copy} {buffer : Nat → BitVec 8}
    {t t' : Tmpfs} {file : TmpfsFile} (small : size < 2 ^ 64)
    (straight : ∀ c ∈ copies, Copy.Straight offset size c) (owned : Tmpfs.Owned t)
    (present : t.files f = some file) (ran : Tmpfs.runCopies f buffer copies t = some t') :
    ∃ file', FileGrown t t' f file file' ∧
      CopiesDone offset copies buffer file file' t.phys t'.phys := by
  induction copies generalizing t file with
  | nil =>
      cases ran
      refine ⟨file, .refl present, ?_, ?_, ?_, ?_⟩
      · intro c member
        cases member
      · rintro position ⟨c, member, _⟩
        cases member
      · exact fun _ _ _ => rfl
      · exact fun _ _ => rfl
  | cons c copies inductionHypothesis =>
      unfold Tmpfs.runCopies at ran
      split at ran
      · cases ran
      rename_i frame middle got
      obtain ⟨fileMid, grown, here, count, phys⟩ := getsetBlock_grows present got
      have ownedMid := grown.owned owned
      have straightHere := straight c List.mem_cons_self
      obtain ⟨file', later, done⟩ := @inductionHypothesis
        { middle with phys := c.run frame buffer middle.phys } fileMid
        (fun c member => straight c (List.mem_cons_of_mem _ member)) ownedMid grown.present ran
      have total := (grown.withPhys (c.run frame buffer middle.phys)).trans later
      have distinct : ∀ i, fileMid.blocks[i]? = some frame → i = c.blockid :=
        fun i block => ownedMid.blocks_inj grown.present block here
      have step := fun position => @copyRun_byteAt offset size c fileMid frame position buffer
        middle.phys straightHere small here distinct
      refine ⟨file', total, ?_, ?_, ?_, ?_⟩
      · intro d member
        rcases List.mem_cons.mp member with rfl | member
        · have := later.blockCount_le
          omega
        · exact done.reached d member
      · rintro position ⟨d, member, covers⟩
        by_cases inRest : ∃ d ∈ copies, Copy.Covers d position
        · exact done.written position inRest
        · rcases List.mem_cons.mp member with rfl | member
          · obtain ⟨_, _, block, _⟩ := straightHere.position covers
            have existing : position / blockSize < fileMid.blockCount := by omega
            rw [done.kept position existing fun d member covers => inRest ⟨d, member, covers⟩]
            exact (step position).1 covers
          · exact absurd ⟨d, member, covers⟩ inRest
      · intro position existing outside
        have still : position / blockSize < fileMid.blockCount := by omega
        rw [done.kept position still fun d member => outside d (List.mem_cons_of_mem _ member)]
        rw [(step position).2 (outside c List.mem_cons_self), phys]
        exact grown.byteAt t.phys existing
      · intro address notBlock
        rw [done.outside address notBlock]
        have blockHere : frame ∈ file'.blocks := by
          obtain ⟨extra, blocks, _⟩ := later.blocks
          rw [blocks]
          exact List.mem_append_left _ (List.mem_of_getElem? here)
        have apart : address / blockSize ≠ frame := fun same => notBlock (same ▸ blockHere)
        exact (copyRun_outside straightHere apart).trans (by rw [phys])

/-! ## write_tmpfs -/

/-- The effect of a write: the length, the bytes, and what stays. -/
structure WriteDone (offset size : Nat) (buffer : Nat → BitVec 8) (file file' : TmpfsFile)
    (phys phys' : Nat → BitVec 8) : Prop where
  length : file'.length = max file.length (offset + size)
  covered : offset + size ≤ file'.blockCount * blockSize
  written : ∀ k < size, TmpfsFile.byteAt file' phys' (offset + k) = some (buffer k)
  kept : ∀ position, position / blockSize < file.blockCount →
    (position < offset ∨ offset + size ≤ position) →
    TmpfsFile.byteAt file' phys' position = TmpfsFile.byteAt file phys position
  outside : ∀ address, address / blockSize ∉ file'.blocks → phys' address = phys address

/-- The blocks of a write reach to its end. -/
theorem writeCopies_reach {offset size : Nat} (inside : NoWrap offset size) {count : Nat}
    (reached : ∀ c ∈ writeCopies offset size, c.blockid < count) :
    offset + size ≤ count * blockSize := by
  by_cases empty : size = 0
  · subst empty
    have single : (⟨offset / blockSize, offset % blockSize, 0, sizeToRead offset 0⟩ : Copy) ∈
        writeCopies offset 0 := by
      unfold writeCopies
      rw [writeEnd_noWrap inside, if_pos (by rw [Nat.add_zero])]
      exact List.mem_singleton.mpr rfl
    have bound := reached _ single
    change offset / blockSize < count at bound
    simp only [blockSize] at *
    omega
  · obtain ⟨c, member, covers⟩ := @writeCopies_cover offset size (size - 1) inside (by omega)
    have straight := writeCopies_straight inside c member
    have bound := reached c member
    obtain ⟨_, _, block, _⟩ := straight.position covers
    simp only [blockSize] at *
    omega

/-- The size that a write returns. -/
theorem writeTmpfs_result {t t' : Tmpfs} {f offset size n : Nat} {buffer : Nat → BitVec 8}
    (wrote : t.writeTmpfs f offset size buffer = some (n, t')) : n = sizeToRead offset size := by
  unfold Tmpfs.writeTmpfs at wrote
  split at wrote
  · cases wrote
  dsimp only at wrote
  generalize (if _ < writeEnd offset size then _ else _) = length at wrote
  split at wrote
  · cases wrote
  cases wrote
  rfl

/-- A write that does not wrap returns its size; the file has its bytes and grows as it has to. -/
theorem writeTmpfs_spec {t t' : Tmpfs} {f offset size n : Nat} {buffer : Nat → BitVec 8}
    {file : TmpfsFile} (inside : NoWrap offset size) (owned : Tmpfs.Owned t)
    (present : t.files f = some file)
    (wrote : t.writeTmpfs f offset size buffer = some (n, t')) :
    n = size ∧ ∃ file',
      FileGrown (t.setFile f { file with length := max file.length (offset + size) }) t' f
        { file with length := max file.length (offset + size) } file' ∧
      WriteDone offset size buffer file file' t.phys t'.phys := by
  have small : size < 2 ^ 64 := by
    unfold NoWrap at inside
    omega
  unfold Tmpfs.writeTmpfs at wrote
  rw [present] at wrote
  dsimp only at wrote
  have length : (if file.length < writeEnd offset size then writeEnd offset size else file.length) =
      max file.length (offset + size) := by
    rw [writeEnd_noWrap inside]
    split <;> omega
  rw [length] at wrote
  split at wrote
  · cases wrote
  rename_i done ran
  cases wrote
  refine ⟨sizeToRead_noWrap inside, ?_⟩
  have raised := owned.setLength present (max file.length (offset + size))
  obtain ⟨file', grown, copies⟩ := runCopies_spec small (writeCopies_straight inside) raised
    (Function.update_self f _ t.files) ran
  refine ⟨file', grown, ?_, ?_, ?_, ?_, ?_⟩
  · rw [grown.rest]
  · exact writeCopies_reach inside copies.reached
  · intro k written
    have covered := writeCopies_cover inside written
    rw [copies.written _ covered, Nat.add_sub_cancel_left]
  · intro position existing apart
    refine copies.kept position existing ?_
    intro c member covers
    obtain ⟨low, high, _⟩ := (writeCopies_straight inside c member).position covers
    omega
  · exact copies.outside

/-- Copies of any kind make their file grow and leave the other structures alone. -/
theorem runCopies_grows {f : Nat} {copies : List Copy} {buffer : Nat → BitVec 8} {t t' : Tmpfs}
    {file : TmpfsFile} (present : t.files f = some file)
    (ran : Tmpfs.runCopies f buffer copies t = some t') : ∃ file', FileGrown t t' f file file' := by
  induction copies generalizing t file with
  | nil =>
      cases ran
      exact ⟨file, .refl present⟩
  | cons c copies inductionHypothesis =>
      unfold Tmpfs.runCopies at ran
      split at ran
      · cases ran
      rename_i frame middle got
      obtain ⟨fileMid, grown, _⟩ := getsetBlock_grows present got
      obtain ⟨file', later⟩ := @inductionHypothesis
        { middle with phys := c.run frame buffer middle.phys } fileMid grown.present ran
      exact ⟨file', (grown.withPhys _).trans later⟩

/-- What every write does to the records, also one that wraps around. -/
theorem writeTmpfs_grows {t t' : Tmpfs} {f offset size n : Nat} {buffer : Nat → BitVec 8}
    (wrote : t.writeTmpfs f offset size buffer = some (n, t')) :
    ∃ file file', t.files f = some file ∧ t'.files = Function.update t.files f (some file') ∧
      file'.length = max file.length (writeEnd offset size) ∧ file'.target = file.target ∧
      (Tmpfs.Owned t → Tmpfs.Owned t') := by
  unfold Tmpfs.writeTmpfs at wrote
  split at wrote
  · cases wrote
  rename_i file present
  dsimp only at wrote
  have length : (if file.length < writeEnd offset size then writeEnd offset size else file.length) =
      max file.length (writeEnd offset size) := by
    split <;> omega
  rw [length] at wrote
  split at wrote
  · cases wrote
  rename_i done ran
  cases wrote
  obtain ⟨file', grown⟩ := runCopies_grows (Function.update_self f _ t.files) ran
  refine ⟨file, file', present, ?_, ?_, ?_, fun owned => grown.owned (owned.setLength present _)⟩
  · rw [grown.files, setFile_files, Function.update_idem]
  · rw [grown.rest]
  · rw [grown.rest]

end Voxel.Proofs
