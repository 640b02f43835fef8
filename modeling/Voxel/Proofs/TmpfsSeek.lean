/-
Module: Voxel.Proofs.TmpfsSeek
Layer: Proofs
Purpose: Seeking and writing through a descriptor of a tmpfs file. A seek stores any position, and a
  write adds its size to it without a check; the copies stay in bounds and store the whole buffer
  exactly as long as no write runs over the end of the 64-bit positions.
Trusted boundary: none
Main exports: FileCall, CallSound, WriteFits, callSound_iff, seek_write_sound_iff
-/
import Voxel.Kernel.FileCalls
import Voxel.Proofs.TmpfsBlocks

namespace Voxel.Proofs

open Voxel.Lib Voxel.Kernel

/-! ## Calls -/

/-- A system call on a descriptor; a write comes with the bytes behind its pointer. -/
inductive FileCall
  | seek (fd offset whence : BitVec 64)
  | write (fd ptr len : BitVec 64) (buffer : Nat → BitVec 8)

/-- The result of a call and the state after it. -/
def FileCall.perform (validate : BitVec 64 → BitVec 64 → Bool) (s : FileTable) :
    FileCall → Option (BitVec 64 × FileTable)
  | .seek fd offset whence => some (s.sysSeek fd offset whence)
  | .write fd ptr len buffer => s.sysWrite validate fd ptr len buffer

/-- The write gets past the checks and goes to the regular file of a node. -/
def Reaches (validate : BitVec 64 → BitVec 64 → Bool) (s : FileTable) (fd ptr len : BitVec 64)
    (node : Descriptor) : Prop :=
  s.writeNode validate fd ptr len = .ok node ∧
    ∃ file, s.tmpfs.files node.device = some file ∧ file.target = none

/-- A copy reads inside a buffer and writes inside a block. -/
def Copy.InBounds (size : Nat) (c : Copy) : Prop :=
  c.source + c.len ≤ size ∧ c.blockOffset + c.len ≤ blockSize

/-- A copy puts the byte `k` of the buffer at its place in the file. -/
def Copy.Stores (offset k : Nat) (c : Copy) : Prop :=
  Copy.Covers c (offset + k) ∧
    c.source + (offset + k - (c.blockid * blockSize + c.blockOffset)) = k

/-- The byte of a file at a position. -/
def Tmpfs.contentAt (t : Tmpfs) (f position : Nat) : Option (BitVec 8) :=
  (t.files f).bind fun file => TmpfsFile.byteAt file t.phys position

/-- What a call must do: the copies of a write are in bounds, and if it returns its size, they store
every byte of the buffer at the position of the descriptor, where it is afterwards. -/
def CallSound (validate : BitVec 64 → BitVec 64 → Bool) (s : FileTable) (result : BitVec 64)
    (after : FileTable) : FileCall → Prop
  | .seek _ _ _ => True
  | .write fd ptr len buffer => ∀ node, Reaches validate s fd ptr len node →
      (∀ c ∈ writeCopies node.userOffset.toNat len.toNat, Copy.InBounds len.toNat c) ∧
      (result = len → ∀ k < len.toNat,
        (∃ c ∈ writeCopies node.userOffset.toNat len.toNat,
          Copy.Stores node.userOffset.toNat k c) ∧
        Tmpfs.contentAt after.tmpfs node.device (node.userOffset.toNat + k) = some (buffer k))

/-- The position of the descriptor and the size of the write have a 64-bit sum. -/
def WriteFits (validate : BitVec 64 → BitVec 64 → Bool) (s : FileTable) : FileCall → Prop
  | .seek _ _ _ => True
  | .write fd ptr len _ => ∀ node, Reaches validate s fd ptr len node →
      NoWrap node.userOffset.toNat len.toNat

/-- A condition on every call of a sequence that returns. -/
def AllCalls (validate : BitVec 64 → BitVec 64 → Bool)
    (Holds : FileTable → BitVec 64 → FileTable → FileCall → Prop) : FileTable → List FileCall → Prop
  | _, [] => True
  | s, call :: calls => ∀ result after, call.perform validate s = some (result, after) →
      Holds s result after call ∧ AllCalls validate Holds after calls

/-- The frames have owners, and the descriptors are open on files that exist. -/
def Held (s : FileTable) : Prop :=
  Tmpfs.Owned s.tmpfs ∧ ∀ node, some node ∈ s.fds → ∃ file, s.tmpfs.files node.device = some file

/-! ## A write that wraps around -/

/-- The size that a write returns. -/
theorem sizeToRead_eq {offset size : Nat} (offsetSmall : offset < 2 ^ 64) (sizeSmall : size < 2 ^ 64) :
    sizeToRead offset size = size := by
  unfold sizeToRead writeEnd
  omega

/-- A write that wraps around goes out of a block or does not store its first byte. -/
theorem wrap_unsound {offset size : Nat} (offsetSmall : offset < 2 ^ 64) (sizeSmall : size < 2 ^ 64)
    (wraps : ¬ NoWrap offset size)
    (inBounds : ∀ c ∈ writeCopies offset size, Copy.InBounds size c) :
    ¬ ∃ c ∈ writeCopies offset size, Copy.Stores offset 0 c := by
  unfold NoWrap at wraps
  have ending : writeEnd offset size = offset + size - 2 ^ 64 := by
    unfold writeEnd
    omega
  have total := sizeToRead_eq offsetSmall sizeSmall
  rintro ⟨c, member, covers, _⟩
  have bounds := (inBounds c member).2
  unfold Copy.Covers at covers
  unfold writeCopies at member
  rw [ending, total] at member
  dsimp only at member
  split at member
  · rename_i sameBlock
    rw [List.mem_singleton] at member
    subst member
    simp only [blockSize] at *
    omega
  · rename_i different
    have noRounds : (offset + size - 2 ^ 64) / blockSize - offset / blockSize = 0 := by
      simp only [blockSize] at *
      omega
    rw [noRounds, List.range_zero, List.map_nil, List.nil_append] at member
    split at member
    · cases member
    · rw [List.mem_singleton] at member
      subst member
      simp only [blockSize] at *
      omega

/-! ## One call -/

/-- The node of a descriptor is in the table. -/
theorem getProcessFd_mem {fds : List (Option Descriptor)} {fd : BitVec 64} {node : Descriptor}
    (found : getProcessFd fds fd = some node) : some node ∈ fds := by
  unfold getProcessFd at found
  dsimp only at found
  split at found
  · cases found
  · exact List.mem_of_getElem? (Option.join_eq_some_iff.mp found)

/-- The node of a write that passes the checks is in the table. -/
theorem writeNode_mem {validate : BitVec 64 → BitVec 64 → Bool} {s : FileTable} {fd ptr len : BitVec 64}
    {node : Descriptor} (passed : s.writeNode validate fd ptr len = .ok node) : some node ∈ s.fds := by
  unfold FileTable.writeNode at passed
  split at passed
  · cases passed
  rename_i found
  split at passed
  · cases passed
  split at passed
  · cases passed
  split at passed
  · cases passed
  cases passed
  exact getProcessFd_mem found

/-- A new position keeps what is held. -/
theorem Held.setOffset {s : FileTable} {fd : BitVec 64} {node : Descriptor} (held : Held s)
    (member : some node ∈ s.fds) (offset : BitVec 64) : Held (s.setOffset fd node offset) := by
  refine ⟨held.1, ?_⟩
  intro other inTable
  rcases List.mem_or_eq_of_mem_set inTable with old | new
  · exact held.2 other old
  · cases new
    exact held.2 node member

theorem Held.seek {s : FileTable} (held : Held s) (fd offset whence : BitVec 64) :
    Held (s.sysSeek fd offset whence).2 := by
  unfold FileTable.sysSeek
  split
  · exact held
  rename_i node found
  have member := getProcessFd_mem found
  split
  · exact held
  split
  · exact held.setOffset member _
  split
  · exact held.setOffset member _
  split
  · exact held.setOffset member _
  · exact held

/-- The part of a write after the checks. -/
theorem sysWrite_reaches {validate : BitVec 64 → BitVec 64 → Bool} {s after : FileTable}
    {fd ptr len result : BitVec 64} {buffer : Nat → BitVec 8} {node : Descriptor}
    (reaches : Reaches validate s fd ptr len node)
    (wrote : s.sysWrite validate fd ptr len buffer = some (result, after)) :
    ∃ n t, s.tmpfs.writeTmpfs node.device node.userOffset.toNat len.toNat buffer = some (n, t) ∧
      result = BitVec.ofNat 64 n ∧ after.tmpfs = t ∧
      (after.fds = s.fds ∨ ∃ offset, after.fds = (s.setOffset fd node offset).fds) := by
  obtain ⟨passed, file, present, regular⟩ := reaches
  unfold FileTable.sysWrite writeFs at wrote
  rw [passed] at wrote
  dsimp only at wrote
  rw [present] at wrote
  dsimp only at wrote
  rw [regular] at wrote
  simp only [Option.isSome_none, Bool.false_eq_true, if_false] at wrote
  split at wrote
  · cases wrote
  rename_i n t writes
  simp only [Option.some.injEq, Prod.mk.injEq] at wrote
  obtain ⟨rfl, rfl⟩ := wrote
  refine ⟨n, t, writes, rfl, ?_, ?_⟩
  · split <;> rfl
  · split
    · exact Or.inr ⟨_, rfl⟩
    · exact Or.inl rfl

/-- A write that fits does what it must and keeps what is held. -/
theorem write_sound {validate : BitVec 64 → BitVec 64 → Bool} {s after : FileTable}
    {fd ptr len result : BitVec 64} {buffer : Nat → BitVec 8} {node : Descriptor} (held : Held s)
    (reaches : Reaches validate s fd ptr len node)
    (fits : NoWrap node.userOffset.toNat len.toNat)
    (wrote : s.sysWrite validate fd ptr len buffer = some (result, after)) :
    Held after ∧
      (∀ c ∈ writeCopies node.userOffset.toNat len.toNat, Copy.InBounds len.toNat c) ∧
      ∀ k < len.toNat,
        (∃ c ∈ writeCopies node.userOffset.toNat len.toNat, Copy.Stores node.userOffset.toNat k c) ∧
        Tmpfs.contentAt after.tmpfs node.device (node.userOffset.toNat + k) = some (buffer k) := by
  obtain ⟨n, t, writes, _, tmpfs, table⟩ := sysWrite_reaches reaches wrote
  obtain ⟨passed, file, present, _⟩ := reaches
  obtain ⟨_, file', grown, done⟩ := writeTmpfs_spec fits held.1 present writes
  have ownedAfter : Tmpfs.Owned t := grown.owned (held.1.setLength present _)
  have files : ∀ g, (∃ old, s.tmpfs.files g = some old) → ∃ new, t.files g = some new := by
    rintro g ⟨old, here⟩
    rw [grown.files]
    by_cases same : g = node.device
    · exact ⟨file', by rw [same, Function.update_self]⟩
    · exact ⟨old, by rw [Function.update_of_ne same, setFile_files, Function.update_of_ne same, here]⟩
  refine ⟨⟨tmpfs ▸ ownedAfter, ?_⟩, ?_, ?_⟩
  · intro other inTable
    rw [tmpfs]
    rcases table with same | ⟨offset, moved⟩
    · exact files _ (held.2 other (same ▸ inTable))
    · exact files _ ((held.setOffset (writeNode_mem passed) offset).2 other (moved ▸ inTable))
  · intro c member
    have straight := writeCopies_straight fits c member
    exact ⟨straight.inBuffer, straight.inBlock⟩
  · intro k inside
    obtain ⟨c, member, covers⟩ := writeCopies_cover fits inside
    have aligned := (writeCopies_straight fits c member).aligned
    refine ⟨⟨c, member, covers, ?_⟩, ?_⟩
    · unfold Copy.Covers at covers
      omega
    · unfold Tmpfs.contentAt
      rw [tmpfs, grown.present]
      exact done.written k inside

/-- A call does what it must exactly if it is not a write that wraps around. -/
theorem callSound_iff {validate : BitVec 64 → BitVec 64 → Bool} {s after : FileTable}
    {result : BitVec 64} {call : FileCall} (held : Held s)
    (performed : call.perform validate s = some (result, after)) :
    CallSound validate s result after call ↔ WriteFits validate s call := by
  cases call with
  | seek fd offset whence => exact Iff.rfl
  | write fd ptr len buffer =>
      constructor
      · intro sound node reaches
        obtain ⟨inBounds, stored⟩ := sound node reaches
        by_contra wraps
        obtain ⟨n, t, writes, returned, _⟩ := sysWrite_reaches reaches performed
        have size : n = len.toNat :=
          (writeTmpfs_result writes).trans (sizeToRead_eq node.userOffset.isLt len.isLt)
        have whole : result = len := by rw [returned, size, BitVec.ofNat_toNat, BitVec.setWidth_eq]
        have positive : 0 < len.toNat := by
          unfold NoWrap at wraps
          have := node.userOffset.isLt
          omega
        exact wrap_unsound node.userOffset.isLt len.isLt wraps inBounds (stored whole 0 positive).1
      · intro fits node reaches
        obtain ⟨_, inBounds, stored⟩ := write_sound held reaches (fits node reaches) performed
        exact ⟨inBounds, fun _ => stored⟩

/-- A call that fits keeps what is held. -/
theorem Held.perform {validate : BitVec 64 → BitVec 64 → Bool} {s after : FileTable}
    {result : BitVec 64} {call : FileCall} (held : Held s) (fits : WriteFits validate s call)
    (performed : call.perform validate s = some (result, after)) : Held after := by
  cases call with
  | seek fd offset whence =>
      have moved := held.seek fd offset whence
      rwa [Option.some.inj performed] at moved
  | write fd ptr len buffer =>
      by_cases reaches : ∃ node, Reaches validate s fd ptr len node
      · obtain ⟨node, reaches⟩ := reaches
        exact (write_sound held reaches (fits node reaches) performed).1
      · change s.sysWrite validate fd ptr len buffer = some (result, after) at performed
        unfold FileTable.sysWrite at performed
        split at performed
        · cases performed
          exact held
        rename_i node passed
        obtain ⟨file, present⟩ := held.2 node (writeNode_mem passed)
        have link : file.target.isSome := by
          cases target : file.target with
          | none => exact absurd ⟨node, passed, file, present, target⟩ reaches
          | some _ => rfl
        unfold writeFs at performed
        rw [present] at performed
        dsimp only at performed
        rw [if_pos link] at performed
        cases performed
        exact held

/-! ## Sequences of calls -/

/-- In every sequence of seeks and writes on descriptors of files in a tmpfs, all calls do what they must
exactly if the writes that get to a file have a position and a size with a 64-bit sum. -/
theorem seek_write_sound_iff (validate : BitVec 64 → BitVec 64 → Bool) {s : FileTable}
    (calls : List FileCall) (reachable : Tmpfs.Reachable s.tmpfs)
    (opened : ∀ node, some node ∈ s.fds → Tmpfs.Linked s.tmpfs node.device) :
    AllCalls validate (CallSound validate) s calls ↔
      AllCalls validate (fun s _ _ call => WriteFits validate s call) s calls := by
  have held : Held s :=
    ⟨reachable.sound.owned, fun node member => reachable.sound.linked_some (opened node member)⟩
  clear reachable opened
  induction calls generalizing s with
  | nil => exact Iff.rfl
  | cons call calls inductionHypothesis =>
      constructor
      · intro sound result after performed
        obtain ⟨here, rest⟩ := sound result after performed
        have fits := (callSound_iff held performed).mp here
        exact ⟨fits, (inductionHypothesis (held.perform fits performed)).mp rest⟩
      · intro allFit result after performed
        obtain ⟨fits, rest⟩ := allFit result after performed
        exact ⟨(callSound_iff held performed).mpr fits,
          (inductionHypothesis (held.perform fits performed)).mpr rest⟩

/-- A tmpfs with one regular file, open for reading and writing. -/
theorem oneFile : ∃ t, Tmpfs.Reachable t ∧ Tmpfs.Linked t 3 ∧
    ∃ file, t.files 3 = some file ∧ file.target = none := by
  have completes : (((Tmpfs.tmpfsCreate freeMemory (fun _ => 0) []).bind fun start =>
      Run.exec (fun t call => if TmpfsCall.check 0 t call then call.step t else none) start
        [.create ⟨0, 0⟩ 0 [97] 0o644]).any fun t =>
      TmpfsCall.check 0 t (.truncate 3) && (t.files 3).any (fun file => file.target.isNone)) = true := by
    decide
  obtain ⟨t, reachable, facts⟩ := Tmpfs.Reachable.of_checked completes
  rw [Bool.and_eq_true] at facts
  obtain ⟨file, present, regular⟩ := (Option.any_eq_true _ _).mp facts.2
  exact ⟨t, reachable, TmpfsCall.check_sound 0 t (.truncate 3) facts.1, file, present,
    by simpa using regular⟩

/-- A descriptor at the start of that file. -/
def atStart : Descriptor := { flags := 1, length := 0, userOffset := 0, userMode := 3, device := 3 }

/-- A write of five bytes after a seek to 4094, over two blocks, stores them all. -/
theorem seek_write_sound_iff_example : ∃ s : FileTable, Tmpfs.Linked s.tmpfs 3 ∧
    AllCalls (fun _ _ => true) (CallSound fun _ _ => true) s
      [.seek 0 4094 0, .write 0 0x400000 5 fun i => BitVec.ofNat 8 i] := by
  obtain ⟨t, reachable, linked, file, present, regular⟩ := oneFile
  have opened : ∀ node, some node ∈ [some atStart] → Tmpfs.Linked t node.device := by
    intro node member
    rw [List.mem_singleton] at member
    cases member
    exact linked
  refine ⟨{ tmpfs := t, fds := [some atStart] }, linked,
    (seek_write_sound_iff (fun _ _ => true) _ reachable opened).mpr ?_⟩
  rintro _ _ ⟨⟩
  refine ⟨trivial, fun result after _ => ⟨?_, trivial⟩⟩
  rintro node ⟨passed, _⟩
  cases passed
  unfold NoWrap
  decide

/-- A write of one byte after a seek to the last 64-bit position returns 1 and stores nothing. -/
theorem seek_write_loses_byte : ∃ s : FileTable, Tmpfs.Reachable s.tmpfs ∧
    (∀ node, some node ∈ s.fds → Tmpfs.Linked s.tmpfs node.device) ∧
    ¬ AllCalls (fun _ _ => true) (CallSound fun _ _ => true) s
      [.seek 0 (-1) 0, .write 0 0x400000 1 fun _ => 97] := by
  obtain ⟨t, reachable, linked, file, present, regular⟩ := oneFile
  refine ⟨{ tmpfs := t, fds := [some atStart] }, reachable, ?_, ?_⟩
  · intro node member
    rw [List.mem_singleton] at member
    cases member
    exact linked
  · intro all
    have afterSeek := (all _ _ rfl).2
    have noCopies : writeCopies (-1 : BitVec 64).toNat (1 : BitVec 64).toNat = [] := by decide
    have passed : FileTable.writeNode (fun _ _ => true)
        { tmpfs := t, fds := [some { atStart with userOffset := -1 }] } 0 0x400000 1 =
          .ok { atStart with userOffset := -1 } := rfl
    have wrote : ∃ after, FileTable.sysWrite (fun _ _ => true)
        { tmpfs := t, fds := [some { atStart with userOffset := -1 }] } 0 0x400000 1 (fun _ => 97) =
          some (1, after) := by
      unfold FileTable.sysWrite writeFs Tmpfs.writeTmpfs
      rw [passed]
      dsimp only
      rw [show t.files atStart.device = some file from present]
      dsimp only
      rw [regular, noCopies]
      exact ⟨_, rfl⟩
    obtain ⟨after, performed⟩ := wrote
    have sound := (afterSeek 1 after performed).1 { atStart with userOffset := -1 }
      ⟨rfl, file, present, regular⟩
    obtain ⟨c, member, _⟩ := (sound.2 rfl 0 (by decide)).1
    rw [noCopies] at member
    cases member

end Voxel.Proofs
