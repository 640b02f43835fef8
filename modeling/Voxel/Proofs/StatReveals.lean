/-
Module: Voxel.Proofs.StatReveals
Layer: Proofs
Purpose: What `sys_stat`, `sys_statf`, `sys_lstat` and `sys_readdir` deliver of a kernel in two runs
  that have the same files and processes, but other bytes in the free frames and another word on the
  stack. `_stat` joins its uninitialised `flags` into `st_mode`, and a record that is not cleared keeps
  what `malloc` left behind the terminator of its name; both runs agree exactly if these bytes cannot be
  seen.
Trusted boundary: none
Main exports: StatState.withLeftovers, SameFiles, RevealsOnlyFiles, InfoCall.Fills, stat_reveals_iff,
  stat_mode_differs
-/
import Voxel.Kernel.StatCalls
import Voxel.Proofs.OpenFiles

namespace Voxel.Proofs

open Voxel.Lib Voxel.Kernel

/-! ## Two kernels with the same files -/

section Leftovers

variable {Foreign : Type}

/-- The same files and processes with other bytes in memory and another word on the stack. -/
def StatState.withLeftovers (s : StatState Foreign) (phys : Nat → BitVec 8) (stack : BitVec 32) :
    StatState Foreign :=
  { s with files := { s.files with tmpfs := { s.files.tmpfs with phys := phys } }, stack := stack }

/-- Two kernels agree on files and processes: only the stack and the free frames may differ. -/
def SameFiles (s s' : StatState Foreign) : Prop :=
  ∃ phys stack, s' = StatState.withLeftovers s phys stack ∧
    ∀ a, mmuProbeFrame s.files.tmpfs.frames (a / blockSize) = true → phys a = s.files.tmpfs.phys a

variable (s : StatState Foreign) (phys : Nat → BitVec 8) (stack : BitVec 32)

/-- The descriptors are the same. -/
@[simp] theorem getProcessFd_withLeftovers (p : Nat) (fd : BitVec 64) :
    (StatState.withLeftovers s phys stack).files.getProcessFd p fd = s.files.getProcessFd p fd := rfl

/-- Paths lead to the same nodes. -/
@[simp] theorem kopen_withLeftovers (path : CString) (flags : BitVec 64) :
    (StatState.withLeftovers s phys stack).files.kopen path flags = s.files.kopen path flags := rfl

/-- The frames are the same. -/
@[simp] theorem frames_withLeftovers :
    (StatState.withLeftovers s phys stack).files.tmpfs.frames = s.files.tmpfs.frames := rfl

end Leftovers

/-! ## st_mode -/

/-- The type bits of the flags of a node. -/
def typeBits (flags : BitVec 32) : BitVec 32 :=
  (if flagSet flags fsFile then 0o100000 else 0) ||| (if flagSet flags fsDirectory then 0o040000 else 0) |||
    (if flagSet flags fsChardevice then 0o020000 else 0) |||
    (if flagSet flags fsBlockdevice then 0o010000 else 0) |||
    (if flagSet flags fsSymlink then 0o120000 else 0)

section Mode

variable {Foreign : Type} {s : StatState Foreign} {node : OpenNode Foreign}

/-- `st_mode` is the mask with the type bits and the word that was on the stack. -/
theorem stMode_eq (junk : BitVec 32) (node : OpenNode Foreign) :
    (OpenFiles.statNode junk node).stMode = (node.attributes.mask ||| typeBits node.flags) ||| junk := by
  unfold OpenFiles.statNode typeBits
  ac_rfl

/-- A mode that has all bits already hides the word on the stack. -/
theorem statFields_full (full : node.attributes.mask ||| typeBits node.flags = BitVec.allOnes 32)
    (phys : Nat → BitVec 8) (stack : BitVec 32) :
    (StatState.withLeftovers s phys stack).statFields node = s.statFields node := by
  have sameMode : (OpenFiles.statNode stack node).stMode = (OpenFiles.statNode s.stack node).stMode := by
    rw [stMode_eq, stMode_eq, full, BitVec.allOnes_or, BitVec.allOnes_or]
  unfold StatState.statFields
  dsimp only
  rw [show (StatState.withLeftovers s phys stack).stack = stack from rfl, sameMode]
  rfl

/-- The mode that the caller finds. -/
theorem load_stMode (memory : ByteMemory) (st : BitVec 64) (node : OpenNode Foreign) :
    (memory.storeFields st (s.statFields node)).load (st + 8) 4 =
      ((node.attributes.mask ||| typeBits node.flags) ||| s.stack).setWidth 64 := by
  rw [← stMode_eq]
  apply ByteMemory.load_of_bytes (by decide)
  · intro k inside
    have place : st + 8 + BitVec.ofNat 64 k = st + BitVec.ofNat 64 (8 + k) := by
      rw [BitVec.ofNat_add, ← BitVec.add_assoc]
      rfl
    rw [place]
    apply ByteMemory.storeFields_field memory st [_, _] _ ⟨8, 4, _⟩ inside
    · simp
    · simp
  · intro k above inside
    apply BitVec.eq_of_getLsbD_eq
    intro i low
    rw [readByte, BitVec.getLsbD_extractLsb', BitVec.getLsbD_setWidth]
    rw [BitVec.getLsbD_of_ge (x := (OpenFiles.statNode s.stack node).stMode) (i := 8 * k + i) (by omega)]
    simp

end Mode

/-! ## Records -/

/-- What a callback stores in the record of an entry that it finds, and whether it clears the record first. -/
structure Listed where
  ino : BitVec 32
  name : CString
  cleared : Bool

/-- The record, for the bytes that `malloc` leaves in its `name`. -/
def Listed.fill (entry : Listed) (junk : List (BitVec 8)) : Option Dirent :=
  (strcpy (if entry.cleared then List.replicate nodeNameSize 0 else junk) entry.name).map fun field =>
    { ino := entry.ino, name := field }

/-- What is returned for an entry, or for none. -/
def fillListed (entry : Option Listed) (junk : List (BitVec 8)) : Option (Option Dirent) :=
  match entry with
  | none => some none
  | some entry => (entry.fill junk).map some

/-- The entry that `readdir_tmpfs` finds. -/
def tmpfsListed (t : Tmpfs) (d index : Nat) : Option Listed :=
  match t.dirs d with
  | none => none
  | some dir =>
      if d ≠ t.tmpfsRoot ∧ index = 0 then some ⟨0, Tmpfs.dot, true⟩
      else if d ≠ t.tmpfsRoot ∧ index = 1 then some ⟨0, Tmpfs.dotDot, true⟩
      else
        dir.files[if d ≠ t.tmpfsRoot then index - 2 else index]?.bind fun entry =>
          (t.entryName entry).map fun name => ⟨entry.address.setWidth 32, name, false⟩

/-- The entry that `readdir_pty` finds. -/
def ptyListed (ptyMap : List PtyEntry) (index : Nat) : Option Listed :=
  if index = 0 then some ⟨0, Tmpfs.dot, true⟩
  else if index = 1 then some ⟨0, Tmpfs.dotDot, true⟩
  else ptyMap[index - 2]?.map fun pty => ⟨BitVec.ofInt 32 pty.name, itoa pty.name, true⟩

/-- The entry that `readdir_fs` finds. -/
def listed {Foreign : Type} (s : StatState Foreign) (node : OpenNode Foreign) (index : Nat) : Option Listed :=
  if node.flags &&& 0x07 = fsDirectory then
    match node.device with
    | .tmpfs (.dir d) => tmpfsListed s.files.tmpfs d index
    | .tmpfs (.file _) => none
    | .foreign node =>
        match s.fields.readdir node with
        | none => none
        | some .pty => ptyListed s.ptyMap index
        | some (.ramdisk image node) => (ramdiskfsReaddir image node index).map fun name => ⟨0, name, false⟩
  else none

theorem readdirRecord_eq (t : Tmpfs) (d index : Nat) (junk : List (BitVec 8)) :
    t.readdirRecord d index junk = fillListed (tmpfsListed t d index) junk := by
  unfold Tmpfs.readdirRecord tmpfsListed
  cases t.dirs d with
  | none => rfl
  | some dir =>
      dsimp only
      split
      · exact Option.map_map .. |>.symm
      split
      · exact Option.map_map .. |>.symm
      cases dir.files[if d ≠ t.tmpfsRoot then index - 2 else index]? with
      | none => rfl
      | some entry =>
          rw [Option.bind_some]
          dsimp only
          cases t.entryName entry with
          | none => rfl
          | some name => exact Option.map_map .. |>.symm

theorem readdirPty_eq (ptyMap : List PtyEntry) (index : Nat) (junk : List (BitVec 8)) :
    readdirPty ptyMap index = fillListed (ptyListed ptyMap index) junk := by
  unfold readdirPty ptyListed
  split
  · exact Option.map_map .. |>.symm
  split
  · exact Option.map_map .. |>.symm
  cases ptyMap[index - 2]? with
  | none => rfl
  | some pty => exact Option.map_map .. |>.symm

theorem readdirRamdisk_eq (image : RamdiskMemory) (node : RamdiskNode) (index : Nat)
    (junk : List (BitVec 8)) :
    readdirRamdisk image node index junk =
      fillListed ((ramdiskfsReaddir image node index).map fun name => ⟨0, name, false⟩) junk := by
  unfold readdirRamdisk
  cases ramdiskfsReaddir image node index with
  | none => rfl
  | some name => exact Option.map_map .. |>.symm

section Records

variable {Foreign : Type} (s : StatState Foreign) (node : OpenNode Foreign) (index : Nat)

/-- `readdir_fs`: a block is taken for the entry that is found, and its record is filled. -/
theorem readdirFs_eq :
    s.readdirFs node index =
      match listed s node index with
      | none => some none
      | some entry => (malloc s.files.tmpfs.frames StatState.sizeofDirent).bind fun new =>
          (entry.fill (s.leftName new.1)).map some := by
  have callback : node.flags &&& 0x07 = fsDirectory → ∀ junk,
      s.readdirCallback node index junk = fillListed (listed s node index) junk := by
    intro isDirectory junk
    unfold StatState.readdirCallback listed
    rw [if_pos isDirectory]
    generalize node.device = device
    rcases device with (f | d) | foreign
    · rfl
    · exact readdirRecord_eq _ _ _ junk
    · dsimp only
      generalize s.fields.readdir foreign = callback
      rcases callback with _ | _ | ⟨image, disk⟩
      · rfl
      · exact readdirPty_eq _ _ junk
      · exact readdirRamdisk_eq _ _ _ junk
  unfold StatState.readdirFs
  split
  · rename_i isDirectory
    unfold StatState.withDirent
    cases malloc s.files.tmpfs.frames StatState.sizeofDirent with
    | none =>
        dsimp only
        rw [callback isDirectory]
        cases listed s node index with
        | none => rfl
        | some entry =>
            rw [if_neg]
            · rfl
            · unfold fillListed
              cases entry.fill (List.replicate nodeNameSize 0) with
              | none => simp
              | some record => simp
    | some new =>
        dsimp only
        rw [callback isDirectory]
        cases listed s node index <;> rfl
  · rename_i notDirectory
    unfold listed
    rw [if_neg notDirectory]

end Records

/-! ## What a record shows of its block -/

section Fill

variable {entry : Listed} {junk junk' : List (BitVec 8)}

/-- A record that is cleared, or whose name fills the field, shows nothing of the block. -/
theorem fill_hides (hidden : entry.cleared = true ∨ 255 ≤ entry.name.length)
    (size : junk.length = nodeNameSize) (size' : junk'.length = nodeNameSize) :
    entry.fill junk = entry.fill junk' := by
  unfold Listed.fill
  cases isCleared : entry.cleared with
  | true => rfl
  | false =>
      have long : 255 ≤ entry.name.length := by
        rcases hidden with cleared | long
        · rw [isCleared] at cleared
          cases cleared
        · exact long
      have behind : ∀ {field : List (BitVec 8)}, field.length = nodeNameSize →
          field.drop (entry.name.length + 1) = [] := by
        intro field sized
        rw [List.drop_eq_nil_iff, sized]
        exact Nat.succ_le_succ long
      rw [if_neg (by decide), if_neg (by decide), strcpy_eq, strcpy_eq, behind size, behind size', size,
        size']

/-- Otherwise the last byte of the record is the one that was left there. -/
theorem fill_shows (left : entry.cleared = false) (short : entry.name.length < 255)
    (size : junk.length = nodeNameSize) :
    ∃ record, entry.fill junk = some record ∧ record.bytes[259]? = junk[255]? := by
  have room : entry.name.length < junk.length := by
    rw [size]
    exact Nat.lt_of_lt_of_le short (by decide)
  refine ⟨{ ino := entry.ino, name := entry.name ++ nul :: junk.drop (entry.name.length + 1) }, ?_, ?_⟩
  · unfold Listed.fill
    rw [left, if_neg (by decide), strcpy_eq, if_pos room]
    rfl
  · rw [Dirent.bytes, List.getElem?_append_right (by simp), List.length_map, List.length_range,
      List.getElem?_append_right (by omega), List.getElem?_cons, if_neg (by omega), List.getElem?_drop]
    congr 1
    omega

end Fill

/-! ## Calls -/

section Calls

variable {Foreign : Type}

/-- The node that a call reports, and where. -/
def reportedNode (s : StatState Foreign) (p : Nat) : InfoCall → Option (OpenNode Foreign × BitVec 64)
  | .stat fd ptr => if ptr = 0 then none else (s.files.getProcessFd p fd).map fun node => (node, ptr)
  | .statf path ptr | .lstat path ptr =>
      if ptr = 0 then none
      else path.bind fun path => (s.files.kopen path 0).join.map fun node => (node, ptr)
  | .readdir _ _ _ => none

/-- The entry that a call lists, and where. -/
def listedEntry (s : StatState Foreign) (p : Nat) : InfoCall → Option (Listed × BitVec 64)
  | .readdir fd index ptr =>
      if ptr = 0 then none
      else (s.files.getProcessFd p fd).bind fun node =>
        (listed s node index.toNat).map fun entry => (entry, ptr)
  | _ => none

variable {s : StatState Foreign} {p : Nat} {call : InfoCall} {node : OpenNode Foreign} {ptr : BitVec 64}
  {entry : Listed}

/-- A call that reports a node. -/
theorem run_reported (found : reportedNode s p call = some (node, ptr)) (memory : ByteMemory) :
    call.run s p memory = some (0, memory.storeFields ptr (s.statFields node)) := by
  have byPath : ∀ {path : Option CString} {st : BitVec 64},
      (if st = 0 then none
        else path.bind fun path => (s.files.kopen path 0).join.map fun node => (node, st)) =
        some (node, ptr) →
      s.sysStatf path st memory = some (0, memory.storeFields ptr (s.statFields node)) := by
    intro path st found
    split at found
    · cases found
    rename_i notNull
    obtain ⟨path, rfl, found⟩ := Option.bind_eq_some_iff.mp found
    obtain ⟨_, opened, same⟩ := Option.map_eq_some_iff.mp found
    cases same
    unfold StatState.sysStatf
    dsimp only
    rw [if_neg notNull, Option.join_eq_some_iff.mp opened]
    rfl
  cases call with
  | stat fd st =>
      unfold reportedNode at found
      dsimp only at found
      split at found
      · cases found
      rename_i notNull
      obtain ⟨_, opened, same⟩ := Option.map_eq_some_iff.mp found
      cases same
      unfold InfoCall.run StatState.sysStat
      dsimp only
      rw [opened]
      dsimp only
      rw [if_neg notNull]
      rfl
  | statf path st => exact byPath found
  | lstat path st => exact byPath found
  | readdir fd index st => cases found

/-- A call that lists an entry. -/
theorem run_lists (found : listedEntry s p call = some (entry, ptr)) (memory : ByteMemory) :
    call.run s p memory =
      (malloc s.files.tmpfs.frames StatState.sizeofDirent).bind fun new =>
        (entry.fill (s.leftName new.1)).map fun record => (1, storeBytes memory ptr record.bytes) := by
  cases call with
  | readdir fd index st =>
      unfold listedEntry at found
      dsimp only at found
      split at found
      · cases found
      rename_i notNull
      obtain ⟨node, opened, found⟩ := Option.bind_eq_some_iff.mp found
      obtain ⟨_, isListed, same⟩ := Option.map_eq_some_iff.mp found
      cases same
      unfold InfoCall.run StatState.sysReaddir
      dsimp only
      rw [opened]
      dsimp only
      rw [if_neg notNull, readdirFs_eq, isListed]
      dsimp only
      cases malloc s.files.tmpfs.frames StatState.sizeofDirent with
      | none => rfl
      | some new =>
          rw [Option.bind_some, Option.bind_some, Option.map_map]
          rfl
  | stat | statf | lstat => cases found

/-- Any other call delivers nothing of the kernel. -/
theorem run_other (noNode : reportedNode s p call = none) (noEntry : listedEntry s p call = none)
    (memory : ByteMemory) (phys : Nat → BitVec 8) (stack : BitVec 32) :
    call.run (StatState.withLeftovers s phys stack) p memory = call.run s p memory := by
  have byPath : ∀ {path : Option CString} {st : BitVec 64},
      (if st = 0 then none
        else path.bind fun path => (s.files.kopen path 0).join.map fun node => (node, st)) = none →
      (StatState.withLeftovers s phys stack).sysStatf path st memory = s.sysStatf path st memory := by
    intro path st noNode
    unfold StatState.sysStatf
    cases path with
    | none => rfl
    | some path =>
        dsimp only
        split
        · rfl
        rename_i notNull
        rw [if_neg notNull, Option.bind_some, Option.map_eq_none_iff] at noNode
        rw [kopen_withLeftovers s phys stack path 0]
        cases opened : s.files.kopen path 0 with
        | none => rw [Option.map_none, Option.map_none]
        | some node =>
            rw [opened] at noNode
            cases noNode
            rw [Option.map_some, Option.map_some]
            rfl
  cases call with
  | stat fd st =>
      unfold reportedNode at noNode
      dsimp only at noNode
      unfold InfoCall.run StatState.sysStat
      dsimp only
      rw [getProcessFd_withLeftovers]
      cases opened : s.files.getProcessFd p fd with
      | none => rfl
      | some node =>
          rw [opened] at noNode
          dsimp only
          split
          · rfl
          · rename_i notNull
            rw [if_neg notNull] at noNode
            cases noNode
  | statf path st => exact byPath noNode
  | lstat path st => exact byPath noNode
  | readdir fd index st =>
      unfold listedEntry at noEntry
      dsimp only at noEntry
      unfold InfoCall.run StatState.sysReaddir
      dsimp only
      rw [getProcessFd_withLeftovers]
      cases opened : s.files.getProcessFd p fd with
      | none => rfl
      | some node =>
          rw [opened] at noEntry
          dsimp only
          split
          · rfl
          rename_i notNull
          rw [if_neg notNull, Option.bind_some, Option.map_eq_none_iff] at noEntry
          have same : listed (StatState.withLeftovers s phys stack) node index.toNat =
            listed s node index.toNat := rfl
          rw [readdirFs_eq, readdirFs_eq, same, noEntry]

/-- The same nodes are reported. -/
theorem reportedNode_withLeftovers (s : StatState Foreign) (p : Nat) (call : InfoCall)
    (phys : Nat → BitVec 8) (stack : BitVec 32) :
    reportedNode (StatState.withLeftovers s phys stack) p call = reportedNode s p call := by
  cases call <;> rfl

/-- The same entries are listed. -/
theorem listedEntry_withLeftovers (s : StatState Foreign) (p : Nat) (call : InfoCall)
    (phys : Nat → BitVec 8) (stack : BitVec 32) :
    listedEntry (StatState.withLeftovers s phys stack) p call = listedEntry s p call := by
  cases call <;> rfl

/-! ## Exactly what is revealed -/

/-- In every kernel with the same files and processes the call returns the same result and leaves the same
memory, and `st_mode` is the mask with the type bits of the flags. -/
def RevealsOnlyFiles (s : StatState Foreign) (p : Nat) (memory : ByteMemory) (call : InfoCall) : Prop :=
  ∀ s', SameFiles s s' → call.run s' p memory = call.run s p memory ∧
    ∀ node ptr done, reportedNode s p call = some (node, ptr) → call.run s' p memory = some done →
      done.2.load (ptr + 8) 4 = (node.attributes.mask ||| typeBits node.flags).setWidth 64

/-- A mode that is reported has all bits, and a record that is made is cleared first or filled by its name. -/
structure HidesLeftovers (s : StatState Foreign) (p : Nat) (call : InfoCall) : Prop where
  mode : ∀ node ptr, reportedNode s p call = some (node, ptr) →
    node.attributes.mask ||| typeBits node.flags = BitVec.allOnes 32
  record : ∀ entry ptr, listedEntry s p call = some (entry, ptr) →
    malloc s.files.tmpfs.frames StatState.sizeofDirent ≠ none →
    entry.cleared = true ∨ 255 ≤ entry.name.length

/-- All free frames hold one byte. -/
def freeFilled (t : Tmpfs) (c : BitVec 8) (a : Nat) : BitVec 8 :=
  if mmuProbeFrame t.frames (a / blockSize) = true then t.phys a else c

theorem sameFiles_freeFilled (s : StatState Foreign) (c : BitVec 8) :
    SameFiles s (StatState.withLeftovers s (freeFilled s.files.tmpfs c) s.stack) :=
  ⟨_, _, rfl, fun _ used => if_pos used⟩

theorem leftName_length (s : StatState Foreign) (block : HeapBlock) :
    (s.leftName block).length = nodeNameSize := by
  rw [StatState.leftName, List.length_map, List.length_range]

/-- A new record lies in a free frame. -/
theorem leftName_freeFilled {new : HeapBlock × FrameMap} {c : BitVec 8}
    (allocated : malloc s.files.tmpfs.frames StatState.sizeofDirent = some new) :
    (StatState.withLeftovers s (freeFilled s.files.tmpfs c) s.stack).leftName new.1 =
      List.replicate nodeNameSize c := by
  obtain ⟨pages, _, free, _⟩ := malloc_spec allocated
  have onePage : new.1.pages = 1 := pages
  obtain ⟨isFree, _, exists_⟩ := free new.1.first ⟨Nat.le_refl _, by omega⟩
  have unused : mmuProbeFrame s.files.tmpfs.frames new.1.first = false := by
    rw [mmuProbeFrame, if_neg (Nat.not_le_of_lt exists_)]
    exact isFree
  rw [List.eq_replicate_iff]
  refine ⟨leftName_length _ _, fun byte member => ?_⟩
  obtain ⟨i, inside, rfl⟩ := List.mem_map.mp member
  have frame : (new.1.first * blockSize + allocInfo + 4 + i) / blockSize = new.1.first := by
    have := List.mem_range.mp inside
    unfold blockSize allocInfo nodeNameSize at *
    omega
  change freeFilled s.files.tmpfs c _ = c
  unfold freeFilled
  rw [frame, unused]
  rfl

/-- The byte at an offset of stored bytes. -/
theorem storeBytes_at (memory : ByteMemory) (ptr : BitVec 64) {bytes : List (BitVec 8)} {i : Nat}
    {c : BitVec 8} (small : i < 2 ^ 64) (here : bytes[i]? = some c) :
    storeBytes memory ptr bytes (ptr + BitVec.ofNat 64 i) = c := by
  have distance : (ptr + BitVec.ofNat 64 i - ptr).toNat = i := by
    rw [BitVec.add_comm, BitVec.add_sub_cancel, BitVec.toNat_ofNat, Nat.mod_eq_of_lt small]
  rw [storeBytes, distance, here]
  rfl

/-- A record that is neither cleared nor filled delivers a byte of its frame. -/
theorem run_freeFilled (found : listedEntry s p call = some (entry, ptr)) {new : HeapBlock × FrameMap}
    (allocated : malloc s.files.tmpfs.frames StatState.sizeofDirent = some new)
    (left : entry.cleared = false) (short : entry.name.length < 255) (memory : ByteMemory) (c : BitVec 8) :
    ∃ memory', call.run (StatState.withLeftovers s (freeFilled s.files.tmpfs c) s.stack) p memory =
      some (1, memory') ∧ memory' (ptr + BitVec.ofNat 64 259) = c := by
  have foundToo := (listedEntry_withLeftovers s p call (freeFilled s.files.tmpfs c) s.stack).trans found
  obtain ⟨record, filled, last⟩ := fill_shows left short (List.length_replicate (n := nodeNameSize) (a := c))
  refine ⟨storeBytes memory ptr record.bytes, ?_, ?_⟩
  · rw [run_lists foundToo, frames_withLeftovers, allocated, Option.bind_some, leftName_freeFilled allocated,
      filled]
    rfl
  · apply storeBytes_at _ _ (by decide)
    rw [last, List.getElem?_replicate, if_pos (by decide)]

/-- A mode that does not show the stack has all bits. -/
theorem RevealsOnlyFiles.mode {memory : ByteMemory} (reveals : RevealsOnlyFiles s p memory call)
    (found : reportedNode s p call = some (node, ptr)) :
    node.attributes.mask ||| typeBits node.flags = BitVec.allOnes 32 := by
  -- all bits are set on the stack
  have foundToo := (reportedNode_withLeftovers s p call s.files.tmpfs.phys (BitVec.allOnes 32)).trans found
  have mode := (reveals _ ⟨_, BitVec.allOnes 32, rfl, fun _ _ => rfl⟩).2 node ptr _ found
    (run_reported foundToo memory)
  rw [load_stMode] at mode
  have bits := congrArg (BitVec.setWidth 32) mode
  rw [BitVec.setWidth_setWidth_of_le _ (by decide), BitVec.setWidth_setWidth_of_le _ (by decide),
    BitVec.setWidth_eq, BitVec.setWidth_eq] at bits
  rw [← bits]
  exact BitVec.or_allOnes

/-- A record that does not show its frame is cleared or filled. -/
theorem RevealsOnlyFiles.record {memory : ByteMemory} (reveals : RevealsOnlyFiles s p memory call)
    (found : listedEntry s p call = some (entry, ptr))
    (hasFrame : malloc s.files.tmpfs.frames StatState.sizeofDirent ≠ none) :
    entry.cleared = true ∨ 255 ≤ entry.name.length := by
  by_contra seen
  rw [not_or, Bool.not_eq_true, Nat.not_le] at seen
  obtain ⟨new, allocated⟩ := Option.ne_none_iff_exists'.mp hasFrame
  obtain ⟨zeros, runZeros, isZero⟩ := run_freeFilled found allocated seen.1 seen.2 memory 0
  obtain ⟨ones, runOnes, isOne⟩ := run_freeFilled found allocated seen.1 seen.2 memory 0xFF
  have same := (reveals _ (sameFiles_freeFilled s 0)).1.trans
    (reveals _ (sameFiles_freeFilled s 0xFF)).1.symm
  rw [runZeros, runOnes] at same
  cases same
  exact absurd (isZero.symm.trans isOne) (by decide)

/-- A call of the stat family or `sys_readdir` reveals only file system data exactly if the mode that it
reports has all bits, and the record that it makes is cleared or filled. -/
theorem stat_reveals_iff (s : StatState Foreign) (p : Nat) (memory : ByteMemory) (call : InfoCall) :
    RevealsOnlyFiles s p memory call ↔ HidesLeftovers s p call := by
  constructor
  · intro reveals
    exact ⟨fun _ _ found => reveals.mode found, fun _ _ found hasFrame => reveals.record found hasFrame⟩
  · rintro hides s' ⟨phys, stack, rfl, -⟩
    cases found : reportedNode s p call with
    | some reported =>
        obtain ⟨node, ptr⟩ := reported
        have full := hides.mode node ptr found
        have foundToo := (reportedNode_withLeftovers s p call phys stack).trans found
        have ran := run_reported foundToo memory
        refine ⟨by rw [ran, run_reported found, statFields_full full], ?_⟩
        intro node' ptr' done same done_
        cases same
        rw [ran] at done_
        cases done_
        rw [load_stMode, full, BitVec.allOnes_or]
    | none =>
        refine ⟨?_, fun _ _ _ isReported => ?_⟩
        · cases isListed : listedEntry s p call with
          | none => exact run_other found isListed memory phys stack
          | some listed =>
              obtain ⟨entry, ptr⟩ := listed
              have listedToo := (listedEntry_withLeftovers s p call phys stack).trans isListed
              rw [run_lists listedToo, run_lists isListed, frames_withLeftovers]
              cases allocated : malloc s.files.tmpfs.frames StatState.sizeofDirent with
              | none => rfl
              | some new =>
                  have hidden := hides.record entry ptr isListed (by rw [allocated]; simp)
                  rw [Option.bind_some, Option.bind_some,
                    fill_hides hidden (leftName_length _ _) (leftName_length s new.1)]
        · cases isReported

end Calls

/-- A kernel with these files and nothing mounted in them. -/
def plainStat (files : OpenFiles Empty) : StatState Empty where
  files := files
  fields := { device := Empty.elim, inode := Empty.elim, nlink := Empty.elim, readdir := Empty.elim }
  ptyMap := []
  stack := 0

/-- A file of mode 0644 and its directory are opened: `sys_stat` delivers the word of the stack, and
`sys_readdir` the bytes of a free frame behind the name. -/
theorem stat_delivers_leftovers : ∃ (t : Tmpfs) (files : OpenFiles Empty), Tmpfs.Reachable t ∧
    Run FdCall.step (fun _ _ => True) (noneOpen t)
      [.sysOpen 1 ⟨0, 0⟩ (some [slash, 97]) oRdwr 0, .sysOpen 1 ⟨0, 0⟩ (some [slash]) 0 0] files ∧
    ¬ RevealsOnlyFiles (plainStat files) 1 (fun _ => 0) (.stat 0 0x400000) ∧
    ¬ RevealsOnlyFiles (plainStat files) 1 (fun _ => 0) (.readdir 1 0 0x400000) := by
  have completes : ((Tmpfs.tmpfsCreate freeMemory (fun _ => 0) []).bind fun start =>
      Run.exec (fun t call => if TmpfsCall.check 0 t call then call.step t else none) start
        [.create ⟨0, 0⟩ 0 [97] 0o644]).any (fun t =>
      (Run.exec FdCall.step (noneOpen t)
        [.sysOpen 1 ⟨0, 0⟩ (some [slash, 97]) oRdwr 0, .sysOpen 1 ⟨0, 0⟩ (some [slash]) 0 0]).any fun files =>
          (reportedNode (plainStat files) 1 (.stat 0 0x400000)).any (fun found =>
            found.1.attributes.mask ||| typeBits found.1.flags == 0o100644) &&
          (listedEntry (plainStat files) 1 (.readdir 1 0 0x400000)).any (fun found =>
            !found.1.cleared && found.1.name.length == 1) &&
          (malloc files.tmpfs.frames StatState.sizeofDirent).isSome) = true := by
    decide +kernel
  obtain ⟨t, reachable, facts⟩ := Tmpfs.Reachable.of_checked completes
  obtain ⟨files, executed, ends⟩ := (Option.any_eq_true _ _).mp facts
  rw [Bool.and_eq_true, Bool.and_eq_true] at ends
  obtain ⟨⟨node, ptr⟩, reported, mode⟩ := (Option.any_eq_true _ _).mp ends.1.1
  obtain ⟨⟨entry, target⟩, isListed, left⟩ := (Option.any_eq_true _ _).mp ends.1.2
  rw [Bool.and_eq_true] at left
  have hasFrame : malloc files.tmpfs.frames StatState.sizeofDirent ≠ none :=
    Option.isSome_iff_ne_none.mp ends.2
  refine ⟨t, files, reachable, Run.of_exec executed, fun reveals => ?_, fun reveals => ?_⟩
  · have full := reveals.mode reported
    rw [beq_iff_eq.mp mode] at full
    exact absurd full (by decide)
  · have length : entry.name.length = 1 := beq_iff_eq.mp left.2
    rcases reveals.record isListed hasFrame with cleared | long
    · rw [cleared] at left
      exact absurd left.1 (by decide)
    · omega

end Voxel.Proofs
