/-
Module: Voxel.Proofs.FrameExhaustion
Layer: Proofs
Purpose: What the callers of `mmu_request_frame` install when no frame is free. Making a table and copying
  on write clear or fill the frame first and fault there; `mmu_allocate_frame_ex` and
  `tmpfs_file_getset_block` store the answer -1 as the number of a page or a block.
Trusted boundary: none
Main exports: Taken, InstallSound, Ready, SbrkSound, GetsetSound, frame_exhaustion_iff
-/
import Voxel.Kernel.Tmpfs
import Voxel.Proofs.FirstFit
import Voxel.Proofs.UserRange

namespace Voxel.Proofs

open Voxel.Kernel
open Voxel.Lib

/-! ## What should be installed -/

/-- The frame exists, was free and is locked now. -/
def Taken (m m' : FrameMap) (frame : Nat) : Prop :=
  frame < m.nFrames ∧ m.locked frame = false ∧ m'.locked frame = true

/-- The entry is present, and was not present with this page before. -/
def NewEntry (m m' : Mmu) (table : Nat) (i : Fin 512) : Prop :=
  (m'.entry table i).present = true ∧
    ¬ ((m.entry table i).present = true ∧ (m.entry table i).page = (m'.entry table i).page)

/-- If a step installs the entry, it is for a frame that the step takes. -/
def InstallSound (m m' : Mmu) (table : Nat) (i : Fin 512) : Prop :=
  NewEntry m m' table i → Taken m.frames m'.frames (m'.entry table i).page.toNat

/-- The entry is mapped already, or holds no page while there is a frame for it. -/
def Ready (m : Mmu) (table : Nat) (i : Fin 512) : Prop :=
  if (m.entry table i).page = 0 then m.requestFrame ≠ none else (m.entry table i).present = true

variable {m m' : Mmu} {table : Nat} {i : Fin 512}

/-! ## mmu_allocate_frame_ex -/

/-- A frame that a request finds, as the page of an entry. -/
theorem pageNumber_toNat {frame n : Nat} (inside : frame < n) (small : n ≤ 2 ^ 28) :
    (BitVec.ofNat 28 frame).toNat = frame := by
  rw [BitVec.toNat_ofNat]
  omega

/-- The request locks the frame that it finds. -/
theorem requestFrame_taken {frame : Nat} (requested : m.requestFrame = some (frame, m')) :
    Taken m.frames (m'.lockFrame frame).frames frame := by
  obtain ⟨free, inside, rfl⟩ := requestFrame_spec requested
  refine ⟨inside, free, ?_⟩
  rw [Mmu.lockFrame]
  dsimp only
  rw [@mmuLockFrame_locked { m.frames with lowestAvailable := frame + 1 } frame inside,
    Function.update_self]

/-- Without a request the bitmap stays, and no frame is taken. -/
theorem not_taken (m : FrameMap) (frame : Nat) : ¬ Taken m m frame := by
  rintro ⟨-, free, locked⟩
  rw [free] at locked
  cases locked

/-- `mmu_allocate_frame_ex` installs a frame that it takes exactly if the entry is ready for it. -/
theorem allocate_sound_iff (small : m.frames.nFrames ≤ 2 ^ 28) (flags : BitVec 32) :
    InstallSound m (mmuAllocateFrameEx m table i flags) table i ↔ Ready m table i := by
  have entry : (mmuAllocateFrameEx m table i flags).entry table i =
      flaggedEntry ((allocatePage m table i).entry table i) flags := by
    rw [mmuAllocateFrameEx, setEntry_entry_self]
  have frames : (mmuAllocateFrameEx m table i flags).frames = (allocatePage m table i).frames := rfl
  unfold InstallSound NewEntry Ready
  rw [entry, frames]
  unfold allocatePage
  by_cases noPage : (m.entry table i).page = 0
  · rw [if_pos noPage, if_pos noPage]
    cases requested : m.requestFrame with
    | none =>
        refine iff_of_false (fun sound => ?_) (fun found => found rfl)
        refine not_taken _ _ (sound ⟨rfl, ?_⟩)
        rintro ⟨-, same⟩
        rw [noPage] at same
        dsimp only at same
        rw [setEntry_entry_self] at same
        exact absurd (show (0 : BitVec 28) = BitVec.allOnes 28 from same) (by decide)
    | some result =>
        obtain ⟨frame, m1⟩ := result
        refine iff_of_true (fun _ => ?_) (by simp)
        have taken := requestFrame_taken requested
        dsimp only
        rw [setEntry_entry_self]
        change Taken m.frames (m1.lockFrame frame).frames (BitVec.ofNat 28 frame).toNat
        rwa [pageNumber_toNat taken.1 small]
  · rw [if_neg noPage, if_neg noPage]
    constructor
    · intro sound
      by_contra absent
      exact not_taken _ _ (sound ⟨rfl, fun both => absent both.1⟩)
    · rintro present ⟨-, other⟩
      exact absurd ⟨present, rfl⟩ other

/-! ## The tables and mmu_copy_on_write -/

/-- A table that is made is a frame that was taken: without one the kernel faults when it clears it. -/
theorem makeTable_sound (small : m.frames.nFrames ≤ 2 ^ 28) {newPage : Nat}
    (made : makeTable m table i = some (newPage, m')) : InstallSound m m' table i := by
  have linked := makeTable_spec made
  intro _
  rw [Mmu.entry, linked.link, (tableWord_entry (Nat.lt_of_lt_of_le linked.inside small)).2.2]
  refine ⟨linked.inside, linked.free, ?_⟩
  rw [linked.locks, Function.update_self]

/-- A call of `mmu_copy_on_write` that returns has kept the page or taken a frame: without one the kernel
faults when it copies the page. -/
theorem copyOnWrite_sound (small : m.frames.nFrames ≤ 2 ^ 28) {address : BitVec 64} {failed : Bool}
    (place : mmuLookupFrameFrom m m.currentPml address = some (table, i))
    (faulted : mmuCopyOnWrite m address = some (failed, m')) : InstallSound m m' table i := by
  rw [mmuCopyOnWrite, mmuLookupFrame_false, place] at faulted
  dsimp only at faulted
  split at faulted
  · cases faulted
    exact fun new => absurd ⟨new.1, rfl⟩ new.2
  obtain ⟨phys, frames, -⟩ := refcountDecrease_same m (m.entry table i).page.toNat
  generalize refcountDecrease m (m.entry table i).page.toNat = counted at faulted phys frames
  obtain ⟨count, m1⟩ := counted
  dsimp only at faulted phys frames
  have kept : m1.entry table i = m.entry table i := entry_congr (by rw [phys])
  split at faulted
  · cases faulted
    rw [InstallSound, NewEntry, setEntry_entry_self, kept]
    exact fun new => absurd ⟨new.1, rfl⟩ new.2
  · cases requested : m1.requestFrame with
    | none =>
        rw [requested] at faulted
        cases faulted
    | some result =>
        obtain ⟨frame, m2⟩ := result
        rw [requested] at faulted
        cases faulted
        have taken := requestFrame_taken requested
        rw [frames] at taken
        intro _
        rw [setEntry_entry_self]
        change Taken m.frames (m2.lockFrame frame).frames (BitVec.ofNat 28 frame).toNat
        rwa [pageNumber_toNat taken.1 small]

/-! ## sys_sbrk -/

/-- An iteration of `sys_sbrk` has found the entry of its page, in the state `m1`. -/
def SbrkVisits (m : Mmu) (heap size : BitVec 64) (k table : Nat) (i : Fin 512) (m1 : Mmu) : Prop :=
  size &&& 0xFFF = 0 ∧ k < sbrkPages heap size ∧
    ∃ mk, forRange (fun k m => sbrkPage (sbrkAddress heap k) m) 0 k m = some mk ∧
      mmuLookupFrame mk (sbrkAddress heap k) true = some (some (table, i), m1)

/-- Every entry that `sys_sbrk` installs is for a frame that is taken then, that was free before the call,
and that is locked when the call returns. -/
def SbrkSound (m : Mmu) (heap size : BitVec 64) : Prop :=
  ∀ k table i m1, SbrkVisits m heap size k table i m1 →
    NewEntry m1 (mmuAllocateFrameEx m1 table i mmuFlagWritable) table i →
    Taken m1.frames (mmuAllocateFrameEx m1 table i mmuFlagWritable).frames
      ((mmuAllocateFrameEx m1 table i mmuFlagWritable).entry table i).page.toNat ∧
    ∀ called, sysSbrk m heap size = some called → Taken m.frames called.2.2.frames
      ((mmuAllocateFrameEx m1 table i mmuFlagWritable).entry table i).page.toNat

/-- Frames are locked and never released. -/
structure Locks (m m' : Mmu) : Prop where
  nFrames : m'.frames.nFrames = m.frames.nFrames
  keeps : ∀ f, m.frames.locked f = true → m'.frames.locked f = true

theorem Locks.refl (m : Mmu) : Locks m m := ⟨rfl, fun _ locked => locked⟩

theorem Locks.trans {a b c : Mmu} (one : Locks a b) (two : Locks b c) : Locks a c :=
  ⟨two.nFrames.trans one.nFrames, fun f locked => two.keeps f (one.keeps f locked)⟩

theorem Locks.ensureTable {make ensured : Bool} (made : ensureTable m make table i = some (ensured, m')) :
    Locks m m' := by
  unfold Kernel.ensureTable at made
  split at made
  · cases made
    exact .refl m
  · split at made
    · obtain ⟨⟨newPage, last⟩, madeTable, result⟩ := Option.map_eq_some_iff.mp made
      cases result
      have linked := makeTable_spec madeTable
      exact ⟨linked.nFrames, fun f locked => linked.keeps locked⟩
    · cases made
      exact .refl m

theorem Locks.lookup {virtAddr : BitVec 64} {make : Bool} {found : Option (Nat × Fin 512)}
    (looked : mmuLookupFrame m virtAddr make = some (found, m')) : Locks m m' := by
  unfold mmuLookupFrame at looked
  dsimp only at looked
  split at looked
  · cases looked
  · rename_i m1 made1
    cases looked
    exact .ensureTable made1
  rename_i m1 made1
  split at looked
  · cases looked
  · rename_i m2 made2
    cases looked
    exact (Locks.ensureTable made1).trans (.ensureTable made2)
  rename_i m2 made2
  have two := (Locks.ensureTable made1).trans (.ensureTable made2)
  split at looked
  · cases looked
    exact two
  split at looked
  · cases looked
  · rename_i m3 made3
    cases looked
    exact two.trans (.ensureTable made3)
  rename_i m3 made3
  split at looked <;> cases looked <;> exact two.trans (.ensureTable made3)

theorem Locks.allocate (m : Mmu) (table : Nat) (i : Fin 512) (flags : BitVec 32) :
    Locks m (mmuAllocateFrameEx m table i flags) :=
  have words := mmuAllocateFrameEx_words m table i flags
  ⟨words.2.1, words.2.2.1⟩

theorem Locks.sbrkPage {address : BitVec 64} (paged : sbrkPage address m = some m') : Locks m m' := by
  unfold Kernel.sbrkPage at paged
  split at paged
  · rename_i table i m1 looked
    cases paged
    exact (Locks.lookup looked).trans (.allocate m1 table i mmuFlagWritable)
  · cases paged

theorem Locks.sbrkLoop {heap : BitVec 64} {start count : Nat}
    (looped : forRange (fun k m => Kernel.sbrkPage (sbrkAddress heap k) m) start count m = some m') :
    Locks m m' :=
  forRange_invariant (fun _ a => Locks m a) (fun _ _ _ _ _ locks paged => locks.trans (.sbrkPage paged))
    (.refl m) looped

/-- `sys_sbrk` installs frames that it takes exactly if every entry that it reaches is ready. -/
theorem sbrk_sound_iff (small : m.frames.nFrames ≤ 2 ^ 28) (heap size : BitVec 64) :
    SbrkSound m heap size ↔ ∀ k table i m1, SbrkVisits m heap size k table i m1 → Ready m1 table i := by
  constructor
  · intro sound k table i m1 visits
    have step := sound k table i m1 visits
    obtain ⟨-, -, mk, looped, looked⟩ := visits
    have locks := (Locks.sbrkLoop looped).trans (.lookup looked)
    rw [← locks.nFrames] at small
    exact (allocate_sound_iff small mmuFlagWritable).mp fun new => (step new).1
  · intro ready k table i m1 visits new
    have isReady := ready k table i m1 visits
    obtain ⟨aligned, inside, mk, looped, looked⟩ := visits
    have before := (Locks.sbrkLoop looped).trans (.lookup looked)
    have taken := (allocate_sound_iff (before.nFrames ▸ small) mmuFlagWritable).mpr isReady new
    refine ⟨taken, fun called result => ?_⟩
    rw [sysSbrk, if_neg (not_not.mpr aligned)] at result
    obtain ⟨last, whole, same⟩ := Option.map_eq_some_iff.mp result
    cases same
    have pages : sbrkPages heap size = k + (1 + (sbrkPages heap size - k - 1)) := by omega
    have page : sbrkPage (sbrkAddress heap k) mk = some (mmuAllocateFrameEx m1 table i mmuFlagWritable) := by
      rw [sbrkPage, looked]
    rw [pages, forRange_add, looped, Option.bind_some, forRange_add, forRange, Nat.zero_add, page] at whole
    have after := Locks.sbrkLoop whole
    refine ⟨before.nFrames ▸ taken.1, ?_, after.keeps _ taken.2.2⟩
    by_contra locked
    have still := before.keeps _ (by simpa using locked)
    rw [taken.2.1] at still
    cases still

/-! ## tmpfs_file_getset_block -/

/-- Every block number that `tmpfs_file_getset_block` appends, once its array is large enough, is that of a
frame that the round takes and that is locked when the call returns. -/
def GetsetSound (t : Tmpfs) (f blockid : Nat) : Prop :=
  ∀ file file₁ t₁, t.files f = some file →
    Tmpfs.embiggen blockid (blockid + 2) file t = some (file₁, t₁) →
    ∀ r < blockid + 1 - file₁.blockCount, ∃ block,
      (Tmpfs.appendBlockCall^[blockid + 1 - file₁.blockCount] (file₁, t₁)).1.blocks[file₁.blockCount + r]? =
        some block ∧
      Taken (Tmpfs.appendBlockCall^[r] (file₁, t₁)).2.frames
        (Tmpfs.appendBlockCall^[r + 1] (file₁, t₁)).2.frames block ∧
      ∀ called, t.getsetBlockCall f blockid = some called → called.2.frames.locked block = true

/-- Every round finds a frame. -/
def RoundsReady (t : Tmpfs) (f blockid : Nat) : Prop :=
  ∀ file file₁ t₁, t.files f = some file →
    Tmpfs.embiggen blockid (blockid + 2) file t = some (file₁, t₁) →
    ∀ r < blockid + 1 - file₁.blockCount,
      mmuRequestFrame (Tmpfs.appendBlockCall^[r] (file₁, t₁)).2.frames ≠ none

theorem realloc_nFrames {frames frames' : FrameMap} {old new : HeapBlock} {size : Nat}
    (allocated : realloc frames old size = some (new, frames')) : frames'.nFrames = frames.nFrames := by
  unfold realloc at allocated
  obtain ⟨⟨b, middle⟩, taken, same⟩ := Option.map_eq_some_iff.mp allocated
  cases same
  rw [free_nFrames]
  exact (malloc_spec taken).2.1

theorem embiggen_nFrames {blockid fuel : Nat} {file file' : TmpfsFile} {t t' : Tmpfs}
    (grown : Tmpfs.embiggen blockid fuel file t = some (file', t')) :
    t'.frames.nFrames = t.frames.nFrames := by
  induction fuel generalizing file t with
  | zero => cases grown
  | succ fuel inductionHypothesis =>
      unfold Tmpfs.embiggen at grown
      split at grown
      · split at grown
        · cases grown
        · rename_i blocksAt frames allocated
          exact (inductionHypothesis grown).trans (realloc_nFrames allocated)
      · cases grown
        rfl

/-- `mmu_allocate_frame` locks at most. -/
theorem allocateFrameCall_locks (frames : FrameMap) :
    (allocateFrameCall frames).2.nFrames = frames.nFrames ∧
      ∀ f, frames.locked f = true → (allocateFrameCall frames).2.locked f = true := by
  unfold allocateFrameCall
  split
  · exact ⟨lockAddress_nFrames _ _, fun f locked => mmuLockFrame_keeps locked⟩
  · rename_i frame frames' requested
    obtain ⟨-, -, rfl⟩ := mmuRequestFrame_spec requested
    exact ⟨lockAddress_nFrames _ _, fun f locked =>
      @mmuLockFrame_keeps { frames with lowestAvailable := frame + 1 } _ f locked⟩

/-- `mmu_allocate_frame` answers with a frame that it takes exactly if there is one. -/
theorem allocateFrameCall_taken_iff {frames : FrameMap} (small : frames.nFrames < 2 ^ 52) :
    Taken frames (allocateFrameCall frames).2 (allocateFrameCall frames).1.toNat ↔
      mmuRequestFrame frames ≠ none := by
  unfold allocateFrameCall
  cases requested : mmuRequestFrame frames with
  | none =>
      refine iff_of_false (fun taken => ?_) (fun found => found rfl)
      have inside := taken.1
      dsimp only at inside
      rw [show noFrame.toNat = 2 ^ 64 - 1 from rfl] at inside
      omega
  | some result =>
      obtain ⟨frame, frames'⟩ := result
      obtain ⟨free, inside, rfl⟩ := mmuRequestFrame_spec requested
      refine iff_of_true ?_ (by simp)
      dsimp only
      rw [BitVec.toNat_ofNat, Nat.mod_eq_of_lt (by omega)]
      refine ⟨inside, free, ?_⟩
      rw [lockAddress, frameAddress_toNat (by omega),
        @mmuLockFrame_locked { frames with lowestAvailable := frame + 1 } frame inside,
        Function.update_self]

/-- The rounds append their block numbers, and lock at most. -/
theorem appendBlockCall_iterate (s : TmpfsFile × Tmpfs) (n : Nat) :
    (Tmpfs.appendBlockCall^[n] s).1.blocks.length = s.1.blocks.length + n ∧
      (Tmpfs.appendBlockCall^[n] s).2.frames.nFrames = s.2.frames.nFrames ∧
      ∀ f, s.2.frames.locked f = true → (Tmpfs.appendBlockCall^[n] s).2.frames.locked f = true := by
  induction n with
  | zero => exact ⟨rfl, rfl, fun _ locked => locked⟩
  | succ n inductionHypothesis =>
      obtain ⟨length, nFrames, keeps⟩ := inductionHypothesis
      rw [Function.iterate_succ_apply']
      generalize Tmpfs.appendBlockCall^[n] s = last at length nFrames keeps
      obtain ⟨same, locks⟩ := allocateFrameCall_locks last.2.frames
      refine ⟨?_, same.trans nFrames, fun f locked => locks f (keeps f locked)⟩
      rw [Tmpfs.appendBlockCall]
      dsimp only
      rw [List.length_append, length]
      rfl

/-- The number that a round appends stays where it is. -/
theorem appendBlockCall_block (s : TmpfsFile × Tmpfs) {r n : Nat} (before : r < n) :
    (Tmpfs.appendBlockCall^[n] s).1.blocks[s.1.blocks.length + r]? =
      some (allocateFrameCall (Tmpfs.appendBlockCall^[r] s).2.frames).1.toNat := by
  induction n with
  | zero => omega
  | succ n inductionHypothesis =>
      have length := (appendBlockCall_iterate s n).1
      rw [Function.iterate_succ_apply', Tmpfs.appendBlockCall]
      dsimp only
      by_cases last : r = n
      · subst last
        rw [List.getElem?_append_right (by omega), length, Nat.sub_self]
        rfl
      · rw [List.getElem?_append_left (by omega)]
        exact inductionHypothesis (by omega)

/-- `tmpfs_file_getset_block` appends frames that it takes exactly if every round finds one. -/
theorem getset_sound_iff {t : Tmpfs} (small : t.frames.nFrames < 2 ^ 52) (f blockid : Nat) :
    GetsetSound t f blockid ↔ RoundsReady t f blockid := by
  constructor
  · intro sound file file₁ t₁ here grown r early
    obtain ⟨block, stored, taken, -⟩ := sound file file₁ t₁ here grown r early
    obtain rfl := Option.some.inj (stored.symm.trans (appendBlockCall_block (file₁, t₁) early))
    rw [Function.iterate_succ_apply'] at taken
    refine (allocateFrameCall_taken_iff ?_).mp taken
    rw [(appendBlockCall_iterate (file₁, t₁) r).2.1]
    exact (embiggen_nFrames grown).trans_lt small
  · intro ready file file₁ t₁ here grown r early
    have found := ready file file₁ t₁ here grown r early
    have taken := (allocateFrameCall_taken_iff (by
      rw [(appendBlockCall_iterate (file₁, t₁) r).2.1]
      exact (embiggen_nFrames grown).trans_lt small)).mpr found
    refine ⟨_, appendBlockCall_block (file₁, t₁) early, ?_, fun called result => ?_⟩
    · rw [Function.iterate_succ_apply']
      exact taken
    · rw [Tmpfs.getsetBlockCall, here] at result
      dsimp only at result
      rw [grown] at result
      dsimp only at result
      split at result
      · cases result
      · cases result
        have rounds : blockid + 1 - file₁.blockCount = (blockid + 1 - file₁.blockCount - (r + 1)) +
          (r + 1) := by
          omega
        rw [rounds, Function.iterate_add_apply]
        refine (appendBlockCall_iterate _ _).2.2 _ ?_
        rw [Function.iterate_succ_apply']
        exact taken.2.2

/-- With frames enough the rounds are those of the file system's model. -/
theorem appendBlocks_call {count : Nat} {file file' : TmpfsFile} {t t' : Tmpfs}
    (appended : Tmpfs.appendBlocks count file t = some (file', t')) (small : t.frames.nFrames < 2 ^ 52) :
    Tmpfs.appendBlockCall^[count] (file, t) = (file', t') := by
  induction count generalizing file t with
  | zero =>
      cases appended
      rfl
  | succ count inductionHypothesis =>
      unfold Tmpfs.appendBlocks at appended
      split at appended
      · cases appended
      rename_i index frames allocated
      have nFrames := (mmuAllocateFrame_spec allocated).1
      rw [mmuAllocateFrame, Option.map_eq_some_iff] at allocated
      obtain ⟨⟨found, frames'⟩, requested, same⟩ := allocated
      cases same
      obtain ⟨-, inside, -⟩ := mmuRequestFrame_spec requested
      have call : allocateFrameCall t.frames =
          (BitVec.ofNat 64 found, mmuLockFrame frames' found) := by
        rw [allocateFrameCall, requested]
        dsimp only
        rw [lockAddress, frameAddress_toNat (by omega)]
      have number : (BitVec.ofNat 64 found).toNat = found := by
        rw [BitVec.toNat_ofNat]
        omega
      rw [Function.iterate_succ_apply, Tmpfs.appendBlockCall, call]
      dsimp only
      rw [number]
      exact inductionHypothesis appended (nFrames.trans_lt small)

theorem getsetBlock_call {t t' : Tmpfs} {f blockid frame : Nat}
    (found : t.getsetBlock f blockid = some (frame, t')) (small : t.frames.nFrames < 2 ^ 52) :
    t.getsetBlockCall f blockid = some ((BitVec.ofNat 64 frame <<< 12) ||| highMapRegion, t') := by
  unfold Tmpfs.getsetBlock at found
  split at found
  · cases found
  rename_i file here
  split at found
  · cases found
  rename_i file₁ t₁ grown
  split at found
  · cases found
  rename_i file₂ t₂ appended
  split at found
  · cases found
  rename_i block stored
  cases found
  rw [Tmpfs.getsetBlockCall, here]
  dsimp only
  rw [grown]
  dsimp only
  rw [appendBlocks_call appended ((embiggen_nFrames grown).trans_lt small)]
  dsimp only
  rw [stored]

/-! ## All four callers -/

/-- When what the four callers install is a frame that was free and is locked from then on. A table that is
made and a page that is copied always are. -/
theorem frame_exhaustion_iff (m : Mmu) (small : m.frames.nFrames ≤ 2 ^ 28) (t : Tmpfs)
    (smallFs : t.frames.nFrames < 2 ^ 52) :
    (∀ table i flags, InstallSound m (mmuAllocateFrameEx m table i flags) table i ↔ Ready m table i) ∧
      (∀ heap size, SbrkSound m heap size ↔
        ∀ k table i m1, SbrkVisits m heap size k table i m1 → Ready m1 table i) ∧
      (∀ f blockid, GetsetSound t f blockid ↔ RoundsReady t f blockid) ∧
      (∀ table i newPage m', makeTable m table i = some (newPage, m') → InstallSound m m' table i) ∧
      ∀ address table i failed m', mmuLookupFrameFrom m m.currentPml address = some (table, i) →
        mmuCopyOnWrite m address = some (failed, m') → InstallSound m m' table i :=
  ⟨fun _ _ flags => allocate_sound_iff small flags, fun heap size => sbrk_sound_iff small heap size,
    fun f blockid => getset_sound_iff smallFs f blockid, fun _ _ _ _ made => makeTable_sound small made,
    fun _ _ _ _ _ place faulted => copyOnWrite_sound small place faulted⟩

/-- A memory without a free frame and a table without an entry. -/
def noFreeFrames : Mmu where
  frames := { nFrames := 32, locked := fun _ => true, lowestAvailable := 32 }
  memRefcounts := fun _ => 0
  phys := fun _ _ => 0
  currentPml := 1

/-- `mmu_allocate_frame_ex` maps the page 0xFFFFFFF, which does not exist. -/
theorem allocate_installs_no_frame :
    ¬ InstallSound noFreeFrames (mmuAllocateFrameEx noFreeFrames 1 0 mmuFlagWritable) 1 0 ∧
      ((mmuAllocateFrameEx noFreeFrames 1 0 mmuFlagWritable).entry 1 0).present = true ∧
      ((mmuAllocateFrameEx noFreeFrames 1 0 mmuFlagWritable).entry 1 0).page = 0xFFFFFFF := by
  have failed : noFreeFrames.requestFrame = none := by rfl
  have empty : (noFreeFrames.entry 1 0).page = 0 := PagemapEntry.zero_page
  refine ⟨fun sound => ?_, ?_⟩
  · have ready := (allocate_sound_iff (by decide) mmuFlagWritable).mp sound
    rw [Ready, if_pos empty] at ready
    exact ready failed
  · rw [mmuAllocateFrameEx, setEntry_entry_self, allocatePage, if_pos empty, failed]
    dsimp only
    rw [setEntry_entry_self]
    exact ⟨rfl, rfl⟩

/-- With free frames an entry without a page is mapped to one of them. -/
theorem frame_exhaustion_iff_example :
    InstallSound (onePageOf 64 0) (mmuAllocateFrameEx (onePageOf 64 0) 4 0 mmuFlagWritable) 4 0 := by
  have empty : ((onePageOf 64 0).entry 4 0).page = 0 := PagemapEntry.zero_page
  have found : (onePageOf 64 0).requestFrame.isSome = true := by decide
  refine ((frame_exhaustion_iff (onePageOf 64 0) (by decide)
    ⟨usedBelow 64 6, fun _ => none, fun _ => none, 0, 0, fun _ => 0⟩ (by decide)).1 4 0 _).mpr ?_
  rw [Ready, if_pos empty]
  exact Option.isSome_iff_ne_none.mp found

end Voxel.Proofs
