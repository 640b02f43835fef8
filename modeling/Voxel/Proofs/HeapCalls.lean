/-
Module: Voxel.Proofs.HeapCalls
Layer: Proofs
Purpose: The kernel heap as a store of independent blocks: what each call does to the frames and to the bytes
  of the live blocks, and that a run that gives every block back restores the bitmap.
Trusted boundary: none
Main exports: Allowed, BlocksApart, Effect, kernel_heap_blocks
-/
import Voxel.Proofs.HeapBlocks

namespace Voxel.Proofs

open Voxel.Lib Voxel.Kernel

variable {start : FrameMap} {s : HeapState}

/-! ## What the calls promise -/

/-- The byte of a block with this offset from its header. -/
def blockByte (ptr : BitVec 64) (i : Nat) : BitVec 64 := ptr - 24 + BitVec.ofNat 64 i

/-- The frame of an address of the direct map. -/
def frameOf (address : BitVec 64) : Nat := (address - highMapRegion).toNat / 4096

/-- The frames of the block of a pointer. -/
def PointerFrames (ptr size : BitVec 64) (f : Nat) : Prop := BlockFrames (frameOf (ptr - 24)) size f

/-- A call of an owner: of a live block, inside it, with sizes below 2^42 and enough free frames. -/
def Allowed (s : HeapState) : HeapCall → Prop
  | .malloc size =>
      size.toNat < 2 ^ 42 ∧ ∃ first, FreeRun s.heap.frames (mallocPages size.toNat) first
  | .free ptr => ∃ old, s.live ptr = some old
  | .realloc ptr size =>
      (∃ old, s.live ptr = some old) ∧ (size ≠ 0 →
        size.toNat < 2 ^ 42 ∧ ∃ first, FreeRun s.heap.frames (mallocPages size.toNat) first)
  | .store ptr offset _ => ∃ old, s.live ptr = some old ∧ offset < old.toNat

/-- The bytes of the live blocks, with their headers, are on locked frames of the memory and pairwise
different. -/
structure BlocksApart (s : HeapState) : Prop where
  locked : ∀ p n, s.live p = some n → ∀ i < 24 + n.toNat,
    frameOf (blockByte p i) < s.heap.frames.nFrames ∧
      s.heap.frames.locked (frameOf (blockByte p i)) = true
  disjoint : ∀ p n p' n', s.live p = some n → s.live p' = some n' → p ≠ p' →
    ∀ i < 24 + n.toNat, ∀ j < 24 + n'.toNat, blockByte p i ≠ blockByte p' j

/-- The byte of a live block that a call is there to change. -/
def Touches : HeapCall → BitVec 64 → Nat → Prop
  | .store ptr offset _, p, i => p = ptr ∧ i = 24 + offset
  | _, _, _ => False

/-- What a call does to the frames, and the bytes it promises. -/
def Effect (s : HeapState) : HeapCall → Prop
  | .malloc size =>
      s.live (s.heap.malloc size).1 = none ∧
      ∀ f, ((s.heap.malloc size).2.frames.locked f = true ↔
          s.heap.frames.locked f = true ∨ PointerFrames (s.heap.malloc size).1 size f) ∧
        (PointerFrames (s.heap.malloc size).1 size f → s.heap.frames.locked f = false)
  | .free ptr => ∀ old, s.live ptr = some old → ∀ f,
      (s.heap.free ptr).frames.locked f = true ↔
        s.heap.frames.locked f = true ∧ ¬ PointerFrames ptr old f
  | .realloc ptr size => ∀ old, s.live ptr = some old →
      (size = 0 → (s.heap.realloc ptr size).1 = 0 ∧ ∀ f,
        (s.heap.realloc ptr size).2.frames.locked f = true ↔
          s.heap.frames.locked f = true ∧ ¬ PointerFrames ptr old f) ∧
      (size ≠ 0 → s.live (s.heap.realloc ptr size).1 = none ∧
        (∀ i < min old.toNat size.toNat,
          (s.heap.realloc ptr size).2.memory (blockByte (s.heap.realloc ptr size).1 (24 + i)) =
            s.heap.memory (blockByte ptr (24 + i))) ∧
        ∀ f, (s.heap.realloc ptr size).2.frames.locked f = true ↔
          (s.heap.frames.locked f = true ∧ ¬ PointerFrames ptr old f) ∨
            PointerFrames (s.heap.realloc ptr size).1 size f)
  | .store ptr offset value =>
      (s.heap.store (ptr + BitVec.ofNat 64 offset) value).frames = s.heap.frames ∧
        (s.heap.store (ptr + BitVec.ofNat 64 offset) value).memory (blockByte ptr (24 + offset)) = value

/-! ## Addresses of blocks -/

theorem blockByte_eq (first i : Nat) : blockByte (blockAddress first) i = direct (4096 * first + i) := by
  rw [blockByte, blockAddress_sub, direct_add]

theorem frameOf_direct {x : Nat} (small : x < 2 ^ 39) : frameOf (direct x) = x / 4096 := by
  rw [frameOf, direct, BitVec.add_comm, BitVec.add_sub_cancel, BitVec.toNat_ofNat]
  omega

theorem pointerFrames_eq {first : Nat} (small : first < 2 ^ 27) (size : BitVec 64) (f : Nat) :
    PointerFrames (blockAddress first) size f ↔ BlockFrames first size f := by
  rw [PointerFrames, blockAddress_sub, frameOf_direct (by omega), Nat.mul_div_cancel_left _ (by decide)]

theorem blockByte_payload (first i : Nat) :
    blockByte (blockAddress first) (24 + i) = blockAddress first + BitVec.ofNat 64 i := by
  rw [blockByte_eq, blockAddress, direct_add, Nat.add_assoc]

theorem HeapInv.blocksApart (inv : HeapInv start s) (small : start.nFrames ≤ 2 ^ 27) : BlocksApart s where
  locked := by
    intro p n live i inside
    obtain ⟨first, rfl, block, room, -, -⟩ := inv.liveBlock small live
    have byte := @blockFrames_byte first i n inside
    have place := byte.2
    rw [blockByte_eq, frameOf_direct (by omega)]
    refine ⟨?_, inv.liveLocked block byte⟩
    rw [inv.nFrames]
    omega
  disjoint := by
    intro p n p' n' live live' other i inside j inside' same
    obtain ⟨first, rfl, block, room, -, -⟩ := inv.liveBlock small live
    obtain ⟨first', rfl, block', room', -, -⟩ := inv.liveBlock small live'
    have byte := @blockFrames_byte first i n inside
    have byte' := @blockFrames_byte first' j n' inside'
    have place := byte.2
    have place' := byte'.2
    rw [blockByte_eq, blockByte_eq] at same
    have equal := direct_injective (by omega) (by omega) same
    rw [← equal] at byte'
    exact other (congrArg blockAddress (inv.apart _ _ _ _ _ block block' byte byte'))

/-! ## malloc -/

/-- What `malloc` does when a run is free. -/
theorem malloc_block {h : KernelHeap} (hint : HintSound h.frames) (small : h.frames.nFrames ≤ 2 ^ 27)
    {size : BitVec 64} (few : size.toNat < 2 ^ 42)
    (free : ∃ first, FreeRun h.frames (mallocPages size.toNat) first) :
    ∃ first, FreeRun h.frames (mallocPages size.toNat) first ∧ first < 2 ^ 27 ∧
      (h.malloc size).1 = blockAddress first ∧
      (h.malloc size).2.frames =
        lockRun (BitVec.ofNat 64 first <<< 12) (mallocPages size.toNat) h.frames ∧
      (h.malloc size).2.memory = h.memory.storeFields (direct (4096 * first))
        (allocInfoFields (BitVec.ofNat 64 first <<< 12) size) := by
  obtain ⟨pages, first, search, run⟩ := searchedPages_found hint few free
  have bound : first < 2 ^ 27 := by
    have inside := run.inside
    have := mallocPages_pos size.toNat
    omega
  refine ⟨first, run, bound, ?_, ?_, ?_⟩
  · rw [KernelHeap.malloc, search]
    exact blockPointer_eq bound
  · rw [KernelHeap.malloc, search, pages]
    exact kernelHeap_frames _ _
  · rw [KernelHeap.malloc, search, ← direct_frame bound]
    rfl

/-- A header goes on frames that were free. -/
theorem allocInfo_kept {m : FrameMap} (small : m.nFrames ≤ 2 ^ 27) (memory : ByteMemory) {first : Nat}
    {size : BitVec 64} (run : FreeRun m (mallocPages size.toNat) first) (ptr value : BitVec 64) :
    KeptBytes m memory (memory.storeFields (direct (4096 * first)) (allocInfoFields ptr value)) := by
  intro x inside used
  have positive := mallocPages_pos size.toNat
  have room := run.inside
  refine allocInfo_outside memory ptr value (by omega) inside ?_
  by_contra within
  have frame : BlockFrames first size (x / 4096) := ⟨by omega, by omega⟩
  rw [run.free frame] at used
  cases used

/-- The frames after the locks of `malloc`. -/
theorem lockRun_block {m : FrameMap} (small : m.nFrames ≤ 2 ^ 27) {first : Nat} {size : BitVec 64}
    (run : FreeRun m (mallocPages size.toNat) first) (f : Nat) :
    (lockRun (BitVec.ofNat 64 first <<< 12) (mallocPages size.toNat) m).locked f = true ↔
      m.locked f = true ∨ BlockFrames first size f :=
  lockRun_run small run.inside f

/-- The new block is none of the live ones. -/
theorem HeapInv.unused (inv : HeapInv start s) {first : Nat}
    {size : BitVec 64} (run : FreeRun s.heap.frames (mallocPages size.toNat) first)
    (bound : first < 2 ^ 27) : s.live (blockAddress first) = none := by
  cases live : s.live (blockAddress first) with
  | none => rfl
  | some old =>
      have block : LiveBlock s.live first old := ⟨bound, live⟩
      have used := inv.liveLocked block ⟨Nat.le_refl _, Nat.lt_add_of_pos_right (mallocPages_pos _)⟩
      rw [run.free ⟨Nat.le_refl _, Nat.lt_add_of_pos_right (mallocPages_pos _)⟩] at used
      cases used

/-- The bytes of live blocks are in memory that is in use. -/
theorem HeapInv.kept (inv : HeapInv start s) (small : start.nFrames ≤ 2 ^ 27) {memory : ByteMemory}
    (kept : KeptBytes s.heap.frames s.heap.memory memory) {p n : BitVec 64} (live : s.live p = some n)
    {i : Nat} (inside : i < 24 + n.toNat) : memory (blockByte p i) = s.heap.memory (blockByte p i) := by
  obtain ⟨first, rfl, block, room, -, -⟩ := inv.liveBlock small live
  have byte := @blockFrames_byte first i n inside
  have place := byte.2
  rw [blockByte_eq]
  exact kept _ (by omega) (inv.liveLocked block byte)

theorem HeapInv.small (inv : HeapInv start s) (small : start.nFrames ≤ 2 ^ 27) :
    s.heap.frames.nFrames ≤ 2 ^ 27 := by
  rw [inv.nFrames]
  exact small

/-- A call keeps the invariant, does what it promises and changes no other byte of a live block. -/
def HeapCallSound (start : FrameMap) (s : HeapState) (call : HeapCall) : Prop :=
  HeapInv start (s.next call) ∧ Effect s call ∧
    ∀ p n, s.live p = some n → ∀ i < 24 + n.toNat, ¬ Touches call p i →
      (s.next call).heap.memory (blockByte p i) = s.heap.memory (blockByte p i)

theorem HeapInv.malloc (inv : HeapInv start s) (small : start.nFrames ≤ 2 ^ 27) {size : BitVec 64}
    (allowed : Allowed s (.malloc size)) : HeapCallSound start s (.malloc size) := by
  obtain ⟨few, free⟩ := allowed
  have memory := inv.small small
  obtain ⟨first, run, bound, pointer, frames, bytes⟩ := malloc_block inv.hint memory few free
  have kept : KeptBytes s.heap.frames s.heap.memory (s.heap.malloc size).2.memory := by
    rw [bytes]
    exact allocInfo_kept memory s.heap.memory run _ _
  have locked : ∀ f, (s.heap.malloc size).2.frames.locked f = true ↔
      s.heap.frames.locked f = true ∨ BlockFrames first size f := by
    rw [frames]
    exact lockRun_block memory run
  refine ⟨?_, ⟨?_, fun f => ⟨?_, ?_⟩⟩, fun p n live i inside _ => inv.kept small kept live inside⟩
  · dsimp only [HeapState.next]
    rw [pointer]
    refine inv.add small few run ?_ ?_ locked kept ?_
    · rw [frames]
      exact inv.hint.lockRun _ _
    · rw [frames]
      exact lockRun_nFrames _ _ _
    · rw [bytes]
      exact allocInfo_header _ _ _
  · rw [pointer]
    exact inv.unused run bound
  · rw [pointer, pointerFrames_eq bound]
    exact locked f
  · rw [pointer, pointerFrames_eq bound]
    exact run.free

/-! ## free and stores -/

theorem HeapInv.free (inv : HeapInv start s) (small : start.nFrames ≤ 2 ^ 27) {ptr : BitVec 64}
    (allowed : Allowed s (.free ptr)) : HeapCallSound start s (.free ptr) := by
  obtain ⟨old, live⟩ := allowed
  obtain ⟨first, rfl, block, -, few, header⟩ := inv.liveBlock small live
  obtain ⟨kept, locked⟩ := inv.remove small block
  refine ⟨kept, fun size there f => ?_, fun p n _ i _ _ => ?_⟩
  · obtain rfl := Option.some.inj (live.symm.trans there)
    rw [pointerFrames_eq block.1]
    exact locked f
  · exact congrFun (free_header block.1 few header).2 _

/-- An owner changes no header. -/
theorem HeapInv.store (inv : HeapInv start s) (small : start.nFrames ≤ 2 ^ 27) {ptr : BitVec 64}
    {offset : Nat} {value : BitVec 8} (allowed : Allowed s (.store ptr offset value)) :
    HeapCallSound start s (.store ptr offset value) := by
  obtain ⟨old, live, inside⟩ := allowed
  obtain ⟨first, rfl, block, room, few, header⟩ := inv.liveBlock small live
  have target : blockAddress first + BitVec.ofNat 64 offset = direct (4096 * first + (24 + offset)) := by
    rw [← blockByte_payload, blockByte_eq]
  have ownFrame := @blockFrames_byte first (24 + offset) old (by omega)
  have last := ownFrame.2
  refine ⟨⟨inv.hint, inv.nFrames, fun p n there => ?_, inv.locked, inv.fresh, inv.apart⟩,
    ⟨rfl, ?_⟩, fun p n there i within other => ?_⟩
  · obtain ⟨a, rfl, block', room', few', header'⟩ := inv.liveBlock small there
    have bound := block'.1
    refine ⟨a, rfl, room', few', header'.congr fun k low => ?_⟩
    dsimp only [HeapState.next, KernelHeap.store]
    rw [target]
    refine Function.update_of_ne (fun same => ?_) _ _
    have equal := direct_injective (by omega) (by omega) same
    -- the stored byte is past the header of its own block, and in no other block
    have otherFrame := @blockFrames_byte a k n (by omega)
    rw [equal] at otherFrame
    obtain rfl := inv.apart _ _ _ _ _ block' block otherFrame ownFrame
    omega
  · rw [blockByte_payload]
    exact Function.update_self _ _ _
  · obtain ⟨a, rfl, block', room', -, -⟩ := inv.liveBlock small there
    have otherFrame := @blockFrames_byte a i n within
    have otherLast := otherFrame.2
    refine Function.update_of_ne (fun same => other ?_) _ _
    rw [target, blockByte_eq] at same
    have equal := direct_injective (by omega) (by omega) same
    rw [equal] at otherFrame
    obtain rfl := inv.apart _ _ _ _ _ block' block otherFrame ownFrame
    exact ⟨rfl, by omega⟩

/-! ## realloc -/

/-- The copy of `realloc` changes the payload of the new block only. -/
theorem copyBytes_outside (memory : ByteMemory) {first x count : Nat} (src : BitVec 64)
    (bound : first < 2 ^ 27) (small : x < 2 ^ 39) (few : count < 2 ^ 42)
    (outside : x < 4096 * first + 24 ∨ 4096 * first + 24 + count ≤ x) :
    copyBytes memory (blockAddress first) src count (direct x) = memory (direct x) := by
  refine if_neg fun within => ?_
  rw [blockAddress] at within
  rcases Nat.lt_or_ge x (4096 * first + 24) with before | after
  · rw [direct_sub_back before (by omega)] at within
    omega
  · rw [direct_sub after small] at within
    omega

theorem copyBytes_inside (memory : ByteMemory) (dest src : BitVec 64) {count i : Nat}
    (inside : i < count) (few : count < 2 ^ 42) :
    copyBytes memory dest src count (dest + BitVec.ofNat 64 i) = memory (src + BitVec.ofNat 64 i) := by
  have distance : dest + BitVec.ofNat 64 i - dest = BitVec.ofNat 64 i := by
    rw [BitVec.add_comm, BitVec.add_sub_cancel]
  rw [copyBytes, distance, if_pos]
  rw [BitVec.toNat_ofNat]
  omega

/-- `realloc` past its checks. -/
theorem realloc_of_magic {h : KernelHeap} {ptr size : BitVec 64} (nonNull : ptr ≠ 0) (some : size ≠ 0)
    (magic : (h.malloc size).2.memory.load (ptr - 24) 2 = allocMagic) {old : BitVec 64}
    (oldSize : (h.malloc size).2.memory.load (ptr - 24 + 16) 8 = old) :
    h.realloc ptr size = ((h.malloc size).1,
      KernelHeap.free { (h.malloc size).2 with
        memory := copyBytes (h.malloc size).2.memory (h.malloc size).1 ptr
          (if old < size then old else size).toNat } ptr) := by
  subst oldSize
  unfold KernelHeap.realloc
  rw [if_neg nonNull, if_neg some]
  exact if_neg (not_not.mpr magic)

/-- A copy into a new block leaves what is in use, and the header of the block. -/
theorem copyBytes_kept {m : FrameMap} (memory : ByteMemory) {a count : Nat}
    {size : BitVec 64} (run : FreeRun m (mallocPages size.toNat) a) (bound : a < 2 ^ 27)
    (src : BitVec 64) (few : size.toNat < 2 ^ 42) (atMost : count ≤ size.toNat) :
    KeptBytes m memory (copyBytes memory (blockAddress a) src count) ∧
      ∀ k < 24, copyBytes memory (blockAddress a) src count (direct (4096 * a + k)) =
        memory (direct (4096 * a + k)) := by
  refine ⟨fun x inside used => ?_, fun k low => ?_⟩
  · refine copyBytes_outside memory src bound inside (by omega) ?_
    by_contra within
    have byte := @blockFrames_byte a (x - 4096 * a) size (by omega)
    rw [Nat.add_sub_cancel' (by omega)] at byte
    rw [run.free byte] at used
    cases used
  · exact copyBytes_outside memory src bound (by omega) (by omega) (Or.inl (by omega))

/-- `realloc` to nothing is `free`. -/
theorem HeapInv.realloc_zero (inv : HeapInv start s) (small : start.nFrames ≤ 2 ^ 27) {ptr old : BitVec 64}
    (live : s.live ptr = some old) : HeapCallSound start s (.realloc ptr 0) := by
  obtain ⟨kept, effect, bytes⟩ := @HeapInv.free start s inv small ptr ⟨old, live⟩
  obtain ⟨first, address, block, -⟩ := inv.liveBlock small live
  have same : s.heap.realloc ptr 0 = (0, s.heap.free ptr) := by
    rw [KernelHeap.realloc, if_neg (address ▸ blockAddress_ne_zero block.1), if_pos rfl]
  refine ⟨?_, fun size there => ⟨fun _ => ⟨by rw [same], ?_⟩, fun some => absurd rfl some⟩, ?_⟩
  · dsimp only [HeapState.next]
    rw [same, if_pos rfl]
    exact kept
  · rw [same]
    exact effect size there
  · dsimp only [HeapState.next]
    rw [same]
    exact bytes

/-- `realloc` up to the release of the old block: both blocks are there, and the new one has the bytes. -/
theorem HeapInv.realloc_both (inv : HeapInv start s) (small : start.nFrames ≤ 2 ^ 27) {first : Nat}
    {old size : BitVec 64} (block : LiveBlock s.live first old) (some : size ≠ 0)
    (few : size.toNat < 2 ^ 42)
    (free : ∃ first, FreeRun s.heap.frames (mallocPages size.toNat) first) :
    ∃ a frames copy, FreeRun s.heap.frames (mallocPages size.toNat) a ∧ a < 2 ^ 27 ∧
      s.heap.realloc (blockAddress first) size =
        (blockAddress a, KernelHeap.free ⟨frames, copy⟩ (blockAddress first)) ∧
      (∀ f, frames.locked f = true ↔ s.heap.frames.locked f = true ∨ BlockFrames a size f) ∧
      KeptBytes s.heap.frames s.heap.memory copy ∧
      (∀ i < min old.toNat size.toNat, copy (blockByte (blockAddress a) (24 + i)) =
        s.heap.memory (blockByte (blockAddress first) (24 + i))) ∧
      HeapInv start ⟨⟨frames, copy⟩, Function.update s.live (blockAddress a) (Option.some size)⟩ := by
  obtain ⟨-, fewOld, header⟩ := inv.header small block
  have memory := inv.small small
  obtain ⟨a, run, bound, pointer, frames, bytes⟩ := malloc_block inv.hint memory few free
  have keptHeader : KeptBytes s.heap.frames s.heap.memory (s.heap.malloc size).2.memory := by
    rw [bytes]
    exact allocInfo_kept memory s.heap.memory run _ _
  have moved : ∀ i < 24 + old.toNat, (s.heap.malloc size).2.memory (blockByte (blockAddress first) i) =
      s.heap.memory (blockByte (blockAddress first) i) :=
    fun i inside => inv.kept small keptHeader block.2 inside
  have oldHeader : Header (s.heap.malloc size).2.memory first old := by
    refine header.congr fun k low => ?_
    rw [← blockByte_eq]
    exact moved k (by omega)
  obtain ⟨magic, -, oldSize⟩ := oldHeader.loads
  have equation := @realloc_of_magic s.heap (blockAddress first) size
    (blockAddress_ne_zero block.1) some ((blockAddress_sub first).symm ▸ magic) old
    ((blockAddress_sub first).symm ▸ oldSize)
  have count : (if old < size then old else size).toNat = min old.toNat size.toNat := by
    split
    · rename_i less
      exact (Nat.min_eq_left (Nat.le_of_lt less)).symm
    · rename_i notLess
      exact (Nat.min_eq_right (Nat.le_of_not_lt notLess)).symm
  rw [pointer, count] at equation
  obtain ⟨keptCopy, headerCopy⟩ := copyBytes_kept (s.heap.malloc size).2.memory run bound
    (blockAddress first) few (Nat.min_le_right old.toNat size.toNat)
  have kept : KeptBytes s.heap.frames s.heap.memory _ :=
    fun x inside used => (keptCopy x inside used).trans (keptHeader x inside used)
  have locked : ∀ f, (s.heap.malloc size).2.frames.locked f = true ↔
      s.heap.frames.locked f = true ∨ BlockFrames a size f := by
    rw [frames]
    exact lockRun_block memory run
  refine ⟨a, _, _, run, bound, equation, locked, kept, fun i inside => ?_, ?_⟩
  · rw [blockByte_payload, copyBytes_inside _ _ _ inside (by omega), ← blockByte_payload]
    exact moved _ (by omega)
  · refine inv.add small few run ?_ ?_ locked kept ?_
    · dsimp only
      rw [frames]
      exact inv.hint.lockRun _ _
    · dsimp only
      rw [frames]
      exact lockRun_nFrames _ _ _
    · refine Header.congr ?_ headerCopy
      rw [bytes]
      exact allocInfo_header _ _ _

theorem HeapInv.realloc (inv : HeapInv start s) (small : start.nFrames ≤ 2 ^ 27) {ptr size : BitVec 64}
    (allowed : Allowed s (.realloc ptr size)) : HeapCallSound start s (.realloc ptr size) := by
  obtain ⟨⟨old, live⟩, space⟩ := allowed
  by_cases null : size = 0
  · subst null
    exact inv.realloc_zero small live
  obtain ⟨few, free⟩ := space null
  obtain ⟨first, rfl, block, room, fewOld, header⟩ := inv.liveBlock small live
  obtain ⟨a, frames, copy, run, bound, equation, locked, kept, copied, both⟩ :=
    inv.realloc_both small block null few free
  have unused := inv.unused run bound
  have other : first ≠ a := by
    rintro rfl
    rw [live] at unused
    cases unused
  obtain ⟨after, effect⟩ := both.remove small ((liveBlock_insert bound size first old).mpr
    (Or.inr ⟨other, block⟩))
  have freed := (free_header block.1 fewOld (h := ⟨frames, copy⟩) (header.congr fun k low => by
    rw [← blockByte_eq]
    exact inv.kept small kept live (by omega))).2
  refine ⟨?_, fun size' there => ⟨fun zero => absurd zero null, fun _ => ⟨?_, fun i inside => ?_,
    fun f => ?_⟩⟩, fun p n there i inside _ => ?_⟩
  · dsimp only [HeapState.next]
    rw [equation, if_neg null, Function.update_comm
      (fun same => other (blockAddress_injective block.1 bound same))]
    exact after
  · rw [equation]
    exact unused
  · obtain rfl := Option.some.inj (live.symm.trans there)
    rw [equation]
    dsimp only
    rw [freed]
    exact copied i inside
  · obtain rfl := Option.some.inj (live.symm.trans there)
    rw [equation]
    dsimp only
    rw [effect, pointerFrames_eq block.1, pointerFrames_eq bound, locked]
    have clash : BlockFrames first old f → ¬ BlockFrames a size f := by
      intro frame new
      have used := inv.liveLocked block frame
      rw [run.free new] at used
      cases used
    constructor
    · rintro ⟨before | new, notOld⟩
      · exact Or.inl ⟨before, notOld⟩
      · exact Or.inr new
    · rintro (⟨before, notOld⟩ | new)
      · exact ⟨Or.inl before, notOld⟩
      · exact ⟨Or.inr new, fun frame => clash frame new⟩
  · dsimp only [HeapState.next]
    rw [equation]
    dsimp only
    rw [freed]
    exact inv.kept small kept there inside

/-! ## Runs -/

theorem HeapInv.next (inv : HeapInv start s) (small : start.nFrames ≤ 2 ^ 27) {call : HeapCall}
    (allowed : Allowed s call) : HeapCallSound start s call := by
  cases call with
  | malloc size => exact inv.malloc small allowed
  | free ptr => exact inv.free small allowed
  | realloc ptr size => exact inv.realloc small allowed
  | store ptr offset value => exact inv.store small allowed

/-- Before the first call. -/
theorem heapInv_start (heap : KernelHeap) (hint : HintSound heap.frames) :
    HeapInv heap.frames ⟨heap, fun _ => none⟩ where
  hint := hint
  nFrames := rfl
  block := fun _ _ live => nomatch live
  locked := fun _ => ⟨Or.inl, fun h => h.elim id fun ⟨_, _, live, _⟩ => nomatch live.2⟩
  fresh := fun _ _ _ live _ => nomatch live.2
  apart := fun _ _ _ _ _ live _ _ _ => nomatch live.2

/-- The kernel heap over every run of its owners, from a bitmap with a sound hint. Blocks are reached
through the direct map, which has addresses for 2^27 frames up to the end of the address space
(`mmu_init` maps the first 2^24 of them), so there are no more frames than that. The blocks are apart,
each call does what it promises and nothing else to the bytes of live blocks, and without live blocks
the bitmap is the one of the start. -/
theorem kernel_heap_blocks {heap : KernelHeap} (hint : HintSound heap.frames)
    (small : heap.frames.nFrames ≤ 2 ^ 27) {calls : List HeapCall} {s : HeapState}
    (run : Run (fun s call => some (s.next call)) Allowed ⟨heap, fun _ => none⟩ calls s) :
    BlocksApart s ∧
      (∀ call, Allowed s call → Effect s call ∧
        ∀ p n, s.live p = some n → ∀ i < 24 + n.toNat, ¬ Touches call p i →
          (s.next call).heap.memory (blockByte p i) = s.heap.memory (blockByte p i)) ∧
      ((∀ p, s.live p = none) → ∀ f, s.heap.frames.locked f = heap.frames.locked f) := by
  have inv : HeapInv heap.frames s := by
    refine run.invariant (fun s call t allowed taken inv => ?_) (heapInv_start heap hint)
    cases taken
    exact (inv.next small allowed).1
  refine ⟨inv.blocksApart small, fun call allowed => (inv.next small allowed).2, fun empty frame => ?_⟩
  rw [Bool.eq_iff_iff, inv.locked]
  constructor
  · rintro (before | ⟨first, n, block, -⟩)
    · exact before
    · rw [LiveBlock, empty] at block
      cases block.2
  · exact Or.inl

/-- A heap on three free frames. -/
def smallHeap : KernelHeap := ⟨⟨3, fun _ => false, 0⟩, fun _ => 0⟩

theorem kernel_heap_blocks_example :
    let s := (HeapState.mk smallHeap fun _ => none).next (.malloc 5)
    BlocksApart s ∧ BlocksApart (s.next (.free (smallHeap.malloc 5).1)) ∧
      ∀ f, (s.next (.free (smallHeap.malloc 5).1)).heap.frames.locked f = false := by
  have hint : HintSound smallHeap.frames := ⟨fun f low => absurd low (Nat.not_lt_zero f), by decide⟩
  have allocate : Allowed ⟨smallHeap, fun _ => none⟩ (.malloc 5) := by
    refine ⟨by decide, 0, fun j low => ⟨?_, rfl⟩⟩
    have pages : mallocPages (5 : BitVec 64).toNat = 1 := by decide
    rw [pages] at low
    rw [Nat.zero_add]
    exact Nat.lt_of_lt_of_le low (by decide)
  have live : ((HeapState.mk smallHeap fun _ => none).next (.malloc 5)).live (smallHeap.malloc 5).1 =
      some 5 := by
    dsimp only [HeapState.next]
    rw [Function.update_self]
  have one : Run (fun s call => some (HeapState.next s call)) Allowed ⟨smallHeap, fun _ => none⟩
      [.malloc 5] _ := .single allocate rfl
  have two : Run (fun s call => some (HeapState.next s call)) Allowed ⟨smallHeap, fun _ => none⟩
      [.malloc 5, .free (smallHeap.malloc 5).1] _ := .head allocate rfl (.single ⟨5, live⟩ rfl)
  obtain ⟨apart, -, -⟩ := kernel_heap_blocks hint (by decide) one
  obtain ⟨apart', -, restored⟩ := kernel_heap_blocks hint (by decide) two
  refine ⟨apart, apart', restored fun p => ?_⟩
  dsimp only [HeapState.next]
  by_cases same : p = (smallHeap.malloc 5).1
  · rw [same, Function.update_self]
  · rw [Function.update_of_ne same, Function.update_of_ne same]

end Voxel.Proofs
