/-
Module: Voxel.Proofs.HeapBlocks
Layer: Proofs
Purpose: The blocks of the kernel heap: their frames in the direct map, their headers, and the invariant that
  live blocks have frames of their own, which together with those of the start are all that is locked. A
  block can be added on free frames and given back by its header.
Trusted boundary: none
Main exports: BlockFrames, LiveBlock, HeapInv, HeapInv.add, HeapInv.remove
-/
import Voxel.Kernel.HeapBytes
import Voxel.Lib.Run
import Voxel.Proofs.AllocFailure

namespace Voxel.Proofs

open Voxel.Lib Voxel.Kernel

/-! ## Addresses in the direct map -/

/-- `mmu_from_physical`, for the addresses of the direct map. -/
def direct (x : Nat) : BitVec 64 := highMapRegion + BitVec.ofNat 64 x

theorem direct_add (x i : Nat) : direct x + BitVec.ofNat 64 i = direct (x + i) := by
  rw [direct, direct, BitVec.ofNat_add, BitVec.add_assoc]

theorem direct_toNat {x : Nat} (small : x < 2 ^ 39) : (direct x).toNat = 2 ^ 64 - 2 ^ 39 + x := by
  rw [direct, BitVec.toNat_add, BitVec.toNat_ofNat, show highMapRegion.toNat = 2 ^ 64 - 2 ^ 39 from rfl]
  omega

theorem direct_injective {x y : Nat} (smallX : x < 2 ^ 39) (smallY : y < 2 ^ 39)
    (same : direct x = direct y) : x = y := by
  have values := congrArg BitVec.toNat same
  rw [direct_toNat smallX, direct_toNat smallY] at values
  omega

/-- The distance of two addresses. -/
theorem direct_sub {x y : Nat} (after : y ≤ x) (small : x < 2 ^ 39) :
    (direct x - direct y).toNat = x - y := by
  rw [BitVec.toNat_sub, direct_toNat small, direct_toNat (by omega)]
  omega

theorem direct_sub_back {x y : Nat} (before : x < y) (small : y < 2 ^ 39) :
    (direct x - direct y).toNat = 2 ^ 64 - (y - x) := by
  rw [BitVec.toNat_sub, direct_toNat small, direct_toNat (by omega)]
  omega

/-- The address of a frame. -/
theorem direct_frame {first : Nat} (small : first < 2 ^ 27) :
    BitVec.ofNat 64 first <<< 12 ||| highMapRegion = direct (4096 * first) := by
  apply BitVec.eq_of_toNat_eq
  have shifted : (BitVec.ofNat 64 first <<< 12).toNat = 4096 * first := by
    rw [BitVec.toNat_shiftLeft, BitVec.toNat_ofNat, Nat.shiftLeft_eq]
    omega
  rw [direct_toNat (by omega), BitVec.toNat_or, shifted, Nat.or_comm,
    show highMapRegion.toNat = (2 ^ 25 - 1) <<< 39 from rfl,
    ← Nat.shiftLeft_add_eq_or_of_lt (by omega : 4096 * first < 2 ^ 39), Nat.shiftLeft_eq]
  omega

/-- The pointer to a block that starts with a frame. -/
def blockAddress (first : Nat) : BitVec 64 := direct (4096 * first + 24)

theorem blockPointer_eq {first : Nat} (small : first < 2 ^ 27) :
    blockPointer (BitVec.ofNat 64 first <<< 12) = blockAddress first := by
  rw [blockPointer, direct_frame small, blockAddress, ← direct_add]
  rfl

theorem blockAddress_sub (first : Nat) : blockAddress first - 24 = direct (4096 * first) := by
  rw [blockAddress, ← direct_add]
  exact BitVec.add_sub_cancel _ _

theorem blockAddress_ne_zero {first : Nat} (small : first < 2 ^ 27) : blockAddress first ≠ 0 := by
  intro null
  have value := congrArg BitVec.toNat null
  rw [blockAddress, direct_toNat (by omega)] at value
  change _ = 0 at value
  omega

/-! ## Frames -/

/-- The frames of a block of this size that starts with a frame. -/
def BlockFrames (first : Nat) (size : BitVec 64) (f : Nat) : Prop :=
  first ≤ f ∧ f < first + mallocPages size.toNat

/-- The frames of a run of locks inside the memory. -/
theorem lockRun_run {m : FrameMap} (small : m.nFrames ≤ 2 ^ 27) {first count : Nat}
    (inside : first + count ≤ m.nFrames) (f : Nat) :
    (lockRun (BitVec.ofNat 64 first <<< 12) count m).locked f = true ↔
      m.locked f = true ∨ first ≤ f ∧ f < first + count := by
  have frames : ∀ i < count, ((BitVec.ofNat 64 first).toNat + i) % 2 ^ 52 = first + i := by
    intro i early
    rw [BitVec.toNat_ofNat]
    omega
  rw [lockRun_locked_iff]
  refine or_congr_right ⟨?_, ?_⟩
  · rintro ⟨-, i, early, place⟩
    rw [runAddress_frame, frames i early] at place
    omega
  · rintro ⟨low, high⟩
    refine ⟨by omega, f - first, by omega, ?_⟩
    rw [runAddress_frame, frames _ (by omega)]
    omega

theorem releaseRun_nFrames (base : BitVec 64) (count : Nat) (m : FrameMap) :
    (releaseRun base count m).nFrames = m.nFrames := by
  induction count with
  | zero => rfl
  | succ count inductionHypothesis =>
      rw [releaseRun, releaseAddress, mmuReleaseFrame_nFrames, inductionHypothesis]

/-- A run of releases frees the frames of its addresses. -/
theorem releaseRun_locked_iff (base : BitVec 64) (count : Nat) (m : FrameMap) (f : Nat) :
    (releaseRun base count m).locked f = true ↔
      m.locked f = true ∧
        ¬ (f < m.nFrames ∧ ∃ i < count, (base + BitVec.ofNat 64 (4096 * i)).toNat / 4096 = f) := by
  induction count with
  | zero => simp [releaseRun]
  | succ count inductionHypothesis =>
      rw [releaseRun, releaseAddress, mmuReleaseFrame_locked_iff, inductionHypothesis, releaseRun_nFrames]
      constructor
      · rintro ⟨⟨locked, before⟩, last⟩
        refine ⟨locked, ?_⟩
        rintro ⟨inside, i, early, place⟩
        by_cases isLast : i = count
        · exact last ⟨inside, isLast ▸ place⟩
        · exact before ⟨inside, i, by omega, place⟩
      · rintro ⟨locked, none⟩
        refine ⟨⟨locked, ?_⟩, ?_⟩
        · rintro ⟨inside, i, early, place⟩
          exact none ⟨inside, i, by omega, place⟩
        · rintro ⟨inside, place⟩
          exact none ⟨inside, count, by omega, place⟩

/-- The frames of a run of releases inside the memory. -/
theorem releaseRun_run {m : FrameMap} (small : m.nFrames ≤ 2 ^ 27) {first count : Nat}
    (inside : first + count ≤ m.nFrames) (f : Nat) :
    (releaseRun (BitVec.ofNat 64 first <<< 12) count m).locked f = true ↔
      m.locked f = true ∧ ¬ (first ≤ f ∧ f < first + count) := by
  have frames : ∀ i < count, ((BitVec.ofNat 64 first).toNat + i) % 2 ^ 52 = first + i := by
    intro i early
    rw [BitVec.toNat_ofNat]
    omega
  rw [releaseRun_locked_iff]
  refine and_congr_right' (not_congr ⟨?_, ?_⟩)
  · rintro ⟨-, i, early, place⟩
    rw [runAddress_frame, frames i early] at place
    omega
  · rintro ⟨low, high⟩
    refine ⟨by omega, f - first, by omega, ?_⟩
    rw [runAddress_frame, frames _ (by omega)]
    omega

theorem HintSound.releaseRun {m : FrameMap} (hint : HintSound m) (base : BitVec 64) (count : Nat) :
    HintSound (releaseRun base count m) := by
  induction count with
  | zero => exact hint
  | succ count inductionHypothesis => exact inductionHypothesis.release _

/-- With a free run the search for a block's pages finds one. -/
theorem searchedPages_found {m : FrameMap} (hint : HintSound m) {size : BitVec 64}
    (small : size.toNat < 2 ^ 42) (free : ∃ first, FreeRun m (mallocPages size.toNat) first) :
    pageCount size = mallocPages size.toNat ∧
      ∃ first, mmuRequestFrames m (searchedPages size) = some first ∧
        FreeRun m (mallocPages size.toNat) first := by
  have pages := @pageCount_toNat size (by unfold allocInfo; omega)
  have few : mallocPages size.toNat < 2 ^ 31 := by
    unfold mallocPages allocInfo blockSize
    omega
  have searched : searchedPages size = mallocPages size.toNat := by
    have value : (BitVec.ofNat 32 (mallocPages size.toNat)).toNat = mallocPages size.toNat := by
      rw [BitVec.toNat_ofNat]
      omega
    rw [searchedPages, pages, BitVec.toInt_eq_toNat_of_lt (by rw [value]; omega), value, Int.toNat_natCast]
  refine ⟨pages, ?_⟩
  rw [searched]
  cases search : mmuRequestFrames m (mallocPages size.toNat) with
  | none =>
      obtain ⟨first, run⟩ := free
      exact absurd run ((request_frames_least hint (mallocPages_pos _)).2.mp search first)
  | some first => exact ⟨first, rfl, (mmuRequestFrames_some.mp search).2.1⟩

/-! ## Headers -/

/-- The bytes of the `struct alloc_info` of a block. -/
def Header (memory : ByteMemory) (first : Nat) (size : BitVec 64) : Prop :=
  ∀ field ∈ allocInfoFields (BitVec.ofNat 64 first <<< 12) size, ∀ k < field.size,
    memory (direct (4096 * first + (field.offset + k))) = readByte field.value k

theorem Header.congr {memory memory' : ByteMemory} {first : Nat} {size : BitVec 64}
    (header : Header memory first size)
    (same : ∀ k < 24, memory' (direct (4096 * first + k)) = memory (direct (4096 * first + k))) :
    Header memory' first size := by
  intro field member k inside
  rw [same _ ?_, header field member k inside]
  simp only [allocInfoFields, List.mem_cons, List.not_mem_nil, or_false] at member
  rcases member with rfl | rfl | rfl <;> dsimp only at inside ⊢ <;> omega

/-- What `free` reads. -/
theorem Header.loads {memory : ByteMemory} {first : Nat} {size : BitVec 64}
    (header : Header memory first size) :
    memory.load (direct (4096 * first)) 2 = allocMagic ∧
      memory.load (direct (4096 * first) + 8) 8 = BitVec.ofNat 64 first <<< 12 ∧
      memory.load (direct (4096 * first) + 16) 8 = size := by
  refine ⟨?_, ?_, ?_⟩
  · refine ByteMemory.load_of_bytes (by decide) (fun k inside => ?_) fun k low high => ?_
    · have bytes := header ⟨0, 2, allocMagic⟩ (by simp [allocInfoFields]) k inside
      rw [direct_add]
      simpa using bytes
    · exact (by decide : ∀ k < 8, 2 ≤ k → readByte allocMagic k = 0) k high low
  · refine ByteMemory.load_of_bytes (Nat.le_refl 8) (fun k inside => ?_) fun k low high => absurd high
      (by omega)
    have bytes := header ⟨8, 8, BitVec.ofNat 64 first <<< 12⟩ (by simp [allocInfoFields]) k inside
    rw [show (8 : BitVec 64) = BitVec.ofNat 64 8 from rfl, direct_add, direct_add, Nat.add_assoc]
    exact bytes
  · refine ByteMemory.load_of_bytes (Nat.le_refl 8) (fun k inside => ?_) fun k low high => absurd high
      (by omega)
    have bytes := header ⟨16, 8, size⟩ (by simp [allocInfoFields]) k inside
    rw [show (16 : BitVec 64) = BitVec.ofNat 64 16 from rfl, direct_add, direct_add, Nat.add_assoc]
    exact bytes

/-- Writing a header changes no byte outside it. -/
theorem allocInfo_outside (memory : ByteMemory) (ptr size : BitVec 64) {first x : Nat}
    (small : first < 2 ^ 27) (inside : x < 2 ^ 39) (outside : x < 4096 * first ∨ 4096 * first + 24 ≤ x) :
    (memory.storeFields (direct (4096 * first)) (allocInfoFields ptr size)) (direct x) =
      memory (direct x) := by
  refine @ByteMemory.storeFields_of_ne memory _ _ _ 24 (fun k low same => ?_) (fun field member => ?_)
  · rw [direct_add] at same
    have place := direct_injective inside (by omega) same
    omega
  · simp only [allocInfoFields, List.mem_cons, List.not_mem_nil, or_false] at member
    rcases member with rfl | rfl | rfl <;> simp

theorem allocInfo_header (memory : ByteMemory) (first : Nat) (size : BitVec 64) :
    Header (memory.storeFields (direct (4096 * first))
      (allocInfoFields (BitVec.ofNat 64 first <<< 12) size)) first size := by
  intro field member k inside
  rw [← direct_add]
  simp only [allocInfoFields, List.mem_cons, List.not_mem_nil, or_false] at member
  rcases member with rfl | rfl | rfl
  · exact ByteMemory.storeFields_field memory _ [] [_, _] _ inside (by simp) (by simp)
  · exact ByteMemory.storeFields_field memory _ [_] [_] _ inside (by simp) (by simp)
  · exact ByteMemory.storeFields_field memory _ [_, _] [] _ inside (by simp) (by simp)

/-! ## The invariant -/

/-- A live block that starts with a frame. -/
def LiveBlock (live : BitVec 64 → Option (BitVec 64)) (first : Nat) (size : BitVec 64) : Prop :=
  first < 2 ^ 27 ∧ live (blockAddress first) = some size

theorem blockAddress_injective {first first' : Nat} (small : first < 2 ^ 27) (small' : first' < 2 ^ 27)
    (same : blockAddress first = blockAddress first') : first = first' := by
  have place := direct_injective (by omega) (by omega) same
  omega

theorem liveBlock_insert {live : BitVec 64 → Option (BitVec 64)} {first : Nat} (small : first < 2 ^ 27)
    (size : BitVec 64) (a : Nat) (n : BitVec 64) :
    LiveBlock (Function.update live (blockAddress first) (some size)) a n ↔
      (a = first ∧ n = size) ∨ (a ≠ first ∧ LiveBlock live a n) := by
  unfold LiveBlock
  by_cases same : a = first
  · subst same
    rw [Function.update_self]
    constructor
    · rintro ⟨-, equal⟩
      exact Or.inl ⟨rfl, (Option.some.inj equal).symm⟩
    · rintro (⟨-, rfl⟩ | ⟨other, -⟩)
      · exact ⟨small, rfl⟩
      · exact absurd rfl other
  · have other : ∀ bound : a < 2 ^ 27, blockAddress a ≠ blockAddress first :=
      fun bound address => same (blockAddress_injective bound small address)
    constructor
    · rintro ⟨bound, there⟩
      rw [Function.update_of_ne (other bound)] at there
      exact Or.inr ⟨same, bound, there⟩
    · rintro (⟨equal, -⟩ | ⟨-, bound, there⟩)
      · exact absurd equal same
      · rw [Function.update_of_ne (other bound)]
        exact ⟨bound, there⟩

theorem liveBlock_erase {live : BitVec 64 → Option (BitVec 64)} {first : Nat} (small : first < 2 ^ 27)
    (a : Nat) (n : BitVec 64) :
    LiveBlock (Function.update live (blockAddress first) none) a n ↔ a ≠ first ∧ LiveBlock live a n := by
  unfold LiveBlock
  by_cases same : a = first
  · subst same
    simp
  · have other : ∀ bound : a < 2 ^ 27, blockAddress a ≠ blockAddress first :=
      fun bound address => same (blockAddress_injective bound small address)
    constructor
    · rintro ⟨bound, there⟩
      rw [Function.update_of_ne (other bound)] at there
      exact ⟨same, bound, there⟩
    · rintro ⟨-, bound, there⟩
      rw [Function.update_of_ne (other bound)]
      exact ⟨bound, there⟩

/-- Memory that is in use keeps its bytes. -/
def KeptBytes (m : FrameMap) (memory memory' : ByteMemory) : Prop :=
  ∀ x < 2 ^ 39, m.locked (x / 4096) = true → memory' (direct x) = memory (direct x)

/-- The live blocks have their headers and frames of their own, which together with those of the start are
all that is locked. -/
structure HeapInv (start : FrameMap) (s : HeapState) : Prop where
  hint : HintSound s.heap.frames
  nFrames : s.heap.frames.nFrames = start.nFrames
  block : ∀ p n, s.live p = some n → ∃ first, p = blockAddress first ∧
    first + mallocPages n.toNat ≤ start.nFrames ∧ n.toNat < 2 ^ 42 ∧ Header s.heap.memory first n
  locked : ∀ f, s.heap.frames.locked f = true ↔
    start.locked f = true ∨ ∃ first n, LiveBlock s.live first n ∧ BlockFrames first n f
  fresh : ∀ first n f, LiveBlock s.live first n → BlockFrames first n f → start.locked f = false
  apart : ∀ first n first' n' f, LiveBlock s.live first n → LiveBlock s.live first' n' →
    BlockFrames first n f → BlockFrames first' n' f → first = first'

variable {start : FrameMap} {s : HeapState}

/-- A live block lies in the memory and has its header. -/
theorem HeapInv.liveBlock (inv : HeapInv start s) (small : start.nFrames ≤ 2 ^ 27) {p n : BitVec 64}
    (live : s.live p = some n) :
    ∃ first, p = blockAddress first ∧ LiveBlock s.live first n ∧
      first + mallocPages n.toNat ≤ start.nFrames ∧ n.toNat < 2 ^ 42 ∧ Header s.heap.memory first n := by
  obtain ⟨first, rfl, inside, few, header⟩ := inv.block p n live
  have := mallocPages_pos n.toNat
  exact ⟨first, rfl, ⟨by omega, live⟩, inside, few, header⟩

theorem HeapInv.header (inv : HeapInv start s) (small : start.nFrames ≤ 2 ^ 27) {first : Nat}
    {n : BitVec 64} (block : LiveBlock s.live first n) :
    first + mallocPages n.toNat ≤ start.nFrames ∧ n.toNat < 2 ^ 42 ∧ Header s.heap.memory first n := by
  obtain ⟨first', address, block', facts⟩ := inv.liveBlock small block.2
  obtain rfl := blockAddress_injective block.1 block'.1 address
  exact facts

/-- The bytes of a block are in its frames. -/
theorem blockFrames_byte {first i : Nat} {n : BitVec 64} (inside : i < 24 + n.toNat) :
    BlockFrames first n ((4096 * first + i) / 4096) := by
  unfold BlockFrames mallocPages allocInfo blockSize
  omega

theorem HeapInv.liveLocked (inv : HeapInv start s) {first f : Nat} {n : BitVec 64}
    (live : LiveBlock s.live first n) (frame : BlockFrames first n f) :
    s.heap.frames.locked f = true :=
  (inv.locked f).mpr (Or.inr ⟨first, n, live, frame⟩)

theorem FreeRun.free {m : FrameMap} {first f : Nat} {n : BitVec 64}
    (run : FreeRun m (mallocPages n.toNat) first) (frame : BlockFrames first n f) :
    m.locked f = false := by
  obtain ⟨low, high⟩ := frame
  have place := (run (f - first) (by omega)).2
  rwa [Nat.add_sub_cancel' low] at place

theorem FreeRun.inside {m : FrameMap} {first : Nat} {n : BitVec 64}
    (run : FreeRun m (mallocPages n.toNat) first) : first + mallocPages n.toNat ≤ m.nFrames := by
  have positive := mallocPages_pos n.toNat
  have last := (run (mallocPages n.toNat - 1) (by omega)).1
  omega

/-- A block is added on frames that were free; what was in use keeps its bytes. -/
theorem HeapInv.add (inv : HeapInv start s) (small : start.nFrames ≤ 2 ^ 27) {first : Nat}
    {n : BitVec 64} {heap : KernelHeap} (few : n.toNat < 2 ^ 42)
    (run : FreeRun s.heap.frames (mallocPages n.toNat) first) (hint : HintSound heap.frames)
    (nFrames : heap.frames.nFrames = s.heap.frames.nFrames)
    (locked : ∀ f, heap.frames.locked f = true ↔ s.heap.frames.locked f = true ∨ BlockFrames first n f)
    (kept : KeptBytes s.heap.frames s.heap.memory heap.memory) (header : Header heap.memory first n) :
    HeapInv start ⟨heap, Function.update s.live (blockAddress first) (some n)⟩ := by
  have positive := mallocPages_pos n.toNat
  have inside := run.inside
  rw [inv.nFrames] at inside
  have bound : first < 2 ^ 27 := by omega
  have clash : ∀ {a k f}, LiveBlock s.live a k → BlockFrames a k f → ¬ BlockFrames first n f := by
    intro a k f live frame new
    have used := inv.liveLocked live frame
    rw [run.free new] at used
    cases used
  refine ⟨hint, nFrames.trans inv.nFrames, fun p k live => ?_, fun f => ?_, fun a k f live frame => ?_,
    fun a k b j f liveA liveB frameA frameB => ?_⟩
  · dsimp only at live
    by_cases same : p = blockAddress first
    · subst same
      rw [Function.update_self] at live
      cases live
      exact ⟨first, rfl, inside, few, header⟩
    · rw [Function.update_of_ne same] at live
      obtain ⟨a, rfl, old, inside', few', header'⟩ := inv.liveBlock small live
      refine ⟨a, rfl, inside', few', header'.congr fun i low => kept _ ?_ ?_⟩
      · have := old.1
        omega
      · exact inv.liveLocked old (blockFrames_byte (by omega))
  · rw [locked, inv.locked]
    constructor
    · rintro ((before | ⟨a, k, old, frame⟩) | new)
      · exact Or.inl before
      · refine Or.inr ⟨a, k, (liveBlock_insert bound _ _ _).mpr (Or.inr ⟨fun same => ?_, old⟩), frame⟩
        subst same
        exact clash old (f := a) ⟨Nat.le_refl _, Nat.lt_add_of_pos_right (mallocPages_pos _)⟩
          ⟨Nat.le_refl _, by omega⟩
      · exact Or.inr ⟨first, n, (liveBlock_insert bound _ _ _).mpr (Or.inl ⟨rfl, rfl⟩), new⟩
    · rintro (before | ⟨a, k, live, frame⟩)
      · exact Or.inl (Or.inl before)
      · rcases (liveBlock_insert bound _ _ _).mp live with ⟨rfl, rfl⟩ | ⟨-, old⟩
        · exact Or.inr frame
        · exact Or.inl (Or.inr ⟨a, k, old, frame⟩)
  · rcases (liveBlock_insert bound _ _ _).mp live with ⟨rfl, rfl⟩ | ⟨-, old⟩
    · by_contra before
      have used := (inv.locked f).mpr (Or.inl (by simpa using before))
      rw [run.free frame] at used
      cases used
    · exact inv.fresh a k f old frame
  · rcases (liveBlock_insert bound _ _ _).mp liveA with ⟨rfl, rfl⟩ | ⟨-, oldA⟩
    · rcases (liveBlock_insert bound _ _ _).mp liveB with ⟨rfl, rfl⟩ | ⟨-, oldB⟩
      · rfl
      · exact absurd frameA (clash oldB frameB)
    · rcases (liveBlock_insert bound _ _ _).mp liveB with ⟨rfl, rfl⟩ | ⟨-, oldB⟩
      · exact absurd frameB (clash oldA frameA)
      · exact inv.apart a k b j f oldA oldB frameA frameB

/-- `free` past its checks. -/
theorem free_of_magic {h : KernelHeap} {ptr : BitVec 64} (nonNull : ptr ≠ 0)
    (magic : h.memory.load (ptr - 24) 2 = allocMagic) :
    h.free ptr = { h with
      frames := releaseRun (h.memory.load (ptr - 24 + 8) 8)
        (pageCount (h.memory.load (ptr - 24 + 16) 8)) h.frames } := by
  unfold KernelHeap.free
  rw [if_neg nonNull]
  exact if_neg (not_not.mpr magic)

theorem kernelHeap_frames (frames : FrameMap) (memory : ByteMemory) :
    (KernelHeap.mk frames memory).frames = frames := rfl

/-- What `free` does with a block that has its header. -/
theorem free_header {h : KernelHeap} {first : Nat} {n : BitVec 64} (bound : first < 2 ^ 27)
    (few : n.toNat < 2 ^ 42) (header : Header h.memory first n) :
    (h.free (blockAddress first)).frames =
        releaseRun (BitVec.ofNat 64 first <<< 12) (mallocPages n.toNat) h.frames ∧
      (h.free (blockAddress first)).memory = h.memory := by
  obtain ⟨magic, ptr, size⟩ := header.loads
  have pages := @pageCount_toNat n (by unfold allocInfo; omega)
  rw [free_of_magic (blockAddress_ne_zero bound) ((blockAddress_sub first).symm ▸ magic),
    blockAddress_sub, ptr, size, pages]
  exact ⟨kernelHeap_frames _ _, rfl⟩

/-- A block is given back. -/
theorem HeapInv.remove (inv : HeapInv start s) (small : start.nFrames ≤ 2 ^ 27) {first : Nat}
    {n : BitVec 64} (live : LiveBlock s.live first n) :
    HeapInv start ⟨s.heap.free (blockAddress first), Function.update s.live (blockAddress first) none⟩ ∧
      ∀ f, (s.heap.free (blockAddress first)).frames.locked f = true ↔
        s.heap.frames.locked f = true ∧ ¬ BlockFrames first n f := by
  obtain ⟨inside, few, header⟩ := inv.header small live
  have bound := live.1
  obtain ⟨freed, kept⟩ := free_header bound few header
  have memory : s.heap.frames.nFrames ≤ 2 ^ 27 := by
    rw [inv.nFrames]
    exact small
  have locked : ∀ f, (s.heap.free (blockAddress first)).frames.locked f = true ↔
      s.heap.frames.locked f = true ∧ ¬ BlockFrames first n f := by
    intro f
    rw [freed]
    rw [← inv.nFrames] at inside
    exact releaseRun_run memory inside f
  refine ⟨⟨?_, ?_, fun p k there => ?_, fun f => ?_, fun a k f there frame => ?_,
    fun a k b j f liveA liveB frameA frameB => ?_⟩, locked⟩
  · rw [freed]
    exact inv.hint.releaseRun _ _
  · rw [freed]
    exact (releaseRun_nFrames _ _ _).trans inv.nFrames
  · dsimp only at there
    by_cases same : p = blockAddress first
    · rw [same, Function.update_self] at there
      cases there
    · rw [Function.update_of_ne same] at there
      dsimp only
      rw [kept]
      exact inv.block p k there
  · rw [locked, inv.locked]
    constructor
    · rintro ⟨before | ⟨a, k, old, frame⟩, notFreed⟩
      · exact Or.inl before
      · refine Or.inr ⟨a, k, (liveBlock_erase bound _ _).mpr ⟨fun same => ?_, old⟩, frame⟩
        subst same
        obtain rfl := Option.some.inj (old.2.symm.trans live.2)
        exact notFreed frame
    · rintro (before | ⟨a, k, there, frame⟩)
      · refine ⟨Or.inl before, fun gone => ?_⟩
        have unlocked := inv.fresh first n f live gone
        rw [before] at unlocked
        cases unlocked
      · obtain ⟨other, old⟩ := (liveBlock_erase bound _ _).mp there
        refine ⟨Or.inr ⟨a, k, old, frame⟩, fun gone => other ?_⟩
        exact inv.apart a k first n f old live frame gone
  · exact inv.fresh a k f ((liveBlock_erase bound _ _).mp there).2 frame
  · exact inv.apart a k b j f ((liveBlock_erase bound _ _).mp liveA).2
      ((liveBlock_erase bound _ _).mp liveB).2 frameA frameB

end Voxel.Proofs
