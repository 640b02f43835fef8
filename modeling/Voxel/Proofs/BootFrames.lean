/-
Module: Voxel.Proofs.BootFrames
Layer: Proofs
Purpose: The frames that are free after `mmu_init`. The marker releases the page in which an available entry
  begins, also if the entry does not begin at its start; all other pages that it releases are inside the
  entry.
Trusted boundary: none
Main exports: markLoop_mem_iff, marked_page_iff, mmuInitBoot_free_iff, Usable, WholeFrame, FirstPagesWhole,
  boot_frames_whole_iff
-/
import Voxel.Kernel.Multiboot
import Voxel.Proofs.AllocFailure
import Voxel.Proofs.FrameExhaustion

namespace Voxel.Proofs

open Voxel.Kernel

/-! ## Pages -/

/-- The mask cuts an address to the start of its page. -/
theorem pageSizeMask_toNat (a : BitVec 64) : (a &&& pageSizeMask).toNat = 4096 * (a.toNat / 4096) := by
  have bits : ∀ i < 64, pageSizeMask.getLsbD i = decide (12 ≤ i) := by decide
  have shifted : a &&& pageSizeMask = a >>> 12 <<< 12 := by
    refine BitVec.eq_of_getLsbD_eq fun i inside => ?_
    rw [BitVec.getLsbD_and, bits i inside, BitVec.getLsbD_shiftLeft, BitVec.getLsbD_ushiftRight]
    by_cases low : i < 12
    · simp [low]
    · have sum : 12 + (i - 12) = i := by omega
      simp [low, inside, sum, Nat.le_of_not_lt low]
  have bound := a.isLt
  rw [shifted, BitVec.toNat_shiftLeft, BitVec.toNat_ushiftRight, Nat.shiftLeft_eq, Nat.shiftRight_eq_div_pow]
  omega

/-- The pages of an entry from its first one on. -/
def MemoryMapEntry.pages (entry : MemoryMapEntry) : Nat := entry.len.toNat / 4096

/-- The end of the whole pages of an entry is an address. -/
def MemoryMapEntry.Ends (entry : MemoryMapEntry) : Prop :=
  entry.addr.toNat + 4096 * (MemoryMapEntry.pages entry) < 2 ^ 64

/-! ## The marker -/

/-- Page after page up to the end. -/
theorem markLoop_mem_iff {rounds count : Nat} {base stop : BitVec 64}
    (stops : base.toNat + 4096 * count = stop.toNat) (enough : count ≤ rounds) (a : BitVec 64) :
    a ∈ markLoop stop rounds base ↔ ∃ k < count, a = base + BitVec.ofNat 64 (4096 * k) := by
  have bound := stop.isLt
  induction rounds generalizing base count with
  | zero =>
      obtain rfl : count = 0 := Nat.le_zero.mp enough
      exact iff_of_false List.not_mem_nil fun found => Nat.not_lt_zero _ found.choose_spec.1
  | succ rounds inductionHypothesis =>
      rw [markLoop]
      cases count with
      | zero =>
          have atEnd : ¬base < stop := by bv_omega
          rw [if_neg atEnd]
          exact iff_of_false List.not_mem_nil fun found => Nat.not_lt_zero _ found.choose_spec.1
      | succ count =>
          have below : base < stop := by bv_omega
          have next : (base + 0x1000).toNat = base.toNat + 4096 := by bv_omega
          have rest := @inductionHypothesis count (base + 0x1000) (by omega) (by omega)
          rw [if_pos below, List.mem_cons]
          refine (or_congr_right rest).trans ?_
          constructor
          · rintro (rfl | ⟨k, inside, rfl⟩)
            · exact ⟨0, Nat.succ_pos count, (BitVec.add_zero _).symm⟩
            · refine ⟨k + 1, Nat.succ_lt_succ inside, ?_⟩
              bv_omega
          · rintro ⟨k, inside, rfl⟩
            cases k with
            | zero => exact .inl (BitVec.add_zero _)
            | succ k =>
                refine .inr ⟨k, Nat.lt_of_succ_lt_succ inside, ?_⟩
                bv_omega

/-- A loop that begins at its end or behind it. -/
theorem markLoop_empty {rounds : Nat} {base stop : BitVec 64} (atEnd : ¬base < stop) :
    markLoop stop rounds base = [] := by
  cases rounds with
  | zero => rfl
  | succ rounds => rw [markLoop, if_neg atEnd]

/-- An available entry releases as many pages as its length has, from the one on in which it begins. -/
theorem marked_page_iff (entry : MemoryMapEntry) (f : Nat) :
    (∃ a ∈ entry.marked, a.toNat / 4096 = f) ↔
      entry.type = multibootMemoryAvailable ∧ MemoryMapEntry.Ends entry ∧
        ∃ k < MemoryMapEntry.pages entry, f = entry.addr.toNat / 4096 + k := by
  unfold MemoryMapEntry.marked
  by_cases available : entry.type = multibootMemoryAvailable
  · rw [if_pos available, and_iff_right available]
    have length := pageSizeMask_toNat entry.len
    have lengthBound := entry.len.isLt
    have start := entry.addr.isLt
    unfold MemoryMapEntry.Ends MemoryMapEntry.pages
    by_cases ends : entry.addr.toNat + 4096 * (entry.len.toNat / 4096) < 2 ^ 64
    · rw [and_iff_right ends]
      have stop : entry.addr.toNat + 4096 * (entry.len.toNat / 4096) =
          (entry.addr + (entry.len &&& pageSizeMask)).toNat := by
        rw [BitVec.toNat_add, length, Nat.mod_eq_of_lt ends]
      have place : ∀ k < entry.len.toNat / 4096,
          (entry.addr + BitVec.ofNat 64 (4096 * k)).toNat / 4096 = entry.addr.toNat / 4096 + k := by
        intro k inside
        rw [BitVec.toNat_add, BitVec.toNat_ofNat]
        omega
      constructor
      · rintro ⟨a, member, rfl⟩
        obtain ⟨k, inside, rfl⟩ := (markLoop_mem_iff stop (by omega) a).mp member
        exact ⟨k, inside, place k inside⟩
      · rintro ⟨k, inside, rfl⟩
        exact ⟨_, (markLoop_mem_iff stop (by omega) _).mpr ⟨k, inside, rfl⟩, place k inside⟩
    · have atEnd : ¬entry.addr < entry.addr + (entry.len &&& pageSizeMask) := by
        rw [BitVec.lt_def, BitVec.toNat_add, length]
        omega
      rw [markLoop_empty atEnd]
      exact iff_of_false (fun found => List.not_mem_nil found.choose_spec.1) fun both => ends both.1
  · rw [if_neg available]
    exact iff_of_false (fun found => List.not_mem_nil found.choose_spec.1) fun both => available both.1

/-- The pages that the marker releases are those of the entries. -/
theorem markerPages_iff (multiboot : Multiboot) (f : Nat) :
    (∃ a ∈ multibootMemoryMarker multiboot, a.toNat / 4096 = f) ↔
      ∃ entry ∈ multiboot.mmap, entry.type = multibootMemoryAvailable ∧ MemoryMapEntry.Ends entry ∧
        ∃ k < MemoryMapEntry.pages entry, f = entry.addr.toNat / 4096 + k := by
  simp only [← marked_page_iff]
  unfold multibootMemoryMarker
  simp only [List.mem_flatMap]
  constructor
  · rintro ⟨a, ⟨entry, member, marked⟩, page⟩
    exact ⟨entry, member, a, marked, page⟩
  · rintro ⟨entry, member, a, marked, page⟩
    exact ⟨a, ⟨entry, member, marked⟩, page⟩

/-! ## mmu_init -/

/-- A release only unlocks the frames that it names. -/
theorem releases_locked_iff (marked : List (BitVec 64)) (m : FrameMap) (f : Nat) :
    (marked.foldl releaseAddress m).nFrames = m.nFrames ∧
      ((marked.foldl releaseAddress m).locked f = true ↔
        m.locked f = true ∧ ¬(f < m.nFrames ∧ ∃ a ∈ marked, a.toNat / 4096 = f)) := by
  induction marked generalizing m with
  | nil => exact ⟨rfl, by simp⟩
  | cons a marked inductionHypothesis =>
      obtain ⟨size, locked⟩ := inductionHypothesis (releaseAddress m a)
      have sameSize : (releaseAddress m a).nFrames = m.nFrames := mmuReleaseFrame_nFrames _ _
      rw [sameSize] at size locked
      refine ⟨size, locked.trans ?_⟩
      rw [releaseAddress, mmuReleaseFrame_locked_iff]
      simp only [List.mem_cons, exists_eq_or_imp]
      rw [and_assoc, ← not_or, ← and_or_left]

/-- The pages below a limit are locked. -/
theorem lockRun_below {m : FrameMap} (small : m.nFrames ≤ 2 ^ 52) (limit f : Nat) :
    (lockRun 0 ((limit + 4095) / 4096) m).locked f = true ↔
      m.locked f = true ∨ f < m.nFrames ∧ 4096 * f < limit := by
  have address : ∀ i : Nat, ((0 : BitVec 64) + BitVec.ofNat 64 (4096 * i)).toNat = 4096 * i % 2 ^ 64 := by
    intro i
    exact (congrArg BitVec.toNat (BitVec.zero_add _)).trans (BitVec.toNat_ofNat ..)
  rw [lockRun_locked_iff]
  refine or_congr_right (and_congr_right fun inside => ?_)
  constructor
  · rintro ⟨i, before, rfl⟩
    rw [address]
    omega
  · intro before
    refine ⟨f, by omega, ?_⟩
    rw [address]
    omega

/-- The frames that the rest of `mmu_init` takes stay locked. -/
theorem allocations_lock (taken : Nat) (m : FrameMap) {f : Nat} (locked : m.locked f = true) :
    ((List.replicate taken FrameOp.allocateFrame).foldl FrameOp.apply m).locked f = true := by
  induction taken generalizing m with
  | zero => exact locked
  | succ taken inductionHypothesis =>
      rw [List.replicate_succ, List.foldl_cons]
      exact inductionHypothesis _ ((allocateFrameCall_locks m).2 f locked)

section Boot

variable (multiboot : Multiboot) (imageEnd : BitVec 32)

/-- `n_frames`. -/
def bootFrames : Nat := ((multibootInitialize multiboot imageEnd).1 >>> 12).toNat

/-- The end of the kernel image, of what the boot loader has put behind it, and of the bitmap. -/
def bootEnd : Nat :=
  (pageCeil (multibootInitialize multiboot imageEnd).2).toNat +
    (frameBytes ((multibootInitialize multiboot imageEnd).1 >>> 12)).toNat

/-- The frames that are free before the rest of `mmu_init` takes some: released by the marker, and not locked
again. -/
theorem mmuInitBoot_free_iff (f : Nat) :
    (mmuInitBoot multiboot imageEnd 0).locked f = false ↔
      (f < bootFrames multiboot imageEnd ∧ ∃ a ∈ multibootMemoryMarker multiboot, a.toNat / 4096 = f) ∧
        bootEnd multiboot imageEnd ≤ 4096 * f := by
  have run : (mmuInitBoot multiboot imageEnd 0).locked f = true ↔
      ¬(f < bootFrames multiboot imageEnd ∧ ∃ a ∈ multibootMemoryMarker multiboot, a.toNat / 4096 = f) ∨
        4096 * f < bootEnd multiboot imageEnd := by
    unfold mmuInitBoot mmuInitFrames bootFrames bootEnd
    dsimp only [List.replicate_zero, List.foldl_nil]
    obtain ⟨size, locked⟩ := releases_locked_iff (multibootMemoryMarker multiboot)
      { nFrames := ((multibootInitialize multiboot imageEnd).1 >>> 12).toNat
        locked := fun _ => true, lowestAvailable := 0 } f
    have small : ((multibootInitialize multiboot imageEnd).1 >>> 12).toNat ≤ 2 ^ 52 := by
      have bound := (multibootInitialize multiboot imageEnd).1.isLt
      rw [BitVec.toNat_ushiftRight, Nat.shiftRight_eq_div_pow]
      omega
    rw [lockRun_below (by rw [size]; exact small), size, locked, and_iff_right rfl]
    dsimp only
    by_cases inside : f < ((multibootInitialize multiboot imageEnd).1 >>> 12).toNat
    · rw [and_iff_right inside (b := 4096 * f < _)]
    · exact iff_of_true (.inl fun both => inside both.1) (.inl fun both => inside both.1)
  rw [← Bool.not_eq_true, run, not_or, not_not, Nat.not_lt]

/-- The frames that are free after `mmu_init` are among those. -/
theorem mmuInitBoot_free (taken : Nat) {f : Nat}
    (free : (mmuInitBoot multiboot imageEnd taken).locked f = false) :
    (mmuInitBoot multiboot imageEnd 0).locked f = false := by
  rw [← Bool.not_eq_true] at free ⊢
  exact fun locked => free (allocations_lock taken _ locked)

end Boot

/-! ## Whole frames -/

/-- A byte of an available entry. -/
def Usable (mmap : List MemoryMapEntry) (a : Nat) : Prop :=
  ∃ entry ∈ mmap, entry.type = multibootMemoryAvailable ∧ entry.addr.toNat ≤ a ∧
    a < entry.addr.toNat + entry.len.toNat

/-- A frame inside of available entries. -/
def WholeFrame (mmap : List MemoryMapEntry) (f : Nat) : Prop :=
  ∀ a, 4096 * f ≤ a → a < 4096 * f + 4096 → Usable mmap a

/-- Every frame that is free after the loops of `mmu_init`, however many of them it takes then, is usable
memory behind the kernel and its bitmap. -/
def BootFramesWhole (multiboot : Multiboot) (imageEnd : BitVec 32) : Prop :=
  ∀ taken f, (mmuInitBoot multiboot imageEnd taken).locked f = false →
    WholeFrame multiboot.mmap f ∧ f < bootFrames multiboot imageEnd ∧ bootEnd multiboot imageEnd ≤ 4096 * f

/-- If the first page of an available entry is released and not locked again, then the part of it in front of
the entry is usable, too. -/
def FirstPagesWhole (multiboot : Multiboot) (imageEnd : BitVec 32) : Prop :=
  ∀ entry ∈ multiboot.mmap, entry.type = multibootMemoryAvailable → MemoryMapEntry.Ends entry →
    0 < MemoryMapEntry.pages entry → entry.addr.toNat / 4096 < bootFrames multiboot imageEnd →
      bootEnd multiboot imageEnd ≤ 4096 * (entry.addr.toNat / 4096) →
        ∀ a, 4096 * (entry.addr.toNat / 4096) ≤ a → a < entry.addr.toNat → Usable multiboot.mmap a

/-- For every memory map, the frames that `mmu_init` leaves free are whole frames of usable memory behind the
kernel and its bitmap exactly if no available entry begins inside of a page that it releases and whose other
part is not usable. -/
theorem boot_frames_whole_iff (multiboot : Multiboot) (imageEnd : BitVec 32) :
    BootFramesWhole multiboot imageEnd ↔ FirstPagesWhole multiboot imageEnd := by
  constructor
  · intro whole entry member available ends some_ inside behind a low high
    have free : (mmuInitBoot multiboot imageEnd 0).locked (entry.addr.toNat / 4096) = false :=
      (mmuInitBoot_free_iff multiboot imageEnd _).mpr ⟨⟨inside, (markerPages_iff multiboot _).mpr
        ⟨entry, member, available, ends, 0, some_, rfl⟩⟩, behind⟩
    exact (whole 0 _ free).1 a low (by omega)
  · intro firstPages taken f free
    obtain ⟨⟨inside, marked⟩, behind⟩ :=
      (mmuInitBoot_free_iff multiboot imageEnd f).mp (mmuInitBoot_free multiboot imageEnd taken free)
    refine ⟨fun a low high => ?_, inside, behind⟩
    obtain ⟨entry, member, available, ends, k, below, rfl⟩ := (markerPages_iff multiboot f).mp marked
    by_cases before : a < entry.addr.toNat
    · -- only the first page begins in front of the entry
      obtain rfl : k = 0 := by omega
      exact firstPages entry member available ends below inside behind a low before
    · unfold MemoryMapEntry.pages at below
      exact ⟨entry, member, available, Nat.le_of_not_lt before, by omega⟩

/-- Memory from 16 MiB and half a page on. -/
def unalignedMap : Multiboot where
  flags := 0x048
  mmapAddr := 0x9000
  mmapLength := 24
  mmap := [{ addr := 0x1000800, len := 0x4000, type := multibootMemoryAvailable }]
  modEnds := []

/-- The frame at 16 MiB is free, and its first half is no usable memory. -/
theorem boot_frames_half_frame : ¬BootFramesWhole unalignedMap 0x200000 := by
  intro whole
  have free : (mmuInitBoot unalignedMap 0x200000 0).locked 0x1000 = false := by
    rw [mmuInitBoot_free_iff, markerPages_iff]
    refine ⟨⟨by decide, _, List.mem_singleton.mpr rfl, rfl, ?_, 0, ?_, by decide⟩, by decide⟩
    · unfold MemoryMapEntry.Ends MemoryMapEntry.pages
      decide
    · unfold MemoryMapEntry.pages
      decide
  obtain ⟨entry, member, -, low, -⟩ := (whole 0 0x1000 free).1 0x1000000 (by decide) (by decide)
  cases List.mem_singleton.mp member
  exact absurd low (by decide)

end Voxel.Proofs
