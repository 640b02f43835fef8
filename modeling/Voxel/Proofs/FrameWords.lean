/-
Module: Voxel.Proofs.FrameWords
Layer: Proofs
Purpose: The words of the frame bitmap refine the bitmap frame by frame, call by call; and the search for one
  frame, which goes word by word, against the search for a run of one, which goes frame by frame.
Trusted boundary: none
Main exports: mmuLockFrameWord_map, mmuReleaseFrameWord_map, mmuProbeFrameWord_map, mmuRequestFrameWord_map,
  mmuRequestFramesWord_map, request_frame_agrees_iff
-/
import Mathlib.Algebra.Group.Nat.Defs
import Mathlib.Data.List.Find
import Voxel.Kernel.FrameRuns
import Voxel.Lib.Loop
import Voxel.Proofs.FirstFit

namespace Voxel.Proofs

open Voxel.Lib Voxel.Kernel

/-! ## Bits -/

/-- A bit mask picks its bit. -/
theorem and_bitMask_eq_zero (word : BitVec 32) {offset : Nat} (inside : offset < 32) :
    word &&& bitMask offset = 0 ↔ word.getLsbD offset = false := by
  have masked : word &&& bitMask offset =
      if word.getLsbD offset then BitVec.twoPow 32 offset else 0 := BitVec.and_twoPow word offset
  rw [masked]
  cases word.getLsbD offset with
  | false => exact iff_of_true rfl rfl
  | true =>
      refine iff_of_false (fun zero => ?_) (by decide)
      have bit := congrArg (·.getLsbD offset) zero
      simp [inside] at bit

theorem getLsbD_bitMask {offset : Nat} (inside : offset < 32) (k : Nat) :
    (bitMask offset).getLsbD k = decide (offset = k) := by
  have bit : (bitMask offset).getLsbD k = (decide (offset < 32) && decide (offset = k)) :=
    BitVec.getLsbD_twoPow offset k
  rw [bit, decide_eq_true inside, Bool.true_and]

/-- The word of a frame. -/
theorem bitIndex_toNat (frame : BitVec 64) : (bitIndex frame).toNat = frame.toNat / 32 := by
  rw [bitIndex, BitVec.toNat_ushiftRight, Nat.shiftRight_eq_div_pow]

/-- Its bit there. -/
theorem bitOffset_toNat (frame : BitVec 64) : (bitOffset frame).toNat = frame.toNat % 32 := by
  rw [bitOffset, BitVec.toNat_and]
  exact Nat.and_two_pow_sub_one_eq_mod frame.toNat 5

theorem frameNumber_toNat (frameAddr : BitVec 64) : (frameAddr >>> 12).toNat = frameAddr.toNat / 4096 := by
  rw [BitVec.toNat_ushiftRight, Nat.shiftRight_eq_div_pow]

/-- The bound of `mmu_lock_frame`, as long as the size of the memory is a number of 64 bits. -/
theorem frameAddr_lt_iff {b : FrameWords} (small : b.nFrames.toNat < 2 ^ 52) (frameAddr : BitVec 64) :
    frameAddr < b.nFrames * 0x1000 ↔ frameAddr.toNat / 4096 < b.map.nFrames := by
  rw [BitVec.lt_def, BitVec.toNat_mul]
  change frameAddr.toNat < b.nFrames.toNat * 4096 % 2 ^ 64 ↔ frameAddr.toNat / 4096 < b.nFrames.toNat
  omega

/-- A word update at the bit of a frame is an update of the frame. -/
theorem FrameWords.map_update (frames : Nat → BitVec 32) (frame : Nat) (word : BitVec 32) (value : Bool)
    (bits : ∀ k < 32, word.getLsbD k = if k = frame % 32 then value else (frames (frame / 32)).getLsbD k) :
    (fun f => (Function.update frames (frame / 32) word (f / 32)).getLsbD (f % 32)) =
      Function.update (fun f => (frames (f / 32)).getLsbD (f % 32)) frame value := by
  funext f
  by_cases same : f = frame
  · rw [same, Function.update_self, Function.update_self, bits _ (Nat.mod_lt _ (by decide)), if_pos rfl]
  · rw [Function.update_of_ne same]
    by_cases sameWord : f / 32 = frame / 32
    · rw [sameWord, Function.update_self, bits _ (Nat.mod_lt _ (by decide)), if_neg (by omega)]
    · rw [Function.update_of_ne sameWord]

/-! ## The calls -/

/-- `mmu_lock_frame` sets the bit of its frame. -/
theorem mmuLockFrameWord_map {b : FrameWords} (small : b.nFrames.toNat < 2 ^ 52) (frameAddr : BitVec 64) :
    (mmuLockFrameWord b frameAddr).map = lockAddress b.map frameAddr := by
  unfold mmuLockFrameWord lockAddress mmuLockFrame
  by_cases inside : frameAddr < b.nFrames * 0x1000
  · rw [if_pos inside, if_pos ((frameAddr_lt_iff small frameAddr).mp inside)]
    unfold FrameWords.map
    dsimp only
    rw [bitIndex_toNat, bitOffset_toNat, frameNumber_toNat, FrameWords.map_update _ _ _ true]
    intro k bound
    rw [BitVec.getLsbD_or, getLsbD_bitMask (Nat.mod_lt _ (by decide))]
    by_cases same : k = frameAddr.toNat / 4096 % 32
    · rw [if_pos same, decide_eq_true same.symm, Bool.or_true]
    · rw [if_neg same, decide_eq_false (Ne.symm same), Bool.or_false]
  · rw [if_neg inside, if_neg (fun bound => inside ((frameAddr_lt_iff small frameAddr).mpr bound))]

/-- `mmu_release_frame` clears it, and lowers the hint. -/
theorem mmuReleaseFrameWord_map {b : FrameWords} (small : b.nFrames.toNat < 2 ^ 52)
    (frameAddr : BitVec 64) : (mmuReleaseFrameWord b frameAddr).map = releaseAddress b.map frameAddr := by
  unfold mmuReleaseFrameWord releaseAddress mmuReleaseFrame
  by_cases inside : frameAddr < b.nFrames * 0x1000
  · rw [if_pos inside, if_pos ((frameAddr_lt_iff small frameAddr).mp inside)]
    unfold FrameWords.map
    dsimp only
    rw [bitIndex_toNat, bitOffset_toNat, frameNumber_toNat, FrameWords.map_update _ _ _ false,
      apply_ite BitVec.toNat]
    · simp only [BitVec.lt_def, frameNumber_toNat]
    intro k bound
    rw [BitVec.getLsbD_and, BitVec.getLsbD_not, getLsbD_bitMask (Nat.mod_lt _ (by decide)),
      decide_eq_true bound, Bool.true_and]
    by_cases same : k = frameAddr.toNat / 4096 % 32
    · rw [if_pos same, decide_eq_true same.symm, Bool.not_true, Bool.and_false]
    · rw [if_neg same, decide_eq_false (Ne.symm same), Bool.not_false, Bool.and_true]
  · rw [if_neg inside, if_neg (fun bound => inside ((frameAddr_lt_iff small frameAddr).mpr bound))]

/-- `mmu_probe_frame` reads it. -/
theorem mmuProbeFrameWord_map {b : FrameWords} (small : b.nFrames.toNat < 2 ^ 52) (frameAddr : BitVec 64) :
    mmuProbeFrameWord b frameAddr = mmuProbeFrame b.map (frameAddr.toNat / 4096) := by
  unfold mmuProbeFrameWord mmuProbeFrame
  have bound := frameAddr_lt_iff small frameAddr
  rw [BitVec.lt_def] at bound
  change (if (b.nFrames * 0x1000).toNat ≤ frameAddr.toNat then _ else _) = _
  by_cases outside : (b.nFrames * 0x1000).toNat ≤ frameAddr.toNat
  · have past : b.map.nFrames ≤ frameAddr.toNat / 4096 :=
      Nat.le_of_not_lt fun inside => Nat.not_lt.mpr outside (bound.mpr inside)
    rw [if_pos outside, if_pos past]
  · have inside : ¬ b.map.nFrames ≤ frameAddr.toNat / 4096 :=
      Nat.not_le.mpr (bound.mp (Nat.not_le.mp outside))
    rw [if_neg outside, if_neg inside]
    dsimp only
    rw [bitIndex_toNat, bitOffset_toNat, frameNumber_toNat]
    have bit := and_bitMask_eq_zero (b.frames (frameAddr.toNat / 4096 / 32))
      (Nat.mod_lt (frameAddr.toNat / 4096) (show 32 > 0 by decide))
    change _ = (b.frames (frameAddr.toNat / 4096 / 32)).getLsbD (frameAddr.toNat / 4096 % 32)
    rw [Bool.eq_iff_iff, decide_eq_true_iff, ne_eq, bit, Bool.not_eq_false]

/-- `mmu_request_frames` finds the same run, if no frame number of its search leaves the 64 bits. -/
theorem mmuRequestFramesWord_map {b : FrameWords} {n : Nat} (small : b.nFrames.toNat + n ≤ 2 ^ 52)
    (positive : 0 < n) : mmuRequestFramesWord b n = frameResult (mmuRequestFrames b.map n) := by
  have probes : ∀ i < b.nFrames.toNat, ∀ j < n,
      mmuProbeFrameWord b (0x1000 * BitVec.ofNat 64 (i + j)) = mmuProbeFrame b.map (i + j) := by
    intro i low j inside
    rw [mmuProbeFrameWord_map (by omega), BitVec.toNat_mul, BitVec.toNat_ofNat]
    change mmuProbeFrame b.map (4096 * ((i + j) % 2 ^ 64) % 2 ^ 64 / 4096) = _
    congr 1
    omega
  unfold mmuRequestFramesWord mmuRequestFrames
  refine congrArg frameResult (List.find?_congr fun i member => ?_)
  rw [List.mem_range'_1] at member
  rw [Bool.eq_iff_iff, List.all_eq_true, List.all_eq_true]
  refine forall₂_congr fun j inside => ?_
  rw [probes i (by omega) j (List.mem_range.mp inside)]

/-- The inner loop finds the first clear bit; a word that the test passes over has none. -/
theorem firstClearBit_eq (word : BitVec 32) :
    (if word ≠ 0xFFFFFFFF then firstClearBit word else none) =
      (List.range 32).find? fun j => !word.getLsbD j := by
  have bits : firstClearBit word = (List.range 32).find? fun j => !word.getLsbD j := by
    refine List.find?_congr fun j inside => ?_
    rw [Bool.eq_iff_iff, decide_eq_true_iff, and_bitMask_eq_zero word (List.mem_range.mp inside),
      Bool.not_eq_true']
  by_cases full : word = 0xFFFFFFFF
  · rw [if_neg (fun other => other full), eq_comm, List.find?_eq_none]
    intro j inside
    rw [full, Bool.not_eq_true', Bool.not_eq_false]
    exact BitVec.getLsbD_allOnes.trans (decide_eq_true (List.mem_range.mp inside))
  · rw [if_pos full, bits]

/-- The word of a frame and its bit there, put together. -/
theorem frame_of_word (i j : Nat) :
    (BitVec.ofNat 64 i <<< 5) + BitVec.ofNat 64 j = BitVec.ofNat 64 (32 * i + j) := by
  apply BitVec.eq_of_toNat_eq
  rw [BitVec.toNat_add, BitVec.toNat_shiftLeft, BitVec.toNat_ofNat, BitVec.toNat_ofNat, BitVec.toNat_ofNat,
    Nat.shiftLeft_eq]
  omega

/-- The search of `mmu_request_frame` through the words is a search through the frames. -/
theorem wordSearch_eq (b : FrameWords) (start count : Nat) :
    ((List.range' start count).findSome? fun i =>
      if b.frames i ≠ 0xFFFFFFFF then
        (firstClearBit (b.frames i)).map fun j => (BitVec.ofNat 64 i <<< 5) + BitVec.ofNat 64 j
      else none) =
      ((List.range' (32 * start) (32 * count)).find? fun f => !b.map.locked f).map (BitVec.ofNat 64) := by
  rw [← findSome?_blocks, List.map_findSome?]
  congr 1
  funext i
  -- the two searches within word `i`
  have sameBits : ((List.range 32).find? fun j => !b.map.locked (32 * i + j)) =
      (List.range 32).find? fun j => !(b.frames i).getLsbD j := by
    refine List.find?_congr fun j inside => ?_
    have low := List.mem_range.mp inside
    change (!(b.frames ((32 * i + j) / 32)).getLsbD ((32 * i + j) % 32)) = _
    rw [show (32 * i + j) / 32 = i by omega, show (32 * i + j) % 32 = j by omega]
  rw [Function.comp_apply, Option.map_map, sameBits, ← firstClearBit_eq]
  split
  · refine congrArg (fun f => Option.map f _) (funext fun j => ?_)
    exact frame_of_word i j
  · rfl

/-- `mmu_request_frame` finds the same frame and leaves the same state. -/
theorem mmuRequestFrameWord_map {b : FrameWords} (small : b.nFrames.toNat < 2 ^ 52) :
    (mmuRequestFrameWord b).1 = frameResult ((mmuRequestFrame b.map).map Prod.fst) ∧
      (mmuRequestFrameWord b).2.map = ((mmuRequestFrame b.map).map Prod.snd).getD b.map := by
  unfold mmuRequestFrameWord mmuRequestFrame
  dsimp only
  rw [wordSearch_eq, bitIndex_toNat, bitIndex_toNat, Nat.mul_sub]
  have lowest : b.map.lowestAvailable = b.lowestAvailable.toNat := rfl
  have frames : b.map.nFrames = b.nFrames.toNat := rfl
  rw [lowest, frames]
  cases found : (List.range' (32 * (b.lowestAvailable.toNat / 32))
      (32 * (b.nFrames.toNat / 32) - 32 * (b.lowestAvailable.toNat / 32))).find? fun f => !b.map.locked f with
  | none => exact ⟨rfl, rfl⟩
  | some f =>
      have member := List.mem_of_find?_eq_some found
      rw [List.mem_range'_1] at member
      have next : (BitVec.ofNat 64 f + 1).toNat = f + 1 := by
        rw [BitVec.toNat_add, BitVec.toNat_ofNat]
        change (f % 2 ^ 64 + 1) % 2 ^ 64 = f + 1
        omega
      refine ⟨rfl, ?_⟩
      change FrameMap.mk b.nFrames.toNat b.map.locked (BitVec.ofNat 64 f + 1).toNat = _
      rw [next]
      rfl

/-! ## The search for one frame -/

/-- A run of one frame is a free frame. -/
theorem freeRun_one (m : FrameMap) (f : Nat) : FreeRun m 1 f ↔ f < m.nFrames ∧ m.locked f = false := by
  constructor
  · intro run
    exact run 0 Nat.one_pos
  · intro free j inside
    rw [Nat.lt_one_iff.mp inside, Nat.add_zero]
    exact free

/-- `mmu_request_frame` takes a frame exactly if it is the first free one and belongs to a whole word. -/
theorem mmuRequestFrame_least {m : FrameMap} (hint : HintSound m) (f : Nat) :
    (mmuRequestFrame m).map Prod.fst = some f ↔
      IsLeast {k | FreeRun m 1 k} f ∧ f < 32 * (m.nFrames / 32) := by
  have search : (mmuRequestFrame m).map Prod.fst =
      (List.range' (32 * (m.lowestAvailable / 32))
        (32 * (m.nFrames / 32) - 32 * (m.lowestAvailable / 32))).find? fun f => !m.locked f := by
    unfold mmuRequestFrame
    dsimp only
    cases (List.range' (32 * (m.lowestAvailable / 32))
      (32 * (m.nFrames / 32) - 32 * (m.lowestAvailable / 32))).find? fun f => !m.locked f <;> rfl
  -- no frame below the hint is free
  have above : ∀ {k}, m.locked k = false → m.lowestAvailable ≤ k := by
    intro k free
    by_contra low
    rw [hint.below k (by omega)] at free
    cases free
  rw [search, List.find?_range'_eq_some, List.mem_range'_1, Bool.not_eq_true']
  constructor
  · rintro ⟨free, inside, earlier⟩
    refine ⟨⟨(freeRun_one m f).mpr ⟨by omega, free⟩, fun k run => ?_⟩, by omega⟩
    have freeToo := ((freeRun_one m k).mp run).2
    have high := above freeToo
    by_contra smaller
    have rejected := earlier k (by omega) (by omega)
    rw [freeToo] at rejected
    cases rejected
  · rintro ⟨⟨run, least⟩, whole⟩
    have free := ((freeRun_one m f).mp run).2
    have high := above free
    refine ⟨free, by omega, fun k _ smaller => ?_⟩
    by_contra open_
    have freeToo : m.locked k = false := by simpa using open_
    have bound := least ((freeRun_one m k).mpr ⟨by omega, freeToo⟩)
    omega

/-- Frame numbers are told apart, and from `(uintptr_t) -1`. -/
theorem frameResult_inj {first second : Option Nat} (firstSmall : ∀ f, first = some f → f < 2 ^ 52)
    (secondSmall : ∀ f, second = some f → f < 2 ^ 52) :
    frameResult first = frameResult second ↔ first = second := by
  have number : ∀ {f : Nat}, f < 2 ^ 52 → (BitVec.ofNat 64 f).toNat = f := by
    intro f small
    rw [BitVec.toNat_ofNat]
    omega
  have failed : ∀ {f : Nat}, f < 2 ^ 52 → BitVec.ofNat 64 f ≠ noFrame := by
    intro f small same
    have value := number small
    rw [same] at value
    change 2 ^ 64 - 1 = f at value
    omega
  refine ⟨fun same => ?_, fun same => by rw [same]⟩
  cases first with
  | none =>
      cases second with
      | none => rfl
      | some g => exact absurd same.symm (failed (secondSmall g rfl))
  | some f =>
      cases second with
      | none => exact absurd same (failed (firstSmall f rfl))
      | some g =>
          have values := congrArg BitVec.toNat same
          change (BitVec.ofNat 64 f).toNat = (BitVec.ofNat 64 g).toNat at values
          rw [number (firstSmall f rfl), number (secondSmall g rfl)] at values
          rw [values]

/-- The two searches give the same result exactly if no frame is free or the first free one belongs to a
word that lies in the bitmap as a whole. -/
theorem request_frame_agrees_iff {b : FrameWords} (hint : HintSound b.map) :
    (mmuRequestFrameWord b).1 = mmuRequestFramesWord b 1 ↔
      ∀ f, IsLeast {k | k < b.nFrames.toNat ∧ b.map.locked k = false} f →
        f < 32 * (b.nFrames.toNat / 32) := by
  have small : b.nFrames.toNat < 2 ^ 52 := hint.small
  have free : {k | k < b.nFrames.toNat ∧ b.map.locked k = false} = {k | FreeRun b.map 1 k} := by
    ext k
    exact (freeRun_one b.map k).symm
  obtain ⟨found, none⟩ := request_frames_least hint Nat.one_pos
  have inside : ∀ {f}, IsLeast {k | FreeRun b.map 1 k} f → f < 2 ^ 52 :=
    fun least => Nat.lt_trans ((freeRun_one b.map _).mp least.1).1 small
  rw [free, (mmuRequestFrameWord_map small).1, mmuRequestFramesWord_map (by omega) Nat.one_pos,
    frameResult_inj (fun f taken => inside ((mmuRequestFrame_least hint f).mp taken).1)
      (fun f taken => inside ((found f).mp taken))]
  constructor
  · intro agree f least
    rw [(found f).mpr least] at agree
    exact ((mmuRequestFrame_least hint f).mp agree).2
  · intro whole
    cases result : mmuRequestFrames b.map 1 with
    | some f =>
        have least := (found f).mp result
        exact (mmuRequestFrame_least hint f).mpr ⟨least, whole f least⟩
    | none =>
        rw [Option.eq_none_iff_forall_ne_some]
        intro f taken
        exact none.mp result f ((mmuRequestFrame_least hint f).mp taken).1.1

/-- A bitmap of 64 frames of which the first 40 are locked. -/
def halfLocked (nFrames : BitVec 64) : FrameWords where
  frames := fun i => if i = 0 then 0xFFFFFFFF else if i = 1 then 0x000000FF else 0
  nFrames := nFrames
  lowestAvailable := 40

theorem halfLocked_hint {nFrames : BitVec 64} (small : nFrames.toNat < 2 ^ 52) :
    HintSound (halfLocked nFrames).map := by
  refine ⟨?_, small⟩
  change ∀ f < 40, (if f / 32 = 0 then (0xFFFFFFFF : BitVec 32) else if f / 32 = 1 then 0xFF else 0).getLsbD
    (f % 32) = true
  decide

/-- In the bitmap of 64 frames both searches find frame 40. -/
theorem request_frame_agrees_iff_example :
    (mmuRequestFrameWord (halfLocked 64)).1 = mmuRequestFramesWord (halfLocked 64) 1 := by
  refine (request_frame_agrees_iff (halfLocked_hint (by decide))).mpr fun f least => ?_
  exact Nat.lt_of_lt_of_le least.1.1 (by decide)

/-- In a bitmap of 63 frames, `mmu_request_frame` does not look at the second word. -/
theorem request_frame_misses_tail :
    HintSound (halfLocked 63).map ∧
      (mmuRequestFrameWord (halfLocked 63)).1 = noFrame ∧ mmuRequestFramesWord (halfLocked 63) 1 = 40 :=
  ⟨halfLocked_hint (by decide), by decide +kernel, by decide +kernel⟩

end Voxel.Proofs
