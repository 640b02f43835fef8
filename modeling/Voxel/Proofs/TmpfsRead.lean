/-
Module: Voxel.Proofs.TmpfsRead
Layer: Proofs
Purpose: A read that begins inside a file and does not wrap stores the bytes of the file, up to its end, and
  nothing else.
Trusted boundary: none
Main exports: readCopies_eq, runLoads_spec, readTmpfs_spec
-/
import Voxel.Kernel.Tmpfs
import Voxel.Proofs.TmpfsFrames
import Voxel.Proofs.TmpfsWrite

namespace Voxel.Proofs

open Voxel.Lib Voxel.Kernel

/-! ## The copies -/

/-- Every copy of a write of at least one byte copies something. -/
theorem writeCopies_positive {offset size : Nat} (inside : NoWrap offset size) (some_ : 0 < size) :
    ∀ c ∈ writeCopies offset size, 0 < c.len := by
  have ending := writeEnd_noWrap inside
  have total := sizeToRead_noWrap inside
  have inBlock : offset % blockSize < blockSize := Nat.mod_lt _ (by decide)
  intro c member
  unfold writeCopies at member
  rw [ending, total] at member
  dsimp only at member
  split at member
  · rw [List.mem_singleton] at member
    subst member
    exact some_
  · rw [List.mem_append, List.mem_map] at member
    rcases member with ⟨i, _, rfl⟩ | last
    · unfold loopCopy
      split
      · exact Nat.sub_pos_of_lt inBlock
      · exact (by decide : 0 < blockSize)
    · split at last
      · cases last
      · rename_i rest
        rw [List.mem_singleton] at last
        subst last
        exact Nat.pos_of_ne_zero rest

/-- The end of a read that begins inside the file. -/
theorem readEnd_inside {length offset size : Nat} (inside : NoWrap offset size) (inFile : offset ≤ length) :
    readEnd length offset size = offset + min size (length - offset) := by
  unfold readEnd
  rw [writeEnd_noWrap inside]
  split <;> omega

theorem readSize_inside {length offset size : Nat} (inside : NoWrap offset size) (inFile : offset ≤ length) :
    readSize length offset size = min size (length - offset) := by
  unfold readSize
  rw [readEnd_inside inside inFile]
  unfold NoWrap at inside
  omega

/-- A read makes the copies of the write of what it reads. -/
theorem readCopies_eq {length offset size : Nat} (inside : NoWrap offset size) (inFile : offset ≤ length) :
    readCopies length offset size =
      if min size (length - offset) = 0 then [] else writeCopies offset (min size (length - offset)) := by
  have shorter : NoWrap offset (min size (length - offset)) := by
    unfold NoWrap at inside ⊢
    omega
  unfold readCopies writeCopies
  rw [readSize_inside inside inFile, readEnd_inside inside inFile, writeEnd_noWrap shorter,
    sizeToRead_noWrap shorter]
  dsimp only
  by_cases nothing : min size (length - offset) = 0
  · rw [if_pos nothing, nothing, Nat.add_zero, if_pos rfl, if_pos rfl]
  · rw [if_neg nothing]
    split
    · rw [if_neg (by omega)]
    · rfl

/-! ## The bytes -/

/-- A straight copy loads the bytes that it covers and keeps the rest of the buffer. -/
theorem copyLoad_spec {offset size : Nat} {c : Copy} {file : TmpfsFile} {frame i : Nat}
    {phys buffer : Nat → BitVec 8} (straight : Copy.Straight offset size c) (small : size < 2 ^ 64)
    (here : file.blocks[c.blockid]? = some frame) (distance : i < 2 ^ 64) :
    (Copy.Covers c (offset + i) →
        TmpfsFile.byteAt file phys (offset + i) = some (c.load frame phys buffer i)) ∧
      (¬ Copy.Covers c (offset + i) → c.load frame phys buffer i = buffer i) := by
  have inBuffer := straight.inBuffer
  have aligned := straight.aligned
  constructor
  · intro covers
    obtain ⟨_, _, block, low, high, source⟩ := straight.position covers
    have place : (i + 2 ^ 64 - c.source) % 2 ^ 64 = (offset + i) % blockSize - c.blockOffset := by omega
    have address : c.target frame + ((offset + i) % blockSize - c.blockOffset) =
        frame * blockSize + (offset + i) % blockSize := by
      unfold Copy.target
      omega
    have loaded : c.load frame phys buffer i = phys (frame * blockSize + (offset + i) % blockSize) := by
      unfold Copy.load
      dsimp only
      rw [place, if_pos (by omega), address]
    rw [loaded, TmpfsFile.byteAt, block, here, Option.map_some]
  · intro outside
    unfold Copy.Covers at outside
    unfold Copy.load
    exact if_neg (by omega)

/-- Straight copies out of blocks that are there. -/
theorem runLoads_spec {offset size : Nat} {copies : List Copy} {file : TmpfsFile}
    {phys : Nat → BitVec 8} (buffer : Nat → BitVec 8) (small : size < 2 ^ 64)
    (straight : ∀ c ∈ copies, Copy.Straight offset size c)
    (there : ∀ c ∈ copies, c.blockid < file.blockCount) :
    ∃ buffer', runLoads file phys copies buffer = some buffer' ∧ ∀ i < 2 ^ 64,
      ((∃ c ∈ copies, Copy.Covers c (offset + i)) →
        TmpfsFile.byteAt file phys (offset + i) = some (buffer' i)) ∧
      ((∀ c ∈ copies, ¬ Copy.Covers c (offset + i)) → buffer' i = buffer i) := by
  induction copies generalizing buffer with
  | nil =>
      refine ⟨buffer, rfl, fun i _ => ⟨?_, fun _ => rfl⟩⟩
      rintro ⟨c, member, _⟩
      cases member
  | cons c copies inductionHypothesis =>
      obtain ⟨frame, here⟩ : ∃ frame, file.blocks[c.blockid]? = some frame :=
        ⟨_, List.getElem?_eq_getElem (there c List.mem_cons_self)⟩
      obtain ⟨buffer', ran, rest⟩ := inductionHypothesis (c.load frame phys buffer)
        (fun c member => straight c (List.mem_cons_of_mem _ member))
        (fun c member => there c (List.mem_cons_of_mem _ member))
      refine ⟨buffer', by rw [runLoads, here]; exact ran, fun i distance => ?_⟩
      obtain ⟨loaded, kept⟩ := @copyLoad_spec offset size c file frame i phys buffer
        (straight c List.mem_cons_self) small here distance
      obtain ⟨later, untouched⟩ := rest i distance
      constructor
      · rintro ⟨d, member, covers⟩
        by_cases inRest : ∃ d ∈ copies, Copy.Covers d (offset + i)
        · exact later inRest
        · have outside : ∀ d ∈ copies, ¬ Copy.Covers d (offset + i) :=
            fun d member covers => inRest ⟨d, member, covers⟩
          rcases List.mem_cons.mp member with rfl | member
          · rw [untouched outside]
            exact loaded covers
          · exact absurd covers (outside d member)
      · intro outside
        rw [untouched fun d member => outside d (List.mem_cons_of_mem _ member)]
        exact kept (outside c List.mem_cons_self)

/-- A read that begins inside a file stores its bytes up to the end of the file. -/
theorem readTmpfs_spec {t : Tmpfs} {f offset size : Nat} {file : TmpfsFile} (buffer : Nat → BitVec 8)
    (present : t.files f = some file) (reach : file.length ≤ file.blockCount * blockSize)
    (inside : NoWrap offset size) (inFile : offset ≤ file.length) :
    ∃ buffer', t.readTmpfs f offset size buffer = some (min size (file.length - offset), buffer') ∧
      (∀ k < min size (file.length - offset),
        TmpfsFile.byteAt file t.phys (offset + k) = some (buffer' k)) ∧
      ∀ i < 2 ^ 64, min size (file.length - offset) ≤ i → buffer' i = buffer i := by
  have shorter : NoWrap offset (min size (file.length - offset)) := by
    unfold NoWrap at inside ⊢
    omega
  have straight := writeCopies_straight shorter
  have small : min size (file.length - offset) < 2 ^ 64 := by
    unfold NoWrap at shorter
    omega
  rw [Tmpfs.readTmpfs, present]
  dsimp only
  rw [readCopies_eq inside inFile, readSize_inside inside inFile]
  by_cases nothing : min size (file.length - offset) = 0
  · rw [if_pos nothing, nothing]
    exact ⟨buffer, rfl, fun k none_ => absurd none_ (Nat.not_lt_zero k), fun _ _ _ => rfl⟩
  rw [if_neg nothing]
  have there : ∀ c ∈ writeCopies offset (min size (file.length - offset)),
      c.blockid < file.blockCount := by
    intro c member
    have positive := writeCopies_positive shorter (Nat.pos_of_ne_zero nothing) c member
    have first : Copy.Covers c (c.blockid * blockSize + c.blockOffset) := by
      unfold Copy.Covers
      omega
    obtain ⟨_, before, block, _⟩ := (straight c member).position first
    rw [← block]
    exact Nat.div_lt_of_lt_mul (by rw [Nat.mul_comm blockSize]; omega)
  obtain ⟨buffer', ran, bytes⟩ := @runLoads_spec offset _ _ file t.phys buffer small straight there
  refine ⟨buffer', by rw [ran]; rfl, ?_, ?_⟩
  · intro k read
    exact (bytes k (by omega)).1 (writeCopies_cover shorter read)
  · intro i distance behind
    refine (bytes i distance).2 fun c member covers => ?_
    obtain ⟨_, before, _⟩ := (straight c member).position covers
    omega

end Voxel.Proofs
