/-
Module: Voxel.Proofs.ElfSegments
Layer: Proofs
Purpose: What the loader of executables leaves in the memory. Its loop over the pages of a segment starts at
  the address of the segment and not at the start of a page, so it visits one page for every 0x1000 bytes that
  the segment begins: the page of the last byte is left out if the segment reaches into one page more. The
  loader places every segment of a file exactly if these pages are among those that it has visited before.
Trusted boundary: none
Main exports: segmentByte, Apart, SegmentFits, Loadable, Visits, lastPage, TailsVisited, SegmentsLoaded,
  elf_segments_loaded_iff
-/
import Mathlib.Data.List.GetD
import Voxel.Proofs.ElfRange
import Voxel.Proofs.LoadPages

namespace Voxel.Proofs

open Voxel.Lib Voxel.Kernel

/-! ## Segments -/

/-- The address of a byte of a segment. -/
def segmentByte (p : ElfPhdr) (k : Nat) : BitVec 64 := p.vaddr + BitVec.ofNat 64 k

/-- The page of its last byte. -/
def lastPage (p : ElfPhdr) : Nat := pageAddr (segmentByte p (p.memsz.toNat - 1))

/-- No byte is in both segments. -/
def Apart (p q : ElfPhdr) : Prop :=
  ∀ k < p.memsz.toNat, ∀ j < q.memsz.toNat, segmentByte p k ≠ segmentByte q j

/-- A segment of the user half, behind the kernel image, that is not shorter than its part in the file. -/
structure SegmentFits (imagePages : Nat) (f : ElfFile) (p : ElfPhdr) : Prop where
  order : p.filesz ≤ p.memsz
  low : p.memsz ≠ 0 → 0x1000 * imagePages ≤ p.vaddr.toNat
  high : p.vaddr.toNat + p.memsz.toNat ≤ 0x800000000000
  long : (f.read p.offset p.filesz).length = p.filesz.toNat

/-- The segments are such segments, and no two of them overlap. -/
structure Loadable (imagePages : Nat) (f : ElfFile) : Prop where
  fits : ∀ i < f.phnum, (f.phdr i).type = ptLoad → SegmentFits imagePages f (f.phdr i)
  apart : ∀ i < f.phnum, ∀ j < f.phnum, i ≠ j → (f.phdr i).type = ptLoad → (f.phdr j).type = ptLoad →
    Apart (f.phdr i) (f.phdr j)

/-- The loop over the pages of a segment comes to a page. -/
def Visits (p : ElfPhdr) (page : Nat) : Prop :=
  p.type = ptLoad ∧ pageAddr p.vaddr ≤ page ∧
    page < pageAddr p.vaddr + pageRounds p.vaddr (p.vaddr + p.memsz)

/-- The page of the last byte of every segment is visited for this segment or for one before it. -/
def TailsVisited (f : ElfFile) : Prop :=
  ∀ i < f.phnum, (f.phdr i).type = ptLoad → (f.phdr i).memsz ≠ 0 →
    ∃ j ≤ i, Visits (f.phdr j) (lastPage (f.phdr i))

section Segments

variable {imagePages rounds : Nat} {f : ElfFile} {p : ElfPhdr}

namespace SegmentFits

variable (fits : SegmentFits imagePages f p)
include fits

theorem end_toNat : (p.vaddr + p.memsz).toNat = p.vaddr.toNat + p.memsz.toNat := by
  have high := fits.high
  rw [BitVec.toNat_add]
  exact Nat.mod_eq_of_lt (by omega)

theorem byte_toNat {k : Nat} (inside : k < p.memsz.toNat) :
    (segmentByte p k).toNat = p.vaddr.toNat + k := by
  have high := fits.high
  rw [segmentByte, BitVec.toNat_add, BitVec.toNat_ofNat, Nat.add_mod_mod]
  exact Nat.mod_eq_of_lt (by omega)

/-- One page for every 0x1000 bytes that the segment begins. -/
theorem pageRounds_eq : pageRounds p.vaddr (p.vaddr + p.memsz) = (p.memsz.toNat + 0xFFF) / 0x1000 := by
  have sum := fits.end_toNat
  unfold pageRounds
  split
  · omega
  · rename_i behind
    have notLess : ¬p.vaddr.toNat < (p.vaddr + p.memsz).toNat := behind
    omega

theorem first_page (some_ : p.memsz ≠ 0) : pageAddr p.vaddr = p.vaddr.toNat / 4096 := by
  have high := fits.high
  have positive : p.memsz.toNat ≠ 0 := fun zero => some_ (BitVec.eq_of_toNat_eq zero)
  rw [pageAddr_eq]
  omega

theorem byte_page {k : Nat} (inside : k < p.memsz.toNat) :
    pageAddr (segmentByte p k) = (p.vaddr.toNat + k) / 4096 := by
  have high := fits.high
  rw [pageAddr_eq, fits.byte_toNat inside]
  omega

theorem round_toNat {k : Nat} (inside : k < pageRounds p.vaddr (p.vaddr + p.memsz)) :
    (roundAddress p.vaddr k).toNat = p.vaddr.toNat + 0x1000 * k ∧
      0x1000 * k < p.memsz.toNat := by
  have high := fits.high
  rw [fits.pageRounds_eq] at inside
  refine ⟨?_, by omega⟩
  rw [roundAddress_toNat]
  exact Nat.mod_eq_of_lt (by omega)

theorem round_page {k : Nat} (inside : k < pageRounds p.vaddr (p.vaddr + p.memsz)) :
    pageAddr (roundAddress p.vaddr k) = pageAddr p.vaddr + k := by
  have high := fits.high
  obtain ⟨address, before⟩ := fits.round_toNat inside
  rw [pageAddr_eq, pageAddr_eq, address]
  omega

theorem inside : SegmentInside 0 f p := by
  have high := fits.high
  have order : p.filesz.toNat ≤ p.memsz.toNat := fits.order
  have long := fits.long
  refine ⟨?_, ?_, ?_⟩
  · rcases Nat.eq_zero_or_pos (pageRounds p.vaddr (p.vaddr + p.memsz)) with none_ | some_
    · exact .inl none_
    · refine .inr ⟨Nat.zero_le _, ?_⟩
      obtain ⟨-, before⟩ := @round_toNat _ _ _ fits (pageRounds p.vaddr (p.vaddr + p.memsz) - 1) (by omega)
      rw [pageAddr_eq]
      omega
  · refine .inr ⟨by omega, ?_⟩
    rw [long]
    omega
  · refine .inr ⟨by omega, ?_⟩
    rw [BitVec.toNat_add]
    omega

end SegmentFits

/-! ## The actions for a segment -/

/-- The pages of a segment. -/
def segmentPages (p : ElfPhdr) : List LoadAction :=
  (List.range (pageRounds p.vaddr (p.vaddr + p.memsz))).map fun k => .mapPage (roundAddress p.vaddr k)

/-- Its content, then its zeros. -/
def segmentStores (f : ElfFile) (p : ElfPhdr) : List LoadAction :=
  storeContent p.vaddr (f.read p.offset p.filesz) ++ storeZeros p

/-- What is done for a header. -/
def segmentActions (f : ElfFile) (p : ElfPhdr) : List LoadAction :=
  if p.type = ptLoad then segmentPages p ++ segmentStores f p else []

theorem loadSegments_eq (enough : 2 ^ 52 < rounds) {headers : List ElfPhdr}
    (fits : ∀ p ∈ headers, p.type = ptLoad → SegmentFits imagePages f p) :
    loadSegments f rounds headers = (headers.flatMap (segmentActions f), true) := by
  induction headers with
  | nil => rfl
  | cons first rest inductionHypothesis =>
      have own : loadSegment f rounds first = (segmentActions f first, true) := by
        unfold segmentActions
        split
        · rename_i isLoad
          exact (fits first List.mem_cons_self isLoad).inside.ends enough isLoad
        · rename_i noLoad
          rw [loadSegment, if_neg noLoad]
      rw [loadSegments, own, inductionHypothesis fun p later => fits p (List.mem_cons_of_mem _ later)]
      rfl

/-- The bytes of a segment as they should be: the content, and zeros behind it. -/
def segmentValue (f : ElfFile) (p : ElfPhdr) (k : Nat) : BitVec 8 := (f.read p.offset p.filesz).getD k 0

namespace SegmentFits

variable (fits : SegmentFits imagePages f p)
include fits

/-- Every byte of the segment is stored, once. -/
theorem mem_stores {action : LoadAction} :
    action ∈ segmentStores f p ↔
      ∃ k < p.memsz.toNat, action = .store (segmentByte p k) (segmentValue f p k) := by
  have order : p.filesz.toNat ≤ p.memsz.toNat := fits.order
  have long := fits.long
  have behind : ∀ k, p.vaddr + p.filesz + BitVec.ofNat 64 k = segmentByte p (p.filesz.toNat + k) := by
    intro k
    rw [segmentByte, BitVec.ofNat_add, BitVec.ofNat_toNat, BitVec.setWidth_eq, BitVec.add_assoc]
  rw [segmentStores, List.mem_append, mem_storeContent, mem_storeZeros]
  constructor
  · rintro (⟨k, inside, rfl⟩ | ⟨k, inside, rfl⟩)
    · refine ⟨k, by omega, ?_⟩
      rw [segmentValue, List.getD_eq_getElem _ _ inside]
      rfl
    · refine ⟨p.filesz.toNat + k, by omega, ?_⟩
      rw [segmentValue, List.getD_eq_default _ _ (by omega), behind]
  · rintro ⟨k, inside, rfl⟩
    by_cases inFile : k < (f.read p.offset p.filesz).length
    · refine .inl ⟨k, inFile, ?_⟩
      rw [segmentValue, List.getD_eq_getElem _ _ inFile]
      rfl
    · refine .inr ⟨k - p.filesz.toNat, by omega, ?_⟩
      rw [segmentValue, List.getD_eq_default _ _ (by omega), behind]
      congr 2
      omega

/-- The pages that are mapped for a segment. -/
theorem mapsPage_iff (isLoad : p.type = ptLoad) {page : Nat} :
    MapsPage pageAddr (segmentPages p) page ↔ Visits p page := by
  constructor
  · rintro ⟨address, member, rfl⟩
    obtain ⟨k, inside, same⟩ := List.mem_map.mp member
    cases same
    have before := List.mem_range.mp inside
    rw [fits.round_page before]
    exact ⟨isLoad, Nat.le_add_right _ _, Nat.add_lt_add_left before _⟩
  · rintro ⟨-, from_, before⟩
    have inside : page - pageAddr p.vaddr < pageRounds p.vaddr (p.vaddr + p.memsz) := by omega
    refine ⟨roundAddress p.vaddr (page - pageAddr p.vaddr), ?_, ?_⟩
    · exact List.mem_map.mpr ⟨_, List.mem_range.mpr inside, rfl⟩
    · rw [fits.round_page inside]
      omega

/-- The loop comes to the pages of all bytes but, perhaps, the one of the last byte. -/
theorem visits_byte (isLoad : p.type = ptLoad) {k : Nat} (inside : k < p.memsz.toNat) :
    Visits p (pageAddr (segmentByte p k)) ∨ pageAddr (segmentByte p k) = lastPage p := by
  have some_ : p.memsz ≠ 0 := by
    rintro zero
    rw [zero] at inside
    exact absurd inside (Nat.not_lt_zero k)
  rw [Visits, lastPage, fits.byte_page inside, fits.byte_page (by omega), fits.first_page some_,
    fits.pageRounds_eq]
  refine or_iff_not_imp_right.mpr fun notLast => ⟨isLoad, ?_, ?_⟩ <;> omega

theorem stores_only : ∀ action ∈ segmentStores f p, ∃ address value, action = .store address value := by
  intro action member
  obtain ⟨k, -, rfl⟩ := fits.mem_stores.mp member
  exact ⟨_, _, rfl⟩

theorem countP_isMap (isLoad : p.type = ptLoad) :
    (segmentActions f p).countP PageAction.isMap = pageRounds p.vaddr (p.vaddr + p.memsz) := by
  have pages : (segmentPages p).countP PageAction.isMap = (segmentPages p).length := by
    refine List.countP_eq_length.mpr fun action member => ?_
    obtain ⟨k, -, rfl⟩ := List.mem_map.mp member
    rfl
  have stores : (segmentStores f p).countP PageAction.isMap = 0 := by
    refine List.countP_eq_zero.mpr fun action member => ?_
    obtain ⟨address, value, rfl⟩ := fits.stores_only action member
    exact Bool.false_ne_true
  rw [segmentActions, if_pos isLoad, List.countP_append, pages, stores, segmentPages, List.length_map,
    List.length_range, Nat.add_zero]

/-- The bytes of a segment are stored on mapped pages exactly if its last byte is. -/
theorem ordered_iff {known : Nat → Prop} (isLoad : p.type = ptLoad) :
    MappedFirst pageAddr known (segmentActions f p) ↔
      (p.memsz ≠ 0 → known (lastPage p) ∨ Visits p (lastPage p)) := by
  have maps : ∀ action ∈ segmentPages p, ∃ address, action = .mapPage address := by
    intro action member
    obtain ⟨k, -, rfl⟩ := List.mem_map.mp member
    exact ⟨_, rfl⟩
  rw [segmentActions, if_pos isLoad, mappedFirst_append, and_iff_right (mappedFirst_maps maps),
    mappedFirst_stores fits.stores_only]
  simp only [fits.mapsPage_iff isLoad]
  constructor
  · intro all some_
    have positive : p.memsz.toNat ≠ 0 := fun zero => some_ (BitVec.eq_of_toNat_eq zero)
    exact all _ _ (fits.mem_stores.mpr ⟨p.memsz.toNat - 1, by omega, rfl⟩)
  · intro last address value member
    obtain ⟨k, inside, same⟩ := fits.mem_stores.mp member
    cases same
    rcases fits.visits_byte isLoad inside with visited | isLast
    · exact .inr visited
    · rw [isLast]
      refine last fun zero => ?_
      rw [zero] at inside
      exact Nat.not_lt_zero k inside

end SegmentFits

end Segments

/-! ## The actions for a file -/

/-- What is done for the first headers. -/
def fileActions (f : ElfFile) (n : Nat) : List LoadAction :=
  (List.range n).flatMap fun i => segmentActions f (f.phdr i)

/-- The rounds of the loops over the pages. -/
def filePages (f : ElfFile) : Nat :=
  (f.phdrs.map fun p => if p.type = ptLoad then pageRounds p.vaddr (p.vaddr + p.memsz) else 0).sum

section Files

variable {f : ElfFile} {imagePages n rounds : Nat}

theorem fileActions_next : fileActions f (n + 1) = fileActions f n ++ segmentActions f (f.phdr n) := by
  rw [fileActions, List.range_succ, List.flatMap_append, List.flatMap_singleton, fileActions]

theorem mem_fileActions {action : LoadAction} :
    action ∈ fileActions f n ↔ ∃ i < n, (f.phdr i).type = ptLoad ∧
      (action ∈ segmentPages (f.phdr i) ∨ action ∈ segmentStores f (f.phdr i)) := by
  simp only [fileActions, List.mem_flatMap, List.mem_range, segmentActions]
  refine exists_congr fun i => and_congr_right fun _ => ?_
  split
  · rename_i isLoad
    rw [List.mem_append, and_iff_right isLoad]
  · rename_i noLoad
    exact iff_of_false List.not_mem_nil fun both => noLoad both.1

variable (loadable : Loadable imagePages f)
include loadable

/-- Only the pages are counted. -/
theorem fileActions_maps : (fileActions f f.phnum).countP PageAction.isMap = filePages f := by
  rw [fileActions, List.countP_flatMap, filePages, ElfFile.phdrs, List.map_map]
  refine congrArg List.sum (List.map_congr_left fun i inside => ?_)
  rw [Function.comp_apply, Function.comp_apply]
  split
  · rename_i isLoad
    exact (loadable.fits i (List.mem_range.mp inside) isLoad).countP_isMap isLoad
  · rename_i noLoad
    rw [segmentActions, if_neg noLoad, List.countP_nil]

theorem loadActions_eq (enough : 2 ^ 52 < rounds) : f.loadActions rounds = (fileActions f f.phnum, true) := by
  rw [ElfFile.loadActions, @loadSegments_eq imagePages rounds f enough, ElfFile.phdrs, List.flatMap_map,
    fileActions]
  intro p member isLoad
  obtain ⟨i, inside, rfl⟩ := List.mem_map.mp member
  exact loadable.fits i (List.mem_range.mp inside) isLoad

/-- The pages that are mapped for the first headers. -/
theorem mapsPage_fileActions (few : n ≤ f.phnum) {page : Nat} :
    MapsPage pageAddr (fileActions f n) page ↔ ∃ j < n, Visits (f.phdr j) page := by
  constructor
  · rintro ⟨address, member, isPage⟩
    obtain ⟨j, inside, isLoad, own⟩ := mem_fileActions.mp member
    have fits := loadable.fits j (by omega) isLoad
    rcases own with mapped | stored
    · exact ⟨j, inside, (fits.mapsPage_iff isLoad).mp ⟨address, mapped, isPage⟩⟩
    · obtain ⟨place, value, same⟩ := fits.stores_only _ stored
      cases same
  · rintro ⟨j, inside, visits⟩
    have fits := loadable.fits j (by omega) visits.1
    obtain ⟨address, mapped, isPage⟩ := (fits.mapsPage_iff visits.1).mpr visits
    exact ⟨address, mem_fileActions.mpr ⟨j, inside, visits.1, .inl mapped⟩, isPage⟩

/-- The bytes of the first segments are stored on mapped pages exactly if their last bytes are. -/
theorem fileActions_ordered_iff (few : n ≤ f.phnum) :
    MappedFirst pageAddr (fun _ => False) (fileActions f n) ↔
      ∀ i < n, (f.phdr i).type = ptLoad → (f.phdr i).memsz ≠ 0 →
        ∃ j ≤ i, Visits (f.phdr j) (lastPage (f.phdr i)) := by
  induction n with
  | zero => exact iff_of_true trivial fun i none_ => absurd none_ (Nat.not_lt_zero i)
  | succ n inductionHypothesis =>
      have own : MappedFirst pageAddr (fun page => False ∨ MapsPage pageAddr (fileActions f n) page)
          (segmentActions f (f.phdr n)) ↔ ((f.phdr n).type = ptLoad → (f.phdr n).memsz ≠ 0 →
            ∃ j ≤ n, Visits (f.phdr j) (lastPage (f.phdr n))) := by
        by_cases isLoad : (f.phdr n).type = ptLoad
        · rw [(loadable.fits n few isLoad).ordered_iff isLoad, forall_prop_of_true isLoad]
          simp only [mapsPage_fileActions loadable (Nat.le_of_succ_le few), false_or]
          refine imp_congr_right fun _ => ⟨?_, ?_⟩
          · rintro (⟨j, before, visits⟩ | visits)
            · exact ⟨j, before.le, visits⟩
            · exact ⟨n, le_rfl, visits⟩
          · rintro ⟨j, upTo, visits⟩
            rcases Nat.lt_or_eq_of_le upTo with before | rfl
            · exact .inl ⟨j, before, visits⟩
            · exact .inr visits
        · rw [segmentActions, if_neg isLoad]
          exact iff_of_true trivial fun isLoad' => absurd isLoad' isLoad
      rw [fileActions_next, mappedFirst_append, inductionHypothesis (Nat.le_of_succ_le few), own,
        Nat.forall_lt_succ_right]

/-- Every byte of every segment is stored, and nothing else. -/
theorem mem_fileActions_store {address : BitVec 64} {value : BitVec 8} :
    .store address value ∈ fileActions f f.phnum ↔ ∃ i < f.phnum, (f.phdr i).type = ptLoad ∧
      ∃ k < (f.phdr i).memsz.toNat, address = segmentByte (f.phdr i) k ∧
        value = segmentValue f (f.phdr i) k := by
  rw [mem_fileActions]
  refine exists_congr fun i => and_congr_right fun inside => and_congr_right fun isLoad => ?_
  rw [(loadable.fits i inside isLoad).mem_stores]
  constructor
  · rintro (isPage | ⟨k, before, same⟩)
    · obtain ⟨j, -, same⟩ := List.mem_map.mp isPage
      cases same
    · cases same
      exact ⟨k, before, rfl, rfl⟩
  · rintro ⟨k, before, rfl, rfl⟩
    exact .inr ⟨k, before, rfl⟩

/-- No byte is stored twice, so all of them are left. -/
theorem lastStore_fileActions {i k : Nat} (inside : i < f.phnum) (isLoad : (f.phdr i).type = ptLoad)
    (before : k < (f.phdr i).memsz.toNat) :
    lastStore (fileActions f f.phnum) (segmentByte (f.phdr i) k) = some (segmentValue f (f.phdr i) k) := by
  refine lastStore_eq ((mem_fileActions_store loadable).mpr ⟨i, inside, isLoad, k, before, rfl, rfl⟩) ?_
  intro other member
  obtain ⟨j, inside', isLoad', k', before', sameAddress, rfl⟩ := (mem_fileActions_store loadable).mp member
  obtain rfl : j = i := by
    by_contra different
    exact loadable.apart j inside' i inside different isLoad' isLoad k' before' k before sameAddress.symm
  have fits := loadable.fits j inside isLoad
  have places := congrArg BitVec.toNat sameAddress
  rw [fits.byte_toNat before, fits.byte_toNat before'] at places
  rw [Nat.add_left_cancel places]

end Files

/-! ## The heap -/

/-- Clearing the low bits of an address gives the start of its page. -/
theorem pageStart_toNat (x : BitVec 64) : (x &&& ~~~(0xFFF : BitVec 64)).toNat = x.toNat / 4096 * 4096 := by
  have low : ∀ i : Fin 64, (0xFFF : BitVec 64).getLsbD i = decide (i.val < 12) := by decide
  have shifted : x &&& ~~~(0xFFF : BitVec 64) = (x >>> 12) <<< 12 := by
    refine BitVec.eq_of_getLsbD_eq fun i inside => ?_
    have bit := low ⟨i, inside⟩
    dsimp only at bit
    rw [BitVec.getLsbD_and, BitVec.getLsbD_not, bit, BitVec.getLsbD_shiftLeft, BitVec.getLsbD_ushiftRight]
    by_cases small : i < 12
    · simp [small]
    · have back : 12 + (i - 12) = i := by omega
      simp [small, inside, back]
  have bound := x.isLt
  rw [shifted, BitVec.toNat_shiftLeft, BitVec.toNat_ushiftRight, Nat.shiftRight_eq_div_pow,
    Nat.shiftLeft_eq]
  omega

/-- `heap_base` is not below the end of any segment, and not behind all of them. -/
theorem heapBase_bound {headers : List ElfPhdr} {base : BitVec 64} {top : Nat} (below : base.toNat ≤ top)
    (ends : ∀ p ∈ headers, p.type = ptLoad → (p.vaddr + p.memsz).toNat ≤ top) :
    base.toNat ≤ (headers.foldl heapBase base).toNat ∧ (headers.foldl heapBase base).toNat ≤ top ∧
      ∀ p ∈ headers, p.type = ptLoad →
        (p.vaddr + p.memsz).toNat ≤ (headers.foldl heapBase base).toNat := by
  induction headers generalizing base with
  | nil => exact ⟨Nat.le_refl _, below, fun p member => absurd member List.not_mem_nil⟩
  | cons first rest inductionHypothesis =>
      have own : base.toNat ≤ (heapBase base first).toNat ∧ (heapBase base first).toNat ≤ top ∧
          (first.type = ptLoad → (first.vaddr + first.memsz).toNat ≤ (heapBase base first).toNat) := by
        unfold heapBase
        split
        · rename_i both
          have less : base.toNat < (first.vaddr + first.memsz).toNat := both.2
          exact ⟨less.le, ends first List.mem_cons_self both.1, fun _ => Nat.le_refl _⟩
        · rename_i notBoth
          refine ⟨Nat.le_refl _, below, fun isLoad => ?_⟩
          exact Nat.le_of_not_lt fun less => notBoth ⟨isLoad, less⟩
      obtain ⟨grows, high, others⟩ := @inductionHypothesis (heapBase base first) own.2.1
        fun p later => ends p (List.mem_cons_of_mem _ later)
      refine ⟨own.1.trans grows, high, fun p member isLoad => ?_⟩
      rcases List.mem_cons.mp member with rfl | later
      · exact (own.2.2 isLoad).trans grows
      · exact others p later isLoad

/-- The heap starts with a page, behind every segment. -/
theorem imageHeap_bound {f : ElfFile} {imagePages : Nat} (loadable : Loadable imagePages f) :
    f.imageHeap.toNat % 0x1000 = 0 ∧ ∀ i < f.phnum, (f.phdr i).type = ptLoad →
      (f.phdr i).vaddr.toNat + (f.phdr i).memsz.toNat ≤ f.imageHeap.toNat := by
  obtain ⟨-, high, ends⟩ := @heapBase_bound f.phdrs 0 0x800000000000 (Nat.zero_le _) (by
    intro p member isLoad
    obtain ⟨i, inside, rfl⟩ := List.mem_map.mp member
    have fits := loadable.fits i (List.mem_range.mp inside) isLoad
    rw [fits.end_toNat]
    exact fits.high)
  have sum : (f.phdrs.foldl heapBase 0 + 0xFFF).toNat = (f.phdrs.foldl heapBase 0).toNat + 0xFFF := by
    rw [BitVec.toNat_add]
    exact Nat.mod_eq_of_lt (Nat.lt_of_le_of_lt (Nat.add_le_add_right high _) (by decide))
  have heap : f.imageHeap.toNat = ((f.phdrs.foldl heapBase 0).toNat + 0xFFF) / 4096 * 4096 := by
    rw [ElfFile.imageHeap, pageStart_toNat, sum]
  refine ⟨by omega, fun i inside isLoad => ?_⟩
  have own := ends (f.phdr i) (List.mem_map_of_mem (List.mem_range.mpr inside)) isLoad
  rw [(loadable.fits i inside isLoad).end_toNat] at own
  omega

/-! ## Loading -/

/-- The directory that the loader has made of the kernel's: no page of the user half behind the kernel image
is present. -/
structure FreshDirectory (strict : Prop) (live : Set Nat) (imagePages : Nat) (m : Mmu) : Prop where
  spaces : AddressSpaces strict m live
  current : m.currentPml ∈ live
  vacant : ∀ address : BitVec 64, 0x1000 * imagePages ≤ address.toNat → address.toNat < 0x800000000000 →
    Unmapped m m.currentPml (addrPath address)

/-- The loop over the headers comes to its end, without a fault and storing only on pages that it has mapped
before; then every segment holds its bytes of the file, and zeros behind them. The heap starts with a page and
not below the end of any segment. -/
def SegmentsLoaded (f : ElfFile) (m : Mmu) : Prop :=
  ∃ actions, (∀ rounds, 2 ^ 52 < rounds → f.loadActions rounds = (actions, true)) ∧
    MappedFirst pageAddr (fun _ => False) actions ∧
    (∃ m', Run.exec loadStep m actions = some m' ∧ ∀ i < f.phnum, (f.phdr i).type = ptLoad →
      ∀ k < (f.phdr i).memsz.toNat,
        userRead m' m.currentPml (segmentByte (f.phdr i) k) = some (segmentValue f (f.phdr i) k)) ∧
    f.imageHeap.toNat % 0x1000 = 0 ∧ ∀ i < f.phnum, (f.phdr i).type = ptLoad →
      (f.phdr i).vaddr.toNat + (f.phdr i).memsz.toNat ≤ f.imageHeap.toNat

/-- The actions can be performed from a fresh directory. -/
theorem FreshDirectory.startable {strict : Prop} {live : Set Nat} {imagePages : Nat} {f : ElfFile} {m : Mmu}
    (fresh : FreshDirectory strict live imagePages m) (loadable : Loadable imagePages f) :
    Startable m.currentPml (fun _ => False) m (fileActions f f.phnum) := by
  have pages : ∀ address, .mapPage address ∈ fileActions f f.phnum →
      0x1000 * imagePages ≤ address.toNat ∧ address.toNat < 0x800000000000 := by
    intro address member
    obtain ⟨i, inside, isLoad, own⟩ := mem_fileActions.mp member
    have fits := loadable.fits i inside isLoad
    have high := fits.high
    rcases own with mapped | stored
    · obtain ⟨k, round, same⟩ := List.mem_map.mp mapped
      cases same
      obtain ⟨place, before⟩ := fits.round_toNat (List.mem_range.mp round)
      have low := fits.low fun zero => by
        rw [zero] at before
        exact Nat.not_lt_zero _ before
      omega
    · obtain ⟨place, value, same⟩ := fits.stores_only _ stored
      cases same
  refine ⟨fun address member => (pages address member).2, ?_, fun address member => .inr ?_⟩
  · intro address value member
    obtain ⟨i, inside, isLoad, k, before, rfl, -⟩ := (mem_fileActions_store loadable).mp member
    have fits := loadable.fits i inside isLoad
    have high := fits.high
    rw [fits.byte_toNat before]
    omega
  · exact fresh.vacant address (pages address member).1 (pages address member).2

/-- For every file with segments of the user half that do not overlap, and a fresh directory with four free
frames for every page: the loader places the segments, exactly if the page of the last byte of every one is
visited by the loop over its pages or by that of a segment before it. -/
theorem elf_segments_loaded_iff {strict : Prop} {live : Set Nat} {imagePages : Nat} {f : ElfFile} {m : Mmu}
    (loadable : Loadable imagePages f) (fresh : FreshDirectory strict live imagePages m)
    (free : 4 * filePages f ≤ (freeFrames m.frames).card) : SegmentsLoaded f m ↔ TailsVisited f := by
  have ordered := fileActions_ordered_iff loadable (Nat.le_refl f.phnum)
  constructor
  · rintro ⟨actions, done, mapped, -⟩
    obtain rfl : fileActions f f.phnum = actions := by
      have same := done (2 ^ 52 + 1) (Nat.lt_succ_self _)
      rw [loadActions_eq loadable (Nat.lt_succ_self _)] at same
      exact congrArg Prod.fst same
    exact ordered.mp mapped
  · intro visited
    have known : LoadState strict live m.currentPml (fun _ => False) m :=
      ⟨fresh.spaces, rfl, fun _ _ none_ => none_.elim⟩
    rw [← fileActions_maps loadable] at free
    obtain ⟨m', executed, stored, -⟩ :=
      exec_load fresh.current known (ordered.mpr visited) (fresh.startable loadable) free
    refine ⟨fileActions f f.phnum, fun rounds enough => loadActions_eq loadable enough, ordered.mpr visited,
      ⟨m', executed, fun i inside isLoad k before => ?_⟩, imageHeap_bound loadable⟩
    have fits := loadable.fits i inside isLoad
    have high := fits.high
    refine stored _ ?_ _ (lastStore_fileActions loadable inside isLoad before)
    rw [fits.byte_toNat before]
    omega


/-! ## Two files -/

/-- An executable whose only header is a segment at `0x400000 + low`. -/
def segmentFile (low : BitVec 16) (filesz memsz : BitVec 8) (content : List (BitVec 8)) : ElfFile where
  header i := if i = 56 then 1 else 0
  read _ size :=
    if size = sizeofElfPhdr then
      [1, 0, 0, 0, 0, 0, 0, 0, 0, 0, 0, 0, 0, 0, 0, 0,
        low.setWidth 8, (low >>> 8).setWidth 8, 0x40, 0, 0, 0, 0, 0, 0, 0, 0, 0, 0, 0, 0, 0,
        filesz, 0, 0, 0, 0, 0, 0, 0, memsz, 0, 0, 0, 0, 0, 0, 0, 0, 0, 0, 0, 0, 0, 0, 0]
    else content
  stackBytes _ _ := 0

theorem emptyDirectory_fresh (strict : Prop) (imagePages : Nat) :
    FreshDirectory strict {1} imagePages emptyDirectory := by
  obtain ⟨spaces, nothing⟩ := @emptyRoots_spaces strict {1} emptyDirectory (by decide) rfl (fun _ => rfl) (by
    rintro root rfl
    exact ⟨rfl, by decide, by decide, fun _ => rfl⟩)
  exact ⟨spaces, rfl, fun address _ _ => nothing 1 rfl (addrPath address)⟩

/-- Two bytes of the file and three zeros, at the start of a page. -/
theorem elf_segments_loaded_example : SegmentsLoaded (segmentFile 0 2 5 [7, 9]) emptyDirectory := by
  have header : (segmentFile 0 2 5 [7, 9]).phdr 0 = ⟨1, 0, 0x400000, 2, 5⟩ := by decide
  have loadable : Loadable 0x200 (segmentFile 0 2 5 [7, 9]) := by
    refine ⟨fun i inside _ => ?_, fun i inside j inside' different => ?_⟩
    · obtain rfl : i = 0 := Nat.lt_one_iff.mp inside
      rw [header]
      exact ⟨by decide, by decide, by decide, rfl⟩
    · exact absurd ((Nat.lt_one_iff.mp inside).trans (Nat.lt_one_iff.mp inside').symm) different
  refine (elf_segments_loaded_iff loadable (emptyDirectory_fresh True 0x200) (by decide)).mpr ?_
  intro i inside _ _
  obtain rfl : i = 0 := Nat.lt_one_iff.mp inside
  refine ⟨0, Nat.le_refl 0, ?_⟩
  rw [header]
  exact ⟨by decide, by decide, by decide⟩

/-- Two zeros, the first of them the last byte of a page: the page of the other one is not mapped. -/
theorem elf_last_page_unmapped :
    Loadable 0x200 (segmentFile 0xFFF 0 2 []) ∧ FreshDirectory True {1} 0x200 emptyDirectory ∧
      ((segmentFile 0xFFF 0 2 []).loadActions 3).1 =
        [.mapPage 0x400FFF, .store 0x400FFF 0, .store 0x401000 0] ∧
      ¬SegmentsLoaded (segmentFile 0xFFF 0 2 []) emptyDirectory := by
  have header : (segmentFile 0xFFF 0 2 []).phdr 0 = ⟨1, 0, 0x400FFF, 0, 2⟩ := by decide
  have loadable : Loadable 0x200 (segmentFile 0xFFF 0 2 []) := by
    refine ⟨fun i inside _ => ?_, fun i inside j inside' different => ?_⟩
    · obtain rfl : i = 0 := Nat.lt_one_iff.mp inside
      rw [header]
      exact ⟨by decide, by decide, by decide, rfl⟩
    · exact absurd ((Nat.lt_one_iff.mp inside).trans (Nat.lt_one_iff.mp inside').symm) different
  refine ⟨loadable, emptyDirectory_fresh True 0x200, by decide, ?_⟩
  rintro ⟨actions, done, mapped, -⟩
  have same := done (2 ^ 52 + 1) (Nat.lt_succ_self _)
  rw [loadActions_eq loadable (Nat.lt_succ_self _)] at same
  obtain rfl : fileActions (segmentFile 0xFFF 0 2 []) 1 = actions := congrArg Prod.fst same
  have stored : fileActions (segmentFile 0xFFF 0 2 []) 1 =
      [.mapPage 0x400FFF, .store 0x400FFF 0, .store 0x401000 0] := by decide
  rw [stored] at mapped
  obtain ⟨-, other, -⟩ := mapped
  rcases other with none_ | samePage
  · exact none_
  · exact absurd samePage (by decide)

end Voxel.Proofs
