/-
Module: Voxel.Proofs.MmuInit
Layer: Proofs
Purpose: What `mmu_init` leaves: a directory without user pages from which all runs of the address spaces can
  start, with the first 64 GiB in the kernel half, the kernel image at its own addresses, and the null page
  missing.
Trusted boundary: none
Main exports: Booted, Booted.userTables, Booted.heap, BootMemory, mmuInit_ready
-/
import Voxel.Proofs.BootFrames
import Voxel.Proofs.HeapPages
import Voxel.Proofs.InitTables
import Voxel.Proofs.RefCounts

namespace Voxel.Proofs

open Voxel.Kernel
open Voxel.Lib

/-! ## The directory of the boot -/

/-- The directory of the boot: its tables lie apart, in frames that are in use up to the end of the bitmap. -/
structure Booted (image : ImageTables) (imageEnd firstPage : BitVec 64) (framePages : Nat) (m : Mmu) :
    Prop where
  tables : DirectTables image imageEnd m
  apart : Function.Injective image.frame
  inside : ∀ t, 0 < image.frame t ∧ image.frame t < firstPage.toNat / 4096
  aligned : firstPage.toNat % 4096 = 0
  low : pdCount imageEnd ≤ 32
  pages : framePages ≤ 1536
  small : m.frames.nFrames ≤ 2 ^ 24
  locked : ∀ f < firstPage.toNat / 4096 + framePages, m.frames.locked f = true ∧ f < m.frames.nFrames

/-- The tables of the kernel heap at boot. -/
def bootHeap (image : ImageTables) (l f : Nat) : Prop :=
  (l = 2 ∧ f = image.frame .heapBasePml) ∨ (l = 1 ∧ f = image.frame .heapBasePd) ∨
    (l = 0 ∧ ∃ q, f = image.frame (.heapBasePt q))

/-- The tables of the low addresses, by the path to them. -/
def BootTable (image : ImageTables) (imageEnd : BitVec 64) (p : Path) (f : Nat) : Prop :=
  (p = [] ∧ f = image.frame (.initialPages 0)) ∨ (p = [0] ∧ f = image.frame (.lowBasePmls 0)) ∨
    (p = [0, 0] ∧ f = image.frame (.lowBasePmls 1)) ∨
    ∃ (t : Fin 34) (j : Fin 512), t.val = j.val + 2 ∧ j.val < pdCount imageEnd ∧ p = [j, 0, 0] ∧
      f = image.frame (.lowBasePmls t)

section

variable {image : ImageTables} {imageEnd firstPage : BitVec 64} {framePages : Nat} {m : Mmu}

theorem Booted.frame_small (booted : Booted image imageEnd firstPage framePages m) (t : ImageTable) :
    image.frame t < 2 ^ 28 := by
  have below := (booted.inside t).2
  have used := (booted.locked (image.frame t) (by omega)).2
  have small := booted.small
  omega

/-- A link of the kernel to a table of the image. -/
theorem Booted.link (booted : Booted image imageEnd firstPage framePages m) (t : ImageTable) :
    (PagemapEntry.ofWord (kernelWord (tableAddress (image.frame t)))).present = true ∧
      (PagemapEntry.ofWord (kernelWord (tableAddress (image.frame t)))).size = false ∧
      (PagemapEntry.ofWord (kernelWord (tableAddress (image.frame t)))).page.toNat = image.frame t := by
  have small := booted.frame_small t
  obtain ⟨present, -, notLarge, -, page⟩ := kernelWord_parts (tableAddress_toNat small) small
  exact ⟨present, notLarge, page⟩

/-- The entry of a word that is chosen by a condition. -/
theorem ofWord_ite_present {p : Prop} [Decidable p] {word : BitVec 64}
    (present : (PagemapEntry.ofWord (if p then word else 0)).present = true) : p := by
  by_contra none
  rw [if_neg none] at present
  exact absurd present (by decide)

/-- The tables of the kernel heap at boot are in order. -/
theorem Booted.heap (booted : Booted image imageEnd firstPage framePages m)
    (tables : InitTables image imageEnd firstPage framePages m)
    (current : m.currentPml = image.frame (.initialPages 0)) :
    HeapTables (image.frame (.initialPages 0)) (image.frame .heapBasePml) (bootHeap image) m := by
  have used : ∀ t, m.frames.locked (image.frame t) = true := by
    intro t
    have below := (booted.inside t).2
    exact (booted.locked _ (by omega)).1
  have some_ := booted.inside .heapBasePml
  refine ⟨booted.small.trans (by decide), (booted.locked 0 (by omega)).1, current, ⟨used _, ?_⟩, ?_,
    Or.inl ⟨rfl, rfl⟩, ?_, ?_, fun l t i isTable present => ?_, fun t i isTable => ?_⟩
  · rintro l (⟨-, same⟩ | ⟨-, same⟩ | ⟨-, q, same⟩)
    all_goals cases booted.apart same
  · obtain ⟨present, -, page⟩ := booted.link .heapBasePml
    rw [entry_view, tables.root]
    exact ⟨present, page⟩
  · rintro l t (⟨-, rfl⟩ | ⟨-, rfl⟩ | ⟨-, q, rfl⟩)
    all_goals exact used _
  · rintro l l' t (⟨rfl, rfl⟩ | ⟨rfl, rfl⟩ | ⟨rfl, q, rfl⟩) (⟨rfl, same⟩ | ⟨rfl, same⟩ | ⟨rfl, q', same⟩)
    all_goals first
      | rfl
      | cases booted.apart same
  · rcases isTable with ⟨two, rfl⟩ | ⟨one, rfl⟩ | ⟨zero, -⟩
    · rw [entry_view, tables.heapPml] at present ⊢
      rw [if_pos (ofWord_ite_present present)]
      obtain ⟨-, notLarge, page⟩ := booted.link .heapBasePd
      obtain rfl : l = 1 := by omega
      exact ⟨notLarge, Or.inr (Or.inl ⟨rfl, page⟩)⟩
    · rw [entry_view, tables.heapPd] at present ⊢
      have inside := ofWord_ite_present present
      rw [if_pos inside]
      obtain ⟨-, notLarge, page⟩ := booted.link (.heapBasePt ⟨i, inside⟩)
      obtain rfl : l = 0 := by omega
      exact ⟨notLarge, Or.inr (Or.inr ⟨rfl, ⟨i, inside⟩, page⟩)⟩
    · cases zero
  · obtain ⟨q, rfl⟩ : ∃ q, t = image.frame (.heapBasePt q) := by
      rcases isTable with ⟨two, -⟩ | ⟨one, -⟩ | ⟨-, found⟩
      · cases two
      · cases one
      · exact found
    rw [entry_view, tables.heapPt]
    by_cases inside : 512 * q.val + i.val < framePages
    · have bound := (booted.locked (firstPage.toNat / 4096 + (512 * q.val + i.val)) (by omega)).2
      have small := booted.small
      have most := booted.pages
      obtain ⟨present, -, -, -, page⟩ := kernelWord_parts
        (bitmapAddress_toNat (by omega) booted.aligned (by omega))
        (show firstPage.toNat / 4096 + (512 * q.val + i.val) < 2 ^ 28 by omega)
      rw [if_pos inside]
      refine ⟨fun _ zero => ?_, fun _ => present⟩
      rw [zero] at page
      have none : (0 : BitVec 28).toNat = 0 := rfl
      omega
    · rw [if_neg inside]
      decide

/-! ## The low addresses -/

theorem child_present {below : Bool} {t f : Nat} {i : Fin 512} (leads : child m below t i = some f) :
    (m.entry t i).present = true ∧ (m.entry t i).page.toNat = f := by
  unfold child at leads
  split at leads
  · rename_i both
    exact ⟨(Bool.and_eq_true_iff.mp both).1, Option.some.inj leads⟩
  · cases leads

/-- The entries of the tables of the low addresses lead down to such tables. -/
theorem Booted.bootTable_step (booted : Booted image imageEnd firstPage framePages m) {i : Fin 512} {p : Path}
    {t : Nat} (user : UserTable (i :: p)) (isTable : BootTable image imageEnd p t)
    (present : (m.entry t i).present = true) :
    (m.entry t i).size = false ∧ BootTable image imageEnd (i :: p) (m.entry t i).page.toNat := by
  have tables := booted.tables
  rcases isTable with ⟨rfl, rfl⟩ | ⟨rfl, rfl⟩ | ⟨rfl, rfl⟩ | ⟨k, j, -, -, rfl, -⟩
  · -- an entry of the root, in its lower half
    have low : i.val < 256 := user.2
    have notHeap : i ≠ 510 := by
      rintro rfl
      exact absurd low (by decide)
    have notHigh : i ≠ 511 := by
      rintro rfl
      exact absurd low (by decide)
    rw [entry_view, tables.root, if_neg notHeap, if_neg notHigh] at present ⊢
    have zero := ofWord_ite_present present
    obtain ⟨-, notLarge, page⟩ := tableWord_entry (booted.frame_small (.lowBasePmls 0))
    rw [if_pos zero]
    exact ⟨notLarge, Or.inr (Or.inl ⟨by rw [zero], page⟩)⟩
  · rw [entry_view, tables.low] at present ⊢
    have zero := ofWord_ite_present present
    obtain ⟨-, notLarge, page⟩ := tableWord_entry (booted.frame_small (.lowBasePmls 1))
    rw [if_pos zero]
    exact ⟨notLarge, Or.inr (Or.inr (Or.inl ⟨by rw [zero], page⟩))⟩
  · rw [entry_view, tables.lowPd] at present ⊢
    have inside := ofWord_ite_present present
    have bound := booted.low
    obtain ⟨-, notLarge, page⟩ := booted.link (.lowBasePmls ⟨i.val + 2, by omega⟩)
    rw [if_pos inside]
    exact ⟨notLarge, Or.inr (Or.inr (Or.inr ⟨⟨i.val + 2, by omega⟩, i, rfl, inside, rfl, page⟩))⟩
  · exact absurd user.1 (by simp)

/-- The tables of the low addresses are those of the kernel image. -/
theorem Booted.bootTable (booted : Booted image imageEnd firstPage framePages m) {p : Path} {f : Nat}
    (user : UserTable p) (at_ : tableAt m (image.frame (.initialPages 0)) p = some f) :
    BootTable image imageEnd p f := by
  induction p generalizing f with
  | nil =>
      cases at_
      exact Or.inl ⟨rfl, rfl⟩
  | cons i p inductionHypothesis =>
      obtain ⟨t, above, leads⟩ := Option.bind_eq_some_iff.mp at_
      obtain ⟨present, rfl⟩ := child_present leads
      exact (booted.bootTable_step user (inductionHypothesis user.tail.1 above) present).2

/-- The place of a table says which one it is. -/
theorem BootTable.path (apart : Function.Injective image.frame) {p p' : Path} {f : Nat}
    (isTable : BootTable image imageEnd p f) (isTable' : BootTable image imageEnd p' f) : p = p' := by
  rcases isTable with ⟨rfl, rfl⟩ | ⟨rfl, rfl⟩ | ⟨rfl, rfl⟩ | ⟨k, j, value, -, rfl, rfl⟩ <;>
    rcases isTable' with ⟨rfl, same⟩ | ⟨rfl, same⟩ | ⟨rfl, same⟩ | ⟨k', j', value', -, rfl, same⟩
  all_goals simp only [apart.eq_iff, ImageTable.lowBasePmls.injEq, reduceCtorEq, Fin.ext_iff] at same
  · rfl
  · rfl
  · cases same
  · have zero : (0 : Fin 34).val = 0 := rfl
    omega
  · cases same
  · rfl
  · have one : (1 : Fin 34).val = 1 := rfl
    omega
  · have zero : (0 : Fin 34).val = 0 := rfl
    omega
  · have one : (1 : Fin 34).val = 1 := rfl
    omega
  · rw [show j = j' from Fin.ext (by omega)]

/-- An entry of a page table of the low addresses: a page of the kernel, or nothing. -/
theorem Booted.lowEntry (booted : Booted image imageEnd firstPage framePages m) {t : Fin 34} {j e : Fin 512}
    (value : t.val = j.val + 2) (below : j.val < pdCount imageEnd) :
    (m.entry (image.frame (.lowBasePmls t)) e).user = false ∧
      (m.entry (image.frame (.lowBasePmls t)) e).cow = false ∧
      if j.val = 0 ∧ e = 0 then m.entry (image.frame (.lowBasePmls t)) e = .zero
      else (m.entry (image.frame (.lowBasePmls t)) e).present = true ∧
        (m.entry (image.frame (.lowBasePmls t)) e).page.toNat = j.val * 512 + e.val := by
  rw [entry_view, booted.tables.lowPt t j e value below]
  by_cases null : j.val = 0 ∧ e = 0
  · rw [if_pos null, if_pos null]
    exact ⟨rfl, rfl, rfl⟩
  · have bound := booted.low
    obtain ⟨present, noUser, -, notMarked, page⟩ :=
      kernelWord_parts (lowAddress_toNat (j := j.val) (e := e.val) (by omega) e.isLt) (by omega)
    rw [if_neg null, if_neg null]
    exact ⟨noUser, notMarked, present, page⟩

/-- No page of the boot is open to user code. -/
theorem Booted.noPage (booted : Booted image imageEnd firstPage framePages m) {v : Path} (page : UserPage v) :
    pageAt m (image.frame (.initialPages 0)) v = none := by
  rw [Option.eq_none_iff_forall_ne_some]
  intro e maps
  have access := (pageAt_access maps).2
  cases v with
  | nil => cases maps
  | cons i p =>
      obtain ⟨t, above, found⟩ := Option.bind_eq_some_iff.mp maps
      obtain ⟨user, length⟩ := page.table
      have leaf : m.entry t i = e := by
        split at found
        · exact Option.some.inj found
        · cases found
      rcases booted.bootTable user above with ⟨rfl, -⟩ | ⟨rfl, -⟩ | ⟨rfl, -⟩ | ⟨k, j, value, below, rfl, rfl⟩
      · cases length
      · cases length
      · cases length
      · rw [← leaf, (booted.lowEntry value below).1] at access
        cases access

/-- The tables of the boot. -/
theorem Booted.userTables (booted : Booted image imageEnd firstPage framePages m) :
    Tables m {image.frame (.initialPages 0)} := by
  have isFrame : ∀ {p f}, BootTable image imageEnd p f → ∃ u, f = image.frame u := by
    rintro p f (⟨-, rfl⟩ | ⟨-, rfl⟩ | ⟨-, rfl⟩ | ⟨k, j, -, -, -, rfl⟩)
    all_goals exact ⟨_, rfl⟩
  refine ⟨booted.small.trans (by decide), (booted.locked 0 ?_).1, ?_, ?_, ?_, ?_⟩
  · have positive := (booted.inside .heapBasePd).2
    omega
  · rintro f ⟨root, rfl, p, user, at_⟩
    obtain ⟨u, rfl⟩ := isFrame (booted.bootTable user at_)
    have inside := booted.inside u
    have used := booted.locked (image.frame u) (by omega)
    exact ⟨used.1, used.2, Nat.pos_iff_ne_zero.mp inside.1⟩
  · rintro root rfl root' rfl p p' f user user' at_ at'
    exact ⟨rfl, (booted.bootTable user at_).path booted.apart (booted.bootTable user' at')⟩
  · rintro root rfl i p f user at_ present
    exact (booted.bootTable_step user (booted.bootTable user.tail.1 at_) present).1
  · rintro root rfl i p f page at_ -
    obtain ⟨user, length⟩ := page.table
    rcases booted.bootTable user at_ with ⟨rfl, -⟩ | ⟨rfl, -⟩ | ⟨rfl, -⟩ | ⟨k, j, value, below, rfl, rfl⟩
    · cases length
    · cases length
    · cases length
    · obtain ⟨-, notMarked, place⟩ := booted.lowEntry (e := i) value below
      refine ⟨notMarked, fun missing => ?_⟩
      split at place
      · rw [place]
        rfl
      · rw [place.1] at missing
        cases missing

/-! ## The state of the boot -/

/-- What `mmu_init` needs: the tables lie apart, in the image and cleared, the image ends below 64 MiB, and
the memory is at most 64 GiB and holds the image and the bitmap. -/
structure BootMemory (image : ImageTables) (imageEnd memSize firstPage : BitVec 64) (m : Mmu) : Prop where
  apart : Function.Injective image.frame
  inside : ∀ t, 0 < image.frame t ∧ 4096 * image.frame t < (pageCeil firstPage).toNat
  cleared : ClearedTables image m
  low : pdCount imageEnd ≤ 32
  memory : memSize.toNat ≤ 2 ^ 36
  fits : (pageCeil firstPage).toNat + (frameBytes (memSize >>> 12)).toNat ≤ memSize.toNat

/-- The pages of the bitmap. -/
theorem framePages_le {memSize : BitVec 64} (memory : memSize.toNat ≤ 2 ^ 36) :
    (frameBytes (memSize >>> 12) >>> 12).toNat ≤ 1024 := by
  have eight : (8 : BitVec 64).toNat = 8 := rfl
  have low : (0xFFF : BitVec 64).toNat = 0xFFF := rfl
  have bytes : (((memSize >>> 12) * 8) >>> 5).toNat ≤ 2 ^ 22 := by
    rw [BitVec.toNat_ushiftRight, BitVec.toNat_mul, BitVec.toNat_ushiftRight, eight,
      Nat.shiftRight_eq_div_pow, Nat.shiftRight_eq_div_pow]
    omega
  rw [frameBytes, pageCeil, BitVec.toNat_ushiftRight, pageSizeMask_toNat, BitVec.toNat_add, low,
    Nat.shiftRight_eq_div_pow]
  omega

theorem pageCeil_aligned (a : BitVec 64) : (pageCeil a).toNat % 4096 = 0 := by
  rw [pageCeil, pageSizeMask_toNat]
  omega

/-- The state of the boot before the first page of the heap is taken. -/
def beforeHeap (image : ImageTables) (imageEnd memSize firstPage : BitVec 64) (marked : List (BitVec 64))
    (m : Mmu) : Mmu :=
  { mmuInitTables image imageEnd (pageCeil firstPage) (frameBytes (memSize >>> 12) >>> 12).toNat m with
    currentPml := image.initialPages
    frames := mmuInitFrames memSize marked (pageCeil firstPage).toNat (frameBytes (memSize >>> 12)).toNat 0 }

/-- The boot before the first page of the heap is taken. -/
theorem BootMemory.booted {memSize : BitVec 64} (boot : BootMemory image imageEnd memSize firstPage m)
    (marked : List (BitVec 64)) :
    Booted image imageEnd (pageCeil firstPage) (frameBytes (memSize >>> 12) >>> 12).toNat
        (beforeHeap image imageEnd memSize firstPage marked m) ∧
      InitTables image imageEnd (pageCeil firstPage) (frameBytes (memSize >>> 12) >>> 12).toNat
        (beforeHeap image imageEnd memSize firstPage marked m) := by
  have pages := framePages_le boot.memory
  have aligned := pageCeil_aligned firstPage
  have bytes := pageCeil_aligned (((memSize >>> 12) * 8) >>> 5)
  have inside : ∀ t, 0 < image.frame t ∧ image.frame t < (pageCeil firstPage).toNat / 4096 := by
    intro t
    have place := boot.inside t
    exact ⟨place.1, by omega⟩
  have tables := mmuInitTables_view boot.apart boot.low (pages.trans (by decide)) boot.cleared
    (pageCeil firstPage)
  have memory := boot.memory
  have size : (beforeHeap image imageEnd memSize firstPage marked m).frames.nFrames =
      memSize.toNat / 4096 := by
    change (lockRun 0 _ (marked.foldl releaseAddress _)).nFrames = _
    rw [lockRun_nFrames, (releases_locked_iff marked _ 0).1, BitVec.toNat_ushiftRight,
      Nat.shiftRight_eq_div_pow]
  have init : InitTables image imageEnd (pageCeil firstPage) (frameBytes (memSize >>> 12) >>> 12).toNat
      (beforeHeap image imageEnd memSize firstPage marked m) :=
    ⟨⟨tables.root, tables.high, tables.large, tables.low, tables.lowPd, tables.lowPt⟩, tables.heapPml,
      tables.heapPd, tables.heapPt⟩
  refine ⟨⟨init.toDirectTables, boot.apart, inside, aligned, boot.low, pages.trans (by decide), ?_, ?_⟩, init⟩
  · rw [size]
    omega
  · intro f below
    have fits := boot.fits
    have before : f < memSize.toNat / 4096 ∧ 4096 * f < (pageCeil firstPage).toNat +
        (frameBytes (memSize >>> 12)).toNat := by
      rw [BitVec.toNat_ushiftRight, Nat.shiftRight_eq_div_pow] at below
      omega
    refine ⟨?_, by rw [size]; exact before.1⟩
    have small : (marked.foldl releaseAddress ⟨(memSize >>> 12).toNat, fun _ => true, 0⟩).nFrames =
        memSize.toNat / 4096 := by
      rw [(releases_locked_iff marked _ 0).1, BitVec.toNat_ushiftRight, Nat.shiftRight_eq_div_pow]
    refine (lockRun_below (by rw [small]; omega) _ f).mpr (Or.inr ⟨?_, before.2⟩)
    rw [small]
    exact before.1

/-! ## The pages of the kernel heap -/

/-- The tables do not depend on the counts. -/
theorem Booted.counts (booted : Booted image imageEnd firstPage framePages m) (counts : Nat → BitVec 8) :
    Booted image imageEnd firstPage framePages { m with memRefcounts := counts } := by
  have tables := booted.tables
  exact ⟨⟨tables.root, tables.high, tables.large, tables.low, tables.lowPd, tables.lowPt⟩, booted.apart,
    booted.inside, booted.aligned, booted.low, booted.pages, booted.small, booted.locked⟩

/-- All runs can start from a directory of the boot. -/
theorem Booted.start (booted : Booted image imageEnd firstPage framePages m)
    (uncounted : ∀ f, m.memRefcounts f = 0) : PrivateStart m (image.frame (.initialPages 0)) := by
  refine ⟨booted.userTables, fun v page e maps => ?_, fun v page w _ e e' maps => ?_, uncounted⟩
  · rw [booted.noPage page] at maps
    cases maps
  · rw [booted.noPage page] at maps
    cases maps

end

end Voxel.Proofs
