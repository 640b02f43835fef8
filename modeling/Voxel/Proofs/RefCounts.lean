/-
Module: Voxel.Proofs.RefCounts
Layer: Proofs
Purpose: The reference counts over whole runs of the memory machine: as long as no fork meets a full
  count, every mapped frame is locked and its count says how it is mapped. The counter has 8 bits, and
  `_copy_page` hands out an unlocked frame once it is full.
Trusted boundary: none
Main exports: PrivateStart, CountsSound, Memory.step_spaces, refcounts_sound
-/
import Voxel.Proofs.Free
import Voxel.Proofs.UserStores
import Voxel.Lib.Run

namespace Voxel.Proofs

open Voxel.Kernel
open Voxel.Lib

/-- One address space with private pages: every user page is writable, unmarked and alone in a locked
frame that is no table, and nothing is counted. -/
structure PrivateStart (m : Mmu) (root : Nat) : Prop where
  tables : Tables m {root}
  pages : ∀ v, UserPage v → ∀ e, pageAt m root v = some e →
    e.writable = true ∧ e.cow = false ∧ m.frames.locked e.page.toNat = true ∧
      e.page.toNat < m.frames.nFrames ∧ e.page.toNat ≠ 0 ∧ ¬ IsTable m {root} e.page.toNat
  apart : ∀ v, UserPage v → ∀ w, UserPage w → ∀ e e', pageAt m root v = some e →
    pageAt m root w = some e' → e.page = e'.page → v = w
  uncounted : ∀ frame, m.memRefcounts frame = 0

theorem PrivateStart.spaces {m : Mmu} {root : Nat} (start : PrivateStart m root) (strict : Prop) :
    AddressSpaces strict m {root} := by
  have found : ∀ {key mapping}, pagesOf m {root} key = some mapping →
      key.1 = root ∧ UserPage key.2 ∧ ∃ e, pageAt m root key.2 = some e ∧ mappingOf e = mapping := by
    intro key mapping maps
    obtain ⟨member, page, e, mapsHere, same⟩ := pagesOf_eq_some.mp maps
    have isRoot : key.1 = root := member
    exact ⟨isRoot, page, e, isRoot ▸ mapsHere, same⟩
  refine ⟨start.tables, ?_, ?_, ?_⟩
  · intro key mapping maps
    obtain ⟨-, page, e, mapsHere, rfl⟩ := found maps
    exact (start.pages _ page e mapsHere).2.2
  · intro frame
    have zero : refsOf m frame = 0 := by
      rw [refsOf, start.uncounted]
      rfl
    by_cases used : ∃ key mapping, uses (pagesOf m {root}) frame key = some mapping
    · obtain ⟨key, mapping, used⟩ := used
      obtain ⟨maps, inFrame⟩ := uses_eq_some.mp used
      obtain ⟨isRoot, page, e, mapsHere, rfl⟩ := found maps
      have plain := start.pages _ page e mapsHere
      refine .owned key _ used plain.1 (fun other isOther => ?_) fun _ => ⟨zero, plain.2.1⟩
      cases used' : uses (pagesOf m {root}) frame other with
      | none => rfl
      | some mapping' =>
          obtain ⟨maps', inFrame'⟩ := uses_eq_some.mp used'
          obtain ⟨isRoot', page', e', mapsHere', rfl⟩ := found maps'
          have samePage : e'.page = e.page := BitVec.eq_of_toNat_eq (inFrame'.trans inFrame.symm)
          have samePath := start.apart _ page' _ page e' e mapsHere' mapsHere samePage
          exact absurd (Prod.ext (isRoot'.trans isRoot.symm) samePath) isOther
    · push Not at used
      exact .free (fun key => Option.eq_none_iff_forall_ne_some.mpr (used key)) zero
  · intro key other mapping mapping' maps maps' same
    obtain ⟨-, page, e, mapsHere, rfl⟩ := found maps
    obtain ⟨-, page', e', mapsHere', rfl⟩ := found maps'
    exact start.apart _ page _ page' e e' mapsHere mapsHere' (BitVec.eq_of_toNat_eq same)

/-- The user entries that map a frame. -/
def entriesOf (s : Memory) (frame : Nat) : Set (Nat × Path) :=
  {key | key.1 ∈ s.live ∧ UserPage key.2 ∧
    ∃ e, pageAt s.mmu key.1 key.2 = some e ∧ e.page.toNat = frame}

/-- Mapped frames are locked; a frame without a count has at most one entry, a writable one; a frame
with a count has that many entries, all of them read-only and marked. -/
structure CountsSound (s : Memory) : Prop where
  locked : ∀ frame, (entriesOf s frame).Nonempty → s.mmu.frames.locked frame = true
  uncounted : ∀ frame, s.mmu.memRefcounts frame = 0 → (entriesOf s frame).Subsingleton ∧
    ∀ key ∈ entriesOf s frame, ∀ e, pageAt s.mmu key.1 key.2 = some e → e.writable = true
  counted : ∀ frame, s.mmu.memRefcounts frame ≠ 0 →
    (entriesOf s frame).encard = (s.mmu.memRefcounts frame).toNat ∧
    ∀ key ∈ entriesOf s frame, ∀ e, pageAt s.mmu key.1 key.2 = some e →
      e.writable = false ∧ e.cow = true

theorem entriesOf_eq (s : Memory) (frame : Nat) :
    entriesOf s frame = {key | uses (pagesOf s.mmu s.live) frame key ≠ none} := by
  ext key
  constructor
  · rintro ⟨member, page, e, maps, inFrame⟩
    have used := uses_eq_some.mpr ⟨@pagesOf_of_page _ s.live _ _ _ member page maps, inFrame⟩
    exact Option.ne_none_iff_exists'.mpr ⟨_, used⟩
  · intro used
    obtain ⟨mapping, used⟩ := Option.ne_none_iff_exists'.mp used
    obtain ⟨maps, inFrame⟩ := uses_eq_some.mp used
    obtain ⟨member, page, e, mapsHere, rfl⟩ := pagesOf_eq_some.mp maps
    exact ⟨member, page, e, mapsHere, inFrame⟩

/-- What the invariant says about the counts. -/
theorem CountsSound.of_spaces {s : Memory} (spaces : AddressSpaces True s.mmu s.live) :
    CountsSound s := by
  have using_ : ∀ {frame key}, key ∈ entriesOf s frame → ∀ {e},
      pageAt s.mmu key.1 key.2 = some e → uses (pagesOf s.mmu s.live) frame key =
        some (mappingOf e) := by
    rintro frame key ⟨member, page, e', maps', inFrame⟩ e maps
    rw [maps] at maps'
    cases maps'
    exact uses_eq_some.mpr ⟨pagesOf_of_page member page maps, inFrame⟩
  refine ⟨?_, ?_, ?_⟩
  · rintro frame ⟨key, member, page, e, maps, rfl⟩
    exact (spaces.mapped _ _ (@pagesOf_of_page _ s.live _ _ _ member page maps)).1
  · intro frame zero
    cases spaces.counted.state frame with
    | free nobody =>
        have empty : entriesOf s frame = ∅ := by
          rw [entriesOf_eq]
          ext key
          simp [nobody key]
        rw [empty]
        exact ⟨Set.subsingleton_empty, fun key absurdity => absurdity.elim⟩
    | owned owner mapping maps writable alone =>
        have isOwner : ∀ key ∈ entriesOf s frame, key = owner := by
          intro key member
          rw [entriesOf_eq] at member
          by_contra other
          exact member (alone key other)
        refine ⟨fun key member key' member' =>
          (isOwner key member).trans (isOwner key' member').symm, fun key member e maps' => ?_⟩
        have used := using_ member maps'
        rw [isOwner key member, maps] at used
        rw [Option.some.inj used] at writable
        exact writable
    | shared positive =>
        rw [refsOf, zero] at positive
        exact absurd positive (Nat.lt_irrefl 0)
  · intro frame nonzero
    have positive : refsOf s.mmu frame ≠ 0 := fun zero =>
      nonzero (BitVec.eq_of_toNat_eq (by simpa [refsOf] using zero))
    cases spaces.counted.state frame with
    | free nobody zero => exact absurd zero positive
    | owned owner mapping maps writable alone plain => exact absurd (plain trivial).1 positive
    | shared _ encard marked =>
        rw [entriesOf_eq]
        refine ⟨encard, fun key member e maps => ?_⟩
        rw [← entriesOf_eq] at member
        exact marked key _ (using_ member maps)

/-! ## Runs -/

/-- A fork copies no read-only page whose count is full. -/
def Cloneable (s : Memory) : MemoryOp → Prop
  | .fork parent _ => ∀ v, UserPage v → ∀ e, pageAt s.mmu parent v = some e → e.writable = false →
      s.mmu.memRefcounts e.page.toNat ≠ 255
  | _ => True

theorem Cloneable.unsaturated {s : Memory} {parent child : Nat}
    (cloneable : Cloneable s (.fork parent child)) :
    Unsaturated s.mmu parent fun _ => True := fun v page _ => cloneable v page

/-- Every operation keeps the invariant of the address spaces. -/
theorem Memory.step_spaces {s t : Memory} {op : MemoryOp}
    (spaces : AddressSpaces True s.mmu s.live) (cloneable : Cloneable s op)
    (stepped : s.step op = some t) : AddressSpaces True t.mmu t.live := by
  cases op with
  | fork parent child =>
      obtain ⟨member, m, cloned, rfl⟩ := Memory.fork_eq_some.mp stepped
      rw [Finset.coe_insert]
      exact (mmuClone_spec spaces member cloneable.unsaturated cloned).spaces
  | copyOnWrite root address =>
      obtain ⟨member, place, failed, m, faulted, rfl⟩ := Memory.copyOnWrite_eq_some.mp stepped
      have started := spaces.setCurrent root
      by_cases low : (pml4Entry address).val < 256
      · have same := fun v => (@walks_of_phys s.mmu
          { s.mmu with currentPml := root } rfl root v).2.1
        exact (mmuCopyOnWrite_spec started member low (fun _ _ _ => trivial) faulted).1.spaces
      · have unmarked := place.resolve_left fun half =>
          low (pml4Entry_low (userHalf_iff.mp half))
        rw [(mmuCopyOnWrite_of_unmarked unmarked faulted).2]
        exact started
  | write root address value =>
      obtain ⟨member, half, m, wrote, rfl⟩ := Memory.write_eq_some.mp stepped
      exact (userWrite_spec spaces member (pml4Entry_low (userHalf_iff.mp half)) wrote).spaces
  | map root address flags =>
      obtain ⟨member, half, writable, user, table, i, m, looked, absent, available, rfl⟩ :=
        Memory.map_eq_some stepped
      have low := pml4Entry_low (userHalf_iff.mp half)
      obtain ⟨paved, table', found, at_⟩ :=
        mmuLookupFrame_make (spaces.setCurrent root) member low looked
      cases found
      exact (mmuAllocateFrameEx_fresh paved.quiet.spaces member (addrPath_user low) at_ absent
        writable user available).spaces
  | exit root =>
      obtain ⟨member, rfl⟩ := Memory.exit_eq_some.mp stepped
      rw [Finset.coe_erase]
      exact (mmuFree_spec spaces member).1

/-! ## A process with one page

The frames below a bound are in use, and one path leads to the only page. A fork of it takes the next
four frames; the page is the fifth when its count is full. -/

/-- A bitmap whose used frames are the ones below a bound. -/
def usedBelow (limit bound : Nat) : FrameMap := ⟨limit, fun f => decide (f < bound), bound⟩

theorem mmuRequestFrame_usedBelow {limit bound : Nat} (room : bound < 32 * (limit / 32)) :
    mmuRequestFrame (usedBelow limit bound) =
      some (bound, { usedBelow limit bound with lowestAvailable := bound + 1 }) := by
  have found : (List.range' (32 * (bound / 32))
      (32 * (limit / 32) - 32 * (bound / 32))).find? (fun f => !decide (f < bound)) = some bound := by
    rw [List.find?_range'_eq_some]
    refine ⟨by simp, ?_, ?_⟩
    · rw [List.mem_range'_1]
      omega
    · intro j _ below
      simpa using below
  simp [mmuRequestFrame, usedBelow, found]

theorem mmuLockFrame_usedBelow {limit bound : Nat} (inside : bound < limit) :
    mmuLockFrame { usedBelow limit bound with lowestAvailable := bound + 1 } bound =
      usedBelow limit (bound + 1) := by
  rw [mmuLockFrame, if_pos (show bound < (usedBelow limit bound).nFrames from inside)]
  simp only [usedBelow, FrameMap.mk.injEq, true_and, and_true]
  funext f
  by_cases same : f = bound
  · simp [same]
  · rw [Function.update_of_ne same]
    exact decide_eq_decide.mpr (by omega)

/-- A table with one entry, its first. -/
def only (word : BitVec 64) (i : Fin 512) : BitVec 64 := if i = 0 then word else 0

theorem only_absent {m : Mmu} {table : Nat} {word : BitVec 64} (single : m.phys table = only word)
    {i : Fin 512} (later : i ≠ 0) : m.entry table i = .zero := by
  rw [Mmu.entry, single, only, if_neg later]
  rfl

/-- The entries 1 to 511. -/
theorem later_ne_zero {i : Nat} (positive : 1 ≤ i) (inside : i < 512) : Fin.ofNat 512 i ≠ 0 := by
  intro same
  have value := congrArg Fin.val same
  simp only [Fin.val_ofNat, Fin.val_zero] at value
  omega

/-- A loop in which only the first iteration has something to do. -/
theorem forRange_first {body : Nat → Mmu → Option Mmu} {count : Nat} {m m' : Mmu}
    (first : body 0 m = some m') (idle : ∀ i, 1 ≤ i → i < count + 1 → body i m' = some m') :
    forRange body 0 (count + 1) m = some m' := by
  rw [forRange, first]
  exact forRange_skip fun i low high => idle i low (by omega)

/-- The loop over a page table with one page. -/
theorem cloneTable_page {tableIn tableOut : Nat} {m m' : Mmu} {word : BitVec 64}
    (cloned : clonePageEntry tableIn tableOut m 0 = some m') (single : m'.phys tableIn = only word) :
    cloneTable 0 512 tableIn tableOut m = some m' := by
  rw [cloneTable]
  refine forRange_first cloned fun i positive inside => ?_
  rw [clonePageEntry, only_absent single (later_ne_zero positive inside)]
  rfl

/-- The loop over a table with one table below it. -/
theorem cloneTable_table {level count tableIn tableOut newPage : Nat} {m m1 m' : Mmu}
    {word : BitVec 64} (small : count < 512) (present : (m.entry tableIn 0).present = true)
    (made : makeTable m tableOut 0 = some (newPage, m1))
    (cloned : cloneTable level 512 (m.entry tableIn 0).page.toNat newPage m1 = some m')
    (single : m'.phys tableIn = only word) :
    cloneTable (level + 1) (count + 1) tableIn tableOut m = some m' := by
  rw [cloneTable]
  refine forRange_first ?_ fun i positive inside => ?_
  · have first : (m.entry tableIn (Fin.ofNat 512 0)).present = true := present
    have linked : makeTable m tableOut (Fin.ofNat 512 0) = some (newPage, m1) := made
    simp only [first, if_true, linked]
    exact cloned
  · rw [only_absent single (later_ne_zero positive (by omega))]
    rfl

theorem makeTable_usedBelow {m : Mmu} {limit bound table : Nat} {i : Fin 512}
    (frames : m.frames = usedBelow limit bound) (room : bound < 32 * (limit / 32)) :
    ∃ m', makeTable m table i = some (bound, m') ∧ Linked m m' table i bound ∧
      m'.frames = usedBelow limit (bound + 1) := by
  have inside : bound < limit := by omega
  have made : makeTable m table i = some (bound, (((Mmu.lockFrame { m with
      frames := { usedBelow limit bound with lowestAvailable := bound + 1 } } bound).setFrame bound
        fun _ => 0).setWord table i (tableWord bound))) := by
    rw [makeTable, Mmu.requestFrame, frames, mmuRequestFrame_usedBelow room]
  exact ⟨_, made, makeTable_spec made, mmuLockFrame_usedBelow inside⟩

/-- One process whose only page is at the first path. -/
structure OnePage (m : Mmu) (word : BitVec 64) : Prop where
  root : m.phys 1 = only (tableWord 2)
  pdp : m.phys 2 = only (tableWord 3)
  pd : m.phys 3 = only (tableWord 4)
  pt : m.phys 4 = only word

/-- The path of the page. -/
def firstPath : Path := [0, 0, 0, 0]

theorem OnePage.of_phys {m m' : Mmu} {word : BitVec 64} (one : OnePage m word)
    (same : ∀ f, f < 5 → m'.phys f = m.phys f) : OnePage m' word where
  root := (same 1 (by decide)).trans one.root
  pdp := (same 2 (by decide)).trans one.pdp
  pd := (same 3 (by decide)).trans one.pd
  pt := (same 4 (by decide)).trans one.pt

/-- The entries of the process. -/
theorem OnePage.entry {m : Mmu} {word : BitVec 64} (one : OnePage m word) :
    m.entry 1 0 = .ofWord (tableWord 2) ∧ m.entry 2 0 = .ofWord (tableWord 3) ∧
      m.entry 3 0 = .ofWord (tableWord 4) ∧ m.entry 4 0 = .ofWord word := by
  simp only [Mmu.entry, one.root, one.pdp, one.pd, one.pt, only, if_true, and_self]

/-- A clone of the process comes down to `_copy_page` on its page. -/
theorem mmuClone_onePage {m : Mmu} {limit bound : Nat} {word : BitVec 64} (one : OnePage m word)
    (frames : m.frames = usedBelow limit bound) (apart : 5 ≤ bound)
    (room : bound + 4 < 32 * (limit / 32))
    (access : (PagemapEntry.ofWord word).present = true ∧ (PagemapEntry.ofWord word).user = true) :
    ∃ m3, OnePage m3 word ∧ m3.frames = usedBelow limit (bound + 4) ∧
      m3.memRefcounts = m.memRefcounts ∧ (∀ f, f < bound → m3.phys f = m.phys f) ∧
      (∀ m', copyPage m3 4 (bound + 3) 0 = some m' → ∀ word', OnePage m' word' →
        mmuClone m (some 1) = some (bound, m')) ∧
      ∀ f, bound ≤ f → f < bound + 3 → m3.entry f 0 = .ofWord (tableWord (f + 1)) := by
  obtain ⟨m0, start⟩ : ∃ m0, m0 = (Mmu.lockFrame { m with
      frames := { usedBelow limit bound with lowestAvailable := bound + 1 } } bound).setFrame bound
        (fun i => if i.val < 256 then 0 else m.phys 1 i) := ⟨_, rfl⟩
  have frames0 : m0.frames = usedBelow limit (bound + 1) := by
    rw [start]
    exact mmuLockFrame_usedBelow (by omega)
  have phys0 : ∀ f, f ≠ bound → m0.phys f = m.phys f := by
    intro f other
    simp [start, Mmu.setFrame, Mmu.lockFrame, other]
  obtain ⟨m1, made1, linked1, frames1⟩ :=
    @makeTable_usedBelow _ _ _ bound 0 frames0 (by omega)
  obtain ⟨m2, made2, linked2, frames2⟩ :=
    @makeTable_usedBelow _ _ _ (bound + 1) 0 frames1 (by omega)
  obtain ⟨m3, made3, linked3, frames3⟩ :=
    @makeTable_usedBelow _ _ _ (bound + 2) 0 frames2 (by omega)
  have phys1 : ∀ f, f < bound → m1.phys f = m0.phys f := fun f below =>
    funext fun j => linked1.others f j (by omega) (Or.inl (by omega))
  have phys2 : ∀ f, f < bound + 1 → m2.phys f = m1.phys f := fun f below =>
    funext fun j => linked2.others f j (by omega) (Or.inl (by omega))
  have phys3 : ∀ f, f < bound + 2 → m3.phys f = m2.phys f := fun f below =>
    funext fun j => linked3.others f j (by omega) (Or.inl (by omega))
  have one0 : OnePage m0 word := one.of_phys fun f below => phys0 f (by omega)
  have one1 : OnePage m1 word := one0.of_phys fun f below => phys1 f (by omega)
  have one2 : OnePage m2 word := one1.of_phys fun f below => phys2 f (by omega)
  have one3 : OnePage m3 word := one2.of_phys fun f below => phys3 f (by omega)
  have refs0 : m0.memRefcounts = m.memRefcounts := by rw [start]; rfl
  refine ⟨m3, one3, frames3, ?_, ?_, ?_, ?_⟩
  · rw [linked3.refcounts, linked2.refcounts, linked1.refcounts, refs0]
  · intro f below
    rw [phys3 f (by omega), phys2 f (by omega), phys1 f below, phys0 f (by omega)]
  · intro m' copied word' one'
    have leaf : clonePageEntry 4 (bound + 3) m3 0 = some m' := by
      rw [clonePageEntry, one3.entry.2.2.2, if_pos access.1, if_pos access.2]
      exact copied
    have level1 : cloneTable 1 512 3 (bound + 2) m2 = some m' := by
      refine @cloneTable_table _ 511 _ _ _ _ _ _ _ (by decide) ?_ made3 ?_ one'.pd
      · rw [one2.entry.2.2.1]
        exact (tableWord_entry (by decide)).1
      · rw [one2.entry.2.2.1, (tableWord_entry (by decide)).2.2]
        exact cloneTable_page leaf one'.pt
    have level2 : cloneTable 2 512 2 (bound + 1) m1 = some m' := by
      refine @cloneTable_table _ 511 _ _ _ _ _ _ _ (by decide) ?_ made2 ?_ one'.pdp
      · rw [one1.entry.2.1]
        exact (tableWord_entry (by decide)).1
      · rw [one1.entry.2.1, (tableWord_entry (by decide)).2.2]
        exact level1
    have level3 : cloneTable 3 256 1 bound m0 = some m' := by
      refine @cloneTable_table _ 255 _ _ _ _ _ _ _ (by decide) ?_ made1 ?_ one'.root
      · rw [one0.entry.1]
        exact (tableWord_entry (by decide)).1
      · rw [one0.entry.1, (tableWord_entry (by decide)).2.2]
        exact level2
    rw [mmuClone, Mmu.requestFrame, frames, mmuRequestFrame_usedBelow (by omega)]
    dsimp only [Option.getD_some]
    rw [← start, level3]
    rfl
  · intro f low high
    rcases (by omega : f = bound ∨ f = bound + 1 ∨ f = bound + 2) with rfl | rfl | rfl
    · rw [Mmu.entry, phys3 _ (by omega), phys2 _ (by omega), linked1.link]
    · rw [Mmu.entry, phys3 _ (by omega), linked2.link]
    · rw [Mmu.entry, linked3.link]

/-- Three links in a row. -/
theorem tableAt_links {m : Mmu} {bound : Nat} (small : bound + 3 < 2 ^ 28)
    (links : ∀ f, bound ≤ f → f < bound + 3 → m.entry f 0 = .ofWord (tableWord (f + 1))) :
    tableAt m bound [0, 0, 0] = some (bound + 3) := by
  have word1 := @tableWord_entry (bound + 1) (by omega)
  have word2 := @tableWord_entry (bound + 2) (by omega)
  have word3 := @tableWord_entry (bound + 3) (by omega)
  simp [tableAt, child, links bound (by omega) (by omega), links (bound + 1) (by omega) (by omega),
    links (bound + 2) (by omega) (by omega), word1, word2, word3]

theorem OnePage.links {m : Mmu} {word : BitVec 64} (one : OnePage m word) (f : Nat) (low : 1 ≤ f)
    (high : f < 1 + 3) : m.entry f 0 = .ofWord (tableWord (f + 1)) := by
  rcases (by omega : f = 1 ∨ f = 2 ∨ f = 3) with rfl | rfl | rfl
  · exact one.entry.1
  · exact one.entry.2.1
  · exact one.entry.2.2.1

theorem OnePage.walk {m : Mmu} {word : BitVec 64} (one : OnePage m word) :
    tableAt m 1 [0, 0, 0] = some 4 := tableAt_links (by decide) one.links

/-- The machine of the examples: frames 1 to 4 hold the tables of process 1, and the word maps its
page. -/
def onePageOf (limit : Nat) (word : BitVec 64) : Mmu where
  frames := usedBelow limit 6
  memRefcounts := fun _ => 0
  phys := fun frame =>
    if frame = 1 then only (tableWord 2)
    else if frame = 2 then only (tableWord 3)
    else if frame = 3 then only (tableWord 4)
    else if frame = 4 then only word
    else fun _ => 0
  currentPml := 1

/-- The machine with a private page in frame 5. -/
def onePage (limit : Nat) : Mmu := onePageOf limit (tableWord 5)

theorem onePageOf_onePage (limit : Nat) (word : BitVec 64) : OnePage (onePageOf limit word) word :=
  ⟨rfl, rfl, rfl, rfl⟩

theorem onePage_onePage (limit : Nat) : OnePage (onePage limit) (tableWord 5) :=
  onePageOf_onePage limit _

/-- The page is present, writable, accessible and unmarked. -/
theorem pageWord_entry : (PagemapEntry.ofWord (tableWord 5)).present = true ∧
    (PagemapEntry.ofWord (tableWord 5)).user = true ∧
    (PagemapEntry.ofWord (tableWord 5)).writable = true ∧
    (PagemapEntry.ofWord (tableWord 5)).cow = false ∧
    (PagemapEntry.ofWord (tableWord 5)).page.toNat = 5 := by
  decide

/-- The upper tables of the machine, one on each level. -/
theorem OnePage.upper {m : Mmu} {word : BitVec 64} (one : OnePage m word) {depth : Nat}
    (upper : depth < 3) : m.phys (depth + 1) = only (tableWord (depth + 2)) := by
  rcases depth with _ | _ | _ | depth
  · exact one.root
  · exact one.pdp
  · exact one.pd
  · omega

theorem OnePage.tableAt {m : Mmu} {word : BitVec 64} (one : OnePage m word) {p : Path}
    (user : UserTable p) {table : Nat} (at_ : tableAt m 1 p = some table) :
    p = List.replicate p.length 0 ∧ table = p.length + 1 := by
  induction p generalizing table with
  | nil =>
      cases at_
      exact ⟨rfl, rfl⟩
  | cons i p inductionHypothesis =>
      obtain ⟨above, atAbove, found⟩ := Option.bind_eq_some_iff.mp at_
      obtain ⟨zeros, rfl⟩ := inductionHypothesis user.tail.1 atAbove
      have single := one.upper user.tail.2
      have small : p.length + 2 < 2 ^ 28 := by
        have depth := user.tail.2
        omega
      by_cases first : i = 0
      · subst first
        rw [child, Mmu.entry, single, only, if_pos rfl] at found
        simp only [tableWord_entry small] at found
        refine ⟨?_, ?_⟩
        · rw [List.length_cons, List.replicate_succ, ← zeros]
        · simp at found
          simp
          omega
      · rw [child, only_absent single first] at found
        cases found

/-- The page of the machine. -/
theorem OnePage.pageAt {m : Mmu} {word : BitVec 64} (one : OnePage m word) {v : Path}
    (page : UserPage v) {e : PagemapEntry} (maps : pageAt m 1 v = some e) :
    v = firstPath ∧ e = .ofWord word := by
  cases v with
  | nil => cases maps
  | cons i p =>
      obtain ⟨table, at_, found⟩ := Option.bind_eq_some_iff.mp maps
      obtain ⟨zeros, rfl⟩ := one.tableAt page.table.1 at_
      rw [page.table.2] at zeros found
      by_cases first : i = 0
      · subst first
        rw [one.entry.2.2.2] at found
        split at found
        · exact ⟨by rw [zeros]; rfl, (Option.some.inj found).symm⟩
        · cases found
      · rw [only_absent one.pt first] at found
        cases found

theorem onePageOf_tables {limit : Nat} {word : BitVec 64} (room : 6 ≤ limit)
    (small : limit ≤ 2 ^ 28) (clean : CleanEntry (.ofWord word)) :
    Tables (onePageOf limit word) {1} ∧
      ∀ table, IsTable (onePageOf limit word) {1} table → table < 5 ∧ table ≠ 0 := by
  have one := onePageOf_onePage limit word
  have isTable : ∀ {table}, IsTable (onePageOf limit word) {1} table → table < 5 ∧ table ≠ 0 := by
    rintro table ⟨root, rfl, p, user, at_⟩
    have depth := user.1
    have level := (one.tableAt user at_).2
    omega
  have locked : ∀ {frame}, frame < 6 → (onePageOf limit word).frames.locked frame = true :=
    fun below => decide_eq_true below
  refine ⟨⟨small, locked (by decide), ?_, ?_, ?_, ?_⟩, fun _ => isTable⟩
  · intro table isTableHere
    obtain ⟨below, nonzero⟩ := isTable isTableHere
    exact ⟨locked (by omega), lt_of_lt_of_le (by omega) room, nonzero⟩
  · rintro root rfl root' rfl p p' table user user' at_ at_'
    obtain ⟨zeros, level⟩ := one.tableAt user at_
    obtain ⟨zeros', level'⟩ := one.tableAt user' at_'
    have sameLength : p.length = p'.length := by omega
    exact ⟨rfl, by rw [zeros, zeros', sameLength]⟩
  · rintro root rfl i p table user at_ present
    obtain ⟨-, rfl⟩ := one.tableAt user.tail.1 at_
    have single := one.upper user.tail.2
    by_cases first : i = 0
    · subst first
      rw [Mmu.entry, single, only, if_pos rfl]
      have depth := user.tail.2
      exact (tableWord_entry (by omega)).2.1
    · rw [only_absent single first] at present
      cases present
  · rintro root rfl i p table page at_
    obtain ⟨-, rfl⟩ := one.tableAt page.table.1 at_
    rw [page.table.2]
    by_cases first : i = 0
    · subst first
      rw [one.entry.2.2.2]
      exact clean
    · rw [only_absent one.pt first]
      exact cleanEntry_zero

theorem onePage_start {limit : Nat} (room : 6 ≤ limit) (small : limit ≤ 2 ^ 28) :
    PrivateStart (onePage limit) 1 := by
  have one := onePage_onePage limit
  obtain ⟨present, user, writable, unmarked, frame⟩ := pageWord_entry
  obtain ⟨tables, isTable⟩ := @onePageOf_tables _ (tableWord 5) room small
    (.of_user (by rw [present, user]; rfl))
  refine ⟨tables, ?_, ?_, fun _ => rfl⟩
  · intro v page e maps
    obtain ⟨-, rfl⟩ := one.pageAt page maps
    rw [frame]
    refine ⟨writable, unmarked, decide_eq_true (by decide : 5 < 6), lt_of_lt_of_le (by decide) room,
      by decide, fun isTableHere => ?_⟩
    exact absurd (isTable 5 isTableHere).1 (by decide)
  · intro v page w page' e e' maps maps' _
    exact (one.pageAt page maps).1.trans (one.pageAt page' maps').1.symm

/-! ## A full count -/

/-- The page after the first fork: shared and marked. -/
def sharedWord : BitVec 64 := { PagemapEntry.ofWord (tableWord 5) with
  writable := false
  cow := true }.toWord

theorem sharedWord_entry : PagemapEntry.ofWord sharedWord = { PagemapEntry.ofWord (tableWord 5) with
    writable := false
    cow := true } := PagemapEntry.ofWord_toWord _

/-- Process 1 after `n` forks. -/
structure Forked (n : Nat) (m : Mmu) : Prop where
  tables : OnePage m sharedWord
  frames : m.frames = usedBelow 2048 (6 + 4 * n)
  count : m.memRefcounts 5 = BitVec.ofNat 8 (n + 1)

theorem OnePage.setPage {m m' : Mmu} {word word' : BitVec 64} (one : OnePage m word)
    (same : ∀ f, f < 4 → m'.phys f = m.phys f) (page : m'.phys 4 = only word') : OnePage m' word' where
  root := (same 1 (by decide)).trans one.root
  pdp := (same 2 (by decide)).trans one.pdp
  pd := (same 3 (by decide)).trans one.pd
  pt := page

/-- The first fork: the child's tables are in the frames 6 to 9. -/
theorem fork_first : ∃ m', mmuClone (onePage 2048) (some 1) = some (6, m') ∧ Forked 1 m' ∧
    (∀ f, 6 ≤ f → f < 9 → m'.entry f 0 = .ofWord (tableWord (f + 1))) ∧
    m'.entry 9 0 = .ofWord sharedWord := by
  have one := onePage_onePage 2048
  obtain ⟨present, user, writable, -, frame⟩ := pageWord_entry
  obtain ⟨m3, one3, frames3, refs3, -, comes, links3⟩ := mmuClone_onePage one
    (show (onePage 2048).frames = usedBelow 2048 6 from rfl) (by decide) (by decide)
    ⟨present, user⟩
  have zero : m3.memRefcounts 5 = 0 := by rw [refs3]; rfl
  have entry := one3.entry.2.2.2
  obtain ⟨marked, markedEq⟩ : ∃ marked, marked = (m3.setRefcount 5 2).setEntry 4 0
    { PagemapEntry.ofWord (tableWord 5) with writable := false, cow := true } := ⟨_, rfl⟩
  have copied : copyPage m3 4 9 0 = some (marked.setWord 9 0 (marked.phys 4 0)) := by
    rw [copyPage, entry, if_pos writable, frame, if_neg (by simp [zero]), markedEq]
  have phys : ∀ f, f ≠ 4 → f ≠ 9 → (marked.setWord 9 0 (marked.phys 4 0)).phys f = m3.phys f := by
    intro f notIn notOut
    rw [setWord_phys_frame _ _ notOut, markedEq, Mmu.setEntry, setWord_phys_frame _ _ notIn]
    rfl
  have page : marked.phys 4 = only sharedWord := by
    funext i
    by_cases first : i = 0
    · subst first
      simp [markedEq, Mmu.setEntry, only, sharedWord]
    · rw [markedEq, Mmu.setEntry, setWord_phys_of_ne _ _ (Or.inr first)]
      simp [Mmu.setRefcount, one3.pt, only, first]
  have forked : Forked 1 (marked.setWord 9 0 (marked.phys 4 0)) := by
    refine ⟨one3.setPage (fun f below => phys f (by omega) (by omega)) ?_, ?_, ?_⟩
    · rw [setWord_phys_frame _ _ (by decide), page]
    · rw [markedEq]
      exact frames3
    · rw [markedEq]
      simp [Mmu.setWord, Mmu.setEntry, Mmu.setRefcount]
  refine ⟨_, comes _ copied _ forked.tables, forked, fun f low high => ?_, ?_⟩
  · rw [entry_congr (congrFun (phys f (by omega) (by omega)) 0)]
    exact links3 f low high
  · rw [Mmu.entry, setWord_phys_self, page]
    rfl

/-- What a later fork finds in the page entry. -/
theorem Forked.page : (PagemapEntry.ofWord sharedWord).present = true ∧
    (PagemapEntry.ofWord sharedWord).user = true ∧
    (PagemapEntry.ofWord sharedWord).writable = false ∧
    (PagemapEntry.ofWord sharedWord).page.toNat = 5 := by
  obtain ⟨present, user, -, -, frame⟩ := pageWord_entry
  rw [sharedWord_entry]
  exact ⟨present, user, rfl, frame⟩

/-- One more fork, while the count has room. -/
theorem fork_again {n : Nat} {m : Mmu} (forked : Forked n m) (room : n < 254) :
    ∃ m', mmuClone m (some 1) = some (6 + 4 * n, m') ∧ Forked (n + 1) m' := by
  obtain ⟨present, user, readonly, frame⟩ := Forked.page
  obtain ⟨m3, one3, frames3, refs3, -, comes, -⟩ := mmuClone_onePage forked.tables forked.frames
    (by omega) (by omega) ⟨present, user⟩
  have count3 : m3.memRefcounts 5 = BitVec.ofNat 8 (n + 1) := by rw [refs3, forked.count]
  have notFull : m3.memRefcounts 5 ≠ 255 := by
    rw [count3]
    intro full
    have value := congrArg BitVec.toNat full
    rw [BitVec.toNat_ofNat] at value
    change (n + 1) % 256 = 255 at value
    omega
  have entry := one3.entry.2.2.2
  have increased : refcountIncrease m3 5 = (false, m3.setRefcount 5 (m3.memRefcounts 5 + 1)) := by
    rw [refcountIncrease, if_neg (by rw [frames3]; exact (by decide : ¬ 2048 ≤ 5)), if_neg notFull]
  have copied : ∃ m', copyPage m3 4 (6 + 4 * n + 3) 0 = some m' ∧ Forked (n + 1) m' := by
    refine ⟨_, by rw [copyPage, entry, if_neg (by rw [readonly]; decide), frame, increased], ?_, ?_,
      ?_⟩
    · refine one3.of_phys fun f below => ?_
      rw [setWord_phys_frame _ _ (by omega)]
      rfl
    · exact frames3
    · simp only [Mmu.setWord, Mmu.setRefcount, Function.update_self, count3]
      exact (BitVec.ofNat_add (n + 1) 1).symm
  obtain ⟨m', copiedEq, forked'⟩ := copied
  exact ⟨m', comes m' copiedEq _ forked'.tables, forked'⟩

/-- The fork that meets a full count: the child's copy of the page is in a frame that is still free. -/
theorem fork_full {m : Mmu} (forked : Forked 254 m) :
    ∃ m', mmuClone m (some 1) = some (1022, m') ∧
      ∃ e, pageAt m' 1022 firstPath = some e ∧ m'.frames.locked e.page.toNat = false := by
  obtain ⟨present, user, readonly, frame⟩ := Forked.page
  obtain ⟨m3, one3, frames3, refs3, -, comes, links3⟩ := mmuClone_onePage forked.tables
    (show m.frames = usedBelow 2048 1022 from forked.frames) (by decide) (by decide) ⟨present, user⟩
  have full : m3.memRefcounts 5 = 255 := by rw [refs3, forked.count]; rfl
  have entry := one3.entry.2.2.2
  have increased : refcountIncrease m3 5 = (true, m3) := by
    rw [refcountIncrease, if_neg (by rw [frames3]; decide), if_pos full]
  have requested : m3.requestFrame = some (1026, { m3 with
      frames := { usedBelow 2048 1026 with lowestAvailable := 1027 } }) := by
    rw [Mmu.requestFrame, frames3, mmuRequestFrame_usedBelow (by decide)]
  obtain ⟨new, newEq⟩ : ∃ new, new = ({ PagemapEntry.zero with
    present := true
    user := true
    page := BitVec.ofNat 28 1026
    writable := true
    cow := false } : PagemapEntry) := ⟨_, rfl⟩
  obtain ⟨m4, m4Eq⟩ : ∃ m4 : Mmu, m4 = ({ m3 with
    frames := { usedBelow 2048 1026 with lowestAvailable := 1027 } } : Mmu).setFrame 1026
      (m3.phys 5) := ⟨_, rfl⟩
  have copied : copyPage m3 4 1025 0 = some (m4.setEntry 1025 0 new) := by
    rw [copyPage, entry, if_neg (by rw [readonly]; decide), frame, increased]
    dsimp only
    rw [requested, newEq, m4Eq]
  have phys4 : ∀ f, f ≠ 1026 → m4.phys f = m3.phys f := by
    intro f other
    rw [m4Eq]
    simp [Mmu.setFrame, other]
  have phys5 : ∀ f, f ≠ 1026 → f ≠ 1025 → (m4.setEntry 1025 0 new).phys f = m3.phys f := by
    intro f other notOut
    rw [Mmu.setEntry, setWord_phys_frame _ _ notOut, phys4 f other]
  refine ⟨_, comes _ copied _ (one3.of_phys fun f below => phys5 f (by omega) (by omega)), new, ?_, ?_⟩
  · have walk : tableAt (m4.setEntry 1025 0 new) 1022 [0, 0, 0] = some 1025 := by
      refine tableAt_links (by decide) fun f low high => ?_
      rw [entry_congr (congrFun (phys5 f (by omega) (by omega)) 0)]
      exact links3 f low high
    rw [firstPath, pageAt_cons walk, setEntry_entry_self, newEq]
    rfl
  · rw [newEq, m4Eq]
    rfl

/-- A fork of a live address space is a run. -/
theorem run_fork {ok : Memory → MemoryOp → Prop} {s : Memory} {parent child : Nat} {m : Mmu}
    (allowed : ok s (.fork parent child)) (member : parent ∈ s.live)
    (cloned : mmuClone s.mmu (some parent) = some (child, m)) :
    Run Memory.step ok s [.fork parent child] ⟨m, insert child s.live⟩ :=
  Run.single allowed (Memory.fork_eq_some.mpr ⟨member, m, cloned, rfl⟩)

theorem run_exit {ok : Memory → MemoryOp → Prop} {s : Memory} {root : Nat}
    (allowed : ok s (.exit root)) (member : root ∈ s.live) :
    Run Memory.step ok s [.exit root] ⟨mmuFree s.mmu (some root), s.live.erase root⟩ :=
  Run.single allowed (Memory.exit_eq_some.mpr ⟨member, rfl⟩)

/-- The forks up to a full count. -/
theorem fork_many : ∀ n, 1 ≤ n → n ≤ 254 → ∃ m, Forked n m ∧
    Run Memory.step (fun _ _ => True) ⟨onePage 2048, {1}⟩
      ((List.range n).map fun k => .fork 1 (6 + 4 * k))
      ⟨m, insert 1 ((Finset.range n).image fun k => 6 + 4 * k)⟩ := by
  intro n positive bound
  induction n, positive using Nat.le_induction with
  | base =>
      obtain ⟨m, cloned, forked, -⟩ := fork_first
      have ops : (List.range 1).map (fun k => MemoryOp.fork 1 (6 + 4 * k)) = [.fork 1 6] := rfl
      have live : insert 1 ((Finset.range 1).image fun k => 6 + 4 * k) = insert 6 ({1} : Finset Nat) := by
        decide
      rw [ops, live]
      exact ⟨m, forked, run_fork trivial (Finset.mem_singleton_self 1) cloned⟩
  | succ n positive inductionHypothesis =>
      obtain ⟨m, forked, run⟩ := inductionHypothesis (by omega)
      obtain ⟨m', cloned, forked'⟩ := fork_again forked (by omega)
      have live : insert 1 ((Finset.range (n + 1)).image fun k => 6 + 4 * k) =
          insert (6 + 4 * n) (insert 1 ((Finset.range n).image fun k => 6 + 4 * k)) := by
        rw [Finset.range_add_one, Finset.image_insert, Finset.insert_comm]
      rw [List.range_succ, List.map_append, live]
      exact ⟨m', forked', run.trans (run_fork trivial (Finset.mem_insert_self _ _) cloned)⟩

/-! ## The bookkeeping -/

/-- The bookkeeping of copy on write, in every run of forks, page faults, stores, new pages and exits
that meets no full count. -/
theorem refcounts_sound {m : Mmu} {root : Nat} {t : Memory} {ops : List MemoryOp}
    (start : PrivateStart m root) (run : Run Memory.step Cloneable ⟨m, {root}⟩ ops t) :
    CountsSound t := by
  have initially : AddressSpaces True m ((({root} : Finset Nat)) : Set Nat) := by
    rw [Finset.coe_singleton]
    exact start.spaces True
  exact CountsSound.of_spaces (run.invariant
    (fun _ _ _ cloneable stepped spaces => Memory.step_spaces spaces cloneable stepped) initially)

theorem refcounts_sound_example : ∃ t,
    Run Memory.step Cloneable ⟨onePage 2048, {1}⟩ [.fork 1 6, .exit 6] t ∧ CountsSound t := by
  have start : PrivateStart (onePage 2048) 1 := onePage_start (by decide) (by decide)
  obtain ⟨m, cloned, -⟩ := fork_first
  have cloneable : Cloneable ⟨onePage 2048, {1}⟩ (.fork 1 6) := by
    intro v page e maps readonly
    have writable := (start.pages v page e maps).1
    rw [readonly] at writable
    cases writable
  have run := (run_fork cloneable (Finset.mem_singleton_self 1) cloned).trans
    (@run_exit _ _ 6 trivial (Finset.mem_insert_self _ _))
  exact ⟨_, run, refcounts_sound start run⟩

/-- 255 forks of a process with one page map its last copy in a frame that is not locked. -/
theorem refcounts_full_fork_unlocked : PrivateStart (onePage 2048) 1 ∧ ∃ t,
    Run Memory.step (fun _ _ => True) ⟨onePage 2048, {1}⟩
      ((List.range 255).map fun k => .fork 1 (6 + 4 * k)) t ∧ ¬ CountsSound t := by
  refine ⟨onePage_start (by decide) (by decide), ?_⟩
  obtain ⟨m, forked, run⟩ := fork_many 254 (by decide) (by decide)
  obtain ⟨m', cloned, e, maps, unlocked⟩ := fork_full forked
  refine ⟨⟨m', insert 1022 (insert 1 ((Finset.range 254).image fun k => 6 + 4 * k))⟩, ?_, ?_⟩
  · rw [List.range_succ, List.map_append]
    exact run.trans (run_fork trivial (Finset.mem_insert_self _ _) cloned)
  · intro sound
    have used : (1022, firstPath) ∈ entriesOf
        ⟨m', insert 1022 (insert 1 ((Finset.range 254).image fun k => 6 + 4 * k))⟩ e.page.toNat :=
      ⟨Finset.mem_insert_self _ _, ⟨rfl, (by decide : (0 : Fin 512).val < 256)⟩, e, maps, rfl⟩
    have locked := sound.locked e.page.toNat ⟨_, used⟩
    rw [unlocked] at locked
    cases locked

end Voxel.Proofs
