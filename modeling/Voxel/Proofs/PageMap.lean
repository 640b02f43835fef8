/-
Module: Voxel.Proofs.PageMap
Layer: Proofs
Purpose: The page tables of one directory as a finite map from pages to entries. Making the tables for an
  address and mapping its page changes the entry of this page and what is seen at no other one, in both
  halves of the directory and beside large pages.
Trusted boundary: none
Main exports: TableTree, NoLargeOn, seen, freeFrames, TableTree.lookup, page_tables_finite_map
-/
import Mathlib.Order.Interval.Finset.Nat
import Voxel.Proofs.CopyOnWrite

namespace Voxel.Proofs

open Voxel.Kernel
open Voxel.Lib

/-! ## Free frames -/

/-- The free frames that `mmu_request_frame` reaches from the hint and that fit in a page table entry. -/
def freeFrames (m : FrameMap) : Finset Nat :=
  (Finset.Ico (32 * (m.lowestAvailable / 32)) (32 * (m.nFrames / 32))).filter fun f =>
    m.locked f = false ∧ f < 2 ^ 28

/-- A request takes the first of them. -/
theorem mmuRequestFrame_free {m : FrameMap} {n : Nat} (free : n + 1 ≤ (freeFrames m).card) :
    ∃ f m', mmuRequestFrame m = some (f, m') ∧ f < 2 ^ 28 ∧
      n ≤ (freeFrames (mmuLockFrame m' f)).card := by
  obtain ⟨g, member⟩ := Finset.card_pos.mp (Nat.lt_of_lt_of_le (Nat.succ_pos n) free)
  rw [freeFrames, Finset.mem_filter, Finset.mem_Ico] at member
  obtain ⟨⟨low, high⟩, unlocked, small⟩ := member
  cases search : mmuRequestFrame m with
  | none =>
      unfold mmuRequestFrame at search
      dsimp only at search
      split at search
      · rename_i missing
        rw [List.find?_eq_none] at missing
        have rejected := missing g (by rw [List.mem_range'_1]; omega)
        rw [unlocked] at rejected
        exact absurd rfl rejected
      · cases search
  | some result =>
      obtain ⟨f, m'⟩ := result
      obtain ⟨-, inside, rfl⟩ := mmuRequestFrame_spec search
      have earliest : ∀ h, 32 * (m.lowestAvailable / 32) ≤ h → h < f → m.locked h = true := by
        unfold mmuRequestFrame at search
        dsimp only at search
        split at search
        · cases search
        · rename_i found
          cases search
          rw [List.find?_range'_eq_some] at found
          intro h from_ before
          simpa using found.2.2 h from_ before
      refine ⟨f, _, rfl, ?_, ?_⟩
      · by_contra large
        have locked := earliest g low (by omega)
        rw [unlocked] at locked
        cases locked
      · have kept : (freeFrames m).erase f ⊆
            freeFrames (mmuLockFrame { m with lowestAvailable := f + 1 } f) := by
          intro h member
          rw [Finset.mem_erase, freeFrames, Finset.mem_filter, Finset.mem_Ico] at member
          obtain ⟨other, ⟨lowH, highH⟩, unlockedH, smallH⟩ := member
          have behind : f < h := by
            by_contra before
            have locked := earliest h lowH (by omega)
            rw [unlockedH] at locked
            cases locked
          rw [freeFrames, Finset.mem_filter, Finset.mem_Ico, mmuLockFrame_nFrames,
            mmuLockFrame_of_ne _ other]
          refine ⟨⟨?_, highH⟩, unlockedH, smallH⟩
          unfold mmuLockFrame
          split
          · change 32 * ((f + 1) / 32) ≤ h
            omega
          · change 32 * ((f + 1) / 32) ≤ h
            omega
        have card := Finset.card_le_card kept
        have erased := Finset.pred_card_le_card_erase (s := freeFrames m) (a := f)
        omega

/-- With a free frame a table can be made. -/
theorem makeTable_free {m : Mmu} {n : Nat} (free : n + 1 ≤ (freeFrames m.frames).card) (table : Nat)
    (i : Fin 512) :
    ∃ newPage m', makeTable m table i = some (newPage, m') ∧ newPage < 2 ^ 28 ∧
      n ≤ (freeFrames m'.frames).card := by
  obtain ⟨f, frames, requested, small, left⟩ := mmuRequestFrame_free free
  rw [makeTable, Mmu.requestFrame, requested]
  exact ⟨f, _, rfl, small, left⟩

/-! ## The map -/

/-- The entry of a page as the lookup shows it: the word of a present entry. A missing table is an absent
entry. -/
def seen (m : Mmu) (root : Nat) (virtAddr : BitVec 64) : Option (BitVec 64) :=
  (mmuLookupFrameFrom m root virtAddr).bind fun place =>
    if (m.entry place.1 place.2).present then some (m.phys place.1 place.2) else none

/-- The same on paths. -/
def seenAt (m : Mmu) (root : Nat) : Path → Option (BitVec 64)
  | [] => none
  | i :: p => (tableAt m root p).bind fun table =>
      if (m.entry table i).present then some (m.phys table i) else none

theorem seen_eq (m : Mmu) (root : Nat) (virtAddr : BitVec 64) :
    seen m root virtAddr = seenAt m root (addrPath virtAddr) := by
  rw [seen, mmuLookupFrameFrom_eq, Option.bind_map]
  rfl

/-- The table frames of a directory are locked and form a tree. -/
structure TableTree (m : Mmu) (root : Nat) : Prop where
  locked : ∀ p t, p.length ≤ 3 → tableAt m root p = some t → m.frames.locked t = true
  apart : ∀ p q t, p.length ≤ 3 → q.length ≤ 3 → tableAt m root p = some t →
    tableAt m root q = some t → p = q

/-- The walk along a path meets no large page. -/
def NoLargeOn (m : Mmu) (root : Nat) (w : Path) : Prop :=
  ∀ i p t, (i :: p) <:+ w → p ≠ [] → tableAt m root p = some t →
    (m.entry t i).present = true → (m.entry t i).size = false

variable {m m' : Mmu} {root table newPage n : Nat} {i : Fin 512} {p w : Path}

/-! ## Making a table -/

/-- What a lookup that makes tables keeps, with `n` free frames left. -/
structure Deepened (root : Nat) (w : Path) (n : Nat) (m m' : Mmu) : Prop where
  tree : TableTree m' root
  noLarge : NoLargeOn m' root w
  seen : ∀ v : Path, v.length = 4 → seenAt m' root v = seenAt m root v
  current : m'.currentPml = m.currentPml
  free : n ≤ (freeFrames m'.frames).card

theorem TableTree.ne_of_free (tree : TableTree m root) (short : p.length ≤ 3)
    (at_ : tableAt m root p = some table) (free : m.frames.locked newPage = false) :
    table ≠ newPage := by
  rintro rfl
  rw [tree.locked p table short at_] at free
  cases free

/-- The walks after a table was linked. -/
theorem TableTree.tableAt_link (tree : TableTree m root) (short : p.length ≤ 2)
    (at_ : tableAt m root p = some table) (linked : Linked m m' table i newPage)
    (small : newPage < 2 ^ 28) {q : Path} (short' : q.length ≤ 3) :
    tableAt m' root q =
      if root = root ∧ (i :: p) <:+ q then (if q = i :: p then some newPage else none)
      else tableAt m root q := by
  refine @Proofs.tableAt_link m m' root table newPage i p (fun r q => r = root ∧ q.length ≤ 3)
    ?_ ?_ ?_ small ⟨rfl, by omega⟩ at_ linked root q ⟨rfl, short'⟩
  · rintro r j q ⟨same, bound⟩
    rw [List.length_cons] at bound
    exact ⟨same, by omega⟩
  · rintro r q t ⟨rfl, bound⟩ found
    exact tree.ne_of_free bound found linked.free
  · rintro r q ⟨rfl, bound⟩ found
    exact ⟨rfl, tree.apart q p table bound (by omega) found at_⟩

/-- A linked table is one more table, and shows no page. -/
theorem TableTree.link (tree : TableTree m root) (short : p.length ≤ 2)
    (at_ : tableAt m root p = some table) (absent : (m.entry table i).present = false)
    (linked : Linked m m' table i newPage) (small : newPage < 2 ^ 28) (noLarge : NoLargeOn m root w)
    (shortW : w.length ≤ 3) (free : n ≤ (freeFrames m'.frames).card) : Deepened root w n m m' := by
  have walk : ∀ {q : Path}, q.length ≤ 3 → tableAt m' root q =
      if root = root ∧ (i :: p) <:+ q then (if q = i :: p then some newPage else none)
      else tableAt m root q := fun short' => tree.tableAt_link short at_ linked small short'
  have notTable : newPage ≠ table := (tree.ne_of_free (by omega) at_ linked.free).symm
  have clear : ∀ j, (m'.entry newPage j).present = false := fun j => by
    rw [Mmu.entry, linked.cleared notTable]
    rfl
  -- a table after the link is an old one or the new one
  have cases : ∀ {q : Path} {t}, q.length ≤ 3 → tableAt m' root q = some t →
      (t = newPage ∧ q = i :: p) ∨ (t ≠ newPage ∧ tableAt m root q = some t) := by
    intro q t bound found
    rw [walk bound] at found
    split at found
    · split at found
      · rename_i same
        exact Or.inl ⟨(Option.some.inj found).symm, same⟩
      · cases found
    · exact Or.inr ⟨tree.ne_of_free bound found linked.free, found⟩
  -- an entry that is not the link is as before
  have word : ∀ {q : Path} {t} {j : Fin 512}, q.length ≤ 3 → tableAt m root q = some t →
      j :: q ≠ i :: p → m'.phys t j = m.phys t j := by
    intro q t j bound found other
    refine linked.others t j (tree.ne_of_free bound found linked.free) ?_
    by_contra both
    push Not at both
    obtain ⟨rfl, rfl⟩ := both
    exact other (by rw [tree.apart q p t bound (by omega) found at_])
  refine ⟨⟨?_, ?_⟩, ?_, ?_, linked.current, free⟩
  · intro q t bound found
    rcases cases bound found with ⟨rfl, -⟩ | ⟨-, old⟩
    · rw [linked.locks, Function.update_self]
    · exact linked.keeps (tree.locked q t bound old)
  · intro q r t bound bound' found found'
    rcases cases bound found with ⟨rfl, rfl⟩ | ⟨isOld, old⟩
    · rcases cases bound' found' with ⟨-, rfl⟩ | ⟨isOld, -⟩
      · rfl
      · exact absurd rfl isOld
    · rcases cases bound' found' with ⟨isNew, -⟩ | ⟨-, old'⟩
      · exact absurd isNew isOld
      · exact tree.apart q r t bound bound' old old'
  · intro j q t suffix lower found present
    have bound : q.length ≤ 3 := by
      have := suffix.length_le
      rw [List.length_cons] at this
      omega
    rcases cases bound found with ⟨rfl, -⟩ | ⟨-, old⟩
    · rw [clear j] at present
      cases present
    · by_cases isLink : j :: q = i :: p
      · obtain ⟨rfl, rfl⟩ := List.cons.inj isLink
        obtain rfl : t = table := Option.some.inj (old.symm.trans at_)
        rw [Mmu.entry, linked.link]
        exact (tableWord_entry small).2.1
      · rw [entry_congr (word bound old isLink)] at present ⊢
        exact noLarge j q t suffix lower old present
  · intro v length
    cases v with
    | nil => rfl
    | cons j q =>
        have bound : q.length = 3 := by simpa using length
        have leaf : j :: q ≠ i :: p := fun same => by
          have lengths := congrArg List.length same
          rw [List.length_cons, List.length_cons] at lengths
          omega
        rw [seenAt, walk (by omega), seenAt]
        split
        · rename_i below
          have missing : tableAt m root q = none :=
            tableAt_none_of_suffix (tableAt_absent at_ absent) below.2
          rw [missing]
          split
          · rw [Option.bind_some, clear j]
            rfl
          · rfl
        · cases found : tableAt m root q with
          | none => rfl
          | some t =>
              have same := word (by omega) found leaf
              simp only [Option.bind_some, entry_congr same, same]

/-- One level of the lookup. -/
theorem TableTree.ensure (tree : TableTree m root) (noLarge : NoLargeOn m root w) (shortW : w.length ≤ 3)
    (suffix : (i :: p) <:+ w) (at_ : tableAt m root p = some table)
    (free : n + 1 ≤ (freeFrames m.frames).card) :
    ∃ m', ensureTable m true table i = some (true, m') ∧ Deepened root w n m m' ∧
      (p ≠ [] → (m'.entry table i).size = false) ∧
      tableAt m' root (i :: p) = some (m'.entry table i).page.toNat := by
  have short : p.length ≤ 2 := by
    have := suffix.length_le
    rw [List.length_cons] at this
    omega
  unfold ensureTable
  cases present : (m.entry table i).present with
  | true =>
      refine ⟨m, rfl, ⟨tree, noLarge, fun _ _ => rfl, rfl, by omega⟩,
        fun lower => noLarge i p table suffix lower at_ present, ?_⟩
      rw [tableAt_cons at_, child, present]
      cases p with
      | nil => simp
      | cons j p =>
          rw [noLarge i (j :: p) table suffix (by simp) at_ present]
          simp
  | false =>
      obtain ⟨newPage, m', made, small, left⟩ := makeTable_free free table i
      have linked := makeTable_spec made
      obtain ⟨-, notLarge, leads⟩ := tableWord_entry small
      have link : m'.entry table i = .ofWord (tableWord newPage) := by
        rw [Mmu.entry, linked.link]
      refine ⟨m', by rw [made]; rfl, tree.link short at_ present linked small noLarge shortW left,
        fun _ => by rw [link, notLarge], ?_⟩
      rw [tree.tableAt_link short at_ linked small (by rw [List.length_cons]; omega),
        if_pos ⟨rfl, List.suffix_refl _⟩, if_pos rfl, link, leads]

/-! ## The lookup and the mapping -/

theorem Deepened.trans {a b c : Mmu} {k : Nat} (one : Deepened root w k a b) (two : Deepened root w n b c) :
    Deepened root w n a c where
  tree := two.tree
  noLarge := two.noLarge
  seen := fun v length => (two.seen v length).trans (one.seen v length)
  current := two.current.trans one.current
  free := two.free

/-- `mmu_lookup_frame` with `MMU_GET_MAKE` makes the tables of an address and shows no page. -/
theorem TableTree.lookup {virtAddr : BitVec 64} (tree : TableTree m m.currentPml)
    (noLarge : NoLargeOn m m.currentPml [pdEntry virtAddr, pdpEntry virtAddr, pml4Entry virtAddr])
    (free : n + 3 ≤ (freeFrames m.frames).card) :
    ∃ table m', mmuLookupFrame m virtAddr true = some (some (table, ptEntry virtAddr), m') ∧
      Deepened m.currentPml [pdEntry virtAddr, pdpEntry virtAddr, pml4Entry virtAddr] n m m' ∧
      tableAt m' m.currentPml [pdEntry virtAddr, pdpEntry virtAddr, pml4Entry virtAddr] = some table := by
  have suffix1 : [pml4Entry virtAddr] <:+ [pdEntry virtAddr, pdpEntry virtAddr, pml4Entry virtAddr] :=
    ⟨[pdEntry virtAddr, pdpEntry virtAddr], rfl⟩
  have suffix2 : [pdpEntry virtAddr, pml4Entry virtAddr] <:+
      [pdEntry virtAddr, pdpEntry virtAddr, pml4Entry virtAddr] := List.suffix_cons _ _
  obtain ⟨m1, made1, deep1, -, at1⟩ := tree.ensure noLarge (Nat.le_refl 3) suffix1 rfl free
  obtain ⟨m2, made2, deep2, small2, at2⟩ :=
    deep1.tree.ensure deep1.noLarge (Nat.le_refl 3) suffix2 at1 deep1.free
  obtain ⟨m3, made3, deep3, small3, at3⟩ :=
    deep2.tree.ensure deep2.noLarge (Nat.le_refl 3) (List.suffix_refl _) at2 deep2.free
  refine ⟨_, m3, ?_, deep1.trans (deep2.trans deep3), at3⟩
  simp only [mmuLookupFrame, made1, made2, small2 (by simp), made3, small3 (by simp), if_false,
    Bool.false_eq_true]

/-- Writing one entry of a page table changes no walk, and what is seen at one page alone. -/
theorem TableTree.seen_leaf (tree : TableTree m root) (leaf : p.length = 3)
    (at_ : tableAt m root p = some table)
    (words : ∀ t j, (t ≠ table ∨ j ≠ i) → m'.phys t j = m.phys t j) :
    (∀ q : Path, q.length ≤ 3 → tableAt m' root q = tableAt m root q) ∧
      ∀ v : Path, v.length = 4 → v ≠ i :: p → seenAt m' root v = seenAt m root v := by
  have walk : ∀ q : Path, q.length ≤ 3 → tableAt m' root q = tableAt m root q := by
    intro q bound
    refine tableAt_congr fun j r t suffix found => words t j (Or.inl ?_)
    rintro rfl
    have lengths := suffix.length_le
    rw [List.length_cons] at lengths
    have same := tree.apart r p t (by omega) (by omega) found at_
    rw [same, leaf] at lengths
    omega
  refine ⟨walk, fun v length other => ?_⟩
  cases v with
  | nil => rfl
  | cons j q =>
      have bound : q.length = 3 := by simpa using length
      rw [seenAt, walk q (by omega), seenAt]
      cases found : tableAt m root q with
      | none => rfl
      | some t =>
          have same := words t j (by
            by_contra both
            push Not at both
            obtain ⟨rfl, rfl⟩ := both
            exact other (by rw [tree.apart q p t (by omega) (by omega) found at_]))
          simp only [Option.bind_some, entry_congr same, same]

/-- An entry that `mmu_allocate_frame_ex` has written is present and has the flags of the call. -/
structure HasFlags (e : PagemapEntry) (flags : BitVec 32) : Prop where
  present : e.present = true
  writable : e.writable = hasFlag flags mmuFlagWritable
  user : e.user = !hasFlag flags mmuFlagKernel
  nocache : e.nocache = hasFlag flags mmuFlagNocache
  writethrough : e.writethrough = hasFlag flags mmuFlagWritethrough
  size : e.size = hasFlag flags mmuFlagSpec
  noexec : e.noexec = hasFlag flags mmuFlagNoexecute

/-- The page tables are a finite map: with four free frames the lookup finds or makes the entry of an
address, and after `mmu_allocate_frame_ex` on it the address is mapped with the flags of the call and
every address of another page shows what it showed before. -/
theorem page_tables_finite_map (m : Mmu) (virtAddr : BitVec 64) (flags : BitVec 32)
    (tree : TableTree m m.currentPml)
    (noLarge : NoLargeOn m m.currentPml [pdEntry virtAddr, pdpEntry virtAddr, pml4Entry virtAddr])
    (free : 4 ≤ (freeFrames m.frames).card) :
    ∃ table i m1, mmuLookupFrame m virtAddr true = some (some (table, i), m1) ∧
      mmuLookupFrameFrom (mmuAllocateFrameEx m1 table i flags) m.currentPml virtAddr = some (table, i) ∧
      HasFlags ((mmuAllocateFrameEx m1 table i flags).entry table i) flags ∧
      TableTree (mmuAllocateFrameEx m1 table i flags) m.currentPml ∧
      ∀ virtAddr', pageAddr virtAddr' ≠ pageAddr virtAddr →
        seen (mmuAllocateFrameEx m1 table i flags) m.currentPml virtAddr' =
          seen m m.currentPml virtAddr' := by
  obtain ⟨table, m1, looked, deep, at_⟩ := @TableTree.lookup m 1 virtAddr tree noLarge free
  obtain ⟨words, -, locks, -, e, entry⟩ := mmuAllocateFrameEx_words m1 table (ptEntry virtAddr) flags
  obtain ⟨walk, leaves⟩ := deep.tree.seen_leaf rfl at_ words
  refine ⟨table, ptEntry virtAddr, m1, looked, ?_, ?_, ⟨?_, ?_⟩, fun virtAddr' other => ?_⟩
  · rw [mmuLookupFrameFrom_eq, walk [pdEntry virtAddr, pdpEntry virtAddr, pml4Entry virtAddr]
      (Nat.le_refl 3), at_]
    rfl
  · rw [entry]
    exact ⟨rfl, rfl, rfl, rfl, rfl, rfl, rfl⟩
  · intro q t bound found
    rw [walk q bound] at found
    exact locks t (deep.tree.locked q t bound found)
  · intro q r t bound bound' found found'
    rw [walk q bound] at found
    rw [walk r bound'] at found'
    exact deep.tree.apart q r t bound bound' found found'
  · have different : addrPath virtAddr' ≠ addrPath virtAddr := fun same => other (addrPath_injective same)
    rw [seen_eq, seen_eq, leaves _ rfl different, deep.seen _ rfl]

/-- A directory that maps nothing: frame 1 is its root, and the frames from 2 on are free. -/
def emptyDirectory : Mmu where
  frames := { nFrames := 64, locked := fun f => f < 2, lowestAvailable := 2 }
  memRefcounts := fun _ => 0
  phys := fun _ _ => 0
  currentPml := 1

theorem emptyDirectory_tableAt {p : Path} {t : Nat} (found : tableAt emptyDirectory 1 p = some t) :
    p = [] ∧ t = 1 := by
  cases p with
  | nil => exact ⟨rfl, (Option.some.inj found).symm⟩
  | cons i p =>
      obtain ⟨table, -, inner⟩ := Option.bind_eq_some_iff.mp found
      rw [child, show (emptyDirectory.entry table i).present = false from PagemapEntry.zero_present] at inner
      cases inner

/-- All three tables and the page are made. -/
theorem page_tables_finite_map_emptyDirectory :
    ∃ table i m1, mmuLookupFrame emptyDirectory 0x400000 true = some (some (table, i), m1) ∧
      mmuLookupFrameFrom (mmuAllocateFrameEx m1 table i mmuFlagWritable) 1 0x400000 = some (table, i) ∧
      HasFlags ((mmuAllocateFrameEx m1 table i mmuFlagWritable).entry table i) mmuFlagWritable := by
  obtain ⟨table, i, m1, looked, found, flags, -⟩ :=
    page_tables_finite_map emptyDirectory 0x400000 mmuFlagWritable
      ⟨fun p t _ found => by rw [(emptyDirectory_tableAt found).2]; rfl,
        fun p q t _ _ found found' =>
          (emptyDirectory_tableAt found).1.trans (emptyDirectory_tableAt found').1.symm⟩
      (fun i p t _ lower found => absurd (emptyDirectory_tableAt found).1 lower) (by decide)
  exact ⟨table, i, m1, looked, found, flags⟩

end Voxel.Proofs
