/-
Module: Voxel.Proofs.AddressSpaces
Layer: Proofs
Purpose: The invariant of all live address spaces together: well-formed tables, mapped frames that are
  locked and are no tables, and reference counts that fit the mappings. Each elementary write of the
  kernel (linking a table, setting one page entry) is shown to change one place of this picture.
Trusted boundary: none
Main exports: pagesOf, readAt, AddressSpaces, Tables.setLeaf, AddressSpaces.setLeaf,
  AddressSpaces.content, AddressSpaces.link
-/
import Voxel.Proofs.PageTables

namespace Voxel.Proofs

open Voxel.Kernel
open Voxel.Lib

/-- What an entry maps. -/
def mappingOf (e : PagemapEntry) : Mapping Nat := ⟨e.page.toNat, e.writable, e.cow⟩

open Classical in
/-- The user pages of the live roots. -/
noncomputable def pagesOf (m : Mmu) (live : Set Nat) (key : Nat × Path) : Option (Mapping Nat) :=
  if key.1 ∈ live ∧ UserPage key.2 then (pageAt m key.1 key.2).map mappingOf else none

/-- `mem_refcounts` as numbers. -/
def refsOf (m : Mmu) (frame : Nat) : Nat := (m.memRefcounts frame).toNat

/-- The contents of a user page, as its process reads them. -/
def readAt (m : Mmu) (root : Nat) (v : Path) : Option (Fin 512 → BitVec 64) :=
  (pageAt m root v).map fun e => m.phys e.page.toNat

theorem pagesOf_eq_some {m : Mmu} {live : Set Nat} {key : Nat × Path} {mapping : Mapping Nat} :
    pagesOf m live key = some mapping ↔
      key.1 ∈ live ∧ UserPage key.2 ∧
        ∃ e, pageAt m key.1 key.2 = some e ∧ mappingOf e = mapping := by
  unfold pagesOf
  split
  · rename_i inside
    rw [Option.map_eq_some_iff]
    exact ⟨fun found => ⟨inside.1, inside.2, found⟩, fun found => found.2.2⟩
  · rename_i outside
    exact ⟨fun found => (by cases found), fun found => absurd ⟨found.1, found.2.1⟩ outside⟩

theorem pagesOf_of_page {m : Mmu} {live : Set Nat} {root : Nat} {v : Path} {e : PagemapEntry}
    (member : root ∈ live) (page : UserPage v) (maps : pageAt m root v = some e) :
    pagesOf m live (root, v) = some (mappingOf e) :=
  pagesOf_eq_some.mpr ⟨member, page, e, maps, rfl⟩

theorem pagesOf_of_none {m : Mmu} {live : Set Nat} {root : Nat} {v : Path}
    (missing : pageAt m root v = none) : pagesOf m live (root, v) = none := by
  unfold pagesOf
  rw [missing]
  split <;> rfl

theorem readAt_none {m : Mmu} {root : Nat} {v : Path} :
    readAt m root v = none ↔ pageAt m root v = none := by
  rw [readAt, Option.map_eq_none_iff]

theorem refsOf_setRefcount (m : Mmu) (frame : Nat) (count : BitVec 8) :
    refsOf (m.setRefcount frame count) = Function.update (refsOf m) frame count.toNat := by
  funext f
  by_cases same : f = frame
  · subst same
    simp [refsOf, Mmu.setRefcount]
  · simp [refsOf, Mmu.setRefcount, same]

/-- `_refcount_decrease` on a frame with a count. -/
theorem refcountDecrease_of_pos {m : Mmu} {frame : Nat} (inside : frame < m.frames.nFrames)
    (positive : 0 < refsOf m frame) :
    ∃ count, count.toNat = refsOf m frame - 1 ∧
      refcountDecrease m frame = (((refsOf m frame - 1 : Nat) : Int), m.setRefcount frame count) := by
  have nonzero : m.memRefcounts frame ≠ 0 := by
    intro same
    rw [refsOf, same] at positive
    exact absurd positive (Nat.lt_irrefl 0)
  have lower : (m.memRefcounts frame - 1).toNat = refsOf m frame - 1 := by
    rw [refsOf] at positive ⊢
    have bound := (m.memRefcounts frame).isLt
    rw [BitVec.toNat_sub]
    change (2 ^ 8 - 1 + _) % 2 ^ 8 = _ - 1
    omega
  refine ⟨_, lower, ?_⟩
  rw [refcountDecrease, if_neg (Nat.not_le.mpr inside), if_neg nonzero]
  simp only [lower]

/-- Walks and pages depend on the words alone. -/
theorem walks_of_phys {m m' : Mmu} (phys : m'.phys = m.phys) (root : Nat) (p : Path) :
    tableAt m' root p = tableAt m root p ∧ pageAt m' root p = pageAt m root p ∧
      readAt m' root p = readAt m root p := by
  have walks : ∀ q, tableAt m' root q = tableAt m root q := fun q =>
    tableAt_congr fun _ _ _ _ _ => by rw [phys]
  have pages : pageAt m' root p = pageAt m root p := by
    cases p with
    | nil => rfl
    | cons i q => exact pageAt_congr (walks q) fun _ _ => by rw [phys]
  refine ⟨walks p, pages, ?_⟩
  rw [readAt, readAt, pages, phys]

/-- The invariant of the address spaces. In the `strict` discipline a writable page has no count. -/
structure AddressSpaces (strict : Prop) (m : Mmu) (live : Set Nat) : Prop where
  tables : Tables m live
  mapped : ∀ key mapping, pagesOf m live key = some mapping →
    m.frames.locked mapping.frame = true ∧ mapping.frame < m.frames.nFrames ∧
      mapping.frame ≠ 0 ∧ ¬ IsTable m live mapping.frame
  counted : Counted strict (pagesOf m live) (refsOf m)

section

variable {strict : Prop} {m m' : Mmu} {live : Set Nat} {root table : Nat} {i : Fin 512} {p : Path}

/-! ## Setting one page entry -/

/-- What a write to one entry of a page table does to the walks and to the pages. Frames that are no
tables may change as well. -/
structure LeafSet (m m' : Mmu) (live : Set Nat) (root : Nat) (v : Path) (e : PagemapEntry) :
    Prop where
  tables : Tables m' live
  walks : ∀ root' ∈ live, ∀ q, UserTable q → tableAt m' root' q = tableAt m root' q
  here : pageAt m' root v = if e.present && e.user then some e else none
  elsewhere : ∀ root' ∈ live, ∀ w, UserPage w → (root', w) ≠ (root, v) →
    pageAt m' root' w = pageAt m root' w
  pages : pagesOf m' live =
    Function.update (pagesOf m live) (root, v)
      (if e.present && e.user then some (mappingOf e) else none)

theorem Tables.setLeaf (tables : Tables m live) (member : root ∈ live) (page : UserPage (i :: p))
    (at_ : tableAt m root p = some table) (nFrames : m'.frames.nFrames = m.frames.nFrames)
    (locks : ∀ frame, m.frames.locked frame = true → m'.frames.locked frame = true)
    (words : ∀ t j, IsTable m live t → (t ≠ table ∨ j ≠ i) → m'.phys t j = m.phys t j)
    (clean : CleanEntry (m'.entry table i)) :
    LeafSet m m' live root (i :: p) (m'.entry table i) := by
  have upper : ∀ root' ∈ live, ∀ j q t, UserTable (j :: q) → tableAt m root' q = some t →
      m'.phys t j = m.phys t j := by
    intro root' member' j q t user at_'
    refine words t j ⟨root', member', q, user.tail.1, at_'⟩ (Or.inl ?_)
    rintro rfl
    exact tables.pageTable_ne member' member user.tail.1 user.tail.2 at_' page.table.1
      page.table.2 at_
  have walk : ∀ root' ∈ live, ∀ q, UserTable q → tableAt m' root' q = tableAt m root' q :=
    fun root' member' q user => Tables.tableAt_eq upper member' user
  have here : pageAt m' root (i :: p) =
      if (m'.entry table i).present && (m'.entry table i).user then some (m'.entry table i)
      else none :=
    pageAt_cons ((walk root member p page.table.1).trans at_) i
  have elsewhere : ∀ root' ∈ live, ∀ w, UserPage w → (root', w) ≠ (root, i :: p) →
      pageAt m' root' w = pageAt m root' w := by
    intro root' member' w page' different
    cases w with
    | nil => rfl
    | cons j q =>
        refine pageAt_congr (walk root' member' q page'.table.1) fun t at_' =>
          words t j ⟨root', member', q, page'.table.1, at_'⟩ ?_
        by_contra both
        push Not at both
        obtain ⟨rfl, rfl⟩ := both
        obtain ⟨rfl, rfl⟩ := tables.apart root member root' member' p q t page.table.1
          page'.table.1 at_ at_'
        exact different rfl
  refine ⟨?_, walk, here, elsewhere, ?_⟩
  · refine tables.congr nFrames (locks 0 tables.zero)
      (fun t isTable => locks t (tables.locked t isTable).1) upper ?_
    intro root' member' j q t page' at_'
    by_cases isHere : t = table ∧ j = i
    · rw [isHere.1, isHere.2]
      exact clean
    · have word := words t j ⟨root', member', q, page'.table.1, at_'⟩ (by
        by_contra both
        push Not at both
        exact isHere both)
      rw [entry_congr word]
      exact tables.clean root' member' j q t page' at_'
  · funext key
    by_cases isHere : key = (root, i :: p)
    · subst isHere
      rw [Function.update_self, pagesOf, if_pos ⟨member, page⟩, here]
      split <;> rfl
    · rw [Function.update_of_ne isHere, pagesOf, pagesOf]
      split
      · rename_i inside
        rw [elsewhere key.1 inside.1 key.2 inside.2 isHere]
      · rfl

/-- A frame that was mapped stays locked and apart from the tables. -/
theorem AddressSpaces.mapped_of_old (spaces : AddressSpaces strict m live)
    (nFrames : m'.frames.nFrames = m.frames.nFrames)
    (locks : ∀ frame, m.frames.locked frame = true → m'.frames.locked frame = true)
    (walks : ∀ root' ∈ live, ∀ q, UserTable q → tableAt m' root' q = tableAt m root' q)
    {key : Nat × Path} {mapping : Mapping Nat} (maps : pagesOf m live key = some mapping) :
    m'.frames.locked mapping.frame = true ∧ mapping.frame < m'.frames.nFrames ∧
      mapping.frame ≠ 0 ∧ ¬ IsTable m' live mapping.frame := by
  obtain ⟨locked, inside, nonzero, noTable⟩ := spaces.mapped key mapping maps
  refine ⟨locks _ locked, nFrames ▸ inside, nonzero, ?_⟩
  rintro ⟨root', member', q, user', at_'⟩
  exact noTable ⟨root', member', q, user', by rwa [walks root' member' q user'] at at_'⟩

/-- The invariant after a write to one entry of a page table, given the new counts. -/
theorem AddressSpaces.setLeaf {v : Path} {e : PagemapEntry} (spaces : AddressSpaces strict m live)
    (leaf : LeafSet m m' live root v e) (nFrames : m'.frames.nFrames = m.frames.nFrames)
    (locks : ∀ frame, m.frames.locked frame = true → m'.frames.locked frame = true)
    (new : (e.present && e.user) = true → m'.frames.locked e.page.toNat = true ∧
      e.page.toNat < m.frames.nFrames ∧ e.page.toNat ≠ 0 ∧ ¬ IsTable m live e.page.toNat)
    (counted : Counted strict (pagesOf m' live) (refsOf m')) : AddressSpaces strict m' live where
  tables := leaf.tables
  counted := counted
  mapped := by
    intro key mapping maps
    rw [leaf.pages] at maps
    by_cases isHere : key = (root, v)
    · rw [isHere, Function.update_self] at maps
      split at maps
      · rename_i access
        obtain ⟨locked, inside, nonzero, noTable⟩ := new access
        rw [← Option.some.inj maps]
        refine ⟨locked, nFrames ▸ inside, nonzero, ?_⟩
        rintro ⟨root', member', q, user', at_'⟩
        exact noTable ⟨root', member', q, user', by rwa [leaf.walks root' member' q user'] at at_'⟩
      · cases maps
    · rw [Function.update_of_ne isHere] at maps
      exact spaces.mapped_of_old nFrames locks leaf.walks maps

/-- A page whose entry and whose frame stay reads the same. -/
theorem AddressSpaces.readAt_eq (spaces : AddressSpaces strict m live)
    (content : ∀ frame, m.frames.locked frame = true → ¬ IsTable m live frame →
      m'.phys frame = m.phys frame)
    {root : Nat} (member : root ∈ live) {v : Path} (page : UserPage v)
    (sameFrame : (pageAt m' root v).map PagemapEntry.page =
      (pageAt m root v).map PagemapEntry.page) : readAt m' root v = readAt m root v := by
  rw [readAt, readAt]
  cases maps : pageAt m root v with
  | none =>
      rw [maps] at sameFrame
      cases maps' : pageAt m' root v with
      | none => rfl
      | some e =>
          rw [maps'] at sameFrame
          cases sameFrame
  | some e =>
      rw [maps] at sameFrame
      cases maps' : pageAt m' root v with
      | none =>
          rw [maps'] at sameFrame
          cases sameFrame
      | some e' =>
          rw [maps'] at sameFrame
          have samePage : e'.page = e.page := Option.some.inj sameFrame
          obtain ⟨locked, -, -, noTable⟩ := spaces.mapped _ _ (pagesOf_of_page member page maps)
          simp only [Option.map_some, samePage]
          exact congrArg some (content _ locked noTable)

/-- A change of the contents of frames that are no tables. -/
theorem AddressSpaces.content (spaces : AddressSpaces strict m live) (frames : m'.frames = m.frames)
    (refcounts : m'.memRefcounts = m.memRefcounts)
    (words : ∀ t, IsTable m live t → m'.phys t = m.phys t) :
    AddressSpaces strict m' live ∧
      (∀ root ∈ live, ∀ q, UserTable q → tableAt m' root q = tableAt m root q) ∧
      ∀ root ∈ live, ∀ v, UserPage v → pageAt m' root v = pageAt m root v := by
  have tables := spaces.tables
  have walks : ∀ root ∈ live, ∀ q, UserTable q → tableAt m' root q = tableAt m root q :=
    fun root member q user => Tables.tableAt_eq (fun root' member' i p table user' at_ => by
      rw [words table ⟨root', member', p, user'.tail.1, at_⟩]) member user
  have pages : ∀ root ∈ live, ∀ v, UserPage v → pageAt m' root v = pageAt m root v := by
    intro root member v page
    cases v with
    | nil => rfl
    | cons i q =>
        exact pageAt_congr (walks root member q page.table.1) fun table at_ => by
          rw [words table ⟨root, member, q, page.table.1, at_⟩]
  have all : pagesOf m' live = pagesOf m live := by
    funext key
    rw [pagesOf, pagesOf]
    split
    · rename_i inside
      rw [pages key.1 inside.1 key.2 inside.2]
    · rfl
  refine ⟨⟨tables.congr (by rw [frames]) (by rw [frames]; exact tables.zero)
    (fun table isTable => by rw [frames]; exact (tables.locked table isTable).1)
    (fun root member i p table user at_ => by
      rw [words table ⟨root, member, p, user.tail.1, at_⟩])
    (fun root member i p table page at_ => ?_), fun key mapping maps => ?_, ?_⟩, walks, pages⟩
  · have word := congrFun (words table ⟨root, member, p, page.table.1, at_⟩) i
    rw [entry_congr word]
    exact tables.clean root member i p table page at_
  · rw [all] at maps
    exact spaces.mapped_of_old (by rw [frames]) (fun _ locked => by rw [frames]; exact locked) walks
      maps
  · have refs : refsOf m' = refsOf m := by
      funext frame
      rw [refsOf, refcounts, refsOf]
    rw [all, refs]
    exact spaces.counted

/-! ## Linking a table -/

/-- Linking a cleared table into a user table keeps the invariant, every page and every content. -/
theorem AddressSpaces.link {newPage : Nat} (spaces : AddressSpaces strict m live)
    (member : root ∈ live) (user : UserTable (i :: p)) (at_ : tableAt m root p = some table)
    (absent : (m.entry table i).present = false) (linked : Linked m m' table i newPage) :
    AddressSpaces strict m' live ∧ pagesOf m' live = pagesOf m live ∧
      ∀ root' ∈ live, ∀ v, UserPage v → readAt m' root' v = readAt m root' v := by
  have tables := spaces.tables
  have pages : pagesOf m' live = pagesOf m live := by
    funext key
    rw [pagesOf, pagesOf]
    split
    · rename_i inside
      rw [tables.pageAt_link member user at_ absent linked inside.1 inside.2]
    · rfl
  refine ⟨⟨tables.link member user at_ absent linked, ?_, ?_⟩, pages, ?_⟩
  · intro key mapping maps
    rw [pages] at maps
    obtain ⟨locked, inside, nonzero, noTable⟩ := spaces.mapped key mapping maps
    rw [linked.nFrames]
    refine ⟨linked.keeps locked, inside, nonzero, ?_⟩
    rintro ⟨root', member', q, user', at_'⟩
    rw [tables.tableAt_link member user at_ linked member' user'] at at_'
    split at at_'
    · split at at_'
      · cases at_'
        rw [linked.free] at locked
        cases locked
      · cases at_'
    · exact noTable ⟨root', member', q, user', at_'⟩
  · have refs : refsOf m' = refsOf m := by
      funext frame
      rw [refsOf, linked.refcounts, refsOf]
    rw [pages, refs]
    exact spaces.counted
  · intro root' member' v page
    rw [readAt, tables.pageAt_link member user at_ absent linked member' page, readAt]
    cases maps : pageAt m root' v with
    | none => rfl
    | some e =>
        obtain ⟨locked, -, -, noTable⟩ :=
          spaces.mapped _ _ (pagesOf_of_page member' page maps)
        have content : m'.phys e.page.toNat = m.phys e.page.toNat := by
          funext j
          refine linked.others _ j ?_ (Or.inl ?_)
          · intro same
            rw [show (mappingOf e).frame = newPage from same, linked.free] at locked
            cases locked
          · intro same
            exact noTable ⟨root, member, p, user.tail.1, by rw [at_]; exact congrArg some same.symm⟩
        simp [content]

end

end Voxel.Proofs
