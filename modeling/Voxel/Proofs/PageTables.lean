/-
Module: Voxel.Proofs.PageTables
Layer: Proofs
Purpose: The page tables below a set of live roots as a forest. A path of indices leads from a root to
  a table or to a page; in a well-formed memory every user table is reached by one path of one root,
  so that a write to one entry changes the translation of one page, and linking a cleared table
  changes none.
Trusted boundary: none
Main exports: tableAt, pageAt, Tables, Tables.setLeaf, Tables.makeTable, mmuLookupFrameFrom_eq
-/
import Voxel.Kernel.Mmu
import Voxel.Lib.Sharing

namespace Voxel.Proofs

open Voxel.Kernel
open Voxel.Lib

/-! ## Paths -/

/-- Indices into the tables on the way to a table or a page, the innermost first. -/
abbrev Path := List (Fin 512)

/-- The path stays in the lower half of the address space. -/
def IsUser : Path → Prop
  | [] => True
  | [i] => i.val < 256
  | _ :: j :: p => IsUser (j :: p)

theorem IsUser.tail {i : Fin 512} {p : Path} (user : IsUser (i :: p)) : IsUser p := by
  cases p with
  | nil => trivial
  | cons j p => exact user

theorem IsUser.suffix {p q : Path} (user : IsUser p) (suffix : q <:+ p) : IsUser q := by
  induction p with
  | nil => rwa [List.suffix_nil.mp suffix]
  | cons i p inductionHypothesis =>
      rcases List.suffix_cons_iff.mp suffix with same | inside
      · rwa [same]
      · exact inductionHypothesis user.tail inside

theorem IsUser.cons {i : Fin 512} {p : Path} (user : IsUser p) (low : p = [] → i.val < 256) :
    IsUser (i :: p) := by
  cases p with
  | nil => exact low rfl
  | cons j p => exact user

/-- The path of a user table: the root has the empty one, page tables have three indices. -/
def UserTable (p : Path) : Prop := p.length ≤ 3 ∧ IsUser p

/-- The path of a user page. -/
def UserPage (v : Path) : Prop := v.length = 4 ∧ IsUser v

theorem UserPage.table {i : Fin 512} {p : Path} (page : UserPage (i :: p)) :
    UserTable p ∧ p.length = 3 := by
  have length : p.length = 3 := by simpa using page.1
  exact ⟨⟨length.le, page.2.tail⟩, length⟩

theorem UserTable.tail {i : Fin 512} {p : Path} (table : UserTable (i :: p)) :
    UserTable p ∧ p.length < 3 := by
  have length : p.length + 1 ≤ 3 := by simpa using table.1
  exact ⟨⟨by omega, table.2.tail⟩, by omega⟩

/-! ## Walking the tables -/

/-- The table behind an entry. Only the levels below the root have large pages. -/
def child (m : Mmu) (below : Bool) (table : Nat) (i : Fin 512) : Option Nat :=
  if (m.entry table i).present && !(below && (m.entry table i).size) then
    some (m.entry table i).page.toNat
  else none

/-- The frame of the table at a path. -/
def tableAt (m : Mmu) (root : Nat) : Path → Option Nat
  | [] => some root
  | i :: p => (tableAt m root p).bind fun table => child m (!p.isEmpty) table i

/-- The present user entry of the page at a path. -/
def pageAt (m : Mmu) (root : Nat) : Path → Option PagemapEntry
  | [] => none
  | i :: p => (tableAt m root p).bind fun table =>
      if (m.entry table i).present && (m.entry table i).user then some (m.entry table i) else none

theorem tableAt_cons {m : Mmu} {root table : Nat} {p : Path} (at_ : tableAt m root p = some table)
    (i : Fin 512) : tableAt m root (i :: p) = child m (!p.isEmpty) table i := by
  rw [tableAt, at_]
  rfl

theorem pageAt_cons {m : Mmu} {root table : Nat} {p : Path} (at_ : tableAt m root p = some table)
    (i : Fin 512) : pageAt m root (i :: p) =
      if (m.entry table i).present && (m.entry table i).user then some (m.entry table i)
      else none := by
  rw [pageAt, at_]
  rfl

theorem tableAt_absent {m : Mmu} {root table : Nat} {i : Fin 512} {p : Path}
    (at_ : tableAt m root p = some table) (absent : (m.entry table i).present = false) :
    tableAt m root (i :: p) = none := by
  rw [tableAt_cons at_, child, absent]
  rfl

/-- A page that is found is present and accessible. -/
theorem pageAt_access {m : Mmu} {root : Nat} {v : Path} {e : PagemapEntry}
    (maps : pageAt m root v = some e) : e.present = true ∧ e.user = true := by
  cases v with
  | nil => cases maps
  | cons i p =>
      obtain ⟨table, -, found⟩ := Option.bind_eq_some_iff.mp maps
      split at found
      · rename_i access
        rw [← Option.some.inj found]
        simpa using access
      · cases found

/-- Below a missing table there is nothing. -/
theorem tableAt_none_of_suffix {m : Mmu} {root : Nat} {p q : Path}
    (missing : tableAt m root p = none) (suffix : p <:+ q) : tableAt m root q = none := by
  induction q with
  | nil => rwa [List.suffix_nil.mp suffix] at missing
  | cons i q inductionHypothesis =>
      rcases List.suffix_cons_iff.mp suffix with same | inside
      · rwa [← same]
      · rw [tableAt, inductionHypothesis inside]
        rfl

theorem pageAt_none_of_suffix {m : Mmu} {root : Nat} {p v : Path} (missing : tableAt m root p = none)
    (suffix : p <:+ v) (shorter : p.length < v.length) : pageAt m root v = none := by
  cases v with
  | nil => rfl
  | cons i q =>
      rcases List.suffix_cons_iff.mp suffix with same | inside
      · rw [same] at shorter
        exact absurd shorter (Nat.lt_irrefl _)
      · rw [pageAt, tableAt_none_of_suffix missing inside]
        rfl

theorem entry_congr {m m' : Mmu} {table : Nat} {i : Fin 512}
    (same : m'.phys table i = m.phys table i) : m'.entry table i = m.entry table i := by
  rw [Mmu.entry, same, Mmu.entry]

/-- A walk reads the entries on its path and nothing else. -/
theorem tableAt_congr {m m' : Mmu} {root : Nat} {p : Path}
    (same : ∀ i q table, (i :: q) <:+ p → tableAt m root q = some table →
      m'.phys table i = m.phys table i) : tableAt m' root p = tableAt m root p := by
  induction p with
  | nil => rfl
  | cons i p inductionHypothesis =>
      have shorter := inductionHypothesis fun j q table suffix =>
        same j q table (suffix.trans (List.suffix_cons i p))
      rw [tableAt, shorter, tableAt]
      cases at_ : tableAt m root p with
      | none => rfl
      | some table =>
          have word := same i p table (List.suffix_refl _) at_
          simp only [Option.bind_some, child, entry_congr word]

theorem pageAt_congr {m m' : Mmu} {root : Nat} {i : Fin 512} {p : Path}
    (tables : tableAt m' root p = tableAt m root p)
    (same : ∀ table, tableAt m root p = some table → m'.phys table i = m.phys table i) :
    pageAt m' root (i :: p) = pageAt m root (i :: p) := by
  rw [pageAt, tables, pageAt]
  cases at_ : tableAt m root p with
  | none => rfl
  | some table => simp only [Option.bind_some, entry_congr (same table at_)]

/-- `mmu_lookup_frame_from` walks three tables down. -/
theorem mmuLookupFrameFrom_eq (m : Mmu) (pml : Nat) (virtAddr : BitVec 64) :
    mmuLookupFrameFrom m pml virtAddr =
      (tableAt m pml [pdEntry virtAddr, pdpEntry virtAddr, pml4Entry virtAddr]).map fun table =>
        (table, ptEntry virtAddr) := by
  simp only [mmuLookupFrameFrom, tableAt, child, Option.bind_some]
  cases (m.entry pml (pml4Entry virtAddr)).present with
  | false => rfl
  | true =>
      simp only [List.isEmpty_nil, Bool.not_true, Bool.false_and, Bool.not_false, Bool.and_true,
        if_true, Option.bind_some, Bool.false_eq_true, if_false, List.isEmpty_cons, Bool.true_and]
      generalize (m.entry pml (pml4Entry virtAddr)).page.toNat = pdp
      cases (m.entry pdp (pdpEntry virtAddr)).present with
      | false => simp
      | true =>
          cases (m.entry pdp (pdpEntry virtAddr)).size with
          | true => simp
          | false =>
              simp only [Bool.not_true, Bool.false_eq_true, if_false, Bool.not_false,
                Bool.and_true, if_true, Option.bind_some]
              generalize (m.entry pdp (pdpEntry virtAddr)).page.toNat = pd
              cases (m.entry pd (pdEntry virtAddr)).present <;>
                cases (m.entry pd (pdEntry virtAddr)).size <;> simp

/-! ## Well-formed tables -/

/-- The frame holds a user table of a live root. -/
def IsTable (m : Mmu) (live : Set Nat) (frame : Nat) : Prop :=
  ∃ root ∈ live, ∃ p, UserTable p ∧ tableAt m root p = some frame

/-- An entry of a page table is only marked for copying while user code has access to it, and an absent
one holds no page. -/
def CleanEntry (e : PagemapEntry) : Prop :=
  (e.present && e.user) = false → e.cow = false ∧ (e.present = false → e.page = 0)

theorem CleanEntry.of_user {e : PagemapEntry} (access : (e.present && e.user) = true) :
    CleanEntry e := fun none => by
  rw [access] at none
  cases none

theorem cleanEntry_zero : CleanEntry PagemapEntry.zero := fun _ => ⟨rfl, fun _ => rfl⟩

/-- The user tables of the live roots are locked frames, form a forest, map no large pages, and hold
clean entries. Frame 0 is never handed out. -/
structure Tables (m : Mmu) (live : Set Nat) : Prop where
  small : m.frames.nFrames ≤ 2 ^ 28
  zero : m.frames.locked 0 = true
  locked : ∀ table, IsTable m live table →
    m.frames.locked table = true ∧ table < m.frames.nFrames ∧ table ≠ 0
  apart : ∀ root ∈ live, ∀ root' ∈ live, ∀ p p' table, UserTable p → UserTable p' →
    tableAt m root p = some table → tableAt m root' p' = some table → root = root' ∧ p = p'
  noLarge : ∀ root ∈ live, ∀ i p table, UserTable (i :: p) → tableAt m root p = some table →
    (m.entry table i).present = true → (m.entry table i).size = false
  clean : ∀ root ∈ live, ∀ i p table, UserPage (i :: p) → tableAt m root p = some table →
    CleanEntry (m.entry table i)

/-- What changes no table word above the page tables keeps every walk. -/
theorem Tables.tableAt_eq {m m' : Mmu} {live : Set Nat}
    (words : ∀ root ∈ live, ∀ i p table, UserTable (i :: p) → tableAt m root p = some table →
      m'.phys table i = m.phys table i) {root : Nat} (member : root ∈ live) {p : Path}
    (user : UserTable p) : tableAt m' root p = tableAt m root p := by
  refine tableAt_congr fun i q table suffix at_ => words root member i q table ⟨?_, ?_⟩ at_
  · exact suffix.length_le.trans user.1
  · exact user.2.suffix suffix

/-- A change that keeps the upper tables, keeps their frames locked and leaves the page tables
clean. -/
theorem Tables.congr {m m' : Mmu} {live : Set Nat} (tables : Tables m live)
    (nFrames : m'.frames.nFrames = m.frames.nFrames) (zero : m'.frames.locked 0 = true)
    (locks : ∀ table, IsTable m live table → m'.frames.locked table = true)
    (words : ∀ root ∈ live, ∀ i p table, UserTable (i :: p) → tableAt m root p = some table →
      m'.phys table i = m.phys table i)
    (clean : ∀ root ∈ live, ∀ i p table, UserPage (i :: p) → tableAt m root p = some table →
      CleanEntry (m'.entry table i)) : Tables m' live := by
  have walk : ∀ {root}, root ∈ live → ∀ {p}, UserTable p →
      tableAt m' root p = tableAt m root p := by
    intro root member p user
    exact Tables.tableAt_eq words member user
  have same : ∀ {table}, IsTable m' live table → IsTable m live table := by
    rintro table ⟨root, member, p, user, at_⟩
    exact ⟨root, member, p, user, by rwa [walk member user] at at_⟩
  constructor
  · rw [nFrames]
    exact tables.small
  · exact zero
  · intro table isTable
    rw [nFrames]
    exact ⟨locks table (same isTable), (tables.locked table (same isTable)).2⟩
  · intro root member root' member' p p' table user user' at_ at_'
    rw [walk member user] at at_
    rw [walk member' user'] at at_'
    exact tables.apart root member root' member' p p' table user user' at_ at_'
  · intro root member i p table user at_ present
    rw [walk member user.tail.1] at at_
    rw [entry_congr (words root member i p table user at_)] at present ⊢
    exact tables.noLarge root member i p table user at_ present
  · intro root member i p table user at_
    rw [walk member user.table.1] at at_
    exact clean root member i p table user at_

/-- A missing user table is an absent entry of the table above it. -/
theorem Tables.present_false {m : Mmu} {live : Set Nat} (tables : Tables m live) {root table : Nat}
    (member : root ∈ live) {i : Fin 512} {p : Path} (user : UserTable (i :: p))
    (at_ : tableAt m root p = some table) (missing : tableAt m root (i :: p) = none) :
    (m.entry table i).present = false := by
  cases present : (m.entry table i).present with
  | false => rfl
  | true =>
      have small := tables.noLarge root member i p table user at_ present
      rw [tableAt_cons at_, child, present, small] at missing
      simp at missing

/-- A present entry of an upper user table leads to a table. -/
theorem Tables.tableAt_present {m : Mmu} {live : Set Nat} (tables : Tables m live)
    {root table : Nat} (member : root ∈ live) {i : Fin 512} {p : Path} (user : UserTable (i :: p))
    (at_ : tableAt m root p = some table) (present : (m.entry table i).present = true) :
    tableAt m root (i :: p) = some (m.entry table i).page.toNat := by
  have small := tables.noLarge root member i p table user at_ present
  rw [tableAt_cons at_, child, present, small]
  simp

/-- A page table is no table of an upper level. -/
theorem Tables.pageTable_ne {m : Mmu} {live : Set Nat} (tables : Tables m live)
    {root root' table : Nat} {p q : Path} (member : root ∈ live) (member' : root' ∈ live)
    (user : UserTable p) (upper : p.length < 3) (at_ : tableAt m root p = some table)
    (user' : UserTable q) (leaf : q.length = 3) : tableAt m root' q ≠ some table := by
  intro at_'
  have same := (tables.apart root member root' member' p q table user user' at_ at_').2
  rw [same, leaf] at upper
  exact absurd upper (Nat.lt_irrefl _)

/-- A free frame is no table. -/
theorem Tables.ne_of_free {m : Mmu} {live : Set Nat} (tables : Tables m live) {table frame : Nat}
    (isTable : IsTable m live table) (free : m.frames.locked frame = false) : table ≠ frame := by
  intro same
  have locked := (tables.locked table isTable).1
  rw [same, free] at locked
  cases locked

/-! ## Linking a cleared table -/

/-- `mmu_request_frame` on the whole state. -/
theorem requestFrame_spec {m m' : Mmu} {frame : Nat} (requested : m.requestFrame = some (frame, m')) :
    m.frames.locked frame = false ∧ frame < m.frames.nFrames ∧
      m' = { m with frames := { m.frames with lowestAvailable := frame + 1 } } := by
  unfold Mmu.requestFrame at requested
  split at requested
  · cases requested
  · rename_i frame' frames requestedFrame
    cases requested
    obtain ⟨free, inside, rfl⟩ := mmuRequestFrame_spec requestedFrame
    exact ⟨free, inside, rfl⟩

/-- What making a table behind an entry does: a free frame is locked, cleared and linked. -/
structure Linked (m m' : Mmu) (table : Nat) (i : Fin 512) (newPage : Nat) : Prop where
  free : m.frames.locked newPage = false
  inside : newPage < m.frames.nFrames
  nFrames : m'.frames.nFrames = m.frames.nFrames
  locks : m'.frames.locked = Function.update m.frames.locked newPage true
  refcounts : m'.memRefcounts = m.memRefcounts
  current : m'.currentPml = m.currentPml
  cleared : newPage ≠ table → ∀ j, m'.phys newPage j = 0
  link : m'.phys table i = tableWord newPage
  others : ∀ t j, t ≠ newPage → (t ≠ table ∨ j ≠ i) → m'.phys t j = m.phys t j

theorem makeTable_spec {m m' : Mmu} {table newPage : Nat} {i : Fin 512}
    (made : makeTable m table i = some (newPage, m')) : Linked m m' table i newPage := by
  unfold makeTable at made
  split at made
  · cases made
  rename_i frame requested requestedEq
  cases made
  obtain ⟨free, inside, rfl⟩ := requestFrame_spec requestedEq
  constructor
  · exact free
  · exact inside
  · simp [Mmu.setWord, Mmu.setFrame, Mmu.lockFrame]
  · exact mmuLockFrame_locked (m := { m.frames with lowestAvailable := newPage + 1 }) inside
  · rfl
  · rfl
  · intro different j
    simp [Mmu.setWord, Mmu.setFrame, different]
  · simp [Mmu.setWord]
  · intro t j other elsewhere
    by_cases isTable : t = table
    · subst isTable
      have otherIndex : j ≠ i := elsewhere.resolve_left fun different => different rfl
      simp [Mmu.setWord, Mmu.setFrame, Mmu.lockFrame, other, otherIndex]
    · simp [Mmu.setWord, Mmu.setFrame, Mmu.lockFrame, other, isTable]

theorem Linked.keeps {m m' : Mmu} {table newPage : Nat} {i : Fin 512}
    (linked : Linked m m' table i newPage) {frame : Nat} (locked : m.frames.locked frame = true) :
    m'.frames.locked frame = true := by
  rw [linked.locks]
  by_cases same : frame = newPage
  · rw [same, Function.update_self]
  · rwa [Function.update_of_ne same]

section Link

variable {m m' : Mmu} {live : Set Nat} {root table newPage : Nat} {i : Fin 512} {p : Path}

/-- The walks after a table was linked, for any set of walks that has the shorter ones: one new table, and
nothing below it. -/
theorem tableAt_link {Walk : Nat → Path → Prop} (tail : ∀ {r j q}, Walk r (j :: q) → Walk r q)
    (fresh : ∀ {r q t}, Walk r q → tableAt m r q = some t → t ≠ newPage)
    (single : ∀ {r q}, Walk r q → tableAt m r q = some table → r = root ∧ q = p)
    (small : newPage < 2 ^ 28) (walk : Walk root p) (at_ : tableAt m root p = some table)
    (linked : Linked m m' table i newPage) {root' : Nat} {q : Path} (walk' : Walk root' q) :
    tableAt m' root' q =
      if root' = root ∧ (i :: p) <:+ q then (if q = i :: p then some newPage else none)
      else tableAt m root' q := by
  induction q with
  | nil =>
      have notBelow : ¬ (root' = root ∧ (i :: p) <:+ []) := by simp
      rw [if_neg notBelow]
      rfl
  | cons j q inductionHypothesis =>
      have shorter := inductionHypothesis (tail walk')
      by_cases below : root' = root ∧ (i :: p) <:+ q
      · -- at or below the new table, which is clear
        rw [if_pos below] at shorter
        have longer : j :: q ≠ i :: p := by
          intro same
          have lengths := below.2.length_le
          rw [← same] at lengths
          simp at lengths
        rw [if_pos ⟨below.1, below.2.trans (List.suffix_cons j q)⟩, if_neg longer, tableAt, shorter]
        split
        · have absentNew : (m'.entry newPage j).present = false := by
            rw [Mmu.entry, linked.cleared (fresh walk at_).symm]
            rfl
          simp [child, absentNew]
        · rfl
      · rw [if_neg below] at shorter
        by_cases isLink : root' = root ∧ j :: q = i :: p
        · obtain ⟨rfl, same⟩ := isLink
          obtain ⟨rfl, rfl⟩ := List.cons.inj same
          rw [if_pos ⟨rfl, List.suffix_refl _⟩, if_pos rfl, tableAt, shorter, at_]
          have entry := tableWord_entry small
          rw [← linked.link] at entry
          simp only [Option.bind_some, child, Mmu.entry, entry.1, entry.2.1, entry.2.2, Bool.and_false,
            Bool.not_false, Bool.and_true, if_true]
        · have notBelow : ¬ (root' = root ∧ (i :: p) <:+ j :: q) := by
            rintro ⟨sameRoot, suffix⟩
            rcases List.suffix_cons_iff.mp suffix with same | inside
            · exact isLink ⟨sameRoot, same.symm⟩
            · exact below ⟨sameRoot, inside⟩
          rw [if_neg notBelow, tableAt, shorter, tableAt]
          cases at_' : tableAt m root' q with
          | none => rfl
          | some table' =>
              have elsewhere : table' ≠ table ∨ j ≠ i := by
                by_contra both
                push Not at both
                obtain ⟨rfl, rfl⟩ := both
                obtain ⟨rfl, rfl⟩ := single (tail walk') at_'
                exact isLink ⟨rfl, rfl⟩
              have word := linked.others table' j (fresh (tail walk') at_') elsewhere
              simp only [Option.bind_some, child, entry_congr word]

/-- The walks of the live roots after a table was linked. -/
theorem Tables.tableAt_link (tables : Tables m live) (member : root ∈ live)
    (user : UserTable (i :: p)) (at_ : tableAt m root p = some table)
    (linked : Linked m m' table i newPage)
    {root' : Nat} (member' : root' ∈ live) {q : Path} (user' : UserTable q) :
    tableAt m' root' q =
      if root' = root ∧ (i :: p) <:+ q then (if q = i :: p then some newPage else none)
      else tableAt m root' q := by
  refine @Proofs.tableAt_link m m' root table newPage i p (fun r q => r ∈ live ∧ UserTable q)
    (fun walk => ⟨walk.1, walk.2.tail.1⟩) ?_ ?_ (lt_of_lt_of_le linked.inside tables.small)
    ⟨member, user.tail.1⟩ at_ linked root' q ⟨member', user'⟩
  · intro r q t walk found
    exact tables.ne_of_free ⟨r, walk.1, q, walk.2, found⟩ linked.free
  · intro r q walk found
    obtain ⟨rfl, rfl⟩ := tables.apart root member r walk.1 p q table user.tail.1 walk.2 at_ found
    exact ⟨rfl, rfl⟩

/-- Linking a cleared table maps no page and unmaps none. -/
theorem Tables.pageAt_link (tables : Tables m live) (member : root ∈ live)
    (user : UserTable (i :: p)) (at_ : tableAt m root p = some table)
    (absent : (m.entry table i).present = false) (linked : Linked m m' table i newPage)
    {root' : Nat} (member' : root' ∈ live) {v : Path} (page : UserPage v) :
    pageAt m' root' v = pageAt m root' v := by
  cases v with
  | nil => rfl
  | cons l q =>
      have walk := tables.tableAt_link member user at_ linked member' page.table.1
      have fresh : ∀ {t}, IsTable m live t → t ≠ newPage :=
        fun tableHere => tables.ne_of_free tableHere linked.free
      by_cases below : root' = root ∧ (i :: p) <:+ q
      · have missing : tableAt m root' (i :: p) = none := by
          rw [below.1]
          exact tableAt_absent at_ absent
        have before : pageAt m root' (l :: q) = none :=
          pageAt_none_of_suffix missing (below.2.trans (List.suffix_cons l q)) (by
            have lengths := below.2.length_le
            simp only [List.length_cons] at lengths ⊢
            omega)
        rw [before, pageAt, walk, if_pos below]
        split
        · have absentNew : (m'.entry newPage l).present = false := by
            rw [Mmu.entry, linked.cleared (fresh ⟨root, member, p, user.tail.1, at_⟩).symm]
            rfl
          simp [absentNew]
        · rfl
      · rw [if_neg below] at walk
        refine pageAt_congr walk fun table' at_' => linked.others table' l ?_ (Or.inl ?_)
        · exact fresh ⟨root', member', q, page.table.1, at_'⟩
        · rintro rfl
          exact tables.pageTable_ne member member' user.tail.1 user.tail.2 at_ page.table.1
            page.table.2 at_'

/-- The tables stay well-formed. -/
theorem Tables.link (tables : Tables m live) (member : root ∈ live)
    (user : UserTable (i :: p)) (at_ : tableAt m root p = some table)
    (absent : (m.entry table i).present = false) (linked : Linked m m' table i newPage) :
    Tables m' live := by
  have isTable : IsTable m live table := ⟨root, member, p, user.tail.1, at_⟩
  have fresh : ∀ {t}, IsTable m live t → t ≠ newPage :=
    fun tableHere => tables.ne_of_free tableHere linked.free
  have small : newPage < 2 ^ 28 := lt_of_lt_of_le linked.inside tables.small
  have nonzero : newPage ≠ 0 := by
    rintro rfl
    have locked := tables.zero
    rw [linked.free] at locked
    cases locked
  -- a table after the link is an old one or the new one
  have cases : ∀ {root' q t}, root' ∈ live → UserTable q → tableAt m' root' q = some t →
      (t = newPage ∧ root' = root ∧ q = i :: p) ∨
        (t ≠ newPage ∧ tableAt m root' q = some t) := by
    intro root' q t member' user' at_'
    rw [tables.tableAt_link member user at_ linked member' user'] at at_'
    split at at_'
    · rename_i below
      split at at_'
      · rename_i same
        cases at_'
        exact Or.inl ⟨rfl, below.1, same⟩
      · cases at_'
    · exact Or.inr ⟨fresh ⟨root', member', q, user', at_'⟩, at_'⟩
  constructor
  · rw [linked.nFrames]
    exact tables.small
  · exact linked.keeps tables.zero
  · rintro t ⟨root', member', q, user', at_'⟩
    rw [linked.nFrames]
    rcases cases member' user' at_' with ⟨rfl, -, -⟩ | ⟨-, old⟩
    · rw [linked.locks, Function.update_self]
      exact ⟨rfl, linked.inside, nonzero⟩
    · obtain ⟨locked, inside, positive⟩ := tables.locked t ⟨root', member', q, user', old⟩
      exact ⟨linked.keeps locked, inside, positive⟩
  · intro root₁ member₁ root₂ member₂ q₁ q₂ t user₁ user₂ at₁ at₂
    rcases cases member₁ user₁ at₁ with ⟨isNew, same₁, path₁⟩ | ⟨isOld, old₁⟩ <;>
      rcases cases member₂ user₂ at₂ with ⟨isNew', same₂, path₂⟩ | ⟨isOld', old₂⟩
    · exact ⟨same₁.trans same₂.symm, path₁.trans path₂.symm⟩
    · exact absurd isNew isOld'
    · exact absurd isNew' isOld
    · exact tables.apart root₁ member₁ root₂ member₂ q₁ q₂ t user₁ user₂ old₁ old₂
  · intro root' member' j q t user' at_' present
    rcases cases member' user'.tail.1 at_' with ⟨rfl, -, -⟩ | ⟨isOld, old⟩
    · rw [Mmu.entry, linked.cleared (fresh isTable).symm] at present
      cases present
    · by_cases isLink : t = table ∧ j = i
      · rw [isLink.1, isLink.2, Mmu.entry, linked.link]
        exact (tableWord_entry small).2.1
      · have word := linked.others t j isOld (by
          by_contra both
          push Not at both
          exact isLink both)
        rw [entry_congr word] at present ⊢
        exact tables.noLarge root' member' j q t user' old present
  · intro root' member' l q t page at_'
    rcases cases member' page.table.1 at_' with ⟨rfl, -, -⟩ | ⟨isOld, old⟩
    · rw [Mmu.entry, linked.cleared (fresh isTable).symm]
      exact cleanEntry_zero
    · have word := linked.others t l isOld (Or.inl (by
        rintro rfl
        exact tables.pageTable_ne member member' user.tail.1 user.tail.2 at_ page.table.1
          page.table.2 old))
      rw [entry_congr word]
      exact tables.clean root' member' l q t page old

end Link

end Voxel.Proofs
