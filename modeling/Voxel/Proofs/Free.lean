/-
Module: Voxel.Proofs.Free
Layer: Proofs
Purpose: What `mmu_free` does. It writes no page table: the loops give back the references of the pages
  and release the tables, so the pages that are still to be visited are the only state of the proof.
  In the end the other address spaces are what they were, with the counts that are left to them.
Trusted boundary: none
Main exports: Freed, freePage_freed, freeTable_freed, mmuFree_spec
-/
import Voxel.Proofs.Clone

namespace Voxel.Proofs

open Voxel.Kernel
open Voxel.Lib

open Classical in
/-- The pages of the live roots without those of `root` that were visited. -/
noncomputable def pagesLeft (m : Mmu) (live : Set Nat) (root : Nat) (R : Path → Prop)
    (key : Nat × Path) : Option (Mapping Nat) :=
  if key.1 = root ∧ R key.2 then none else pagesOf m live key

/-- Freeing `root` has come as far as the part `R` of its pages. -/
structure Freed (start : Mmu) (live : Set Nat) (root : Nat) (R : Path → Prop) (m : Mmu) : Prop where
  phys : m.phys = start.phys
  nFrames : m.frames.nFrames = start.frames.nFrames
  current : m.currentPml = start.currentPml
  zero : m.frames.locked 0 = true
  locks : ∀ table, IsTable start (live \ {root}) table → m.frames.locked table = true
  mapped : ∀ key mapping, pagesLeft start live root R key = some mapping →
    m.frames.locked mapping.frame = true
  counted : Counted True (pagesLeft start live root R) (refsOf m)

section

variable {start m : Mmu} {live : Set Nat} {root table : Nat} {R S : Path → Prop} {l : Fin 512}
  {p : Path}

theorem pagesLeft_eq_some {key : Nat × Path} {mapping : Mapping Nat} :
    pagesLeft start live root R key = some mapping ↔
      ¬ (key.1 = root ∧ R key.2) ∧ pagesOf start live key = some mapping := by
  unfold pagesLeft
  split
  · rename_i visited
    exact ⟨fun found => (by cases found), fun found => absurd visited found.1⟩
  · rename_i open_
    exact ⟨fun found => ⟨open_, found⟩, fun found => found.2⟩

/-- Only the mapped pages of the part matter. -/
theorem pagesLeft_congr (same : ∀ v, UserPage v → pageAt start root v ≠ none → (R v ↔ S v)) :
    pagesLeft start live root R = pagesLeft start live root S := by
  funext key
  apply Option.ext
  intro mapping
  rw [pagesLeft_eq_some, pagesLeft_eq_some]
  refine and_congr_left fun found => not_congr (and_congr_right fun isRoot => ?_)
  obtain ⟨-, page, e, maps, -⟩ := pagesOf_eq_some.mp found
  refine same key.2 page ?_
  rw [← isRoot, maps]
  exact Option.some_ne_none e

theorem Freed.congr (freed : Freed start live root R m)
    (same : ∀ v, UserPage v → pageAt start root v ≠ none → (R v ↔ S v)) :
    Freed start live root S m where
  phys := freed.phys
  nFrames := freed.nFrames
  current := freed.current
  zero := freed.zero
  locks := freed.locks
  mapped := fun key mapping found => freed.mapped key mapping (by rwa [pagesLeft_congr same])
  counted := by
    rw [← pagesLeft_congr same]
    exact freed.counted

theorem pagesLeft_insert (l : Fin 512) (p : Path) :
    pagesLeft start live root (fun q => R q ∨ q = l :: p) =
      Function.update (pagesLeft start live root R) (root, l :: p) none := by
  funext key
  by_cases isHere : key = (root, l :: p)
  · subst isHere
    rw [Function.update_self, pagesLeft, if_pos ⟨rfl, Or.inr rfl⟩]
  · have same : (key.1 = root ∧ (R key.2 ∨ key.2 = l :: p)) ↔ (key.1 = root ∧ R key.2) := by
      refine and_congr_right fun isRoot => or_iff_left fun isPage => isHere ?_
      exact Prod.ext isRoot isPage
    rw [Function.update_of_ne isHere]
    apply Option.ext
    intro mapping
    rw [pagesLeft_eq_some, pagesLeft_eq_some, same]

/-- Releasing a frame that no remaining page maps and that is no table of the others. -/
theorem Freed.releaseFrame (freed : Freed start live root R m) {frame : Nat} (nonzero : frame ≠ 0)
    (noTable : ¬ IsTable start (live \ {root}) frame)
    (unmapped : ∀ key mapping, pagesLeft start live root R key = some mapping →
      mapping.frame ≠ frame) : Freed start live root R (m.releaseFrame frame) where
  phys := freed.phys
  nFrames := (mmuReleaseFrame_nFrames _ _).trans freed.nFrames
  current := freed.current
  zero := (mmuReleaseFrame_of_ne _ (Ne.symm nonzero)).trans freed.zero
  locks := fun t isTable => (mmuReleaseFrame_of_ne _ (by
    rintro rfl
    exact noTable isTable)).trans (freed.locks t isTable)
  mapped := fun key mapping found =>
    (mmuReleaseFrame_of_ne _ (unmapped key mapping found)).trans (freed.mapped key mapping found)
  counted := freed.counted

theorem IsTable.mono {live' : Set Nat} (isTable : IsTable m live table) (subset : live ⊆ live') :
    IsTable m live' table := by
  obtain ⟨root, member, rest⟩ := isTable
  exact ⟨root, subset member, rest⟩

/-- `_free_page` on a page that is still to be visited. -/
theorem freePage_freed (spaces : AddressSpaces True start live) (member : root ∈ live)
    (page : UserPage (l :: p)) (at_ : tableAt start root p = some table)
    (access : (start.entry table l).present = true ∧ (start.entry table l).user = true)
    (unvisited : ¬ R (l :: p)) (freed : Freed start live root R m) :
    Freed start live root (fun q => R q ∨ q = l :: p) (freePage m table l) := by
  have entry : m.entry table l = start.entry table l := by
    rw [Mmu.entry, freed.phys, Mmu.entry]
  have maps : pageAt start root (l :: p) = some (start.entry table l) := by
    rw [pageAt_cons at_]
    simp [access.1, access.2]
  have mapsAll := pagesOf_of_page member page maps
  have mapsLeft : pagesLeft start live root R (root, l :: p) =
      some (mappingOf (start.entry table l)) :=
    pagesLeft_eq_some.mpr ⟨fun visited => unvisited visited.2, mapsAll⟩
  obtain ⟨-, inside, nonzero, noTable⟩ := spaces.mapped _ _ mapsAll
  have noOther : ¬ IsTable start (live \ {root}) (start.entry table l).page.toNat :=
    fun isTable => noTable (isTable.mono Set.sdiff_subset)
  have earlier : ∀ {key mapping},
      pagesLeft start live root (fun q => R q ∨ q = l :: p) key = some mapping →
        key ≠ (root, l :: p) ∧ pagesLeft start live root R key = some mapping := by
    intro key mapping found
    rw [pagesLeft_insert] at found
    have isOther : key ≠ (root, l :: p) := by
      rintro rfl
      rw [Function.update_self] at found
      cases found
    rw [Function.update_of_ne isOther] at found
    exact ⟨isOther, found⟩
  unfold freePage
  dsimp only
  rw [entry]
  split
  · rename_i writable
    have dropped : Freed start live root (fun q => R q ∨ q = l :: p) m := by
      refine ⟨freed.phys, freed.nFrames, freed.current, freed.zero, freed.locks,
        fun key mapping found => freed.mapped key mapping (earlier found).2, ?_⟩
      rw [pagesLeft_insert]
      exact freed.counted.dropWritable trivial mapsLeft writable
    refine dropped.releaseFrame nonzero noOther fun key mapping found same => ?_
    obtain ⟨isOther, old⟩ := earlier found
    exact isOther ((freed.counted.alone_of_writable mapsLeft writable).2 key mapping old same)
  · rename_i notWritable
    have readonly : (start.entry table l).writable = false := by simpa using notWritable
    obtain ⟨-, positive, -⟩ := freed.counted.shared_of_readonly mapsLeft readonly
    obtain ⟨count, counts, decreased⟩ := @refcountDecrease_of_pos
      _ (start.entry table l).page.toNat (by rw [freed.nFrames]; exact inside) positive
    rw [decreased]
    dsimp only
    have dropped : Freed start live root (fun q => R q ∨ q = l :: p)
        (m.setRefcount (start.entry table l).page.toNat count) := by
      refine ⟨freed.phys, freed.nFrames, freed.current, freed.zero, freed.locks,
        fun key mapping found => freed.mapped key mapping (earlier found).2, ?_⟩
      rw [pagesLeft_insert, refsOf_setRefcount, counts]
      exact freed.counted.dropShared mapsLeft readonly
    split
    · rename_i last
      refine dropped.releaseFrame nonzero noOther fun key mapping found same => ?_
      -- another mapping of the frame would be counted
      obtain ⟨-, old⟩ := earlier found
      have readonly' := ((freed.counted.shared_of_readonly mapsLeft readonly).2.2.2 key mapping old
        same).1
      obtain ⟨-, positive', -⟩ := dropped.counted.shared_of_readonly found readonly'
      rw [same, refsOf_setRefcount, Function.update_self, counts] at positive'
      omega
    · exact dropped

/-- A loop over the entries of a table of the freed root. -/
theorem foldRange_freed {body : Nat → Mmu → Mmu} {count : Nat} (bound : count ≤ 512)
    (unvisited : ∀ q, Below p count q → ¬ R q)
    (each : ∀ i b (Q : Path → Prop), i < count → (∀ q, (Fin.ofNat 512 i :: p) <:+ q → ¬ Q q) →
      Freed start live root Q b →
      Freed start live root (fun q => Q q ∨ (Fin.ofNat 512 i :: p) <:+ q) (body i b))
    (freed : Freed start live root R m) :
    Freed start live root (fun q => R q ∨ Below p count q) (foldRange body 0 count m) := by
  have whole := @foldRange_invariant _ body
    (fun i b => Freed start live root (fun q => R q ∨ Below p i q) b) 0 count ?_ m ?_
  · rwa [Nat.zero_add] at whole
  · intro i b _ inside soFar
    rw [Nat.zero_add] at inside
    refine (each i b _ inside (fun q suffix => ?_) soFar).congr fun v _ _ => ?_
    · rintro (old | below)
      · exact unvisited q ⟨i, inside, suffix⟩ old
      · exact below_disjoint below (Nat.le_refl i) (by omega) suffix
    · rw [below_succ, or_assoc]
  · refine freed.congr fun v _ _ => (or_iff_left fun below => ?_).symm
    obtain ⟨i, smaller, -⟩ := below
    exact Nat.not_lt_zero i smaller

/-- The nested loops of `mmu_free`, from the table at a path on. -/
theorem freeTable_freed (spaces : AddressSpaces True start live) (member : root ∈ live) :
    ∀ (level : Nat) {count table : Nat} {p : Path} {R : Path → Prop} {m : Mmu},
      p.length + level = 3 → IsUser p → count ≤ 512 → (p = [] → count ≤ 256) →
      tableAt start root p = some table → (∀ q, Below p count q → ¬ R q) →
      Freed start live root R m →
      Freed start live root (fun q => R q ∨ Below p count q) (freeTable level count table m) := by
  intro level
  induction level with
  | zero =>
      intro count table p R m depth user bound low at_ unvisited freed
      rw [freeTable]
      refine foldRange_freed bound unvisited ?_ freed
      intro i b Q inside unvisited freed
      have page : UserPage (Fin.ofNat 512 i :: p) := ⟨by simpa using depth, user.cons fun empty => by
        rw [empty] at depth
        cases depth⟩
      have only : ∀ {v}, UserPage v → ((Fin.ofNat 512 i :: p) <:+ v ↔ v = Fin.ofNat 512 i :: p) :=
        fun page' => ⟨fun suffix => (suffix.eq_of_length (page.1.trans page'.1.symm)).symm,
          fun same => same ▸ List.suffix_refl _⟩
      have entry : b.entry table (Fin.ofNat 512 i) = start.entry table (Fin.ofNat 512 i) := by
        rw [Mmu.entry, freed.phys, Mmu.entry]
      rw [entry]
      split
      · rename_i access
        refine (freePage_freed spaces member page at_ (by simpa using access)
          (unvisited _ (List.suffix_refl _)) freed).congr fun v page' _ => ?_
        rw [only page']
      · rename_i noAccess
        refine freed.congr fun v page' mapped => (or_iff_left fun suffix => mapped ?_).symm
        rw [(only page').mp suffix, pageAt_cons at_, if_neg noAccess]
  | succ level inductionHypothesis =>
      intro count table p R m depth user bound low at_ unvisited freed
      rw [freeTable]
      refine foldRange_freed bound unvisited ?_ freed
      intro i b Q inside unvisited freed
      have userInner : UserTable (Fin.ofNat 512 i :: p) :=
        ⟨by simp only [List.length_cons]; omega, user.cons fun empty => by
          have small := low empty
          rw [Fin.val_ofNat]
          omega⟩
      have below : ∀ {v}, UserPage v →
          ((Fin.ofNat 512 i :: p) <:+ v ↔ Below (Fin.ofNat 512 i :: p) 512 v) := by
        intro v page
        constructor
        · exact fun suffix => below_of_suffix suffix (by
            rw [page.1]
            exact Nat.lt_succ_of_le userInner.1)
        · rintro ⟨j, -, suffix⟩
          exact (List.suffix_cons _ _).trans suffix
      have entry : b.entry table (Fin.ofNat 512 i) = start.entry table (Fin.ofNat 512 i) := by
        rw [Mmu.entry, freed.phys, Mmu.entry]
      dsimp only
      rw [entry]
      split
      · rename_i present
        have inner := spaces.tables.tableAt_present member userInner at_ present
        have isTable : IsTable start live (start.entry table (Fin.ofNat 512 i)).page.toNat :=
          ⟨root, member, _, userInner, inner⟩
        have loop := inductionHypothesis (p := Fin.ofNat 512 i :: p) (R := Q) (m := b)
          (by simp only [List.length_cons]; omega) userInner.2 (Nat.le_refl 512)
          (fun empty => absurd empty (List.cons_ne_nil _ _)) inner (fun q suffix => by
            obtain ⟨j, -, suffix⟩ := suffix
            exact unvisited q ((List.suffix_cons _ _).trans suffix)) freed
        refine (loop.releaseFrame (spaces.tables.locked _ isTable).2.2 ?_ ?_).congr
          fun v page _ => by rw [below page]
        · rintro ⟨root', member', q, user', at_'⟩
          exact member'.2 (spaces.tables.apart root member root' member'.1 _ q _ userInner user'
            inner at_').1.symm
        · intro key mapping found same
          obtain ⟨-, -, -, noTable⟩ := spaces.mapped key mapping (pagesLeft_eq_some.mp found).2
          exact noTable (same ▸ isTable)
      · rename_i absent
        refine freed.congr fun v page mapped => (or_iff_left fun suffix => mapped ?_).symm
        refine pageAt_none_of_suffix (tableAt_absent at_ (by simpa using absent)) suffix ?_
        rw [page.1]
        exact Nat.lt_succ_of_le userInner.1

/-- Fewer roots have fewer tables. -/
theorem Tables.mono {live' : Set Nat} (tables : Tables m live) (subset : live' ⊆ live) :
    Tables m live' where
  small := tables.small
  zero := tables.zero
  locked := fun table isTable => tables.locked table (isTable.mono subset)
  apart := fun root member root' member' =>
    tables.apart root (subset member) root' (subset member')
  noLarge := fun root member => tables.noLarge root (subset member)
  clean := fun root member => tables.clean root (subset member)

/-- `mmu_free`: the other address spaces stay as they are. -/
theorem mmuFree_spec (spaces : AddressSpaces True start live) (member : root ∈ live) :
    AddressSpaces True (mmuFree start (some root)) (live \ {root}) ∧
      (mmuFree start (some root)).phys = start.phys ∧
      (mmuFree start (some root)).frames.nFrames = start.frames.nFrames ∧
      (mmuFree start (some root)).currentPml = start.currentPml := by
  have tables := spaces.tables
  have isTable : IsTable start live root := ⟨root, member, [], ⟨Nat.zero_le _, trivial⟩, rfl⟩
  have initially : Freed start live root (fun _ => False) start := by
    have whole : pagesLeft start live root (fun _ => False) = pagesOf start live := by
      funext key
      rw [pagesLeft, if_neg fun visited => visited.2]
    refine ⟨rfl, rfl, rfl, tables.zero, fun table isTable =>
      (tables.locked table (isTable.mono Set.sdiff_subset)).1, fun key mapping found => ?_, ?_⟩
    · rw [whole] at found
      exact (spaces.mapped key mapping found).1
    · rw [whole]
      exact spaces.counted
  have loop := @freeTable_freed _ _ _ spaces member 3 256 root [] _ _ rfl trivial
    (by decide) (fun _ => Nat.le_refl _) rfl (fun _ _ visited => visited) initially
  have freed : Freed start live root (fun q => False ∨ Below [] 256 q)
      (mmuFree start (some root)) := by
    refine loop.releaseFrame (tables.locked root isTable).2.2 ?_ ?_
    · rintro ⟨root', member', q, user', at_'⟩
      exact member'.2 (tables.apart root member root' member'.1 [] q root ⟨Nat.zero_le _, trivial⟩
        user' rfl at_').1.symm
    · intro key mapping found same
      obtain ⟨-, -, -, noTable⟩ := spaces.mapped key mapping (pagesLeft_eq_some.mp found).2
      exact noTable (same ▸ isTable)
  have walks := fun root' q => walks_of_phys freed.phys root' q
  have sameTables : ∀ {table}, IsTable (mmuFree start (some root)) (live \ {root}) table →
      IsTable start (live \ {root}) table := by
    rintro table ⟨root', member', q, user', at_'⟩
    exact ⟨root', member', q, user', by rwa [(walks root' q).1] at at_'⟩
  have left : pagesOf (mmuFree start (some root)) (live \ {root}) =
      pagesLeft start live root (fun q => False ∨ Below [] 256 q) := by
    funext key
    apply Option.ext
    intro mapping
    rw [pagesLeft_eq_some, pagesOf_eq_some, pagesOf_eq_some, (walks key.1 key.2).2.1]
    constructor
    · rintro ⟨⟨old, isOther⟩, page, found⟩
      exact ⟨fun visited => isOther visited.1, old, page, found⟩
    · rintro ⟨unvisited, old, page, found⟩
      exact ⟨⟨old, fun same => unvisited ⟨same, Or.inr (below_root page)⟩⟩, page, found⟩
  refine ⟨⟨?_, ?_, ?_⟩, freed.phys, freed.nFrames, freed.current⟩
  · refine (tables.mono Set.sdiff_subset).congr freed.nFrames freed.zero freed.locks
      (fun _ _ _ _ _ _ _ => by rw [freed.phys]) ?_
    intro root' member' i p table page at_
    have word : (mmuFree start (some root)).phys table i = start.phys table i := by rw [freed.phys]
    rw [entry_congr word]
    exact tables.clean root' member'.1 i p table page at_
  · intro key mapping found
    rw [left] at found
    obtain ⟨-, inside, nonzero, noTable⟩ := spaces.mapped key mapping (pagesLeft_eq_some.mp found).2
    refine ⟨freed.mapped key mapping found, freed.nFrames ▸ inside, nonzero, fun isTable' => ?_⟩
    exact noTable ((sameTables isTable').mono Set.sdiff_subset)
  · rw [left]
    exact freed.counted

end

end Voxel.Proofs
