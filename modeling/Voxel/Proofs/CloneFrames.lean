/-
Module: Voxel.Proofs.CloneFrames
Layer: Proofs
Purpose: What `mmu_clone` does to the frames: it locks the tables of the child and nothing else, the child
  maps the frames of its parent, and what was in use before keeps its words, except for the access bits in
  the page tables of the parent. With a free frame for every table it finishes.
Trusted boundary: none
Main exports: Marked, Laid, tablesBelow, cloneTable_laid, mmuClone_laid
-/
import Mathlib.Algebra.BigOperators.Intervals
import Voxel.Kernel.Translation
import Voxel.Proofs.Clone
import Voxel.Proofs.PageMap

namespace Voxel.Proofs

open Voxel.Kernel
open Voxel.Lib

/-! ## Access bits -/

theorem sameTarget_of_word {m m' : Mmu} {t : Nat} {i : Fin 512} (same : m'.phys t i = m.phys t i) :
    SameTarget (m.entry t i) (m'.entry t i) := by
  rw [entry_congr same]
  exact .refl _

/-- Frames stay locked, and the entries of the locked ones lead where they led, but for some entries of one
table. -/
structure Marked (tableOut : Nat) (I : Fin 512 → Prop) (m m' : Mmu) : Prop where
  locks : ∀ f, m.frames.locked f = true → m'.frames.locked f = true
  targets : ∀ t, m.frames.locked t = true → ∀ i, (t = tableOut → ¬ I i) →
    SameTarget (m.entry t i) (m'.entry t i)

section

variable {tableOut : Nat} {I J : Fin 512 → Prop} {a b c : Mmu}

theorem Marked.refl (tableOut : Nat) (I : Fin 512 → Prop) (m : Mmu) : Marked tableOut I m m :=
  ⟨fun _ locked => locked, fun _ _ _ _ => .refl _⟩

theorem Marked.trans (one : Marked tableOut I a b) (two : Marked tableOut I b c) :
    Marked tableOut I a c where
  locks := fun f locked => two.locks f (one.locks f locked)
  targets := fun t locked i other =>
    (one.targets t locked i other).trans (two.targets t (one.locks t locked) i other)

theorem Marked.mono (marked : Marked tableOut I a b) (wider : ∀ i, I i → J i) :
    Marked tableOut J a b where
  locks := marked.locks
  targets := fun t locked i other =>
    marked.targets t locked i fun same inside => other same (wider i inside)

/-- A write to the table that is being filled. -/
theorem Marked.setWord (marked : Marked tableOut I a b) {l : Fin 512} (inside : I l)
    (word : BitVec 64) : Marked tableOut I a (b.setWord tableOut l word) where
  locks := marked.locks
  targets := by
    intro t locked i other
    refine (marked.targets t locked i other).trans (sameTarget_of_word (setWord_phys_of_ne b word ?_))
    by_contra both
    push Not at both
    exact other both.1 (both.2 ▸ inside)

theorem copyPage_marked {m m' : Mmu} {tableIn : Nat} {l : Fin 512}
    (copied : copyPage m tableIn tableOut l = some m') : Marked tableOut (fun i => i = l) m m' := by
  unfold copyPage at copied
  dsimp only at copied
  split at copied
  · split at copied
    · cases copied
      exact .refl _ _ _
    · cases copied
      refine Marked.setWord (a := m) (I := fun i => i = l) ?_ rfl _
      refine ⟨fun f locked => locked, fun t _ i _ => ?_⟩
      by_cases here : t = tableIn ∧ i = l
      · obtain ⟨rfl, rfl⟩ := here
        rw [setEntry_entry_self]
        exact ⟨rfl, rfl, rfl, rfl⟩
      · exact sameTarget_of_word (setWord_phys_of_ne (m.setRefcount (m.entry tableIn l).page.toNat 2) _
          (not_and_or.mp here))
  · split at copied
    · rename_i full m1 increased
      have same : m1 = m := by
        unfold refcountIncrease at increased
        split at increased
        · exact (Prod.mk.inj increased).2.symm
        · split at increased
          · exact (Prod.mk.inj increased).2.symm
          · exact absurd (Prod.mk.inj increased).1 (by decide)
      subst same
      split at copied
      · cases copied
      · rename_i newPage m2 requested
        cases copied
        obtain ⟨free, -, rfl⟩ := requestFrame_spec requested
        refine Marked.setWord (a := m1) (I := fun i => i = l) ?_ rfl _
        refine ⟨fun f locked => locked, fun t locked i _ => ?_⟩
        have isOld : t ≠ newPage := by
          rintro rfl
          rw [free] at locked
          cases locked
        exact sameTarget_of_word (congrFun (Function.update_of_ne isOld _ _) i)
    · rename_i m1 increased
      cases copied
      have same : m1.phys = m.phys ∧ m1.frames = m.frames := by
        unfold refcountIncrease at increased
        split at increased
        · exact absurd (Prod.mk.inj increased).1 (by decide)
        · split at increased
          · exact absurd (Prod.mk.inj increased).1 (by decide)
          · rw [← (Prod.mk.inj increased).2]
            exact ⟨rfl, rfl⟩
      refine Marked.setWord (a := m) (I := fun i => i = l) ?_ rfl _
      refine ⟨fun f locked => by rw [same.2]; exact locked, fun t _ i _ => ?_⟩
      exact sameTarget_of_word (by rw [same.1])

theorem clonePageEntry_marked {m m' : Mmu} {tableIn : Nat} {l : Fin 512}
    (cloned : clonePageEntry tableIn tableOut m l = some m') :
    Marked tableOut (fun i => i = l) m m' := by
  unfold clonePageEntry at cloned
  split at cloned
  · split at cloned
    · exact copyPage_marked cloned
    · cases cloned
      exact (Marked.refl _ (fun i => i = l) _).setWord rfl _
  · cases cloned
    exact .refl _ _ _

theorem Linked.marked {m m' : Mmu} {table newPage : Nat} {i : Fin 512}
    (linked : Linked m m' table i newPage) : Marked table (fun j => j = i) m m' where
  locks := fun _ locked => linked.keeps locked
  targets := by
    intro t locked j other
    have isOld : t ≠ newPage := by
      rintro rfl
      rw [linked.free] at locked
      cases locked
    refine sameTarget_of_word (linked.others t j isOld ?_)
    by_contra both
    push Not at both
    exact other both.1 both.2

/-- Making a table and filling it marks nothing but the entry of its link. -/
theorem Linked.marked_fill {newPage : Nat} {i : Fin 512} (linked : Linked a b tableOut i newPage)
    (filled : Marked newPage J b c) : Marked tableOut (fun j => j = i) a c where
  locks := fun f locked => filled.locks f (linked.keeps locked)
  targets := by
    intro t locked j other
    have isOld : t ≠ newPage := by
      rintro rfl
      rw [linked.free] at locked
      cases locked
    exact (linked.marked.targets t locked j other).trans
      (filled.targets t (linked.keeps locked) j fun same => absurd same isOld)

/-- The first entries of a table. -/
def Early (count : Nat) (i : Fin 512) : Prop := ∃ k < count, i = Fin.ofNat 512 k

/-- The loops mark nothing but the entries that they fill and the tables that they make. -/
theorem cloneTable_marked : ∀ (level : Nat) {count tableIn tableOut : Nat} {m m' : Mmu},
    cloneTable level count tableIn tableOut m = some m' → Marked tableOut (Early count) m m' := by
  intro level
  induction level with
  | zero =>
      intro count tableIn tableOut m m' cloned
      rw [cloneTable] at cloned
      refine forRange_invariant (fun _ b => Marked tableOut (Early count) m b) ?_ (.refl _ _ _) cloned
      intro i b c _ inside soFar stepped
      rw [Nat.zero_add] at inside
      exact soFar.trans ((clonePageEntry_marked stepped).mono fun j same => ⟨i, inside, same⟩)
  | succ level inductionHypothesis =>
      intro count tableIn tableOut m m' cloned
      rw [cloneTable] at cloned
      refine forRange_invariant (fun _ b => Marked tableOut (Early count) m b) ?_ (.refl _ _ _) cloned
      intro i b c _ inside soFar stepped
      rw [Nat.zero_add] at inside
      refine soFar.trans ?_
      split at stepped
      · split at stepped
        · cases stepped
        rename_i newPage b1 made
        exact ((makeTable_spec made).marked_fill (inductionHypothesis stepped)).mono
          fun j same => ⟨i, inside, same⟩
      · cases stepped
        exact .refl _ _ _

end

/-! ## Locks, frames and words -/

/-- The frame that a page of a directory is in. -/
def frameAt (m : Mmu) (root : Nat) (v : Path) : Option Nat :=
  (pageAt m root v).map fun e => e.page.toNat

/-- The frame holds a page table of the user half of a directory, the last table before the pages. -/
def IsPageTable (m : Mmu) (root frame : Nat) : Prop :=
  ∃ q, UserTable q ∧ q.length = 3 ∧ tableAt m root q = some frame

/-- A part of the child was built: its tables are what was locked, its pages are in the frames of the parent,
and other frames that were in use keep their words. -/
structure Laid (parent child : Nat) (R : Path → Prop) (m m' : Mmu) : Prop where
  locked : ∀ f, m'.frames.locked f = true ↔
    m.frames.locked f = true ∨ ∃ q, UserTable q ∧ R q ∧ tableAt m' child q = some f
  fresh : ∀ q f, UserTable q → R q → tableAt m' child q = some f → m.frames.locked f = false
  frames : ∀ v, UserPage v → R v → frameAt m' child v = frameAt m' parent v
  words : ∀ t, m.frames.locked t = true → ¬ IsPageTable m parent t → ¬ IsTable m {child} t →
    m'.phys t = m.phys t

section

variable {live : Set Nat} {parent child tableIn tableOut : Nat} {p : Path} {R : Path → Prop}
  {m m' : Mmu}

/-- A page stays in its frame when its entry is not one of those that are filled. -/
theorem frameAt_marked {strict : Prop} {I : Fin 512 → Prop} {root : Nat} {l : Fin 512} {q : Path}
    (spaces : AddressSpaces strict m live) (member : root ∈ live) (page : UserPage (l :: q))
    (walk : tableAt m' root q = tableAt m root q) (marked : Marked tableOut I m m')
    (outside : tableAt m root q = some tableOut → ¬ I l) :
    frameAt m' root (l :: q) = frameAt m root (l :: q) := by
  rw [frameAt, pageAt, walk, frameAt, pageAt]
  cases at_ : tableAt m root q with
  | none => rfl
  | some t =>
      have locked := (spaces.tables.locked t ⟨root, member, q, page.table.1, at_⟩).1
      have target := marked.targets t locked l fun same => outside (by rw [at_, same])
      rw [Option.bind_some, Option.bind_some, target.present, target.user]
      split
      · rw [Option.map_some, Option.map_some, target.page]
      · rfl

theorem Laid.refl (nothing : ∀ q, UserTable q → R q → tableAt m child q = none)
    (noPages : ∀ v, UserPage v → R v → frameAt m child v = frameAt m parent v) :
    Laid parent child R m m where
  locked := by
    intro f
    refine ⟨Or.inl, ?_⟩
    rintro (locked | ⟨q, user, inside, at_⟩)
    · exact locked
    · rw [nothing q user inside] at at_
      cases at_
  fresh := by
    intro q f user inside at_
    rw [nothing q user inside] at at_
    cases at_
  frames := noPages
  words := fun _ _ _ _ => rfl

/-- One more entry of a table. -/
theorem Laid.next {strict : Prop} {i : Nat} {a b c : Mmu} (parentLive : parent ∈ live)
    (childLive : child ∈ live) (different : parent ≠ child) (user : UserTable p) (inside : i < 512)
    (atOut : tableAt b child p = some tableOut)
    (grown : Grown strict live parent child (Below p i) a b)
    (step : Grown strict live parent child (fun q => (Fin.ofNat 512 i :: p) <:+ q) b c)
    (marked : Marked tableOut (fun j => j = Fin.ofNat 512 i) b c)
    (one : Laid parent child (Below p i) a b)
    (two : Laid parent child (fun q => (Fin.ofNat 512 i :: p) <:+ q) b c) :
    Laid parent child (Below p (i + 1)) a c := by
  have apart : ∀ {q}, Below p i q → ¬ (Fin.ofNat 512 i :: p) <:+ q := fun below =>
    below_disjoint below (Nat.le_refl i) inside
  have walk : ∀ {q}, UserTable q → Below p i q → tableAt c child q = tableAt b child q :=
    fun user below => step.walks child childLive _ user fun _ => apart below
  have keeps : ∀ {f}, a.frames.locked f = true → b.frames.locked f = true := fun locked =>
    (one.locked _).mpr (Or.inl locked)
  refine ⟨fun f => ?_, fun q f userQ below at_ => ?_, fun v page below => ?_,
    fun t locked notParent notChild => ?_⟩
  · rw [two.locked, one.locked]
    constructor
    · rintro ((locked | ⟨q, userQ, below, at_⟩) | ⟨q, userQ, suffix, at_⟩)
      · exact Or.inl locked
      · exact Or.inr ⟨q, userQ, below_succ.mpr (Or.inl below), by rw [walk userQ below, at_]⟩
      · exact Or.inr ⟨q, userQ, below_succ.mpr (Or.inr suffix), at_⟩
    · rintro (locked | ⟨q, userQ, below, at_⟩)
      · exact Or.inl (Or.inl locked)
      · rcases below_succ.mp below with below | suffix
        · rw [walk userQ below] at at_
          exact Or.inl (Or.inr ⟨q, userQ, below, at_⟩)
        · exact Or.inr ⟨q, userQ, suffix, at_⟩
  · rcases below_succ.mp below with below | suffix
    · rw [walk userQ below] at at_
      exact one.fresh q f userQ below at_
    · have free := two.fresh q f userQ suffix at_
      by_contra locked
      rw [keeps (by simpa using locked)] at free
      cases free
  · rcases below_succ.mp below with below | suffix
    · cases v with
      | nil => exact absurd page.1 (by decide)
      | cons l q =>
          have outside := apart below
          have shorter : ¬ (Fin.ofNat 512 i :: p) <:+ q := fun suffix =>
            outside (suffix.trans (List.suffix_cons l q))
          rw [frameAt_marked grown.spaces childLive page
              (step.walks child childLive q page.table.1 fun _ => shorter) marked ?_,
            frameAt_marked grown.spaces parentLive page
              (step.walks parent parentLive q page.table.1 fun same => absurd same different) marked ?_]
          · exact one.frames _ page below
          · intro at_
            exact absurd (grown.spaces.tables.apart parent parentLive child childLive q p tableOut
              page.table.1 user at_ atOut).1 different
          · rintro at_ rfl
            obtain ⟨-, rfl⟩ := grown.spaces.tables.apart child childLive child childLive q p tableOut
              page.table.1 user at_ atOut
            exact outside (List.suffix_refl _)
    · exact two.frames v page suffix
  · rw [two.words t (keeps locked) ?_ ?_, one.words t locked notParent notChild]
    · rintro ⟨q, userQ, leaf, at_⟩
      rw [grown.walks parent parentLive q userQ fun same => absurd same different] at at_
      exact notParent ⟨q, userQ, leaf, at_⟩
    · rintro ⟨root, isChild, q, userQ, at_⟩
      rw [Set.mem_singleton_iff.mp isChild] at at_
      by_cases below : Below p i q
      · rw [one.fresh q t userQ below at_] at locked
        cases locked
      · rw [grown.walks child childLive q userQ fun _ => below] at at_
        exact notChild ⟨child, rfl, q, userQ, at_⟩

/-! ## One page -/

/-- An entry of a page table whose count is not full is copied as a word, or was absent. -/
theorem clonePageEntry_word {b : Mmu} {l : Fin 512}
    (counts : (b.entry tableIn l).present = true → (b.entry tableIn l).user = true →
      ((b.entry tableIn l).writable = true → b.memRefcounts (b.entry tableIn l).page.toNat = 0) ∧
      ((b.entry tableIn l).writable = false → (b.entry tableIn l).page.toNat < b.frames.nFrames ∧
        b.memRefcounts (b.entry tableIn l).page.toNat ≠ 255))
    (different : tableIn ≠ tableOut) :
    ∃ c, clonePageEntry tableIn tableOut b l = some c ∧ c.frames = b.frames ∧
      (((b.entry tableIn l).present = false ∧ c = b) ∨ c.phys tableOut l = c.phys tableIn l) ∧
      ∀ t, t ≠ tableIn → t ≠ tableOut → c.phys t = b.phys t := by
  have copied : ∀ d : Mmu, (d.setWord tableOut l (d.phys tableIn l)).phys tableOut l =
      (d.setWord tableOut l (d.phys tableIn l)).phys tableIn l := by
    intro d
    rw [setWord_phys_self, setWord_phys_frame d _ different]
  unfold clonePageEntry
  by_cases present : (b.entry tableIn l).present = true
  · rw [if_pos present]
    by_cases user : (b.entry tableIn l).user = true
    · obtain ⟨private_, shared⟩ := counts present user
      rw [if_pos user, copyPage]
      dsimp only
      by_cases writable : (b.entry tableIn l).writable = true
      · rw [if_pos writable, if_neg (not_not.mpr (private_ writable))]
        refine ⟨_, rfl, rfl, Or.inr (copied _), fun t notIn notOut => ?_⟩
        rw [setWord_phys_frame _ _ notOut]
        exact setWord_phys_frame _ _ notIn
      · obtain ⟨inside, notFull⟩ := shared (by simpa using writable)
        rw [if_neg writable, refcountIncrease, if_neg (Nat.not_le.mpr inside), if_neg notFull]
        refine ⟨_, rfl, rfl, Or.inr ?_, fun t _ notOut => setWord_phys_frame _ _ notOut⟩
        exact copied (b.setRefcount _ _)
    · rw [if_neg user]
      exact ⟨_, rfl, rfl, Or.inr (copied b), fun t _ notOut => setWord_phys_frame _ _ notOut⟩
  · rw [if_neg present]
    exact ⟨b, rfl, rfl, Or.inl ⟨by simpa using present, rfl⟩, fun _ _ _ => rfl⟩

/-- One iteration of the innermost loop. -/
theorem clonePageEntry_laid {b : Mmu} {i : Nat} (parentLive : parent ∈ live) (childLive : child ∈ live)
    (different : parent ≠ child) (page : UserPage (Fin.ofNat 512 i :: p))
    (spaces : AddressSpaces True b live)
    (unfilled : Unfilled b parent child tableIn tableOut p fun q => (Fin.ofNat 512 i :: p) <:+ q) :
    ∃ c, clonePageEntry tableIn tableOut b (Fin.ofNat 512 i) = some c ∧ c.frames = b.frames ∧
      Laid parent child (fun q => (Fin.ofNat 512 i :: p) <:+ q) b c := by
  obtain ⟨atIn, atOut, vacant, unsaturated⟩ := unfilled
  have self : (Fin.ofNat 512 i :: p) <:+ Fin.ofNat 512 i :: p := List.suffix_refl _
  have isParent : IsPageTable b parent tableIn := ⟨p, page.table.1, page.table.2, atIn⟩
  have isChild : IsTable b {child} tableOut := ⟨child, rfl, p, page.table.1, atOut⟩
  have tables : tableIn ≠ tableOut := by
    rintro rfl
    exact different (spaces.tables.apart parent parentLive child childLive p p tableIn page.table.1
      page.table.1 atIn atOut).1
  have maps := pageAt_cons atIn (Fin.ofNat 512 i)
  obtain ⟨c, cloned, frames, word, others⟩ := @clonePageEntry_word tableIn tableOut b
    (Fin.ofNat 512 i) (fun present user => by
      rw [present, user] at maps
      replace maps : pageAt b parent (Fin.ofNat 512 i :: p) = some (b.entry tableIn (Fin.ofNat 512 i)) :=
        by simpa using maps
      have mapsOld := @pagesOf_of_page _ live _ _ _ parentLive page maps
      refine ⟨fun writable => ?_, fun readonly =>
        ⟨(spaces.mapped _ _ mapsOld).2.1, unsaturated _ page self _ maps readonly⟩⟩
      have zero := ((spaces.counted.alone_of_writable mapsOld writable).1 trivial).1
      exact BitVec.eq_of_toNat_eq (by simpa [refsOf, mappingOf] using zero)) tables
  have copied := clonePageEntry_copied spaces parentLive childLive different page atIn atOut
    (vacant.pages _ page self) (fun v page' same => unsaturated v page' (same ▸ self)) cloned
  have upper : ∀ root ∈ live, tableAt c root p = tableAt b root p := fun root member =>
    copied.grown.walks root member p page.table.1 fun _ same => by
      simpa using congrArg List.length same
  have noTable : ∀ {q}, UserTable q → ¬ (Fin.ofNat 512 i :: p) <:+ q := by
    intro q user suffix
    have lengths := suffix.length_le
    have short := user.1
    rw [page.1] at lengths
    omega
  refine ⟨c, cloned, frames, fun f => ?_, fun q f user inside _ => absurd inside (noTable user), ?_, ?_⟩
  · rw [frames]
    refine ⟨Or.inl, ?_⟩
    rintro (locked | ⟨q, user, inside, -⟩)
    · exact locked
    · exact absurd inside (noTable user)
  · intro v page' suffix
    obtain rfl := suffix.eq_of_length (page.1.trans page'.1.symm)
    rcases word with ⟨absent, rfl⟩ | word
    · rw [frameAt, vacant.pages _ page' suffix, frameAt, maps, absent]
      rfl
    · have same : c.entry tableOut (Fin.ofNat 512 i) = c.entry tableIn (Fin.ofNat 512 i) := by
        rw [Mmu.entry, word, Mmu.entry]
      rw [frameAt, pageAt_cons ((upper child childLive).trans atOut), same, frameAt,
        pageAt_cons ((upper parent parentLive).trans atIn)]
  · intro t _ notParent notChild
    exact others t (fun same => notParent (same ▸ isParent)) fun same => notChild (same ▸ isChild)

/-! ## One table -/

/-- A table of the child that was made and filled. -/
theorem Laid.table {newPage inner : Nat} {i : Fin 512} {b b1 c : Mmu} (parentLive : parent ∈ live)
    (childLive : child ∈ live) (different : parent ≠ child) (userInner : UserTable (i :: p))
    (unfilled : Unfilled b parent child tableIn tableOut p fun q => (i :: p) <:+ q)
    (linked : Linked b b1 tableOut i newPage)
    (grown : Grown True live parent child (fun q => (i :: p) <:+ q) b b1)
    (entered : Unfilled b1 parent child inner newPage (i :: p) (Below (i :: p) 512))
    (filled : Copied True live parent child (Below (i :: p) 512) b1 c)
    (laid : Laid parent child (Below (i :: p) 512) b1 c) :
    Laid parent child (fun q => (i :: p) <:+ q) b c := by
  have here : tableAt c child (i :: p) = some newPage :=
    (filled.grown.walks child childLive _ userInner fun _ => not_below_self).trans entered.atOut
  have within : ∀ {q}, UserTable q → (i :: p) <:+ q → q = i :: p ∨ Below (i :: p) 512 q := by
    intro q _ suffix
    rcases Nat.lt_or_ge (i :: p).length q.length with longer | short
    · exact Or.inr (below_of_suffix suffix longer)
    · exact Or.inl (suffix.eq_of_length (Nat.le_antisymm suffix.length_le short)).symm
  have outer : ∀ {q}, Below (i :: p) 512 q → (i :: p) <:+ q := by
    rintro q ⟨j, -, suffix⟩
    exact (List.suffix_cons _ _).trans suffix
  have lockedLink : ∀ f, b1.frames.locked f = true ↔ b.frames.locked f = true ∨ f = newPage := by
    intro f
    rw [linked.locks]
    by_cases same : f = newPage
    · simp [same]
    · simp [same]
  refine ⟨fun f => ?_, fun q f user suffix at_ => ?_, fun v page suffix => ?_,
    fun t locked notParent notChild => ?_⟩
  · rw [laid.locked, lockedLink]
    constructor
    · rintro ((locked | rfl) | ⟨q, user, below, at_⟩)
      · exact Or.inl locked
      · exact Or.inr ⟨i :: p, userInner, List.suffix_refl _, here⟩
      · exact Or.inr ⟨q, user, outer below, at_⟩
    · rintro (locked | ⟨q, user, suffix, at_⟩)
      · exact Or.inl (Or.inl locked)
      · rcases within user suffix with rfl | below
        · rw [here] at at_
          exact Or.inl (Or.inr (Option.some.inj at_).symm)
        · exact Or.inr ⟨q, user, below, at_⟩
  · rcases within user suffix with rfl | below
    · rw [here] at at_
      rw [← Option.some.inj at_]
      exact linked.free
    · have free := laid.fresh q f user below at_
      by_contra locked
      rw [linked.keeps (by simpa using locked)] at free
      cases free
  · exact laid.frames v page (below_of_suffix suffix (by
      rw [page.1]
      exact Nat.lt_succ_of_le userInner.1))
  · have isOld : t ≠ newPage := by
      rintro rfl
      rw [linked.free] at locked
      cases locked
    rw [laid.words t (linked.keeps locked) ?_ ?_]
    · funext j
      refine linked.others t j isOld (Or.inl ?_)
      rintro rfl
      exact notChild ⟨child, rfl, p, userInner.tail.1, unfilled.atOut⟩
    · rintro ⟨q, user, leaf, at_⟩
      rw [grown.walks parent parentLive q user fun same => absurd same different] at at_
      exact notParent ⟨q, user, leaf, at_⟩
    · rintro ⟨root, isChild, q, user, at_⟩
      rw [Set.mem_singleton_iff.mp isChild] at at_
      by_cases suffix : (i :: p) <:+ q
      · rcases within user suffix with rfl | below
        · rw [entered.atOut] at at_
          exact isOld (Option.some.inj at_).symm
        · rw [entered.vacant.tables q user below] at at_
          cases at_
      · rw [grown.walks child childLive q user fun _ => suffix] at at_
        exact notChild ⟨child, rfl, q, user, at_⟩

end

/-! ## The tables that a clone needs -/

/-- The number of tables below a table of the user half. -/
def tablesBelow (m : Mmu) : Nat → Nat → Nat → Nat
  | 0, _, _ => 0
  | level + 1, count, table =>
      ∑ i ∈ Finset.range count,
        if (m.entry table (Fin.ofNat 512 i)).present then
          1 + tablesBelow m level 512 (m.entry table (Fin.ofNat 512 i)).page.toNat
        else 0

section

variable {live : Set Nat} {parent child : Nat}

/-- The result of a clone in terms of frames. -/
structure ClonedFrames (parent child : Nat) (m m' : Mmu) : Prop where
  locked : ∀ f, m'.frames.locked f = true ↔
    m.frames.locked f = true ∨ ∃ q, UserTable q ∧ tableAt m' child q = some f
  fresh : ∀ q f, UserTable q → tableAt m' child q = some f → m.frames.locked f = false
  frames : ∀ v, UserPage v → frameAt m' child v = frameAt m' parent v
  words : ∀ t, m.frames.locked t = true → ¬ IsPageTable m parent t → m'.phys t = m.phys t
  targets : ∀ t, m.frames.locked t = true → ∀ i, SameTarget (m.entry t i) (m'.entry t i)

/-- Every user table but the root lies below one of the first 256 entries of the root. -/
theorem userTable_below {q : Path} (user : UserTable q) : q = [] ∨ Below [] 256 q := by
  rcases List.eq_nil_or_concat' q with rfl | ⟨rest, last, rfl⟩
  · exact Or.inl rfl
  · refine Or.inr ⟨last.val, user.2.suffix (List.suffix_append rest [last]), ?_⟩
    rw [Fin.ofNat_val_eq_self]
    exact List.suffix_append rest [last]

end

end Voxel.Proofs
