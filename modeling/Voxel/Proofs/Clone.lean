/-
Module: Voxel.Proofs.Clone
Layer: Proofs
Purpose: What `mmu_clone` does. Each entry of a page table is copied in one of the ways of `_copy_page`,
  each of which keeps the invariant of the address spaces; the nested loops add up these steps, and
  the child reads in every user page what its parent reads there.
Trusted boundary: none
Main exports: Grown, Copied, Unfilled, clonePageEntry_copied, cloneTable_copied, mmuClone_spec
-/
import Voxel.Proofs.AddressSpaces

namespace Voxel.Proofs

open Voxel.Kernel
open Voxel.Lib

/-- A present entry of a page table that is not accessible to user code. -/
def KernelAt (m : Mmu) (root : Nat) : Path → Prop
  | [] => False
  | i :: p => ∃ table, tableAt m root p = some table ∧ (m.entry table i).present = true ∧
      (m.entry table i).user = false

/-- Progress of a clone of `parent` into `child`: nothing changes for anybody outside the part `R` of
the child's paths, except that pages of the parent inside `R` may have become shared. -/
structure Grown (strict : Prop) (live : Set Nat) (parent child : Nat) (R : Path → Prop)
    (m m' : Mmu) : Prop where
  spaces : AddressSpaces strict m' live
  current : m'.currentPml = m.currentPml
  nFrames : m'.frames.nFrames = m.frames.nFrames
  walks : ∀ root ∈ live, ∀ q, UserTable q → (root = child → ¬ R q) →
    tableAt m' root q = tableAt m root q
  reads : ∀ root ∈ live, ∀ v, UserPage v → (root = child → ¬ R v) →
    readAt m' root v = readAt m root v
  rest : ∀ v, UserPage v → ¬ R v → pageAt m' parent v = pageAt m parent v ∧
    ∀ e, pageAt m parent v = some e →
      m'.memRefcounts e.page.toNat = m.memRefcounts e.page.toNat
  kernel : ∀ root ∈ live, ∀ v, UserPage v → KernelAt m' root v →
    KernelAt m root v ∨ KernelAt m parent v

/-- The part `R` has been copied. Outside the `strict` discipline a private page with a count is left
out. -/
structure Copied (strict : Prop) (live : Set Nat) (parent child : Nat) (R : Path → Prop)
    (m m' : Mmu) : Prop where
  grown : Grown strict live parent child R m m'
  copied : strict → ∀ v, UserPage v → R v → readAt m' child v = readAt m' parent v

section

variable {strict : Prop} {live : Set Nat} {parent child : Nat} {R S : Path → Prop} {a b c : Mmu}

theorem Grown.refl (spaces : AddressSpaces strict a live) : Grown strict live parent child R a a where
  spaces := spaces
  current := rfl
  nFrames := rfl
  walks := fun _ _ _ _ _ => rfl
  reads := fun _ _ _ _ _ => rfl
  rest := fun _ _ _ => ⟨rfl, fun _ _ => rfl⟩
  kernel := fun _ _ _ _ kernel => Or.inl kernel

theorem Grown.mono (grown : Grown strict live parent child R a b) (wider : ∀ q, R q → S q) :
    Grown strict live parent child S a b where
  spaces := grown.spaces
  current := grown.current
  nFrames := grown.nFrames
  walks := fun root member q user outside =>
    grown.walks root member q user fun isChild inside => outside isChild (wider q inside)
  reads := fun root member v page outside =>
    grown.reads root member v page fun isChild inside => outside isChild (wider v inside)
  rest := fun v page outside => grown.rest v page fun inside => outside (wider v inside)
  kernel := grown.kernel

theorem Grown.trans (isLive : parent ∈ live) (one : Grown strict live parent child R a b)
    (two : Grown strict live parent child R b c) : Grown strict live parent child R a c where
  spaces := two.spaces
  current := two.current.trans one.current
  nFrames := two.nFrames.trans one.nFrames
  walks := fun root member q user outside =>
    (two.walks root member q user outside).trans (one.walks root member q user outside)
  reads := fun root member v page outside =>
    (two.reads root member v page outside).trans (one.reads root member v page outside)
  rest := by
    intro v page outside
    obtain ⟨pageOne, refsOne⟩ := one.rest v page outside
    obtain ⟨pageTwo, refsTwo⟩ := two.rest v page outside
    refine ⟨pageTwo.trans pageOne, fun e maps => ?_⟩
    exact (refsTwo e (pageOne.trans maps)).trans (refsOne e maps)
  kernel := by
    intro root member v page kernel
    rcases two.kernel root member v page kernel with own | fromParent
    · exact one.kernel root member v page own
    · exact Or.inr ((one.kernel parent isLive v page fromParent).elim id id)

theorem Copied.union (isLive : parent ∈ live) (childLive : child ∈ live)
    (different : parent ≠ child)
    (one : Copied strict live parent child R a b) (two : Copied strict live parent child S b c) :
    Copied strict live parent child (fun q => R q ∨ S q) a c where
  grown := (one.grown.mono fun _ inside => Or.inl inside).trans isLive
    (two.grown.mono fun _ inside => Or.inr inside)
  copied := by
    intro disciplined v page inside
    by_cases later : S v
    · exact two.copied disciplined v page later
    · have parentReads := two.grown.reads parent isLive v page fun same => absurd same different
      rw [two.grown.reads child childLive v page fun _ => later, parentReads]
      exact one.copied disciplined v page (inside.resolve_right later)

/-- A part may be given by any predicate with the same pages that contains its tables. -/
theorem Copied.widen (copied : Copied strict live parent child R a b) (wider : ∀ q, R q → S q)
    (pages : ∀ v, UserPage v → S v → R v) : Copied strict live parent child S a b where
  grown := copied.grown.mono wider
  copied := fun disciplined v page inside => copied.copied disciplined v page (pages v page inside)

/-- Preparing a part, then copying it. -/
theorem Copied.after (isLive : parent ∈ live) (one : Grown strict live parent child R a b)
    (two : Copied strict live parent child R b c) : Copied strict live parent child R a c where
  grown := one.trans isLive two.grown
  copied := two.copied

end

/-! ## One entry of a page table -/

@[simp] theorem setWord_phys_self (m : Mmu) (table : Nat) (i : Fin 512) (word : BitVec 64) :
    (m.setWord table i word).phys table i = word := by
  simp [Mmu.setWord]

theorem setWord_phys_of_ne (m : Mmu) {table t : Nat} {i j : Fin 512} (word : BitVec 64)
    (different : t ≠ table ∨ j ≠ i) : (m.setWord table i word).phys t j = m.phys t j := by
  by_cases same : t = table
  · subst same
    have otherIndex : j ≠ i := different.resolve_left fun other => other rfl
    simp [Mmu.setWord, otherIndex]
  · simp [Mmu.setWord, same]

theorem setWord_phys_frame (m : Mmu) {table t : Nat} {i : Fin 512} (word : BitVec 64)
    (different : t ≠ table) : (m.setWord table i word).phys t = m.phys t :=
  funext fun _ => setWord_phys_of_ne m word (Or.inl different)

@[simp] theorem setEntry_entry_self (m : Mmu) (table : Nat) (i : Fin 512) (e : PagemapEntry) :
    (m.setEntry table i e).entry table i = e := by
  simp [Mmu.entry, Mmu.setEntry]

section Entry

variable {strict : Prop} {live : Set Nat} {parent child tableIn tableOut : Nat} {l : Fin 512}
  {p : Path} {m m' : Mmu}

/-- A write to one entry of a page table changes the kernel pages at most there. -/
theorem kernelAt_setLeaf {root table : Nat} (tables : Tables m live) (member : root ∈ live)
    (page : UserPage (l :: p)) (at_ : tableAt m root p = some table)
    (walks : ∀ root' ∈ live, ∀ q, UserTable q → tableAt m' root' q = tableAt m root' q)
    (words : ∀ t j, IsTable m live t → (t ≠ table ∨ j ≠ l) → m'.phys t j = m.phys t j)
    {root' : Nat} (member' : root' ∈ live) {w : Path} (page' : UserPage w)
    (kernel : KernelAt m' root' w) :
    KernelAt m root' w ∨ (root' = root ∧ w = l :: p ∧ (m'.entry table l).present = true ∧
      (m'.entry table l).user = false) := by
  cases w with
  | nil => exact absurd kernel id
  | cons j q =>
      obtain ⟨t, at_', present, notUser⟩ := kernel
      rw [walks root' member' q page'.table.1] at at_'
      by_cases isHere : t = table ∧ j = l
      · obtain ⟨rfl, rfl⟩ := isHere
        obtain ⟨rfl, rfl⟩ := tables.apart root' member' root member q p t page'.table.1
          page.table.1 at_' at_
        exact Or.inr ⟨rfl, rfl, present, notUser⟩
      · have word := words t j ⟨root', member', q, page'.table.1, at_'⟩ (by
          by_contra both
          push Not at both
          exact isHere both)
        rw [entry_congr word] at present notUser
        exact Or.inl ⟨t, at_', present, notUser⟩

/-- The first half of `_copy_page` on a private page: the parent's entry loses write access and is
marked; with a count of 1 the page is shared by one process. -/
theorem markPage (spaces : AddressSpaces strict m live) (parentLive : parent ∈ live)
    (page : UserPage (l :: p)) (atIn : tableAt m parent p = some tableIn) {e : PagemapEntry}
    (maps : pageAt m parent (l :: p) = some e) (writable : e.writable = true)
    (result : m' = (m.setRefcount e.page.toNat 1).setEntry tableIn l
      { e with writable := false, cow := true }) :
    Grown strict live parent child (fun q => q = l :: p) m m' ∧
      pageAt m' parent (l :: p) = some { e with writable := false, cow := true } ∧
      ∀ root ∈ live, ∀ v, UserPage v → readAt m' root v = readAt m root v := by
  have access : e.present = true ∧ e.user = true := by
    rw [pageAt_cons atIn] at maps
    split at maps
    · rename_i both
      cases maps
      simpa using both
    · cases maps
  have isTable : IsTable m live tableIn := ⟨parent, parentLive, p, page.table.1, atIn⟩
  have entry : m'.entry tableIn l = { e with writable := false, cow := true } := by
    rw [result, setEntry_entry_self]
  have words : ∀ t j, IsTable m live t → (t ≠ tableIn ∨ j ≠ l) → m'.phys t j = m.phys t j := by
    intro t j _ elsewhere
    rw [result, Mmu.setEntry, setWord_phys_of_ne _ _ elsewhere]
    rfl
  have frames : m'.frames = m.frames := by rw [result]; rfl
  have leaf := @Tables.setLeaf _ m' _ _ _ _ _ spaces.tables parentLive page atIn (by rw [frames])
    (by rw [frames]; exact fun _ locked => locked) words
    (by rw [entry]; exact .of_user (by simp [access.1, access.2]))
  rw [entry] at leaf
  have here : pageAt m' parent (l :: p) = some { e with writable := false, cow := true } := by
    rw [leaf.here]
    simp [access.1, access.2]
  have pages : pagesOf m' live = Function.update (pagesOf m live) (parent, l :: p)
      (some ⟨(mappingOf e).frame, false, true⟩) := by
    rw [leaf.pages]
    simp [access.1, access.2, mappingOf]
  have mapsOld := pagesOf_of_page parentLive page maps
  have refs : refsOf m' = Function.update (refsOf m) (mappingOf e).frame 1 := by
    have counts : refsOf m' = refsOf (m.setRefcount e.page.toNat 1) := by rw [result]; rfl
    rw [counts, refsOf_setRefcount]
    rfl
  obtain ⟨-, alone⟩ := spaces.counted.alone_of_writable mapsOld writable
  have reads : ∀ root ∈ live, ∀ v, UserPage v → readAt m' root v = readAt m root v := by
    intro root member v page'
    refine spaces.readAt_eq ?_ member page' ?_
    · intro frame _ noTable
      rw [result, Mmu.setEntry, setWord_phys_frame]
      · rfl
      · rintro rfl
        exact noTable isTable
    · by_cases isHere : (root, v) = (parent, l :: p)
      · obtain ⟨rfl, rfl⟩ := Prod.mk.inj isHere
        rw [here, maps]
        rfl
      · rw [leaf.elsewhere root member v page' isHere]
  refine ⟨⟨⟨leaf.tables, ?_, ?_⟩, ?_, by rw [frames], fun root member q user _ =>
    leaf.walks root member q user, fun root member v page' _ => reads root member v page', ?_, ?_⟩,
    here, reads⟩
  · intro key mapping found
    have old : ∃ key' mapping', pagesOf m live key' = some mapping' ∧
        mapping'.frame = mapping.frame := by
      rw [pages] at found
      by_cases isHere : key = (parent, l :: p)
      · rw [isHere, Function.update_self] at found
        exact ⟨_, _, mapsOld, by rw [← Option.some.inj found]⟩
      · rw [Function.update_of_ne isHere] at found
        exact ⟨_, _, found, rfl⟩
    obtain ⟨key', mapping', found', same⟩ := old
    rw [← same]
    exact spaces.mapped_of_old (by rw [frames]) (by rw [frames]; exact fun _ locked => locked)
      leaf.walks found'
  · rw [pages, refs]
    exact spaces.counted.mark mapsOld writable
  · rw [result]
    rfl
  · intro v page' outside
    have elsewhere : (parent, v) ≠ (parent, l :: p) := fun same => outside (Prod.mk.inj same).2
    refine ⟨leaf.elsewhere parent parentLive v page' elsewhere, fun e' maps' => ?_⟩
    have otherFrame : e'.page.toNat ≠ e.page.toNat := fun same =>
      elsewhere (alone _ _ (pagesOf_of_page parentLive page' maps') same)
    rw [result]
    simp [Mmu.setEntry, Mmu.setWord, Mmu.setRefcount, otherFrame]
  · intro root member v page' kernel
    rcases kernelAt_setLeaf spaces.tables parentLive page atIn leaf.walks words member page' kernel
      with old | ⟨-, -, -, notUser⟩
    · exact Or.inl old
    · rw [entry] at notUser
      exact absurd notUser (by simp [access.2])

/-- The rest of `_copy_page`: the child gets the parent's read-only entry and the count goes up. -/
theorem sharePage (spaces : AddressSpaces strict m live) (parentLive : parent ∈ live)
    (childLive : child ∈ live) (different : parent ≠ child) (page : UserPage (l :: p))
    (atIn : tableAt m parent p = some tableIn) (atOut : tableAt m child p = some tableOut)
    (unmapped : pageAt m child (l :: p) = none) {e : PagemapEntry}
    (maps : pageAt m parent (l :: p) = some e) (readonly : e.writable = false)
    {count : BitVec 8} (counts : count.toNat = refsOf m e.page.toNat + 1) {word : BitVec 64}
    (isWord : PagemapEntry.ofWord word = e)
    (result : m' = (m.setRefcount e.page.toNat count).setWord tableOut l word) :
    Copied strict live parent child (fun q => q = l :: p) m m' := by
  have access : e.present = true ∧ e.user = true := by
    rw [pageAt_cons atIn] at maps
    split at maps
    · rename_i both
      cases maps
      simpa using both
    · cases maps
  have isTable : IsTable m live tableOut := ⟨child, childLive, p, page.table.1, atOut⟩
  have entry : m'.entry tableOut l = e := by
    rw [result, Mmu.entry, setWord_phys_self, isWord]
  have words : ∀ t j, IsTable m live t → (t ≠ tableOut ∨ j ≠ l) → m'.phys t j = m.phys t j := by
    intro t j _ elsewhere
    rw [result, setWord_phys_of_ne _ _ elsewhere]
    rfl
  have frames : m'.frames = m.frames := by rw [result]; rfl
  have leaf := @Tables.setLeaf _ m' _ _ _ _ _ spaces.tables childLive page atOut (by rw [frames])
    (by rw [frames]; exact fun _ locked => locked) words
    (by rw [entry]; exact .of_user (by simp [access.1, access.2]))
  rw [entry] at leaf
  have here : pageAt m' child (l :: p) = some e := by
    rw [leaf.here]
    simp [access.1, access.2]
  have pages : pagesOf m' live = Function.update (pagesOf m live) (child, l :: p)
      (some (mappingOf e)) := by
    rw [leaf.pages]
    simp [access.1, access.2]
  have mapsOld := pagesOf_of_page parentLive page maps
  have refs : refsOf m' = Function.update (refsOf m) (mappingOf e).frame
      (refsOf m (mappingOf e).frame + 1) := by
    have same : refsOf m' = refsOf (m.setRefcount e.page.toNat count) := by rw [result]; rfl
    rw [same, refsOf_setRefcount, counts]
    rfl
  have keeps : ∀ frame, m.frames.locked frame = true → ¬ IsTable m live frame →
      m'.phys frame = m.phys frame := by
    intro frame _ noTable
    rw [result, setWord_phys_frame]
    · rfl
    · rintro rfl
      exact noTable isTable
  have parentPage : pageAt m' parent (l :: p) = some e := by
    rw [leaf.elsewhere parent parentLive _ page fun same => different (Prod.mk.inj same).1, maps]
  refine ⟨⟨⟨leaf.tables, ?_, ?_⟩, ?_, by rw [frames], fun root member q user _ =>
    leaf.walks root member q user, ?_, ?_, ?_⟩, ?_⟩
  · intro key mapping found
    have old : ∃ key', pagesOf m live key' = some mapping := by
      rw [pages] at found
      by_cases isHere : key = (child, l :: p)
      · rw [isHere, Function.update_self] at found
        exact ⟨_, found ▸ mapsOld⟩
      · rw [Function.update_of_ne isHere] at found
        exact ⟨_, found⟩
    obtain ⟨key', found'⟩ := old
    exact spaces.mapped_of_old (by rw [frames]) (by rw [frames]; exact fun _ locked => locked)
      leaf.walks found'
  · rw [pages, refs]
    exact spaces.counted.shareAgain mapsOld readonly (pagesOf_of_none unmapped) rfl
  · rw [result]
    rfl
  · intro root member v page' outside
    refine spaces.readAt_eq keeps member page' ?_
    rw [leaf.elsewhere root member v page' fun same =>
      outside (Prod.mk.inj same).1 (Prod.mk.inj same).2]
  · intro v page' outside
    refine ⟨leaf.elsewhere parent parentLive v page' fun same => outside (Prod.mk.inj same).2,
      fun e' maps' => ?_⟩
    have otherFrame : e'.page.toNat ≠ e.page.toNat := fun same =>
      outside (spaces.counted.aligned _ _ _ _ (pagesOf_of_page parentLive page' maps') mapsOld same)
    rw [result]
    simp [Mmu.setWord, Mmu.setRefcount, otherFrame]
  · intro root member v page' kernel
    rcases kernelAt_setLeaf spaces.tables childLive page atOut leaf.walks words member page' kernel
      with old | ⟨-, -, -, notUser⟩
    · exact Or.inl old
    · rw [entry] at notUser
      exact absurd notUser (by simp [access.2])
  · rintro - v - rfl
    rw [readAt, readAt, here, parentPage]

/-- A kernel page of the lower half is copied as it is. -/
theorem copyKernelPage (spaces : AddressSpaces strict m live) (parentLive : parent ∈ live)
    (childLive : child ∈ live) (page : UserPage (l :: p))
    (atIn : tableAt m parent p = some tableIn) (atOut : tableAt m child p = some tableOut)
    (unmapped : pageAt m child (l :: p) = none) (different : parent ≠ child)
    (present : (m.entry tableIn l).present = true) (notUser : (m.entry tableIn l).user = false)
    (result : m' = m.setWord tableOut l (m.phys tableIn l)) :
    Copied strict live parent child (fun q => q = l :: p) m m' := by
  have isTable : IsTable m live tableOut := ⟨child, childLive, p, page.table.1, atOut⟩
  have entry : m'.entry tableOut l = m.entry tableIn l := by
    rw [result, Mmu.entry, setWord_phys_self, Mmu.entry]
  have words : ∀ t j, IsTable m live t → (t ≠ tableOut ∨ j ≠ l) → m'.phys t j = m.phys t j := by
    intro t j _ elsewhere
    rw [result, setWord_phys_of_ne _ _ elsewhere]
  have frames : m'.frames = m.frames := by rw [result]; rfl
  have leaf := @Tables.setLeaf _ m' _ _ _ _ _ spaces.tables childLive page atOut (by rw [frames])
    (by rw [frames]; exact fun _ locked => locked) words
    (by rw [entry]; exact spaces.tables.clean parent parentLive l p tableIn page atIn)
  rw [entry] at leaf
  have here : pageAt m' child (l :: p) = none := by
    rw [leaf.here]
    simp [notUser]
  have pages : pagesOf m' live = pagesOf m live := by
    rw [leaf.pages]
    simp only [notUser, Bool.and_false, Bool.false_eq_true, if_false]
    rw [← pagesOf_of_none unmapped, Function.update_eq_self]
  have parentPage : pageAt m parent (l :: p) = none := by
    rw [pageAt_cons atIn]
    simp [notUser]
  have parentPage' : pageAt m' parent (l :: p) = none := by
    rw [leaf.elsewhere parent parentLive _ page fun same => different (Prod.mk.inj same).1,
      parentPage]
  refine ⟨⟨⟨leaf.tables, ?_, ?_⟩, ?_, by rw [frames], fun root member q user _ =>
    leaf.walks root member q user, ?_, ?_, ?_⟩, ?_⟩
  · intro key mapping found
    rw [pages] at found
    exact spaces.mapped_of_old (by rw [frames]) (by rw [frames]; exact fun _ locked => locked)
      leaf.walks found
  · have refs : refsOf m' = refsOf m := by rw [result]; rfl
    rw [pages, refs]
    exact spaces.counted
  · rw [result]
    rfl
  · intro root member v page' outside
    refine spaces.readAt_eq ?_ member page' ?_
    · intro frame _ noTable
      rw [result, setWord_phys_frame]
      rintro rfl
      exact noTable isTable
    · rw [leaf.elsewhere root member v page' fun same =>
        outside (Prod.mk.inj same).1 (Prod.mk.inj same).2]
  · intro v page' outside
    refine ⟨leaf.elsewhere parent parentLive v page' fun same => outside (Prod.mk.inj same).2,
      fun e' _ => ?_⟩
    rw [result]
    rfl
  · intro root member v page' kernel
    rcases kernelAt_setLeaf spaces.tables childLive page atOut leaf.walks words member page' kernel
      with old | ⟨-, rfl, -, -⟩
    · exact Or.inl old
    · exact Or.inr ⟨tableIn, atIn, present, notUser⟩
  · rintro - v - rfl
    rw [readAt, readAt, here, parentPage']

/-- The counts that `_copy_page` can still raise: no read-only page of the process under `R` has a
full count. -/
def Unsaturated (m : Mmu) (root : Nat) (R : Path → Prop) : Prop :=
  ∀ v, UserPage v → R v → ∀ e, pageAt m root v = some e → e.writable = false →
    m.memRefcounts e.page.toNat ≠ 255

/-- One iteration of the innermost loop of `mmu_clone`. -/
theorem clonePageEntry_copied (spaces : AddressSpaces strict m live) (parentLive : parent ∈ live)
    (childLive : child ∈ live) (different : parent ≠ child) (page : UserPage (l :: p))
    (atIn : tableAt m parent p = some tableIn) (atOut : tableAt m child p = some tableOut)
    (unmapped : pageAt m child (l :: p) = none)
    (unsaturated : Unsaturated m parent fun q => q = l :: p)
    (cloned : clonePageEntry tableIn tableOut m l = some m') :
    Copied strict live parent child (fun q => q = l :: p) m m' := by
  have maps := pageAt_cons atIn l
  unfold clonePageEntry at cloned
  split at cloned
  · rename_i present
    split at cloned
    · rename_i user
      rw [present, user] at maps
      replace maps : pageAt m parent (l :: p) = some (m.entry tableIn l) := by simpa using maps
      have mapsOld := pagesOf_of_page parentLive page maps
      obtain ⟨-, inside, -, noTable⟩ := spaces.mapped _ _ mapsOld
      unfold copyPage at cloned
      dsimp only at cloned
      split at cloned
      · rename_i writable
        split at cloned
        · -- a private page with a count is not copied; the strict discipline has none
          rename_i counted
          cases cloned
          refine ⟨Grown.refl spaces, fun disciplined => ?_⟩
          have zero := ((spaces.counted.alone_of_writable mapsOld writable).1 disciplined).1
          have none : m.memRefcounts (m.entry tableIn l).page.toNat = 0 :=
            BitVec.eq_of_toNat_eq (by simpa [refsOf, mappingOf] using zero)
          exact absurd none counted
        · cases cloned
          obtain ⟨marked, here, reads⟩ :=
            @markPage _ _ _ child _ _ _ _ _ spaces parentLive page atIn _ maps writable rfl
          have childPage := reads child childLive _ page
          rw [readAt_none.mpr unmapped, readAt_none] at childPage
          have notTable : ∀ root, root = child → ¬ p = l :: p := fun _ _ same => by
            simpa using congrArg List.length same
          refine Copied.after parentLive marked ?_
          refine @sharePage _ _ _ _ _ _ _ _ _ _ marked.spaces parentLive childLive different page
            ((marked.walks parent parentLive p page.table.1 (notTable parent)).trans atIn)
            ((marked.walks child childLive p page.table.1 (notTable child)).trans atOut)
            childPage _ here rfl 2 ?_ _ (PagemapEntry.ofWord_toWord _) ?_
          · simp [refsOf, Mmu.setEntry, Mmu.setWord, Mmu.setRefcount]
          · simp [Mmu.setEntry, Mmu.setWord, Mmu.setRefcount]
      · rename_i readonly
        have readonly : (m.entry tableIn l).writable = false := by simpa using readonly
        have notFull := unsaturated _ page rfl _ maps readonly
        rw [refcountIncrease, if_neg (by exact Nat.not_le.mpr inside), if_neg notFull] at cloned
        cases cloned
        refine sharePage spaces parentLive childLive different page atIn atOut unmapped maps
          readonly ?_ rfl rfl
        have bound : (m.memRefcounts (m.entry tableIn l).page.toNat).toNat ≠ 255 := fun same =>
          notFull (BitVec.eq_of_toNat_eq same)
        have small := (m.memRefcounts (m.entry tableIn l).page.toNat).isLt
        rw [BitVec.toNat_add, refsOf]
        change (_ + 1) % 256 = _
        change _ ≠ 255 at bound
        omega
    · rename_i notUser
      cases cloned
      exact copyKernelPage spaces parentLive childLive page atIn atOut unmapped different present
        (by simpa using notUser) rfl
  · rename_i absent
    cases cloned
    refine ⟨Grown.refl spaces, ?_⟩
    rintro - v - rfl
    have missing : pageAt m parent (l :: p) = none := by
      rw [maps]
      simp [absent]
    rw [readAt, readAt, unmapped, missing]

end Entry

/-! ## The loops -/

/-- The paths below the first `n` entries of a table. -/
def Below (p : Path) (n : Nat) (q : Path) : Prop :=
  ∃ i < n, (Fin.ofNat 512 i :: p) <:+ q

theorem below_succ {p q : Path} {n : Nat} :
    Below p (n + 1) q ↔ Below p n q ∨ (Fin.ofNat 512 n :: p) <:+ q := by
  constructor
  · rintro ⟨i, bound, suffix⟩
    rcases Nat.lt_succ_iff_lt_or_eq.mp bound with smaller | rfl
    · exact Or.inl ⟨i, smaller, suffix⟩
    · exact Or.inr suffix
  · rintro (⟨i, bound, suffix⟩ | suffix)
    · exact ⟨i, Nat.lt_succ_of_lt bound, suffix⟩
    · exact ⟨n, Nat.lt_succ_self n, suffix⟩

/-- Paths below different entries of a table are different. -/
theorem below_disjoint {p q : Path} {n i : Nat} (inside : Below p n q) (large : n ≤ i) (i_lt : i < 512)
    (suffix : (Fin.ofNat 512 i :: p) <:+ q) : False := by
  obtain ⟨j, bound, suffix'⟩ := inside
  have same := List.IsSuffix.eq_of_length
    (List.suffix_of_suffix_length_le suffix suffix' (by simp)) (by simp)
  have index := congrArg Fin.val (List.cons.inj same).1
  simp only [Fin.val_ofNat] at index
  omega

theorem not_below_self {p : Path} {n : Nat} : ¬ Below p n p := by
  rintro ⟨i, -, suffix⟩
  have lengths := suffix.length_le
  simp at lengths

/-- A page below a table of another level lies below one of its entries. -/
theorem below_of_suffix {p v : Path} (suffix : p <:+ v) (shorter : p.length < v.length) :
    Below p 512 v := by
  obtain ⟨front, rfl⟩ := suffix
  rcases List.eq_nil_or_concat' front with rfl | ⟨rest, last, rfl⟩
  · simp at shorter
  · refine ⟨last.val, last.isLt, ?_⟩
    rw [Fin.ofNat_val_eq_self]
    exact ⟨rest, by simp⟩

/-- The child maps nothing in a part of its address space, and has no tables there. -/
structure Vacant (m : Mmu) (child : Nat) (R : Path → Prop) : Prop where
  pages : ∀ v, UserPage v → R v → pageAt m child v = none
  tables : ∀ q, UserTable q → R q → tableAt m child q = none

/-- Without a table there is nothing below its place. -/
theorem Vacant.of_missing {m : Mmu} {child : Nat} {p : Path}
    (missing : tableAt m child p = none) (upper : p.length ≤ 3) :
    Vacant m child fun q => p <:+ q where
  pages := fun _ page suffix => pageAt_none_of_suffix missing suffix (by rw [page.1]; omega)
  tables := fun _ _ suffix => tableAt_none_of_suffix missing suffix

section Loops

variable {strict : Prop} {live : Set Nat} {parent child : Nat}

/-- A linked table brings no kernel page. -/
theorem kernelAt_link {m m' : Mmu} {root root' table newPage : Nat} {i : Fin 512} {p v : Path}
    (tables : Tables m live) (member : root ∈ live) (user : UserTable (i :: p))
    (at_ : tableAt m root p = some table) (absent : (m.entry table i).present = false)
    (linked : Linked m m' table i newPage) (member' : root' ∈ live) (page : UserPage v)
    (kernel : KernelAt m' root' v) : KernelAt m root' v := by
  cases v with
  | nil => exact kernel
  | cons l q =>
      obtain ⟨t, at_', present, notUser⟩ := kernel
      rw [tables.tableAt_link member user at_ linked member' page.table.1] at at_'
      have fresh : ∀ {t}, IsTable m live t → t ≠ newPage :=
        fun tableHere => tables.ne_of_free tableHere linked.free
      split at at_'
      · -- the new table is clear
        split at at_'
        · cases at_'
          rw [Mmu.entry, linked.cleared (fresh ⟨root, member, p, user.tail.1, at_⟩).symm] at present
          cases present
        · cases at_'
      · have word := linked.others t l (fresh ⟨root', member', q, page.table.1, at_'⟩) (Or.inl (by
          rintro rfl
          exact tables.pageTable_ne member member' user.tail.1 user.tail.2 at_ page.table.1
            page.table.2 at_'))
        rw [entry_congr word] at present notUser
        exact ⟨t, at_', present, notUser⟩

/-- The tables of both sides at a path, and a part of the child's paths that is still to be filled. -/
structure Unfilled (m : Mmu) (parent child tableIn tableOut : Nat) (p : Path) (R : Path → Prop) : Prop where
  atIn : tableAt m parent p = some tableIn
  atOut : tableAt m child p = some tableOut
  vacant : Vacant m child R
  unsaturated : Unsaturated m parent R

theorem Unfilled.narrow {m : Mmu} {tableIn tableOut : Nat} {p : Path} {R S : Path → Prop}
    (unfilled : Unfilled m parent child tableIn tableOut p R) (narrower : ∀ q, S q → R q) :
    Unfilled m parent child tableIn tableOut p S where
  atIn := unfilled.atIn
  atOut := unfilled.atOut
  vacant := ⟨fun v page inside => unfilled.vacant.pages v page (narrower v inside),
    fun q user inside => unfilled.vacant.tables q user (narrower q inside)⟩
  unsaturated := fun v page inside => unfilled.unsaturated v page (narrower v inside)

/-- After the first entries the next one is still to be filled. -/
theorem Unfilled.next {count tableIn tableOut i : Nat} {p : Path} {m b : Mmu} (parentLive : parent ∈ live)
    (childLive : child ∈ live) (different : parent ≠ child) (user : UserTable p) (bound : count ≤ 512)
    (inside : i < count) (unfilled : Unfilled m parent child tableIn tableOut p (Below p count))
    (grown : Grown strict live parent child (Below p i) m b) :
    Unfilled b parent child tableIn tableOut p fun q => (Fin.ofNat 512 i :: p) <:+ q := by
  have fresh : ∀ {q}, (Fin.ofNat 512 i :: p) <:+ q → ¬ Below p i q := fun suffix below =>
    below_disjoint below (Nat.le_refl i) (by omega) suffix
  have within : ∀ {q}, (Fin.ofNat 512 i :: p) <:+ q → Below p count q := fun suffix =>
    ⟨i, inside, suffix⟩
  refine ⟨(grown.walks parent parentLive p user fun same => absurd same different).trans unfilled.atIn,
    (grown.walks child childLive p user fun _ => not_below_self).trans unfilled.atOut, ⟨?_, ?_⟩, ?_⟩
  · intro v page suffix
    have same := grown.reads child childLive v page fun _ => fresh suffix
    rw [readAt_none.mpr (unfilled.vacant.pages v page (within suffix)), readAt_none] at same
    exact same
  · intro q userTable suffix
    rw [grown.walks child childLive q userTable fun _ => fresh suffix]
    exact unfilled.vacant.tables q userTable (within suffix)
  · intro v page suffix e maps readonly
    obtain ⟨samePage, sameCount⟩ := grown.rest v page (fresh suffix)
    rw [samePage] at maps
    rw [sameCount e maps]
    exact unfilled.unsaturated v page (within suffix) e maps readonly

/-- Making a table of the child for a present entry of the parent. -/
theorem Unfilled.enter {tableIn tableOut newPage : Nat} {i : Fin 512} {p : Path} {b b1 : Mmu}
    (parentLive : parent ∈ live) (childLive : child ∈ live) (different : parent ≠ child)
    (userInner : UserTable (i :: p)) (spaces : AddressSpaces strict b live)
    (unfilled : Unfilled b parent child tableIn tableOut p fun q => (i :: p) <:+ q)
    (present : (b.entry tableIn i).present = true)
    (made : makeTable b tableOut i = some (newPage, b1)) :
    Grown strict live parent child (fun q => (i :: p) <:+ q) b b1 ∧
      Unfilled b1 parent child (b.entry tableIn i).page.toNat newPage (i :: p) (Below (i :: p) 512) := by
  obtain ⟨atIn, atOut, vacant, unsaturated⟩ := unfilled
  have self : (i :: p) <:+ i :: p := List.suffix_refl _
  have missing := vacant.tables _ userInner self
  have linked := makeTable_spec made
  have absent := spaces.tables.present_false childLive userInner atOut missing
  obtain ⟨spaces1, pages1, reads1⟩ :=
    spaces.link childLive userInner atOut absent linked
  have walks1 : ∀ {root}, root ∈ live → ∀ {q}, UserTable q → tableAt b1 root q =
      if root = child ∧ (i :: p) <:+ q then
        (if q = i :: p then some newPage else none)
      else tableAt b root q := fun member _ userTable =>
    spaces.tables.tableAt_link childLive userInner atOut linked member userTable
  have pageAt1 : ∀ {root}, root ∈ live → ∀ {v}, UserPage v → pageAt b1 root v = pageAt b root v :=
    fun member _ page =>
      spaces.tables.pageAt_link childLive userInner atOut absent linked member page
  have strictly : ∀ {q}, Below (i :: p) 512 q → (i :: p) <:+ q ∧ q ≠ i :: p := by
    rintro q ⟨j, -, suffix⟩
    refine ⟨(List.suffix_cons _ _).trans suffix, ?_⟩
    rintro rfl
    have lengths := suffix.length_le
    simp at lengths
  refine ⟨⟨spaces1, linked.current, linked.nFrames, ?_, fun root member v page _ =>
    reads1 root member v page, fun v page _ => ⟨pageAt1 parentLive page, fun e _ => ?_⟩,
    fun root member v page kernel => Or.inl (kernelAt_link spaces.tables childLive userInner
      atOut absent linked member page kernel)⟩, ?_, ?_, ⟨?_, ?_⟩, ?_⟩
  · intro root member q userTable outside
    rw [walks1 member userTable, if_neg fun both => outside both.1 both.2]
  · rw [linked.refcounts]
  · rw [walks1 parentLive userInner, if_neg fun both => different both.1]
    exact spaces.tables.tableAt_present parentLive userInner atIn present
  · rw [walks1 childLive userInner, if_pos ⟨rfl, self⟩, if_pos rfl]
  · intro v page below
    rw [pageAt1 childLive page]
    exact vacant.pages v page (strictly below).1
  · intro q userTable below
    rw [walks1 childLive userTable, if_pos ⟨rfl, (strictly below).1⟩, if_neg (strictly below).2]
  · intro v page below e maps readonly
    rw [pageAt1 parentLive page] at maps
    rw [linked.refcounts]
    exact unsaturated v page (strictly below).1 e maps readonly

/-- A loop over the entries of a table whose every iteration copies what is below its entry. -/
theorem forRange_copied (parentLive : parent ∈ live) (childLive : child ∈ live)
    (different : parent ≠ child) {body : Nat → Mmu → Option Mmu} {count tableIn tableOut : Nat}
    {p : Path} {m m' : Mmu} (user : UserTable p) (bound : count ≤ 512)
    (spaces : AddressSpaces strict m live)
    (unfilled : Unfilled m parent child tableIn tableOut p (Below p count))
    (each : ∀ i b c, i < count → AddressSpaces strict b live →
      Unfilled b parent child tableIn tableOut p (fun q => (Fin.ofNat 512 i :: p) <:+ q) →
      body i b = some c →
      Copied strict live parent child (fun q => (Fin.ofNat 512 i :: p) <:+ q) b c)
    (looped : forRange body 0 count m = some m') :
    Copied strict live parent child (Below p count) m m' := by
  have whole := @forRange_invariant _ _
    (fun i b => Copied strict live parent child (Below p i) m b) 0 count
    ?_ _ _ ?_ looped
  · rwa [Nat.zero_add] at whole
  · intro i b c _ inside copied stepped
    rw [Nat.zero_add] at inside
    have step := each i b c inside copied.grown.spaces
      (unfilled.next parentLive childLive different user bound inside copied.grown) stepped
    exact (copied.union parentLive childLive different step).widen
      (fun q => below_succ.mpr) (fun v _ => below_succ.mp)
  · exact ⟨Grown.refl spaces, fun _ v _ inside => by
      obtain ⟨i, smaller, -⟩ := inside
      exact absurd smaller (Nat.not_lt_zero i)⟩

/-- The path of an entry of an upper table. -/
theorem userTable_entry {p : Path} {level count i : Nat} (depth : p.length + (level + 1) = 3)
    (user : IsUser p) (inside : i < count) (low : p = [] → count ≤ 256) :
    UserTable (Fin.ofNat 512 i :: p) := by
  refine ⟨by simp only [List.length_cons]; omega, user.cons fun empty => ?_⟩
  have small := low empty
  rw [Fin.val_ofNat]
  omega

theorem userPage_entry {p : Path} {i : Nat} (depth : p.length + 0 = 3) (user : IsUser p) :
    UserPage (Fin.ofNat 512 i :: p) := by
  refine ⟨by simpa using depth, user.cons fun empty => ?_⟩
  rw [empty] at depth
  cases depth

/-- The nested loops of `mmu_clone`, from the table at a path on. -/
theorem cloneTable_copied (parentLive : parent ∈ live) (childLive : child ∈ live)
    (different : parent ≠ child) :
    ∀ (level : Nat) {count tableIn tableOut : Nat} {p : Path} {m m' : Mmu},
      p.length + level = 3 → IsUser p → count ≤ 512 → (p = [] → count ≤ 256) →
      AddressSpaces strict m live → Unfilled m parent child tableIn tableOut p (Below p count) →
      cloneTable level count tableIn tableOut m = some m' →
      Copied strict live parent child (Below p count) m m' := by
  intro level
  induction level with
  | zero =>
      intro count tableIn tableOut p m m' depth user bound low spaces unfilled cloned
      rw [cloneTable] at cloned
      refine forRange_copied parentLive childLive different ⟨by omega, user⟩ bound spaces unfilled ?_
        cloned
      intro i b c inside spaces unfilled stepped
      have page := @userPage_entry p i depth user
      have self : (Fin.ofNat 512 i :: p) <:+ Fin.ofNat 512 i :: p := List.suffix_refl _
      refine (clonePageEntry_copied spaces parentLive childLive different page unfilled.atIn
        unfilled.atOut (unfilled.vacant.pages _ page self) (fun v page' same => ?_) stepped).widen
        (fun q same => same ▸ self) (fun v page' suffix => ?_)
      · exact unfilled.unsaturated v page' (same ▸ self)
      · exact (suffix.eq_of_length (page.1.trans page'.1.symm)).symm
  | succ level inductionHypothesis =>
      intro count tableIn tableOut p m m' depth user bound low spaces unfilled cloned
      rw [cloneTable] at cloned
      refine forRange_copied parentLive childLive different ⟨by omega, user⟩ bound spaces unfilled ?_
        cloned
      intro i b c inside spaces unfilled stepped
      have userInner := userTable_entry depth user inside low
      split at stepped
      · rename_i present
        split at stepped
        · cases stepped
        rename_i newPage b1 made
        obtain ⟨grown, entered⟩ :=
          unfilled.enter parentLive childLive different userInner spaces present made
        refine Copied.after parentLive grown ((inductionHypothesis
          (by simp only [List.length_cons]; omega) userInner.2 (Nat.le_refl 512)
          (fun empty => absurd empty (List.cons_ne_nil _ _)) grown.spaces entered stepped).widen
          (fun q below => ?_) fun v page suffix => ?_)
        · obtain ⟨j, -, suffix⟩ := below
          exact (List.suffix_cons _ _).trans suffix
        · refine below_of_suffix suffix ?_
          rw [page.1]
          exact Nat.lt_succ_of_le userInner.1
      · rename_i absent
        cases stepped
        have missingIn := tableAt_absent unfilled.atIn (by simpa using absent)
        refine ⟨Grown.refl spaces, fun _ v page suffix => ?_⟩
        have nothing := (Vacant.of_missing missingIn userInner.1).pages v page suffix
        rw [readAt_none.mpr (unfilled.vacant.pages v page suffix), readAt_none.mpr nothing]

end Loops

/-! ## The child's root -/

/-- A free frame becomes the root of a process that maps nothing. -/
structure Rooted (m m' : Mmu) (newPage : Nat) : Prop where
  free : m.frames.locked newPage = false
  inside : newPage < m.frames.nFrames
  nFrames : m'.frames.nFrames = m.frames.nFrames
  locks : m'.frames.locked = Function.update m.frames.locked newPage true
  refcounts : m'.memRefcounts = m.memRefcounts
  current : m'.currentPml = m.currentPml
  cleared : ∀ i : Fin 512, i.val < 256 → m'.phys newPage i = 0
  others : ∀ t, t ≠ newPage → m'.phys t = m.phys t

section Root

variable {strict : Prop} {m m' : Mmu} {live : Set Nat} {newPage : Nat}

/-- The new root has no tables and no pages. -/
theorem Rooted.vacant (rooted : Rooted m m' newPage) :
    (∀ q, UserTable q → q ≠ [] → tableAt m' newPage q = none) ∧
      ∀ v, UserPage v → pageAt m' newPage v = none := by
  have missing : ∀ q, UserTable q → q ≠ [] → tableAt m' newPage q = none := by
    intro q user nonempty
    obtain ⟨rest, last, rfl⟩ := (List.eq_nil_or_concat' q).resolve_left nonempty
    have low : last.val < 256 := user.2.suffix (List.suffix_append rest [last])
    refine tableAt_none_of_suffix (tableAt_absent (p := []) rfl ?_) (List.suffix_append rest [last])
    rw [Mmu.entry, rooted.cleared last low]
    rfl
  refine ⟨missing, fun v page => ?_⟩
  cases v with
  | nil => rfl
  | cons l q =>
      have nonempty : q ≠ [] := by
        rintro rfl
        have length := page.table.2
        simp at length
      rw [pageAt, missing q page.table.1 nonempty]
      rfl

/-- Everybody else keeps tables, pages and kernel pages. -/
theorem Rooted.old (spaces : AddressSpaces strict m live) (rooted : Rooted m m' newPage)
    {root : Nat} (member : root ∈ live) :
    (∀ q, UserTable q → tableAt m' root q = tableAt m root q) ∧
      (∀ v, UserPage v → pageAt m' root v = pageAt m root v) ∧
      (∀ v, UserPage v → readAt m' root v = readAt m root v) ∧
      ∀ v, UserPage v → KernelAt m' root v → KernelAt m root v := by
  have words : ∀ table, IsTable m live table → m'.phys table = m.phys table := fun table isTable =>
    rooted.others table (spaces.tables.ne_of_free isTable rooted.free)
  have walks : ∀ q, UserTable q → tableAt m' root q = tableAt m root q := fun q user =>
    Tables.tableAt_eq (fun root' member' i p table user' at_ =>
      congrFun (words table ⟨root', member', p, user'.tail.1, at_⟩) i) member user
  have pages : ∀ v, UserPage v → pageAt m' root v = pageAt m root v := by
    intro v page
    cases v with
    | nil => rfl
    | cons l q =>
        exact pageAt_congr (walks q page.table.1) fun table at_ =>
          congrFun (words table ⟨root, member, q, page.table.1, at_⟩) l
  refine ⟨walks, pages, fun v page => ?_, fun v page kernel => ?_⟩
  · refine spaces.readAt_eq (fun frame locked _ => rooted.others frame ?_) member page
      (by rw [pages v page])
    rintro rfl
    rw [rooted.free] at locked
    cases locked
  · cases v with
    | nil => exact kernel
    | cons l q =>
        obtain ⟨table, at_, present, notUser⟩ := kernel
        rw [walks q page.table.1] at at_
        have word := congrFun (words table ⟨root, member, q, page.table.1, at_⟩) l
        rw [entry_congr word] at present notUser
        exact ⟨table, at_, present, notUser⟩

/-- The invariant for one more, empty, address space. -/
theorem AddressSpaces.root (spaces : AddressSpaces strict m live) (rooted : Rooted m m' newPage) :
    newPage ∉ live ∧ AddressSpaces strict m' (insert newPage live) := by
  have tables := spaces.tables
  have fresh : ∀ {t}, IsTable m live t → t ≠ newPage :=
    fun isTable => tables.ne_of_free isTable rooted.free
  have notLive : newPage ∉ live := fun member =>
    fresh ⟨newPage, member, [], ⟨Nat.zero_le _, trivial⟩, rfl⟩ rfl
  obtain ⟨noTables, noPages⟩ := rooted.vacant
  have keeps : ∀ {frame}, m.frames.locked frame = true → m'.frames.locked frame = true := by
    intro frame locked
    rw [rooted.locks]
    by_cases same : frame = newPage
    · rw [same, Function.update_self]
    · rwa [Function.update_of_ne same]
  -- a table is the new root or an old table
  have cases : ∀ {root q t}, root ∈ insert newPage live → UserTable q → tableAt m' root q = some t →
      (t = newPage ∧ root = newPage ∧ q = []) ∨
        (t ≠ newPage ∧ root ∈ live ∧ tableAt m root q = some t) := by
    rintro root q t (rfl | member) user at_
    · left
      by_cases empty : q = []
      · subst empty
        cases at_
        exact ⟨rfl, rfl, rfl⟩
      · rw [noTables q user empty] at at_
        cases at_
    · rw [(rooted.old spaces member).1 q user] at at_
      exact Or.inr ⟨fresh ⟨root, member, q, user, at_⟩, member, at_⟩
  have pages : pagesOf m' (insert newPage live) = pagesOf m live := by
    funext key
    rw [pagesOf, pagesOf]
    by_cases member : key.1 ∈ live
    · by_cases page : UserPage key.2
      · rw [if_pos ⟨Set.mem_insert_of_mem _ member, page⟩, if_pos ⟨member, page⟩,
          (rooted.old spaces member).2.1 _ page]
      · rw [if_neg fun both => page both.2, if_neg fun both => page both.2]
    · have outside : ¬ (key.1 ∈ live ∧ UserPage key.2) := fun both => member both.1
      rw [if_neg outside]
      split
      · rename_i inside
        have isNew : key.1 = newPage := (Set.mem_insert_iff.mp inside.1).resolve_right member
        rw [isNew, noPages _ inside.2]
        rfl
      · rfl
  refine ⟨notLive, ⟨?_, ?_, ?_, ?_, ?_, ?_⟩, ?_, ?_⟩
  · rw [rooted.nFrames]
    exact tables.small
  · exact keeps tables.zero
  · rintro t ⟨root, member, q, user, at_⟩
    rw [rooted.nFrames]
    rcases cases member user at_ with ⟨rfl, -, -⟩ | ⟨-, old, at_⟩
    · rw [rooted.locks, Function.update_self]
      refine ⟨rfl, rooted.inside, ?_⟩
      rintro rfl
      have locked := tables.zero
      rw [rooted.free] at locked
      cases locked
    · obtain ⟨locked, inside, nonzero⟩ := tables.locked t ⟨root, old, q, user, at_⟩
      exact ⟨keeps locked, inside, nonzero⟩
  · intro root₁ member₁ root₂ member₂ q₁ q₂ t user₁ user₂ at₁ at₂
    rcases cases member₁ user₁ at₁ with ⟨isNew, same₁, path₁⟩ | ⟨isOld, old₁, at₁⟩ <;>
      rcases cases member₂ user₂ at₂ with ⟨isNew', same₂, path₂⟩ | ⟨isOld', old₂, at₂⟩
    · exact ⟨same₁.trans same₂.symm, path₁.trans path₂.symm⟩
    · exact absurd isNew isOld'
    · exact absurd isNew' isOld
    · exact tables.apart root₁ old₁ root₂ old₂ q₁ q₂ t user₁ user₂ at₁ at₂
  · intro root member i q t user at_ present
    rcases cases member user.tail.1 at_ with ⟨rfl, -, rfl⟩ | ⟨isOld, old, at_⟩
    · rw [Mmu.entry, rooted.cleared i user.2] at present
      cases present
    · rw [entry_congr (congrFun (rooted.others t isOld) i)] at present ⊢
      exact tables.noLarge root old i q t user at_ present
  · intro root member i q t page at_
    rcases cases member page.table.1 at_ with ⟨-, -, rfl⟩ | ⟨isOld, old, at_⟩
    · have length := page.table.2
      simp at length
    · rw [entry_congr (congrFun (rooted.others t isOld) i)]
      exact tables.clean root old i q t page at_
  · intro key mapping found
    rw [pages] at found
    obtain ⟨locked, inside, nonzero, noTable⟩ := spaces.mapped key mapping found
    rw [rooted.nFrames]
    refine ⟨keeps locked, inside, nonzero, ?_⟩
    rintro ⟨root, member, q, user, at_⟩
    rcases cases member user at_ with ⟨isNew, -, -⟩ | ⟨-, old, at_⟩
    · rw [isNew, rooted.free] at locked
      cases locked
    · exact noTable ⟨root, old, q, user, at_⟩
  · have refs : refsOf m' = refsOf m := by
      funext frame
      rw [refsOf, rooted.refcounts, refsOf]
    rw [pages, refs]
    exact spaces.counted

end Root

/-! ## The whole clone -/

/-- Every user page lies below one of the first 256 entries of the root. -/
theorem below_root {v : Path} (page : UserPage v) : Below [] 256 v := by
  obtain ⟨rest, last, rfl⟩ := (List.eq_nil_or_concat' v).resolve_left (by
    rintro rfl
    exact absurd page.1 (by decide))
  refine ⟨last.val, page.2.suffix (List.suffix_append rest [last]), ?_⟩
  rw [Fin.ofNat_val_eq_self]
  exact List.suffix_append rest [last]

/-- The state before the loops: the root is locked and its user half is clear. -/
def cloneRoot (m : Mmu) (parent newPage : Nat) : Mmu :=
  (m.lockFrame newPage).setFrame newPage fun i => if i.val < 256 then 0 else m.phys parent i

theorem requestFrame_rooted {m requested : Mmu} (parent : Nat) {newPage : Nat}
    (requestedEq : m.requestFrame = some (newPage, requested)) :
    Rooted m (cloneRoot requested parent newPage) newPage := by
  obtain ⟨free, inside, rfl⟩ := requestFrame_spec requestedEq
  constructor
  · exact free
  · exact inside
  · simp [cloneRoot, Mmu.setFrame, Mmu.lockFrame]
  · exact mmuLockFrame_locked (m := { m.frames with lowestAvailable := newPage + 1 }) inside
  · rfl
  · rfl
  · intro i low
    simp [cloneRoot, Mmu.setFrame, low]
  · intro t other
    simp [cloneRoot, Mmu.setFrame, Mmu.lockFrame, other]

/-- The result of a clone: a new address space that reads, in the `strict` discipline, what its parent
reads, while nothing changes for the others. -/
structure Cloned (strict : Prop) (live : Set Nat) (parent child : Nat) (m m' : Mmu) : Prop where
  fresh : child ∉ live
  free : m.frames.locked child = false
  spaces : AddressSpaces strict m' (insert child live)
  current : m'.currentPml = m.currentPml
  nFrames : m'.frames.nFrames = m.frames.nFrames
  reads : ∀ root ∈ live, ∀ v, UserPage v → readAt m' root v = readAt m root v
  copied : strict → ∀ v, UserPage v → readAt m' child v = readAt m parent v
  kernel : ∀ root ∈ insert child live, ∀ v, UserPage v → KernelAt m' root v →
    (root ∈ live ∧ KernelAt m root v) ∨ KernelAt m parent v

/-- `mmu_clone`, as long as the counts of the parent's shared pages are not full. -/
theorem mmuClone_spec {strict : Prop} {live : Set Nat} {parent child : Nat} {m m' : Mmu}
    (spaces : AddressSpaces strict m live) (parentLive : parent ∈ live)
    (unsaturated : Unsaturated m parent fun _ => True)
    (cloned : mmuClone m (some parent) = some (child, m')) : Cloned strict live parent child m m' := by
  unfold mmuClone at cloned
  dsimp only [Option.getD_some] at cloned
  split at cloned
  · cases cloned
  rename_i newPage requested requestedEq
  obtain ⟨last, looped, result⟩ := Option.map_eq_some_iff.mp cloned
  cases result
  have rooted := requestFrame_rooted parent requestedEq
  rw [← cloneRoot] at looped
  generalize cloneRoot requested parent child = start at rooted looped
  have free := rooted.free
  obtain ⟨notLive, started⟩ := spaces.root rooted
  obtain ⟨noTables, noPages⟩ := rooted.vacant
  have different : parent ≠ child := fun same => notLive (same ▸ parentLive)
  obtain ⟨-, parentPages, parentReads, -⟩ := rooted.old spaces parentLive
  have copied := @cloneTable_copied strict (insert child live) _ _
    (Set.mem_insert_of_mem _ parentLive) (Set.mem_insert _ _) different 3 _ _ _ [] _ _ rfl trivial (by decide)
    (fun _ => Nat.le_refl _) started ⟨rfl, rfl, ?_, ?_⟩ looped
  · have grown := copied.grown
    refine ⟨notLive, free, grown.spaces, grown.current.trans rooted.current,
      grown.nFrames.trans rooted.nFrames, ?_, ?_, ?_⟩
    · intro root member v page
      rw [grown.reads root (Set.mem_insert_of_mem _ member) v page fun same =>
        absurd (same ▸ member) notLive]
      exact (rooted.old spaces member).2.2.1 v page
    · intro disciplined v page
      rw [copied.copied disciplined v page (below_root page),
        grown.reads parent (Set.mem_insert_of_mem _ parentLive) v page fun same =>
          absurd same different]
      exact parentReads v page
    · intro root member v page kernel
      rcases grown.kernel root member v page kernel with own | fromParent
      · rcases member with rfl | member
        · cases v with
          | nil => exact absurd own id
          | cons l q =>
              obtain ⟨table, at_, -⟩ := own
              rw [noTables q page.table.1 (by
                rintro rfl
                have length := page.table.2
                simp at length)] at at_
              cases at_
        · exact Or.inl ⟨member, (rooted.old spaces member).2.2.2 v page own⟩
      · exact Or.inr ((rooted.old spaces parentLive).2.2.2 v page fromParent)
  · constructor
    · exact fun v page _ => noPages v page
    · rintro q user ⟨i, -, suffix⟩
      refine noTables q user ?_
      rintro rfl
      simp at suffix
  · intro v page _ e maps readonly
    rw [parentPages v page] at maps
    rw [rooted.refcounts]
    exact unsaturated v page trivial e maps readonly

end Voxel.Proofs
