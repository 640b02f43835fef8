/-
Module: Voxel.Proofs.LoadPages
Layer: Proofs
Purpose: A program that maps pages and stores bytes, on the page tables and the frames. Mapping a page for
  the first time takes at most four frames, mapping it again changes nothing that can be read; if every byte
  is stored on a page that was mapped before, the program comes to its end, and what is read at an address is
  the byte that it stored last.
Trusted boundary: none
Main exports: Unmapped, mmuLookupFrame_free, mmuAllocateFrameEx_again, PageStep, sbrkPage_step,
  StoreStep, kernelStore_step, LoadState, Startable, exec_load
-/
import Voxel.Kernel.ElfLoad
import Voxel.Lib.Run
import Voxel.Proofs.ForkIsolation
import Voxel.Proofs.PageMap

namespace Voxel.Proofs

open Voxel.Lib Voxel.Kernel

variable {strict : Prop} {live : Set Nat} {m m' : Mmu} {root table n : Nat} {l : Fin 512} {p : Path}
  {address : BitVec 64}

/-! ## Free frames -/

theorem ensureTable_free (free : n + 1 ≤ (freeFrames m.frames).card) (table : Nat) (i : Fin 512) :
    ∃ m', ensureTable m true table i = some (true, m') ∧ n ≤ (freeFrames m'.frames).card := by
  unfold ensureTable
  split
  · exact ⟨m, rfl, by omega⟩
  · obtain ⟨newPage, m', made, -, left⟩ := makeTable_free free table i
    exact ⟨m', by rw [if_pos rfl, made]; rfl, left⟩

/-- With three free frames the lookup finds or makes the page table of a user address. -/
theorem mmuLookupFrame_free (spaces : AddressSpaces strict m live) (member : m.currentPml ∈ live)
    (low : (pml4Entry address).val < 256) (free : n + 3 ≤ (freeFrames m.frames).card) :
    ∃ table m', mmuLookupFrame m address true = some (some (table, ptEntry address), m') ∧
      n ≤ (freeFrames m'.frames).card := by
  have user1 : UserTable [pml4Entry address] := ⟨by simp, low⟩
  have user2 : UserTable [pdpEntry address, pml4Entry address] := ⟨by simp, low⟩
  have user3 : UserTable [pdEntry address, pdpEntry address, pml4Entry address] := ⟨by simp, low⟩
  obtain ⟨m1, made1, free1⟩ := ensureTable_free free m.currentPml (pml4Entry address)
  obtain ⟨-, paved1, -, at1⟩ := ensureTable_make spaces member user1 rfl made1
  obtain ⟨pdp, isPdp⟩ : ∃ pdp, (m1.entry m.currentPml (pml4Entry address)).page.toNat = pdp := ⟨_, rfl⟩
  rw [isPdp] at at1
  obtain ⟨m2, made2, free2⟩ := ensureTable_free free1 pdp (pdpEntry address)
  obtain ⟨-, paved2, small2, at2⟩ := ensureTable_make paved1.quiet.spaces member user2 at1 made2
  obtain ⟨pd, isPd⟩ : ∃ pd, (m2.entry pdp (pdpEntry address)).page.toNat = pd := ⟨_, rfl⟩
  rw [isPd] at at2
  obtain ⟨m3, made3, free3⟩ := ensureTable_free free2 pd (pdEntry address)
  obtain ⟨-, -, small3, -⟩ := ensureTable_make paved2.quiet.spaces member user3 at2 made3
  refine ⟨(m3.entry pd (pdEntry address)).page.toNat, m3, ?_, free3⟩
  simp only [mmuLookupFrame, made1, isPdp, made2, small2, isPd, made3, small3, if_false, Bool.false_eq_true]

/-- One more frame is enough for the page. -/
theorem mmuAllocateFrameEx_free (free : n + 1 ≤ (freeFrames m.frames).card) (table : Nat) (i : Fin 512)
    (flags : BitVec 32) :
    m.requestFrame ≠ none ∧ n ≤ (freeFrames (mmuAllocateFrameEx m table i flags).frames).card := by
  obtain ⟨f, frames, requested, -, left⟩ := mmuRequestFrame_free free
  have request : m.requestFrame = some (f, { m with frames := frames }) := by
    rw [Mmu.requestFrame, requested]
  refine ⟨by rw [request]; exact Option.some_ne_none _, ?_⟩
  show n ≤ (freeFrames (allocatePage m table i).frames).card
  unfold allocatePage
  split
  · rw [request]
    exact left
  · omega

/-! ## Empty directories -/

/-- A root without entries leads nowhere. -/
theorem emptyRoot_tableAt (zeros : ∀ i, m.phys root i = 0) {p : Path} (found : tableAt m root p = some table) :
    p = [] ∧ table = root := by
  induction p generalizing table with
  | nil => exact ⟨rfl, (Option.some.inj found).symm⟩
  | cons i p inductionHypothesis =>
      obtain ⟨inner, at_, isChild⟩ := Option.bind_eq_some_iff.mp found
      obtain ⟨-, rfl⟩ := inductionHypothesis at_
      rw [child, Mmu.entry, zeros, show (PagemapEntry.ofWord 0).present = false from rfl, Bool.false_and] at isChild
      cases isChild

/-- Directories without entries are address spaces without pages. -/
theorem emptyRoots_spaces (small : m.frames.nFrames ≤ 2 ^ 28) (zero : m.frames.locked 0 = true)
    (uncounted : ∀ f, m.memRefcounts f = 0)
    (roots : ∀ root ∈ live, m.frames.locked root = true ∧ root < m.frames.nFrames ∧ root ≠ 0 ∧
      ∀ i, m.phys root i = 0) :
    AddressSpaces strict m live ∧
      ∀ root ∈ live, ∀ v, pageAt m root v = none ∧ ¬KernelAt m root v := by
  have absent : ∀ root ∈ live, ∀ i, m.entry root i = PagemapEntry.ofWord 0 := fun root member i => by
    rw [Mmu.entry, (roots root member).2.2.2 i]
  have nothing : ∀ root ∈ live, ∀ v, pageAt m root v = none ∧ ¬KernelAt m root v := by
    intro root member v
    cases v with
    | nil => exact ⟨rfl, id⟩
    | cons i p =>
        constructor
        · rw [pageAt, Option.bind_eq_none_iff]
          intro table found
          rw [(emptyRoot_tableAt (roots root member).2.2.2 found).2, absent root member]
          rfl
        · rintro ⟨table, found, present, -⟩
          rw [(emptyRoot_tableAt (roots root member).2.2.2 found).2, absent root member] at present
          cases present
  have noPages : pagesOf m live = fun _ => none := by
    funext key
    unfold pagesOf
    split
    · rename_i inside
      rw [(nothing key.1 inside.1 key.2).1]
      rfl
    · rfl
  refine ⟨⟨⟨small, zero, ?_, ?_, ?_, ?_⟩, ?_, ?_⟩, nothing⟩
  · rintro table ⟨root, member, p, -, at_⟩
    have facts := roots root member
    rw [(emptyRoot_tableAt facts.2.2.2 at_).2]
    exact ⟨facts.1, facts.2.1, facts.2.2.1⟩
  · rintro root member root' member' p p' table - - at_ at_'
    obtain ⟨rfl, rfl⟩ := emptyRoot_tableAt (roots root member).2.2.2 at_
    obtain ⟨rfl, rfl⟩ := emptyRoot_tableAt (roots root' member').2.2.2 at_'
    exact ⟨rfl, rfl⟩
  · rintro root member i p table - at_ present
    rw [(emptyRoot_tableAt (roots root member).2.2.2 at_).2, absent root member] at present
    cases present
  · rintro root member i p table - at_
    rw [(emptyRoot_tableAt (roots root member).2.2.2 at_).2, absent root member]
    exact cleanEntry_zero
  · intro key mapping maps
    rw [noPages] at maps
    cases maps
  · rw [noPages]
    refine ⟨fun frame => .free (fun _ => rfl) ?_, ?_⟩
    · rw [refsOf, uncounted]
      rfl
    · intro key other mapping mapping' maps
      cases maps

/-! ## Mapping a page -/

/-- `mmu_allocate_frame_ex` changes one entry, and no counts. -/
theorem mmuAllocateFrameEx_others (m : Mmu) (table : Nat) (l : Fin 512) (flags : BitVec 32) :
    (∀ t j, t ≠ table ∨ j ≠ l → (mmuAllocateFrameEx m table l flags).phys t j = m.phys t j) ∧
      (mmuAllocateFrameEx m table l flags).memRefcounts = m.memRefcounts ∧
      (mmuAllocateFrameEx m table l flags).currentPml = m.currentPml := by
  unfold mmuAllocateFrameEx allocatePage Mmu.requestFrame
  split
  · cases mmuRequestFrame m.frames with
    | none =>
        refine ⟨fun t j elsewhere => ?_, rfl, rfl⟩
        dsimp only
        rw [Mmu.setEntry, setWord_phys_of_ne _ _ elsewhere, Mmu.setEntry, setWord_phys_of_ne _ _ elsewhere]
    | some result =>
        refine ⟨fun t j elsewhere => ?_, rfl, rfl⟩
        dsimp only
        rw [Mmu.setEntry, setWord_phys_of_ne _ _ elsewhere, Mmu.setEntry, setWord_phys_of_ne _ _ elsewhere]
        rfl
  · refine ⟨fun t j elsewhere => ?_, rfl, rfl⟩
    dsimp only
    rw [Mmu.setEntry, setWord_phys_of_ne _ _ elsewhere]

/-- The entry of a mapped page in its page table. -/
theorem pageAt_entry {e : PagemapEntry} (maps : pageAt m root (l :: p) = some e) :
    ∃ table, tableAt m root p = some table ∧ m.entry table l = e := by
  obtain ⟨table, at_, found⟩ := Option.bind_eq_some_iff.mp maps
  refine ⟨table, at_, ?_⟩
  split at found
  · exact Option.some.inj found
  · cases found

/-- No entry of the page is present. -/
def Unmapped (m : Mmu) (root : Nat) (v : Path) : Prop := pageAt m root v = none ∧ ¬KernelAt m root v

/-- The entry of such a page in its page table. -/
theorem Unmapped.absent (unmapped : Unmapped m root (l :: p)) (at_ : tableAt m root p = some table) :
    (m.entry table l).present = false := by
  rw [← Bool.not_eq_true]
  intro present
  have mapped := unmapped.1
  rw [pageAt_cons at_] at mapped
  by_cases user : (m.entry table l).user = true
  · simp [present, user] at mapped
  · exact unmapped.2 ⟨table, at_, present, by simpa using user⟩

/-- `mmu_allocate_frame_ex` on the entry of a writable page: the page stays where it is. -/
theorem mmuAllocateFrameEx_again (spaces : AddressSpaces strict m live) (member : root ∈ live)
    (page : UserPage (l :: p)) (at_ : tableAt m root p = some table) {e : PagemapEntry}
    (maps : pageAt m root (l :: p) = some e) (isWritable : e.writable = true) :
    Mapped strict live root (l :: p) m (mmuAllocateFrameEx m table l mmuFlagWritable) ∧
      ∃ e', pageAt (mmuAllocateFrameEx m table l mmuFlagWritable) root (l :: p) = some e' ∧
        e'.page = e.page := by
  have isTable : IsTable m live table := ⟨root, member, p, page.table.1, at_⟩
  have access := pageAt_access maps
  have mapsOld := pagesOf_of_page member page maps
  obtain ⟨locked, inside, nonzero, noTable⟩ := spaces.mapped _ _ mapsOld
  have here : m.entry table l = e := by
    obtain ⟨table', at_', here⟩ := pageAt_entry maps
    rw [← here, Option.some.inj (at_.symm.trans at_')]
  have hasPage : ¬(m.entry table l).page = 0 := by
    rw [here]
    exact fun zero => nonzero (congrArg BitVec.toNat zero)
  obtain ⟨new, isNew⟩ : ∃ new, new = flaggedEntry e mmuFlagWritable := ⟨_, rfl⟩
  obtain ⟨presentNew, userNew, writableNew, cowNew, pageNew⟩ :=
    @flaggedEntry_user e mmuFlagWritable (by decide) (by decide)
  rw [← isNew] at presentNew userNew writableNew cowNew pageNew
  have sameMapping : mappingOf new = mappingOf e := by
    rw [mappingOf, pageNew, writableNew, cowNew, mappingOf, isWritable]
  obtain ⟨m', result⟩ : ∃ m', m' = mmuAllocateFrameEx m table l mmuFlagWritable := ⟨_, rfl⟩
  rw [← result]
  rw [mmuAllocateFrameEx, allocatePage, if_neg hasPage] at result
  rw [here, ← isNew] at result
  have entry : m'.entry table l = new := by
    rw [result, setEntry_entry_self]
  have words : ∀ t j, (t ≠ table ∨ j ≠ l) → m'.phys t j = m.phys t j := by
    intro t j elsewhere
    rw [result, Mmu.setEntry, setWord_phys_of_ne _ _ elsewhere]
  have frames : m'.frames = m.frames := by
    rw [result]
    rfl
  have locks : ∀ frame, m.frames.locked frame = true → m'.frames.locked frame = true := by
    rw [frames]
    exact fun _ locked => locked
  have leaf := spaces.tables.setLeaf member page at_ (by rw [frames]) locks (fun t j _ => words t j)
    (by rw [entry]; exact .of_user (by simp [presentNew, userNew]))
  rw [entry] at leaf
  have new_ : pageAt m' root (l :: p) = some new := by
    rw [leaf.here]
    simp [presentNew, userNew]
  have content : ∀ frame, m.frames.locked frame = true → ¬ IsTable m live frame →
      m'.phys frame = m.phys frame := fun frame _ noTable =>
    funext fun j => words frame j (Or.inl fun same => noTable (same ▸ isTable))
  refine ⟨⟨spaces.setLeaf leaf (by rw [frames]) locks (fun _ => ?_) ?_, by rw [result]; rfl,
    by rw [frames], leaf.walks, ⟨new, new_, writableNew⟩, leaf.elsewhere, ?_, ?_⟩, new, new_, pageNew⟩
  · rw [pageNew]
    exact ⟨locks _ locked, inside, nonzero, noTable⟩
  · have refs : refsOf m' = refsOf m := by
      rw [result]
      rfl
    have same : pagesOf m' live = pagesOf m live := by
      rw [leaf.pages, presentNew, userNew, Bool.and_self, if_pos rfl, sameMapping, ← mapsOld,
        Function.update_eq_self]
    rw [same, refs]
    exact spaces.counted
  · intro root' member' w page' different
    exact spaces.readAt_eq content member' page' (by
      rw [leaf.elsewhere root' member' w page' different])
  · intro root' member' w page' kernel
    rcases kernelAt_setLeaf spaces.tables member page at_ leaf.walks (fun t j _ => words t j) member'
      page' kernel with old | ⟨-, -, -, notUser⟩
    · exact old
    · rw [entry, userNew] at notUser
      cases notUser

/-- The page of an address can be mapped: nothing is there, or a writable page. -/
def Mappable (m : Mmu) (root : Nat) (v : Path) : Prop :=
  Unmapped m root v ∨ ∃ e, pageAt m root v = some e ∧ e.writable = true

/-- Making tables leaves it so. -/
theorem Paved.mappable {v : Path} (paved : Paved strict live m m') (member : root ∈ live) (page : UserPage v)
    (ready : Mappable m root v) : Mappable m' root v := by
  have same := paved.pages root member v page
  rcases ready with unmapped | ⟨e, maps, isWritable⟩
  · exact .inl ⟨same.trans unmapped.1, fun kernel => unmapped.2 (paved.quiet.kernel _ member _ page kernel)⟩
  · exact .inr ⟨e, same.trans maps, isWritable⟩

/-- `mmu_allocate_frame_ex` on the entry of such a page: a page that was there keeps its frame. -/
theorem mmuAllocateFrameEx_ready (spaces : AddressSpaces strict m live) (member : root ∈ live)
    (page : UserPage (l :: p)) (at_ : tableAt m root p = some table) (ready : Mappable m root (l :: p))
    (available : pageAt m root (l :: p) = none → m.requestFrame ≠ none) :
    Mapped strict live root (l :: p) m (mmuAllocateFrameEx m table l mmuFlagWritable) ∧
      ∀ e, pageAt m root (l :: p) = some e →
        ∃ e', pageAt (mmuAllocateFrameEx m table l mmuFlagWritable) root (l :: p) = some e' ∧
          e'.page = e.page := by
  rcases ready with unmapped | ⟨e, maps, isWritable⟩
  · refine ⟨mmuAllocateFrameEx_fresh spaces member page at_ (unmapped.absent at_) (by decide) (by decide)
      (available unmapped.1), fun e maps => ?_⟩
    rw [unmapped.1] at maps
    cases maps
  · obtain ⟨mapped, kept⟩ := mmuAllocateFrameEx_again spaces member page at_ maps isWritable
    refine ⟨mapped, fun e' maps' => ?_⟩
    cases maps.symm.trans maps'
    exact kept

/-- The page of an address is writable, and what was mapped before is as it was. -/
structure PageStep (strict : Prop) (live : Set Nat) (root n : Nat) (v : Path) (m m' : Mmu) : Prop where
  spaces : AddressSpaces strict m' live
  current : m'.currentPml = m.currentPml
  here : ∃ e, pageAt m' root v = some e ∧ e.writable = true
  kept : ∀ e, pageAt m root v = some e → ∃ e', pageAt m' root v = some e' ∧ e'.page = e.page
  pages : ∀ root' ∈ live, ∀ w, UserPage w → (root', w) ≠ (root, v) → pageAt m' root' w = pageAt m root' w
  reads : ∀ w, UserPage w → pageAt m root w ≠ none → readAt m' root w = readAt m root w
  kernel : ∀ root' ∈ live, ∀ w, UserPage w → KernelAt m' root' w → KernelAt m root' w
  free : n ≤ (freeFrames m'.frames).card

/-- An iteration of `sys_sbrk` with its lookup and the page table that it finds. -/
theorem sbrkPage_ready (spaces : AddressSpaces strict m live) (member : m.currentPml ∈ live)
    (low : (pml4Entry address).val < 256) (ready : Mappable m m.currentPml (addrPath address))
    {m1 : Mmu} {found : Option (Nat × Fin 512)}
    (looked : mmuLookupFrame m address true = some (found, m1))
    (available : pageAt m m.currentPml (addrPath address) = none → m1.requestFrame ≠ none)
    (free : n ≤ (freeFrames m'.frames).card) (mapped : sbrkPage address m = some m') :
    PageStep strict live m.currentPml n (addrPath address) m m' := by
  have page := addrPath_user low
  obtain ⟨paved, table, rfl, at_⟩ := mmuLookupFrame_make spaces member low looked
  rw [sbrkPage, looked] at mapped
  cases mapped
  have same := paved.pages _ member _ page
  obtain ⟨step, kept⟩ := mmuAllocateFrameEx_ready paved.quiet.spaces member page at_
    (paved.mappable member page ready) fun none_ => available (same.symm.trans none_)
  refine ⟨step.spaces, step.current.trans paved.quiet.current, step.here, fun e maps =>
    kept e (same.trans maps), fun root' member' w page' different =>
      (step.pages _ member' w page' different).trans (paved.pages _ member' w page'), ?_,
    fun root' member' w page' kernel =>
      paved.quiet.kernel _ member' w page' (step.kernel _ member' w page' kernel), free⟩
  intro w page' hasPage
  refine Eq.trans ?_ (paved.quiet.reads _ member w page')
  by_cases isHere : w = addrPath address
  · subst isHere
    obtain ⟨e, maps⟩ := Option.ne_none_iff_exists'.mp hasPage
    obtain ⟨e', maps', samePage⟩ := kept e (same.trans maps)
    obtain ⟨others, -, -⟩ := mmuAllocateFrameEx_others m1 table (ptEntry address) mmuFlagWritable
    refine paved.quiet.spaces.readAt_eq (fun frame _ noTable => ?_) member page' ?_
    · exact funext fun j => others frame j (.inl fun isTable =>
        noTable (isTable ▸ ⟨_, member, _, page.table.1, at_⟩))
    · show (pageAt _ _ _).map _ = (pageAt _ _ _).map _
      rw [addrPath, maps', ← addrPath, same.trans maps, Option.map_some, Option.map_some, samePage]
  · exact step.reads _ member w page' fun same => isHere (Prod.mk.inj same).2

/-- With four free frames a page can be mapped. -/
theorem sbrkPage_step (spaces : AddressSpaces strict m live) (member : m.currentPml ∈ live)
    (low : (pml4Entry address).val < 256) (ready : Mappable m m.currentPml (addrPath address))
    (free : n + 4 ≤ (freeFrames m.frames).card) :
    ∃ m', sbrkPage address m = some m' ∧
      PageStep strict live m.currentPml n (addrPath address) m m' := by
  obtain ⟨table, m1, looked, free1⟩ := @mmuLookupFrame_free strict live m (n + 1) address spaces member low
    (by omega)
  obtain ⟨available, left⟩ := mmuAllocateFrameEx_free free1 table (ptEntry address) mmuFlagWritable
  have mapped : sbrkPage address m =
      some (mmuAllocateFrameEx m1 table (ptEntry address) mmuFlagWritable) := by
    rw [sbrkPage, looked]
  exact ⟨_, mapped, sbrkPage_ready spaces member low ready looked (fun _ => available) left mapped⟩

/-! ## Storing a byte -/

/-- A byte of the page of an address was stored, and the entries are as they were. -/
structure StoreStep (strict : Prop) (live : Set Nat) (root : Nat) (address : BitVec 64) (value : BitVec 8)
    (m m' : Mmu) : Prop where
  stored : Stored strict live root address value m m'
  current : m'.currentPml = m.currentPml
  frames : m'.frames = m.frames
  pages : ∀ root' ∈ live, ∀ w, UserPage w → pageAt m' root' w = pageAt m root' w

/-- A store into a writable page. -/
theorem storeByte_step {value : BitVec 8} (spaces : AddressSpaces strict m live) (member : root ∈ live)
    (low : (pml4Entry address).val < 256) {e : PagemapEntry} (maps : pageAt m root (addrPath address) = some e)
    (isWritable : e.writable = true) :
    StoreStep strict live root address value m (storeByte m e.page.toNat address value) := by
  have noTable : ¬ IsTable m live e.page.toNat :=
    (spaces.mapped _ _ (pagesOf_of_page member (addrPath_user low) maps)).2.2.2
  obtain ⟨-, -, pages⟩ := @AddressSpaces.content _ _ (storeByte m e.page.toNat address value) _ spaces rfl rfl
    fun t isTable => setWord_phys_frame m _ fun same => noTable (same ▸ isTable)
  exact ⟨storeByte_spec spaces member low maps isWritable, rfl, rfl, pages⟩

/-- The kernel can store on a writable page of the user. -/
theorem kernelStore_step {value : BitVec 8} (spaces : AddressSpaces strict m live)
    (member : m.currentPml ∈ live) (low : (pml4Entry address).val < 256) {e : PagemapEntry}
    (maps : pageAt m m.currentPml (addrPath address) = some e) (isWritable : e.writable = true) :
    ∃ m', kernelStore m address value = some m' ∧
      StoreStep strict live m.currentPml address value m m' := by
  obtain ⟨table, at_, here⟩ := pageAt_entry maps
  refine ⟨storeByte m e.page.toNat address value, ?_, storeByte_step spaces member low maps isWritable⟩
  rw [kernelStore, mmuLookupFrameFrom_eq, at_, Option.map_some]
  show (if (m.entry table (ptEntry address)).present && (m.entry table (ptEntry address)).writable then
    some (storeByte m (m.entry table (ptEntry address)).page.toNat address value) else none) = _
  rw [here, (pageAt_access maps).1, isWritable, Bool.and_self, if_pos rfl]

/-- Every known page of the current address space is writable. -/
structure LoadState (strict : Prop) (live : Set Nat) (root : Nat) (known : Nat → Prop) (m : Mmu) :
    Prop where
  spaces : AddressSpaces strict m live
  current : m.currentPml = root
  writable : ∀ address : BitVec 64, address.toNat < 0x800000000000 → known (pageAddr address) →
    ∃ e, pageAt m root (addrPath address) = some e ∧ e.writable = true

/-- The addresses are in the user half, and nothing is at the pages that are mapped for the first time. -/
structure Startable (root : Nat) (known : Nat → Prop) (m : Mmu) (actions : List LoadAction) : Prop where
  maps : ∀ address, .mapPage address ∈ actions → address.toNat < 0x800000000000
  stores : ∀ address value, .store address value ∈ actions → address.toNat < 0x800000000000
  vacant : ∀ address, .mapPage address ∈ actions →
    known (pageAddr address) ∨ Unmapped m root (addrPath address)

section Programs

variable {known : Nat → Prop} {rest actions : List LoadAction} {value : BitVec 8}

theorem addrPath_congr {a b : BitVec 64} (same : pageAddr a = pageAddr b) : addrPath a = addrPath b := by
  simp only [addrPath, ptEntry, pdEntry, pdpEntry, pml4Entry, same]

theorem LoadState.hasPage (state : LoadState strict live root known m)
    (low : address.toNat < 0x800000000000) (isKnown : known (pageAddr address)) :
    pageAt m root (addrPath address) ≠ none := by
  obtain ⟨e, maps, -⟩ := state.writable address low isKnown
  rw [maps]
  exact Option.some_ne_none e

/-- The state after a page was mapped. -/
theorem PageStep.state {m1 : Mmu} (step : PageStep strict live root n (addrPath address) m m1)
    (member : root ∈ live) (state : LoadState strict live root known m) :
    LoadState strict live root (fun page => known page ∨ page = pageAddr address) m1 := by
  refine ⟨step.spaces, step.current.trans state.current, fun other low isKnown => ?_⟩
  by_cases here : addrPath other = addrPath address
  · rw [here]
    exact step.here
  · have old := isKnown.resolve_right fun same => here (addrPath_congr same)
    rw [step.pages _ member _ (addrPath_user (pml4Entry_low low)) fun same => here (Prod.mk.inj same).2]
    exact state.writable other low old

theorem PageStep.startable {m1 : Mmu} (step : PageStep strict live root n (addrPath address) m m1)
    (member : root ∈ live) (start : Startable root known m (.mapPage address :: rest)) :
    Startable root (fun page => known page ∨ page = pageAddr address) m1 rest := by
  refine ⟨fun other inRest => start.maps other (List.mem_cons_of_mem _ inRest),
    fun other byte inRest => start.stores other byte (List.mem_cons_of_mem _ inRest), fun other inRest => ?_⟩
  have low := start.maps other (List.mem_cons_of_mem _ inRest)
  have page := addrPath_user (pml4Entry_low low)
  rcases start.vacant other (List.mem_cons_of_mem _ inRest) with isKnown | unmapped
  · exact .inl (.inl isKnown)
  · by_cases here : addrPath other = addrPath address
    · exact .inl (.inr (addrPath_injective here))
    · exact .inr ⟨(step.pages _ member _ page fun same => here (Prod.mk.inj same).2).trans unmapped.1,
        fun kernel => unmapped.2 (step.kernel _ member _ page kernel)⟩

theorem StoreStep.state {m1 : Mmu} (step : StoreStep strict live root address value m m1)
    (member : root ∈ live) (state : LoadState strict live root known m) : LoadState strict live root known m1 := by
  refine ⟨step.stored.spaces, step.current.trans state.current, fun other low isKnown => ?_⟩
  rw [step.pages _ member _ (addrPath_user (pml4Entry_low low))]
  exact state.writable other low isKnown

theorem StoreStep.startable {m1 : Mmu} (step : StoreStep strict live root address value m m1)
    (member : root ∈ live) (start : Startable root known m (.store address value :: rest)) :
    Startable root known m1 rest := by
  refine ⟨fun other inRest => start.maps other (List.mem_cons_of_mem _ inRest),
    fun other byte inRest => start.stores other byte (List.mem_cons_of_mem _ inRest), fun other inRest => ?_⟩
  have page := addrPath_user (pml4Entry_low (start.maps other (List.mem_cons_of_mem _ inRest)))
  refine (start.vacant other (List.mem_cons_of_mem _ inRest)).imp_right fun unmapped => ?_
  exact ⟨(step.pages _ member _ page).trans unmapped.1,
    fun kernel => unmapped.2 (step.stored.kernel _ member _ page kernel)⟩

/-- A program that stores on pages which it mapped before comes to its end. An address holds the byte that was
stored there last, or what it held before if its page was known. -/
theorem exec_load (member : root ∈ live) (state : LoadState strict live root known m)
    (ordered : MappedFirst pageAddr known actions) (start : Startable root known m actions)
    (free : 4 * actions.countP PageAction.isMap ≤ (freeFrames m.frames).card) :
    ∃ m', Run.exec loadStep m actions = some m' ∧
      (∀ a : BitVec 64, a.toNat < 0x800000000000 → ∀ byte, lastStore actions a = some byte →
        userRead m' root a = some byte) ∧
      ∀ a : BitVec 64, a.toNat < 0x800000000000 → known (pageAddr a) → lastStore actions a = none →
        userRead m' root a = userRead m root a := by
  induction actions generalizing known m with
  | nil => exact ⟨m, rfl, fun a _ byte stored => (by cases stored), fun _ _ _ _ => rfl⟩
  | cons action rest inductionHypothesis =>
      cases action with
      | mapPage address =>
          have low := start.maps address List.mem_cons_self
          have ready : Mappable m root (addrPath address) :=
            (start.vacant address List.mem_cons_self).symm.imp_right (state.writable address low)
          have enough : 4 * rest.countP PageAction.isMap + 4 ≤ (freeFrames m.frames).card := by
            rw [List.countP_cons_of_pos rfl] at free
            omega
          rw [← state.current] at ready member
          obtain ⟨m1, mapped, step⟩ := sbrkPage_step state.spaces member (pml4Entry_low low) ready enough
          rw [state.current] at step member
          obtain ⟨m', executed, stored, kept⟩ :=
            inductionHypothesis (step.state member state) ordered (step.startable member start) step.free
          refine ⟨m', ?_, stored, fun a lowA isKnown nothing => ?_⟩
          · rw [Run.exec, loadStep, mapped]
            exact executed
          · rw [kept a lowA (.inl isKnown) nothing]
            exact userRead_congr (step.reads _ (addrPath_user (pml4Entry_low lowA))
              (state.hasPage lowA isKnown))
      | store address value =>
          have low := start.stores address value List.mem_cons_self
          obtain ⟨isKnown, ordered⟩ := ordered
          obtain ⟨e, maps, isWritable⟩ := state.writable address low isKnown
          rw [← state.current] at maps member
          obtain ⟨m1, performed, step⟩ :=
            @kernelStore_step _ _ _ _ value state.spaces member (pml4Entry_low low) e maps isWritable
          rw [state.current] at step member
          rw [List.countP_cons_of_neg Bool.false_ne_true, ← step.frames] at free
          obtain ⟨m', executed, stored, kept⟩ :=
            inductionHypothesis (step.state member state) ordered (step.startable member start) free
          have reads := fun (a : BitVec 64) (lowA : a.toNat < 0x800000000000) =>
            step.stored.userRead low member lowA
          refine ⟨m', ?_, fun a lowA byte last => ?_, fun a lowA known' nothing => ?_⟩
          · rw [Run.exec, loadStep, performed]
            exact executed
          · rw [lastStore] at last
            cases later : lastStore rest a with
            | some byte' =>
                rw [later] at last
                cases last
                exact stored a lowA _ later
            | none =>
                rw [later, Option.none_or] at last
                by_cases here : address = a
                · subst here
                  rw [if_pos rfl] at last
                  rw [kept address lowA isKnown later, reads address lowA, if_pos ⟨rfl, rfl⟩, last]
                · rw [if_neg here] at last
                  cases last
          · rw [lastStore, Option.or_eq_none_iff] at nothing
            have other : a ≠ address := by
              rintro rfl
              exact absurd nothing.2 (by rw [if_pos rfl]; exact Option.some_ne_none value)
            rw [kept a lowA known' nothing.1, reads a lowA, if_neg fun both => other both.2]

end Programs

end Voxel.Proofs
