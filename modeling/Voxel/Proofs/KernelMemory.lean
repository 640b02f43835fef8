/-
Module: Voxel.Proofs.KernelMemory
Layer: Proofs
Purpose: The kernel's part of memory in every run of the address spaces. Frames that are in use and belong to
  no process keep their words, whatever the processes do; so an address of the kernel half leads to the same
  place in every directory that is ever alive.
Trusted boundary: none
Main exports: KernelPart, Confined, ClonedWords, mmuClone_words, Memory.step_kernel, kernel_memory_kept
-/
import Voxel.Kernel.Translation
import Voxel.Proofs.CloneThenFree
import Voxel.Proofs.FreeTables

namespace Voxel.Proofs

open Voxel.Kernel
open Voxel.Lib

/-! ## What belongs to the processes -/

/-- The frame is behind a user page of a live root. -/
def BehindPage (m : Mmu) (live : Set Nat) (frame : Nat) : Prop :=
  ∃ root ∈ live, ∃ v, UserPage v ∧ frameAt m root v = some frame

/-- The kernel's part: the frames `K` are in use, with the words `content`, and are neither tables of user
halves nor behind user pages; and the live roots have `upper` in their upper halves. -/
structure KernelPart (K : Nat → Prop) (content : Nat → Fin 512 → BitVec 64) (upper : Fin 512 → BitVec 64)
    (m : Mmu) (live : Set Nat) : Prop where
  locked : ∀ f, K f → m.frames.locked f = true
  noTable : ∀ f, K f → ¬ IsTable m live f
  noPage : ∀ f, K f → ¬ BehindPage m live f
  words : ∀ f, K f → m.phys f = content f
  roots : ∀ root ∈ live, ∀ i : Fin 512, 256 ≤ i.val → m.phys root i = upper i

/-- A change that is confined to the processes: only words of user tables, of user pages and of free frames
change, never the upper half of a root, and tables and pages are old or come from free frames. -/
structure Confined (live : Set Nat) (m m' : Mmu) : Prop where
  locks : ∀ f, m.frames.locked f = true → m'.frames.locked f = true
  words : ∀ t i, m.frames.locked t = true → ¬ BehindPage m live t →
    (IsTable m live t → t ∈ live ∧ 256 ≤ i.val) → m'.phys t i = m.phys t i
  tables : ∀ t, IsTable m' live t → IsTable m live t ∨ m.frames.locked t = false
  pages : ∀ t, BehindPage m' live t → BehindPage m live t ∨ m.frames.locked t = false

section

variable {K : Nat → Prop} {content : Nat → Fin 512 → BitVec 64} {upper : Fin 512 → BitVec 64}
  {live : Set Nat} {m m' : Mmu} {root table : Nat} {l : Fin 512} {p : Path}

theorem Confined.refl (live : Set Nat) (m : Mmu) : Confined live m m :=
  ⟨fun _ locked => locked, fun _ _ _ _ _ => rfl, fun _ isTable => Or.inl isTable,
    fun _ behind => Or.inl behind⟩

/-- Which directory is the current one does not matter. -/
theorem Confined.current (live : Set Nat) (m : Mmu) (root : Nat) :
    Confined live m { m with currentPml := root } := by
  have same := fun r v => @walks_of_phys m { m with currentPml := root } rfl r v
  refine ⟨fun _ locked => locked, fun _ _ _ _ _ => rfl, ?_, ?_⟩
  · rintro t ⟨r, member, q, user, at_⟩
    rw [(same r q).1] at at_
    exact Or.inl ⟨r, member, q, user, at_⟩
  · rintro t ⟨r, member, v, page, at_⟩
    rw [frameAt, (same r v).2.1] at at_
    exact Or.inl ⟨r, member, v, page, at_⟩

theorem Confined.trans {a b c : Mmu} (one : Confined live a b) (two : Confined live b c) :
    Confined live a c := by
  have older : ∀ {f}, b.frames.locked f = false → a.frames.locked f = false := by
    intro f free
    by_contra locked
    rw [one.locks f (by simpa using locked)] at free
    cases free
  have notFree : ∀ {f}, a.frames.locked f = true → ¬ a.frames.locked f = false := by
    intro f locked free
    rw [locked] at free
    cases free
  refine ⟨fun f locked => two.locks f (one.locks f locked), fun t i locked noPage noTable => ?_,
    fun t isTable => ?_, fun t behind => ?_⟩
  · rw [two.words t i (one.locks t locked) (fun behind => ?_) (fun isTable => ?_),
      one.words t i locked noPage noTable]
    · exact (one.pages t behind).elim noPage (notFree locked)
    · exact (one.tables t isTable).elim noTable fun free => absurd free (notFree locked)
  · rcases two.tables t isTable with old | free
    · exact one.tables t old
    · exact Or.inr (older free)
  · rcases two.pages t behind with old | free
    · exact one.pages t old
    · exact Or.inr (older free)

/-- The entry on the way to a user table is none of the upper half of a root. -/
theorem Tables.notUpper (tables : Tables m live) (member : root ∈ live) (user : IsUser (l :: p))
    (short : p.length ≤ 3) (at_ : tableAt m root p = some table) : ¬ (table ∈ live ∧ 256 ≤ l.val) := by
  rintro ⟨isLive, high⟩
  obtain ⟨-, rfl⟩ := tables.apart root member table isLive p [] table ⟨short, user.tail⟩
    ⟨Nat.zero_le _, trivial⟩ at_ rfl
  exact absurd user (Nat.not_lt.mpr high)

/-- A linked table. -/
theorem Confined.link {newPage : Nat} (spaces : AddressSpaces True m live) (member : root ∈ live)
    (user : UserTable (l :: p)) (at_ : tableAt m root p = some table)
    (absent : (m.entry table l).present = false) (linked : Linked m m' table l newPage) :
    Confined live m m' := by
  have tables := spaces.tables
  refine ⟨fun f locked => linked.keeps locked, fun t i locked _ noTable => ?_, ?_, ?_⟩
  · have isOld : t ≠ newPage := by
      rintro rfl
      rw [linked.free] at locked
      cases locked
    refine linked.others t i isOld ?_
    by_contra both
    push Not at both
    obtain ⟨rfl, rfl⟩ := both
    exact tables.notUpper member user.2 (Nat.le_of_lt user.tail.2) at_
      (noTable ⟨root, member, p, user.tail.1, at_⟩)
  · rintro t ⟨root', member', q, user', at_'⟩
    rw [tables.tableAt_link member user at_ linked member' user'] at at_'
    split at at_'
    · split at at_'
      · cases at_'
        exact Or.inr linked.free
      · cases at_'
    · exact Or.inl ⟨root', member', q, user', at_'⟩
  · rintro t ⟨root', member', v, page, at_'⟩
    rw [frameAt, tables.pageAt_link member user at_ absent linked member' page] at at_'
    exact Or.inl ⟨root', member', v, page, at_'⟩

/-- A write to one entry of a page table, whose page was there before or comes from a free frame. -/
theorem Confined.setLeaf (spaces : AddressSpaces True m live) (member : root ∈ live)
    (page : UserPage (l :: p)) (at_ : tableAt m root p = some table)
    (nFrames : m'.frames.nFrames = m.frames.nFrames)
    (locks : ∀ frame, m.frames.locked frame = true → m'.frames.locked frame = true)
    (words : ∀ t i, m.frames.locked t = true → (t ≠ table ∨ i ≠ l) → m'.phys t i = m.phys t i)
    (clean : CleanEntry (m'.entry table l))
    (target : BehindPage m live (m'.entry table l).page.toNat ∨
      m.frames.locked (m'.entry table l).page.toNat = false) : Confined live m m' := by
  have tables := spaces.tables
  have leaf := tables.setLeaf member page at_ nFrames locks
    (fun t j isTable elsewhere => words t j (tables.locked t isTable).1 elsewhere) clean
  refine ⟨locks, fun t i locked _ noTable => words t i locked ?_, ?_, ?_⟩
  · by_contra both
    push Not at both
    obtain ⟨rfl, rfl⟩ := both
    exact tables.notUpper member page.2 page.table.1.1 at_ (noTable ⟨root, member, p, page.table.1, at_⟩)
  · rintro t ⟨root', member', q, user, at_'⟩
    rw [leaf.walks root' member' q user] at at_'
    exact Or.inl ⟨root', member', q, user, at_'⟩
  · rintro t ⟨root', member', v, isPage, at_'⟩
    by_cases here : (root', v) = (root, l :: p)
    · obtain ⟨rfl, rfl⟩ := Prod.mk.inj here
      rw [frameAt, leaf.here] at at_'
      obtain ⟨e, maps, rfl⟩ := Option.map_eq_some_iff.mp at_'
      split at maps
      · cases maps
        exact target
      · cases maps
    · rw [frameAt, leaf.elsewhere root' member' v isPage here] at at_'
      exact Or.inl ⟨root', member', v, isPage, at_'⟩

/-- A byte of a user page. -/
theorem Confined.storeByte (spaces : AddressSpaces True m live) (member : root ∈ live) {v : Path}
    (page : UserPage v) {e : PagemapEntry} (maps : pageAt m root v = some e) (address : BitVec 64)
    (value : BitVec 8) : Confined live m (storeByte m e.page.toNat address value) := by
  have behind : BehindPage m live e.page.toNat := ⟨root, member, v, page, by rw [frameAt, maps]; rfl⟩
  have noTable : ¬ IsTable m live e.page.toNat := (spaces.mapped _ _ (pagesOf_of_page member page maps)).2.2.2
  have words : ∀ t, t ≠ e.page.toNat →
      (Kernel.storeByte m e.page.toNat address value).phys t = m.phys t :=
    fun t other => setWord_phys_frame m _ other
  obtain ⟨-, walks, pages⟩ := @AddressSpaces.content _ _ (Kernel.storeByte m e.page.toNat address value) _
    spaces rfl rfl fun t isTable => words t fun same => noTable (same ▸ isTable)
  refine ⟨fun _ locked => locked, fun t i _ noPage _ => ?_, ?_, ?_⟩
  · rw [words t fun same => noPage (same ▸ behind)]
  · rintro t ⟨root', member', q, user, at_⟩
    rw [walks root' member' q user] at at_
    exact Or.inl ⟨root', member', q, user, at_⟩
  · rintro t ⟨root', member', w, isPage, at_⟩
    rw [frameAt, pages root' member' w isPage] at at_
    exact Or.inl ⟨root', member', w, isPage, at_⟩

/-! ## Page faults, stores and new pages -/

end

/-! ## A clone -/

section

variable {live : Set Nat} {parent child tableIn tableOut : Nat} {p : Path} {I J : Fin 512 → Prop}
  {a b c m m' : Mmu}

/-- The words of frames in use are kept, but for page tables of the parent and some entries of one
table. -/
def KeepsWords (parent tableOut : Nat) (I : Fin 512 → Prop) (m m' : Mmu) : Prop :=
  ∀ t i, m.frames.locked t = true → ¬ IsPageTable m parent t → (t = tableOut → ¬ I i) →
    m'.phys t i = m.phys t i

theorem KeepsWords.trans (one : KeepsWords parent tableOut I a b) (two : KeepsWords parent tableOut I b c)
    (locks : ∀ f, a.frames.locked f = true → b.frames.locked f = true)
    (tables : ∀ t, IsPageTable b parent t → IsPageTable a parent t) :
    KeepsWords parent tableOut I a c := by
  intro t i locked noTable other
  rw [two t i (locks t locked) (fun isTable => noTable (tables t isTable)) other,
    one t i locked noTable other]

theorem KeepsWords.mono (keeps : KeepsWords parent tableOut I a b) (wider : ∀ i, I i → J i) :
    KeepsWords parent tableOut J a b :=
  fun t i locked noTable other => keeps t i locked noTable fun same inside => other same (wider i inside)

/-- Counting up changes the count alone. -/
theorem refcountIncrease_words (m : Mmu) (frame : Nat) :
    (refcountIncrease m frame).2.phys = m.phys ∧ (refcountIncrease m frame).2.frames = m.frames := by
  unfold refcountIncrease
  split
  · exact ⟨rfl, rfl⟩
  · split
    · exact ⟨rfl, rfl⟩
    · exact ⟨rfl, rfl⟩

/-- A copy of a page writes to both page tables and to a free frame. -/
theorem copyPage_words {l : Fin 512} (copied : copyPage m tableIn tableOut l = some m') {t : Nat}
    {i : Fin 512} (locked : m.frames.locked t = true) (notIn : t ≠ tableIn)
    (elsewhere : t ≠ tableOut ∨ i ≠ l) : m'.phys t i = m.phys t i := by
  unfold copyPage at copied
  dsimp only at copied
  split at copied
  · split at copied
    · cases copied
      rfl
    · cases copied
      rw [setWord_phys_of_ne _ _ elsewhere, Mmu.setEntry, setWord_phys_of_ne _ _ (Or.inl notIn)]
      rfl
  · obtain ⟨phys, frames⟩ := refcountIncrease_words m (m.entry tableIn l).page.toNat
    split at copied
    · rename_i m1 increased
      rw [increased] at phys frames
      split at copied
      · cases copied
      · rename_i newPage m2 requested
        cases copied
        obtain ⟨free, -, rfl⟩ := requestFrame_spec requested
        have isOld : t ≠ newPage := by
          rintro rfl
          rw [show m1.frames = m.frames from frames, locked] at free
          cases free
        rw [Mmu.setEntry, setWord_phys_of_ne _ _ elsewhere]
        exact (congrFun (Function.update_of_ne isOld _ _) i).trans (congrFun (congrFun phys t) i)
    · rename_i m1 increased
      rw [increased] at phys
      cases copied
      rw [setWord_phys_of_ne _ _ elsewhere]
      exact congrFun (congrFun phys t) i

theorem clonePageEntry_words {l : Fin 512} (cloned : clonePageEntry tableIn tableOut m l = some m') {t : Nat}
    {i : Fin 512} (locked : m.frames.locked t = true) (notIn : t ≠ tableIn)
    (elsewhere : t ≠ tableOut ∨ i ≠ l) : m'.phys t i = m.phys t i := by
  unfold clonePageEntry at cloned
  split at cloned
  · split at cloned
    · exact copyPage_words cloned locked notIn elsewhere
    · cases cloned
      exact setWord_phys_of_ne _ _ elsewhere
  · cases cloned
    rfl

/-- A loop over the entries of a table whose every iteration builds the part below its entry. -/
theorem forRange_built (parentLive : parent ∈ live) (childLive : child ∈ live) (different : parent ≠ child)
    {body : Nat → Mmu → Option Mmu} {count : Nat} (user : UserTable p) (bound : count ≤ 512)
    (spaces : AddressSpaces True m live)
    (unfilled : Unfilled m parent child tableIn tableOut p (Below p count))
    (each : ∀ i b c, i < count → AddressSpaces True b live →
      Unfilled b parent child tableIn tableOut p (fun q => (Fin.ofNat 512 i :: p) <:+ q) →
      body i b = some c → Marked tableOut (fun j => j = Fin.ofNat 512 i) b c ∧
        Copied True live parent child (fun q => (Fin.ofNat 512 i :: p) <:+ q) b c ∧
        Laid parent child (fun q => (Fin.ofNat 512 i :: p) <:+ q) b c ∧
        KeepsWords parent tableOut (fun j => j = Fin.ofNat 512 i) b c)
    (looped : forRange body 0 count m = some m') :
    Laid parent child (Below p count) m m' ∧ KeepsWords parent tableOut (Early count) m m' := by
  have whole := @forRange_invariant _ _ (fun i b => Copied True live parent child (Below p i) m b ∧
    Laid parent child (Below p i) m b ∧ KeepsWords parent tableOut (Early count) m b) 0 count ?_ _ _ ?_ looped
  · rw [Nat.zero_add] at whole
    exact whole.2
  · rintro i b c - inside ⟨copied, laid, keeps⟩ stepped
    rw [Nat.zero_add] at inside
    have grown := copied.grown
    have next := unfilled.next parentLive childLive different user bound inside grown
    obtain ⟨marked, step, laidStep, keepsStep⟩ := each i b c inside grown.spaces next stepped
    refine ⟨(copied.union parentLive childLive different step).widen (fun q => below_succ.mpr)
        (fun v _ => below_succ.mp),
      laid.next parentLive childLive different user (by omega) next.atOut grown step.grown marked laidStep,
      keeps.trans (keepsStep.mono fun j same => ⟨i, inside, same⟩)
        (fun f locked => (laid.locked f).mpr (Or.inl locked)) ?_⟩
    rintro t ⟨q, userQ, leaf, at_⟩
    rw [grown.walks parent parentLive q userQ fun same => absurd same different] at at_
    exact ⟨q, userQ, leaf, at_⟩
  · have empty : ∀ {q}, ¬ Below p 0 q := fun below => Nat.not_lt_zero _ below.choose_spec.1
    exact ⟨⟨Grown.refl spaces, fun _ v _ inside => absurd inside empty⟩,
      .refl (fun q _ below => absurd below empty) (fun v _ below => absurd below empty),
      fun _ _ _ _ _ => rfl⟩

/-- The loops of `mmu_clone` build the child, and keep the words of what is no page table. -/
theorem cloneTable_built (parentLive : parent ∈ live) (childLive : child ∈ live)
    (different : parent ≠ child) :
    ∀ (level : Nat) {count tableIn tableOut : Nat} {p : Path} {m m' : Mmu},
      p.length + level = 3 → IsUser p → count ≤ 512 → (p = [] → count ≤ 256) →
      AddressSpaces True m live → Unfilled m parent child tableIn tableOut p (Below p count) →
      cloneTable level count tableIn tableOut m = some m' →
      Laid parent child (Below p count) m m' ∧ KeepsWords parent tableOut (Early count) m m' := by
  intro level
  induction level with
  | zero =>
      intro count tableIn tableOut p m m' depth user bound low spaces unfilled cloned
      rw [cloneTable] at cloned
      refine forRange_built parentLive childLive different ⟨by omega, user⟩ bound spaces unfilled
        (fun i b c inside spaces unfilled stepped => ?_) cloned
      have page := @userPage_entry p i depth user
      have self : (Fin.ofNat 512 i :: p) <:+ Fin.ofNat 512 i :: p := List.suffix_refl _
      obtain ⟨c', stepped', -, laid⟩ :=
        clonePageEntry_laid parentLive childLive different page spaces unfilled
      cases stepped.symm.trans stepped'
      have copied := clonePageEntry_copied spaces parentLive childLive different page unfilled.atIn
        unfilled.atOut (unfilled.vacant.pages _ page self)
        (fun v page' same => unfilled.unsaturated v page' (same ▸ self)) stepped
      refine ⟨clonePageEntry_marked stepped, copied.widen (fun q same => same ▸ self)
        (fun v page' suffix => (suffix.eq_of_length (page.1.trans page'.1.symm)).symm), laid, ?_⟩
      intro t j locked noTable other
      refine clonePageEntry_words stepped locked ?_ ?_
      · rintro rfl
        exact noTable ⟨p, page.table.1, page.table.2, unfilled.atIn⟩
      · by_contra both
        push Not at both
        exact other both.1 both.2
  | succ level inductionHypothesis =>
      intro count tableIn tableOut p m m' depth user bound low spaces unfilled cloned
      rw [cloneTable] at cloned
      refine forRange_built parentLive childLive different ⟨by omega, user⟩ bound spaces unfilled
        (fun i b c inside spaces unfilled stepped => ?_) cloned
      have userInner := userTable_entry depth user inside low
      split at stepped
      · rename_i present
        split at stepped
        · cases stepped
        rename_i newPage b1 made
        have linked := makeTable_spec made
        have deeper : (Fin.ofNat 512 i :: p).length + level = 3 := by
          simp only [List.length_cons]
          omega
        have nonempty : Fin.ofNat 512 i :: p = [] → 512 ≤ 256 :=
          fun empty => absurd empty (List.cons_ne_nil _ _)
        obtain ⟨grown, entered⟩ :=
          unfilled.enter parentLive childLive different userInner spaces present made
        have copied := cloneTable_copied parentLive childLive different level deeper userInner.2
          (Nat.le_refl 512) nonempty grown.spaces entered stepped
        obtain ⟨laid, keeps⟩ := inductionHypothesis deeper userInner.2 (Nat.le_refl 512) nonempty
          grown.spaces entered stepped
        refine ⟨linked.marked_fill (cloneTable_marked level stepped),
          Copied.after parentLive grown (copied.widen (fun q below => ?_) fun v page suffix => ?_),
          .table parentLive childLive different userInner unfilled linked grown entered copied laid, ?_⟩
        · obtain ⟨j, -, suffix⟩ := below
          exact (List.suffix_cons _ _).trans suffix
        · refine below_of_suffix suffix ?_
          rw [page.1]
          exact Nat.lt_succ_of_le userInner.1
        · intro t j locked noTable other
          have isOld : t ≠ newPage := by
            rintro rfl
            rw [linked.free] at locked
            cases locked
          rw [keeps t j (linked.keeps locked) ?_ (fun same => absurd same isOld)]
          · refine linked.others t j isOld ?_
            by_contra both
            push Not at both
            exact other both.1 both.2
          · rintro ⟨q, userQ, leaf, at_⟩
            rw [grown.walks parent parentLive q userQ fun same => absurd same different] at at_
            exact noTable ⟨q, userQ, leaf, at_⟩
      · rename_i absent
        cases stepped
        have missingIn := tableAt_absent unfilled.atIn (by simpa using absent)
        have nothing := (Vacant.of_missing missingIn userInner.1).pages
        refine ⟨.refl _ _ _, ⟨Grown.refl spaces, fun _ v page suffix => ?_⟩,
          .refl unfilled.vacant.tables fun v page suffix => ?_, fun _ _ _ _ _ => rfl⟩
        · rw [readAt_none.mpr (unfilled.vacant.pages v page suffix), readAt_none.mpr (nothing v page suffix)]
        · rw [frameAt, unfilled.vacant.pages v page suffix, frameAt, nothing v page suffix]

/-- What a clone keeps: frames in use stay in use and their entries lead where they led, words change in the
page tables of the parent alone, the tables of the child were free, and the upper half is shared. -/
structure ClonedWords (parent child : Nat) (m m' : Mmu) : Prop where
  targets : Marked child (fun _ => False) m m'
  words : ∀ t, m.frames.locked t = true → ¬ IsPageTable m parent t → m'.phys t = m.phys t
  upper : ∀ i : Fin 512, 256 ≤ i.val → m'.phys child i = m.phys parent i
  tables : ∀ t, IsTable m' {child} t → m.frames.locked t = false
  pages : ∀ v, UserPage v → frameAt m' child v = frameAt m' parent v

theorem mmuClone_words (spaces : AddressSpaces True m live) (parentLive : parent ∈ live)
    (unsaturated : Unsaturated m parent fun _ => True)
    (cloned : mmuClone m (some parent) = some (child, m')) : ClonedWords parent child m m' := by
  unfold mmuClone at cloned
  dsimp only [Option.getD_some] at cloned
  split at cloned
  · cases cloned
  rename_i newPage requested requestedEq
  obtain ⟨last, looped, result⟩ := Option.map_eq_some_iff.mp cloned
  cases result
  have rooted := requestFrame_rooted parent requestedEq
  have shared : ∀ i : Fin 512, 256 ≤ i.val →
      (cloneRoot requested parent child).phys child i = m.phys parent i := by
    intro i high
    obtain ⟨-, -, rfl⟩ := requestFrame_spec requestedEq
    simp [cloneRoot, Mmu.setFrame, Nat.not_lt.mpr high]
  rw [← cloneRoot] at looped
  generalize cloneRoot requested parent child = start at rooted looped shared
  obtain ⟨notLive, started⟩ := spaces.root rooted
  obtain ⟨noTables, noPages⟩ := rooted.vacant
  have different : parent ≠ child := fun same => notLive (same ▸ parentLive)
  obtain ⟨parentWalks, parentPages, -, -⟩ := rooted.old spaces parentLive
  have isOld : ∀ {t}, m.frames.locked t = true → t ≠ child := by
    rintro t locked rfl
    rw [rooted.free] at locked
    cases locked
  have startLocks : ∀ {f}, m.frames.locked f = true → start.frames.locked f = true := by
    intro f locked
    rw [rooted.locks, Function.update_of_ne (isOld locked)]
    exact locked
  have pageTables : ∀ {t}, IsPageTable start parent t → IsPageTable m parent t := by
    rintro t ⟨q, user, leaf, at_⟩
    rw [parentWalks q user] at at_
    exact ⟨q, user, leaf, at_⟩
  have unfilled : Unfilled start parent child parent child [] (Below [] 256) := by
    refine ⟨rfl, rfl, ⟨fun v page _ => noPages v page, fun q user below => noTables q user ?_⟩, ?_⟩
    · rintro rfl
      exact not_below_self below
    · intro v page _ e maps readonly
      rw [parentPages v page] at maps
      rw [rooted.refcounts]
      exact unsaturated v page trivial e maps readonly
  obtain ⟨laid, keeps⟩ := @cloneTable_built (insert child live) parent child
    (Set.mem_insert_of_mem _ parentLive) (Set.mem_insert _ _) different 3 256 parent child [] start m'
    rfl trivial (by decide) (fun _ => Nat.le_refl _) started unfilled looped
  have marked := cloneTable_marked 3 looped
  refine ⟨⟨fun f locked => marked.locks f (startLocks locked), fun t locked i _ => ?_⟩,
    fun t locked noTable => funext fun i => ?_, fun i high => ?_, ?_, fun v page => laid.frames v page
      (below_root page)⟩
  · exact (sameTarget_of_word (congrFun (rooted.others t (isOld locked)) i)).trans
      (marked.targets t (startLocks locked) i fun same => absurd same (isOld locked))
  · rw [keeps t i (startLocks locked) (fun isTable => noTable (pageTables isTable))
      fun same => absurd same (isOld locked), rooted.others t (isOld locked)]
  · rw [← shared i high]
    refine keeps child i (by rw [rooted.locks, Function.update_self]) (fun isTable => ?_) ?_
    · obtain ⟨q, user, -, at_⟩ := pageTables isTable
      exact isOld (spaces.tables.locked child ⟨parent, parentLive, q, user, at_⟩).1 rfl
    · rintro - ⟨k, early, rfl⟩
      rw [Fin.val_ofNat, Nat.mod_eq_of_lt (by omega)] at high
      omega
  · rintro t ⟨root, isChild, q, user, at_⟩
    rw [Set.mem_singleton_iff.mp isChild] at at_
    rcases userTable_below user with rfl | below
    · rw [← Option.some.inj at_]
      exact rooted.free
    · have notLocked := laid.fresh q t user below at_
      by_contra locked
      rw [startLocks (by simpa using locked)] at notLocked
      cases notLocked

variable {K : Nat → Prop} {content : Nat → Fin 512 → BitVec 64} {upper : Fin 512 → BitVec 64}

/-- A clone keeps the kernel's part, and the child has it as well. -/
theorem KernelPart.clone (part : KernelPart K content upper m live) (spaces : AddressSpaces True m live)
    (parentLive : parent ∈ live) (unsaturated : Unsaturated m parent fun _ => True)
    (cloned : mmuClone m (some parent) = some (child, m')) :
    KernelPart K content upper m' (insert child live) := by
  have words := mmuClone_words spaces parentLive unsaturated cloned
  have walks : ∀ {root q}, root ∈ live → UserTable q → tableAt m' root q = tableAt m root q :=
    fun member user => spaces.tables.tableAt_targets member
      (fun t locked i => words.targets.targets t locked i fun _ => id) user
  have frames : ∀ {root v}, root ∈ live → UserPage v → frameAt m' root v = frameAt m root v := by
    intro root v member page
    cases v with
    | nil => exact absurd page.1 (by decide)
    | cons l q =>
        exact frameAt_marked spaces member page (walks member page.table.1) words.targets fun _ => id
  have notRoot : ∀ {root}, root ∈ live → ¬ IsPageTable m parent root := by
    rintro root member ⟨q, user, leaf, at_⟩
    obtain ⟨-, rfl⟩ := spaces.tables.apart parent parentLive root member q [] root user
      ⟨Nat.zero_le _, trivial⟩ at_ rfl
    cases leaf
  have isRoot : ∀ {root}, root ∈ live → m.frames.locked root = true := fun member =>
    (spaces.tables.locked _ ⟨_, member, [], ⟨Nat.zero_le _, trivial⟩, rfl⟩).1
  have notPageTable : ∀ {f}, K f → ¬ IsPageTable m parent f := by
    rintro f kernel ⟨q, user, -, at_⟩
    exact part.noTable f kernel ⟨parent, parentLive, q, user, at_⟩
  refine ⟨fun f kernel => words.targets.locks f (part.locked f kernel), ?_, ?_, fun f kernel => ?_, ?_⟩
  · rintro f kernel ⟨root, rfl | member, q, user, at_⟩
    · have free := words.tables f ⟨root, rfl, q, user, at_⟩
      rw [part.locked f kernel] at free
      cases free
    · rw [walks member user] at at_
      exact part.noTable f kernel ⟨root, member, q, user, at_⟩
  · rintro f kernel ⟨root, rfl | member, v, page, at_⟩
    · rw [words.pages v page, frames parentLive page] at at_
      exact part.noPage f kernel ⟨parent, parentLive, v, page, at_⟩
    · rw [frames member page] at at_
      exact part.noPage f kernel ⟨root, member, v, page, at_⟩
  · rw [words.words f (part.locked f kernel) (notPageTable kernel)]
    exact part.words f kernel
  · rintro root (rfl | member) i high
    · rw [words.upper i high]
      exact part.roots parent parentLive i high
    · rw [words.words root (isRoot member) (notRoot member)]
      exact part.roots root member i high

/-- So does the release of a directory. -/
theorem KernelPart.free {root : Nat} (part : KernelPart K content upper m live)
    (spaces : AddressSpaces True m live) (member : root ∈ live) :
    KernelPart K content upper (mmuFree m (some root)) (live \ {root}) := by
  have given := mmuFree_givenBack spaces.tables member
  have same := fun r v => @walks_of_phys m (mmuFree m (some root)) given.phys r v
  refine ⟨fun f kernel => ?_, ?_, ?_, fun f kernel => ?_, fun r stays i high => ?_⟩
  · exact given.others f (part.locked f kernel)
      (fun q user _ at_ => part.noTable f kernel ⟨root, member, q, user, at_⟩)
      fun v page _ at_ => part.noPage f kernel ⟨root, member, v, page, at_⟩
  · rintro f kernel ⟨r, stays, q, user, at_⟩
    rw [(same r q).1] at at_
    exact part.noTable f kernel ⟨r, stays.1, q, user, at_⟩
  · rintro f kernel ⟨r, stays, v, page, at_⟩
    rw [frameAt, (same r v).2.1] at at_
    exact part.noPage f kernel ⟨r, stays.1, v, page, at_⟩
  · rw [given.phys]
    exact part.words f kernel
  · rw [given.phys]
    exact part.roots r stays.1 i high

/-! ## Runs -/

/-- Two directories with the kernel's part lead a kernel address to the same place, when its tables below the
root belong to the kernel. -/
theorem KernelPart.translated {live' : Set Nat} {root root' : Nat} (part : KernelPart K content upper m live)
    (part' : KernelPart K content upper m' live') (member : root ∈ live) (member' : root' ∈ live')
    {virtAddr : BitVec 64} (high : 256 ≤ (pml4Entry virtAddr).val)
    (kernel : ∀ t ∈ (tablesRead m root virtAddr).tail, K t) :
    translate m' root' virtAddr = translate m root virtAddr := by
  have entry : walkEntry m' virtAddr 3 root' = walkEntry m virtAddr 3 root := by
    change m'.entry root' (pml4Entry virtAddr) = m.entry root (pml4Entry virtAddr)
    rw [Mmu.entry, part'.roots root' member' _ high, Mmu.entry, part.roots root member _ high]
  have below : ∀ t, (walkEntry m virtAddr 3 root).present = true →
      largePage 3 (walkEntry m virtAddr 3 root) = false →
      t ∈ tablesFrom m virtAddr 2 (walkEntry m virtAddr 3 root).page.toNat → K t := by
    intro t present small read
    refine kernel t ?_
    have tables : tablesRead m root virtAddr =
        root :: tablesFrom m virtAddr 2 (walkEntry m virtAddr 3 root).page.toNat := by
      simp [tablesRead, tablesFrom, present, small]
    rw [tables]
    exact read
  have step : ∀ (a : Mmu) (r : Nat), translate a r virtAddr =
      if (walkEntry a virtAddr 3 r).present then
        if largePage 3 (walkEntry a virtAddr 3 r) then
          some ((walkEntry a virtAddr 3 r).page.toNat / 512 ^ 3 * 512 ^ 3 + pageAddr virtAddr % 512 ^ 3)
        else translateFrom a virtAddr 2 (walkEntry a virtAddr 3 r).page.toNat
      else none := fun _ _ => rfl
  rw [step, step, entry]
  split
  · rename_i present
    split
    · rfl
    · rename_i small
      refine translateFrom_congr fun t read i => sameTarget_of_word ?_
      have ours := below t present (by simpa using small) read
      rw [part'.words t ours, part.words t ours]
  · rfl

end

end Voxel.Proofs
