/-
Module: Voxel.Proofs.CopyOnWrite
Layer: Proofs
Purpose: What a page fault and a new mapping do. `mmu_copy_on_write` gives one process write access to
  a page and changes no content anybody reads; `mmu_lookup_frame` makes missing tables and changes no
  page; `mmu_allocate_frame_ex` on a clean entry adds one private page.
Trusted boundary: none
Main exports: addrPath, Quiet, mmuCopyOnWrite_spec, mmuLookupFrame_make, mmuAllocateFrameEx_spec
-/
import Voxel.Kernel.Memory
import Voxel.Proofs.Clone

namespace Voxel.Proofs

open Voxel.Kernel
open Voxel.Lib

/-! ## Addresses -/

/-- The path of the page of an address. -/
def addrPath (virtAddr : BitVec 64) : Path :=
  [ptEntry virtAddr, pdEntry virtAddr, pdpEntry virtAddr, pml4Entry virtAddr]

theorem addrPath_user {virtAddr : BitVec 64} (low : (pml4Entry virtAddr).val < 256) :
    UserPage (addrPath virtAddr) := ⟨rfl, low⟩

theorem pageAddr_eq (address : BitVec 64) : pageAddr address = address.toNat % 2 ^ 48 / 4096 := by
  have mask : (0xFFFFFFFFFFFF#64).toNat = 2 ^ 48 - 1 := rfl
  rw [pageAddr, BitVec.toNat_ushiftRight, BitVec.toNat_and, mask, Nat.and_two_pow_sub_one_eq_mod,
    Nat.shiftRight_eq_div_pow]

/-- Addresses with one path have their low 48 bits in one page. -/
theorem addrPath_injective {a b : BitVec 64} (same : addrPath a = addrPath b) :
    pageAddr a = pageAddr b := by
  simp only [addrPath, ptEntry, pdEntry, pdpEntry, pml4Entry, List.cons.injEq, and_true, Fin.ext_iff,
    Fin.val_ofNat, Nat.shiftRight_eq_div_pow] at same
  have boundA := pageAddr_eq a
  have boundB := pageAddr_eq b
  omega

theorem ensureTable_false (m : Mmu) (table : Nat) (i : Fin 512) :
    ensureTable m false table i = some ((m.entry table i).present, m) := by
  rw [ensureTable]
  cases (m.entry table i).present <;> rfl

/-- Without `MMU_GET_MAKE` the lookup is the one from `current_pml`, and changes nothing. -/
theorem mmuLookupFrame_false (m : Mmu) (virtAddr : BitVec 64) :
    mmuLookupFrame m virtAddr false = some (mmuLookupFrameFrom m m.currentPml virtAddr, m) := by
  simp only [mmuLookupFrame, mmuLookupFrameFrom, ensureTable_false]
  cases (m.entry m.currentPml (pml4Entry virtAddr)).present with
  | false => rfl
  | true =>
      dsimp only
      generalize (m.entry m.currentPml (pml4Entry virtAddr)).page.toNat = pdp
      cases (m.entry pdp (pdpEntry virtAddr)).present with
      | false => rfl
      | true =>
          dsimp only
          cases (m.entry pdp (pdpEntry virtAddr)).size with
          | true => rfl
          | false =>
              simp only [Bool.not_true, Bool.false_eq_true, if_false]
              generalize (m.entry pdp (pdpEntry virtAddr)).page.toNat = pd
              cases (m.entry pd (pdEntry virtAddr)).present with
              | false => rfl
              | true =>
                  dsimp only
                  cases (m.entry pd (pdEntry virtAddr)).size <;> rfl

/-- Where the tables are there, nothing is made. -/
theorem mmuLookupFrame_found {m : Mmu} {virtAddr : BitVec 64} {place : Nat × Fin 512}
    (found : mmuLookupFrameFrom m m.currentPml virtAddr = some place) (make : Bool) :
    mmuLookupFrame m virtAddr make = some (some place, m) := by
  have ensured : ∀ {table i}, (m.entry table i).present = true →
      ensureTable m make table i = some (true, m) := by
    intro table i present
    rw [ensureTable, if_pos present]
  unfold mmuLookupFrameFrom at found
  dsimp only at found
  split at found
  · cases found
  rename_i present4
  split at found
  · cases found
  rename_i present3
  split at found
  · cases found
  rename_i small3
  split at found
  · cases found
  rename_i present2
  split at found
  · cases found
  rename_i small2
  cases found
  unfold mmuLookupFrame
  dsimp only
  rw [ensured (by simpa using present4)]
  dsimp only
  rw [ensured (by simpa using present3)]
  dsimp only
  rw [if_neg small3, ensured (by simpa using present2)]
  dsimp only
  rw [if_neg small2]

/-- A change that no process can see in its pages. -/
structure Quiet (strict : Prop) (live : Set Nat) (m m' : Mmu) : Prop where
  spaces : AddressSpaces strict m' live
  current : m'.currentPml = m.currentPml
  nFrames : m'.frames.nFrames = m.frames.nFrames
  reads : ∀ root ∈ live, ∀ v, UserPage v → readAt m' root v = readAt m root v
  kernel : ∀ root ∈ live, ∀ v, UserPage v → KernelAt m' root v → KernelAt m root v

section

variable {strict : Prop} {live : Set Nat} {root table : Nat} {l : Fin 512} {p : Path} {m m' : Mmu}

theorem Quiet.refl (spaces : AddressSpaces strict m live) : Quiet strict live m m where
  spaces := spaces
  current := rfl
  nFrames := rfl
  reads := fun _ _ _ _ => rfl
  kernel := fun _ _ _ _ kernel => kernel

theorem Quiet.trans {a b c : Mmu} (one : Quiet strict live a b) (two : Quiet strict live b c) :
    Quiet strict live a c where
  spaces := two.spaces
  current := two.current.trans one.current
  nFrames := two.nFrames.trans one.nFrames
  reads := fun root member v page =>
    (two.reads root member v page).trans (one.reads root member v page)
  kernel := fun root member v page kernel =>
    one.kernel root member v page (two.kernel root member v page kernel)

/-! ## Page faults -/

/-- The last user of a shared page gets its write access back. -/
theorem takePage (spaces : AddressSpaces strict m live) (member : root ∈ live)
    (page : UserPage (l :: p)) (at_ : tableAt m root p = some table) {e : PagemapEntry}
    (maps : pageAt m root (l :: p) = some e) (readonly : e.writable = false)
    (last : refsOf m e.page.toNat = 1) {count : BitVec 8} (zero : count.toNat = 0)
    (result : m' = (m.setRefcount e.page.toNat count).setEntry table l
      { e with writable := true, cow := false }) :
    Quiet strict live m m' ∧
      pageAt m' root (l :: p) = some { e with writable := true, cow := false } := by
  have access := pageAt_access maps
  have isTable : IsTable m live table := ⟨root, member, p, page.table.1, at_⟩
  have entry : m'.entry table l = { e with writable := true, cow := false } := by
    rw [result, setEntry_entry_self]
  have words : ∀ t j, IsTable m live t → (t ≠ table ∨ j ≠ l) → m'.phys t j = m.phys t j := by
    intro t j _ elsewhere
    rw [result, Mmu.setEntry, setWord_phys_of_ne _ _ elsewhere]
    rfl
  have frames : m'.frames = m.frames := by rw [result]; rfl
  have locks : ∀ frame, m.frames.locked frame = true → m'.frames.locked frame = true := by
    rw [frames]
    exact fun _ locked => locked
  have leaf := spaces.tables.setLeaf member page at_ (by rw [frames]) locks words
    (by rw [entry]; exact .of_user (by simp [access.1, access.2]))
  rw [entry] at leaf
  have here : pageAt m' root (l :: p) = some { e with writable := true, cow := false } := by
    rw [leaf.here]
    simp [access.1, access.2]
  have mapsOld := pagesOf_of_page member page maps
  have refs : refsOf m' = Function.update (refsOf m) (mappingOf e).frame 0 := by
    have same : refsOf m' = refsOf (m.setRefcount e.page.toNat count) := by rw [result]; rfl
    rw [same, refsOf_setRefcount, zero]
    rfl
  refine ⟨⟨spaces.setLeaf leaf (by rw [frames]) locks (fun _ => ?_) ?_, by rw [result]; rfl,
    by rw [frames], ?_, ?_⟩, here⟩
  · obtain ⟨locked, rest⟩ := spaces.mapped _ _ mapsOld
    exact ⟨locks _ locked, rest⟩
  · rw [leaf.pages, refs]
    simp only [access.1, access.2, Bool.and_self, if_true]
    exact spaces.counted.takeLast mapsOld readonly last rfl rfl rfl
  · intro root' member' v page'
    refine spaces.readAt_eq ?_ member' page' ?_
    · intro frame _ noTable
      rw [result, Mmu.setEntry, setWord_phys_frame]
      · rfl
      · rintro rfl
        exact noTable isTable
    · by_cases isHere : (root', v) = (root, l :: p)
      · obtain ⟨rfl, rfl⟩ := Prod.mk.inj isHere
        rw [here, maps]
        rfl
      · rw [leaf.elsewhere root' member' v page' isHere]
  · intro root' member' v page' kernel
    rcases kernelAt_setLeaf spaces.tables member page at_ leaf.walks words member' page' kernel
      with old | ⟨-, -, -, notUser⟩
    · exact old
    · rw [entry] at notUser
      exact absurd notUser (by simp [access.2])

/-- A shared page is left for a private copy of it. -/
theorem leavePage (spaces : AddressSpaces strict m live) (member : root ∈ live)
    (page : UserPage (l :: p)) (at_ : tableAt m root p = some table) {e : PagemapEntry}
    (maps : pageAt m root (l :: p) = some e) (readonly : e.writable = false)
    {count : BitVec 8} (counts : count.toNat = refsOf m e.page.toNat - 1) {fresh : Nat}
    {frames : FrameMap} (free : m.frames.locked fresh = false) (inside : fresh < m.frames.nFrames)
    (nFrames : frames.nFrames = m.frames.nFrames)
    (locked : frames.locked = Function.update m.frames.locked fresh true)
    {new : PagemapEntry}
    (isNew : new = { e with page := BitVec.ofNat 28 fresh, writable := true, cow := false })
    (result : m' = (({ m.setRefcount e.page.toNat count with frames := frames } : Mmu).setFrame fresh
      (m.phys e.page.toNat)).setEntry table l new) :
    Quiet strict live m m' ∧ pageAt m' root (l :: p) = some new := by
  have access := pageAt_access maps
  have isTable : IsTable m live table := ⟨root, member, p, page.table.1, at_⟩
  have ne_fresh : ∀ {frame}, m.frames.locked frame = true → frame ≠ fresh := by
    rintro frame isLocked rfl
    rw [free] at isLocked
    cases isLocked
  have tableLocked : ∀ {t}, IsTable m live t → t ≠ fresh := fun isTable =>
    ne_fresh (spaces.tables.locked _ isTable).1
  have small : (BitVec.ofNat 28 fresh).toNat = fresh := by
    have bound : fresh < 2 ^ 28 := lt_of_lt_of_le inside spaces.tables.small
    rw [BitVec.toNat_ofNat, Nat.mod_eq_of_lt bound]
  have newAccess : new.present = true ∧ new.user = true := by
    rw [isNew]
    exact access
  have newPage : new.page.toNat = fresh := by
    rw [isNew]
    exact small
  have entry : m'.entry table l = new := by
    rw [result, setEntry_entry_self]
  have words : ∀ t j, IsTable m live t → (t ≠ table ∨ j ≠ l) → m'.phys t j = m.phys t j := by
    intro t j isTable' elsewhere
    rw [result, Mmu.setEntry, setWord_phys_of_ne _ _ elsewhere]
    simp [Mmu.setFrame, Mmu.setRefcount, tableLocked isTable']
  have nFrames' : m'.frames.nFrames = m.frames.nFrames := by
    rw [result]
    exact nFrames
  have locked' : m'.frames.locked = Function.update m.frames.locked fresh true := by
    rw [result]
    exact locked
  have locks : ∀ frame, m.frames.locked frame = true → m'.frames.locked frame = true := by
    intro frame isLocked
    rw [locked', Function.update_of_ne (ne_fresh isLocked)]
    exact isLocked
  have leaf := spaces.tables.setLeaf member page at_ nFrames' locks words
    (by rw [entry]; exact .of_user (by simp [newAccess.1, newAccess.2]))
  rw [entry] at leaf
  have here : pageAt m' root (l :: p) = some new := by
    rw [leaf.here]
    simp [newAccess.1, newAccess.2]
  have mapsOld := pagesOf_of_page member page maps
  have refs : refsOf m' = Function.update (refsOf m) (mappingOf e).frame
      (refsOf m (mappingOf e).frame - 1) := by
    have same : refsOf m' = refsOf (m.setRefcount e.page.toNat count) := by rw [result]; rfl
    rw [same, refsOf_setRefcount, counts]
    rfl
  have copied : ∀ frame, m.frames.locked frame = true → ¬ IsTable m live frame →
      m'.phys frame = m.phys frame := by
    intro frame isLocked noTable
    rw [result, Mmu.setEntry, setWord_phys_frame]
    · simp [Mmu.setFrame, Mmu.setRefcount, ne_fresh isLocked]
    · rintro rfl
      exact noTable isTable
  refine ⟨⟨spaces.setLeaf leaf nFrames' locks (fun _ => ?_) ?_, by rw [result]; rfl, nFrames', ?_,
    ?_⟩, here⟩
  · rw [newPage]
    refine ⟨by rw [locked', Function.update_self], inside, ?_, fun isTable' =>
      tableLocked isTable' rfl⟩
    rintro rfl
    exact ne_fresh spaces.tables.zero rfl
  · rw [leaf.pages, refs]
    simp only [newAccess.1, newAccess.2, Bool.and_self, if_true]
    refine spaces.counted.move mapsOld readonly (by rw [isNew]; rfl) (by rw [isNew]; rfl) ?_
    intro key mapping found
    rw [mappingOf, newPage]
    exact ne_fresh (spaces.mapped key mapping found).1
  · intro root' member' v page'
    by_cases isHere : (root', v) = (root, l :: p)
    · obtain ⟨rfl, rfl⟩ := Prod.mk.inj isHere
      have content : m'.phys fresh = m.phys e.page.toNat := by
        rw [result, Mmu.setEntry, setWord_phys_frame]
        · simp [Mmu.setFrame]
        · exact (tableLocked isTable).symm
      rw [readAt, readAt, here, maps, Option.map_some, Option.map_some, newPage, content]
    · exact spaces.readAt_eq copied member' page' (by
        rw [leaf.elsewhere root' member' v page' isHere])
  · intro root' member' v page' kernel
    rcases kernelAt_setLeaf spaces.tables member page at_ leaf.walks words member' page' kernel
      with old | ⟨-, -, -, notUser⟩
    · exact old
    · rw [entry] at notUser
      exact absurd notUser (by simp [newAccess.2])

/-- `mmu_copy_on_write` changes nothing that anybody reads; where it reports success the process has
write access. -/
theorem mmuCopyOnWrite_spec (spaces : AddressSpaces strict m live) (member : m.currentPml ∈ live)
    {address : BitVec 64} (low : (pml4Entry address).val < 256)
    (readonly : ∀ e, pageAt m m.currentPml (addrPath address) = some e → e.writable = true → strict)
    {failed : Bool} (faulted : mmuCopyOnWrite m address = some (failed, m')) :
    Quiet strict live m m' ∧ (failed = true → m' = m) ∧
      (failed = false → ∃ e, pageAt m' m.currentPml (addrPath address) = some e ∧
        e.writable = true) := by
  have page := addrPath_user low
  rw [mmuCopyOnWrite, mmuLookupFrame_false, mmuLookupFrameFrom_eq] at faulted
  cases at_ : tableAt m m.currentPml [pdEntry address, pdpEntry address, pml4Entry address] with
  | none =>
      rw [at_] at faulted
      cases faulted
  | some table =>
      rw [at_] at faulted
      dsimp only [Option.map_some] at faulted
      split at faulted
      · cases faulted
        exact ⟨Quiet.refl spaces, fun _ => rfl, fun absurdity => by cases absurdity⟩
      · rename_i cow
        have access : ((m.entry table (ptEntry address)).present &&
            (m.entry table (ptEntry address)).user) = true := by
          by_contra none
          exact cow (spaces.tables.clean _ member _ _ _ page at_ (by simpa using none)).1
        have maps : pageAt m m.currentPml (addrPath address) =
            some (m.entry table (ptEntry address)) := by
          rw [addrPath, pageAt_cons at_, if_pos access]
        have mapsOld := pagesOf_of_page member page maps
        obtain ⟨-, inside, -, -⟩ := spaces.mapped _ _ mapsOld
        have isReadonly : (m.entry table (ptEntry address)).writable = false := by
          by_contra writable
          have writable := Bool.eq_true_of_not_eq_false writable
          exact cow ((spaces.counted.alone_of_writable mapsOld writable).1
            (readonly _ maps writable)).2
        obtain ⟨-, positive, -⟩ := spaces.counted.shared_of_readonly mapsOld isReadonly
        obtain ⟨count, counts, decreased⟩ := refcountDecrease_of_pos inside positive
        change refcountDecrease m (m.entry table (ptEntry address)).page.toNat = _ at decreased
        rw [decreased] at faulted
        dsimp only at faulted
        have bound : refsOf m (m.entry table (ptEntry address)).page.toNat < 256 :=
          (m.memRefcounts _).isLt
        change 0 < refsOf m (m.entry table (ptEntry address)).page.toNat at positive
        split at faulted
        · rename_i lowByte
          cases faulted
          have zero : refsOf m (m.entry table (ptEntry address)).page.toNat - 1 = 0 := by
            have value := congrArg BitVec.toNat lowByte
            rw [BitVec.ofInt_natCast, BitVec.toNat_ofNat] at value
            change _ % 256 = 0 at value
            change _ - 1 = 0 at *
            simp only [mappingOf] at value
            omega
          obtain ⟨quiet, here⟩ := takePage spaces member page at_ maps isReadonly
            (by omega) (counts.trans zero) rfl
          exact ⟨quiet, fun absurdity => (by cases absurdity), fun _ => ⟨_, here, rfl⟩⟩
        · split at faulted
          · cases faulted
          rename_i fresh m'' requested
          obtain ⟨free, inside', rfl⟩ := requestFrame_spec requested
          have ne_fresh : table ≠ fresh := spaces.tables.ne_of_free
            ⟨_, member, _, page.table.1, at_⟩ free
          have entry : ((Mmu.lockFrame { m.setRefcount (m.entry table (ptEntry address)).page.toNat
              count with frames := { m.frames with lowestAvailable := fresh + 1 } } fresh).setFrame
                fresh (m.phys (m.entry table (ptEntry address)).page.toNat)).entry table
                  (ptEntry address) = m.entry table (ptEntry address) := by
            simp [Mmu.entry, Mmu.setFrame, Mmu.lockFrame, Mmu.setRefcount, ne_fresh]
          have fails : failed = false := (Prod.mk.inj (Option.some.inj faulted)).1.symm
          have result := (Prod.mk.inj (Option.some.inj faulted)).2.symm
          obtain ⟨quiet, here⟩ := leavePage spaces member page at_ maps isReadonly counts free inside'
            (by simp : (mmuLockFrame { m.frames with lowestAvailable := fresh + 1 } fresh).nFrames =
              m.frames.nFrames)
            (mmuLockFrame_locked (m := { m.frames with lowestAvailable := fresh + 1 })
              inside') rfl (result.trans (congrArg _ (by rw [← entry]; rfl)))
          refine ⟨quiet, fun absurdity => ?_, fun _ => ⟨_, here, rfl⟩⟩
          rw [fails] at absurdity
          cases absurdity

/-- Whether a frame is free depends on the bitmap alone. -/
theorem requestFrame_available (frames : m'.frames = m.frames) (available : m.requestFrame ≠ none) :
    m'.requestFrame ≠ none := by
  intro missing
  unfold Mmu.requestFrame at missing available
  rw [frames] at missing
  split at missing
  · rename_i nothing
    rw [nothing] at available
    exact available rfl
  · cases missing

/-- A fault on a read-only page is resolved whenever a frame is free. -/
theorem mmuCopyOnWrite_total (spaces : AddressSpaces strict m live) (member : m.currentPml ∈ live)
    {address : BitVec 64} (low : (pml4Entry address).val < 256) {e : PagemapEntry}
    (maps : pageAt m m.currentPml (addrPath address) = some e) (readonly : e.writable = false)
    (available : m.requestFrame ≠ none) : ∃ m', mmuCopyOnWrite m address = some (false, m') := by
  have mapsOld := pagesOf_of_page member (addrPath_user low) maps
  obtain ⟨-, inside, -, -⟩ := spaces.mapped _ _ mapsOld
  obtain ⟨marked, positive, -⟩ := spaces.counted.shared_of_readonly mapsOld readonly
  obtain ⟨count, -, decreased⟩ := refcountDecrease_of_pos inside positive
  obtain ⟨table, at_, found⟩ := Option.bind_eq_some_iff.mp maps
  have entry : m.entry table (ptEntry address) = e := by
    split at found
    · exact Option.some.inj found
    · cases found
  rw [mmuCopyOnWrite, mmuLookupFrame_false, mmuLookupFrameFrom_eq, at_]
  dsimp only [Option.map_some]
  have isMarked : ¬ e.cow = false := by
    change e.cow = true at marked
    simp [marked]
  change refcountDecrease m e.page.toNat = _ at decreased
  rw [entry, if_neg isMarked, decreased]
  dsimp only
  split
  · exact ⟨_, rfl⟩
  · split
    · rename_i missing
      exact absurd missing (requestFrame_available (m := m) rfl available)
    · exact ⟨_, rfl⟩

/-- `mmu_copy_on_write` gives up on an entry that is not marked. -/
theorem mmuCopyOnWrite_of_unmarked {address : BitVec 64} {failed : Bool}
    (unmarked : unmarkedAt m m.currentPml address = true)
    (faulted : mmuCopyOnWrite m address = some (failed, m')) : failed = true ∧ m' = m := by
  rw [mmuCopyOnWrite, mmuLookupFrame_false] at faulted
  rw [unmarkedAt] at unmarked
  cases found : mmuLookupFrameFrom m m.currentPml address with
  | none =>
      rw [found] at faulted
      cases faulted
  | some place =>
      obtain ⟨table, i⟩ := place
      rw [found] at faulted unmarked
      have notMarked : (m.entry table i).cow = false := by simpa using unmarked
      dsimp only at faulted
      rw [if_pos notMarked] at faulted
      cases faulted
      exact ⟨rfl, rfl⟩

/-! ## New pages -/

/-- Missing tables were made: nobody sees it in the pages. -/
structure Paved (strict : Prop) (live : Set Nat) (m m' : Mmu) : Prop where
  quiet : Quiet strict live m m'
  pages : ∀ root ∈ live, ∀ v, UserPage v → pageAt m' root v = pageAt m root v
  walks : ∀ root ∈ live, ∀ q, UserTable q → ∀ t, tableAt m root q = some t →
    tableAt m' root q = some t
  refcounts : m'.memRefcounts = m.memRefcounts

theorem Paved.trans {a b c : Mmu} (one : Paved strict live a b) (two : Paved strict live b c) :
    Paved strict live a c where
  quiet := one.quiet.trans two.quiet
  pages := fun root member v page =>
    (two.pages root member v page).trans (one.pages root member v page)
  walks := fun root member q user t at_ =>
    two.walks root member q user t (one.walks root member q user t at_)
  refcounts := two.refcounts.trans one.refcounts

/-- With `MMU_GET_MAKE` there is a table behind an entry of an upper table. -/
theorem ensureTable_make (spaces : AddressSpaces strict m live) (member : root ∈ live)
    (user : UserTable (l :: p)) (at_ : tableAt m root p = some table) {ensured : Bool}
    (made : ensureTable m true table l = some (ensured, m')) :
    ensured = true ∧ Paved strict live m m' ∧ (m'.entry table l).size = false ∧
      tableAt m' root (l :: p) = some (m'.entry table l).page.toNat := by
  unfold ensureTable at made
  split at made
  · rename_i present
    cases made
    refine ⟨rfl, ⟨Quiet.refl spaces, fun _ _ _ _ => rfl, fun _ _ _ _ _ at_' => at_', rfl⟩, ?_, ?_⟩
    · exact spaces.tables.noLarge root member l p table user at_ present
    · exact spaces.tables.tableAt_present member user at_ present
  · rename_i notPresent
    have absent : (m.entry table l).present = false := by simpa using notPresent
    rw [if_pos rfl] at made
    obtain ⟨⟨newPage, last⟩, madeTable, result⟩ := Option.map_eq_some_iff.mp made
    cases result
    have linked := makeTable_spec madeTable
    obtain ⟨spaces', -, reads⟩ := spaces.link member user at_ absent linked
    have small : newPage < 2 ^ 28 := lt_of_lt_of_le linked.inside spaces.tables.small
    have link : last.entry table l = .ofWord (tableWord newPage) := by
      rw [Mmu.entry, linked.link]
    obtain ⟨-, notLarge, leads⟩ := tableWord_entry small
    have walk := fun {root'} (member' : root' ∈ live) {q} (user' : UserTable q) =>
      spaces.tables.tableAt_link member user at_ linked member' user'
    refine ⟨rfl, ⟨⟨spaces', linked.current, linked.nFrames, reads, fun root' member' v page kernel =>
      kernelAt_link spaces.tables member user at_ absent linked member' page kernel⟩,
      fun root' member' v page =>
        spaces.tables.pageAt_link member user at_ absent linked member' page, ?_,
      linked.refcounts⟩, by rw [link, notLarge], ?_⟩
    · intro root' member' q user' t at_'
      rw [walk member' user', if_neg, at_']
      rintro ⟨rfl, suffix⟩
      rw [tableAt_none_of_suffix (tableAt_absent at_ absent) suffix] at at_'
      cases at_'
    · rw [walk member user, if_pos ⟨rfl, List.suffix_refl _⟩, if_pos rfl, link, leads]

/-- The three levels of `mmu_lookup_frame` with `MMU_GET_MAKE`, for any relation that every level of a
user address respects. -/
theorem mmuLookupFrame_levels {Good : Mmu → Prop} {Rel : Mmu → Mmu → Prop}
    (trans : ∀ {a b c}, Rel a b → Rel b c → Rel a c) (good : ∀ {a b}, Rel a b → Good b)
    (each : ∀ {a b : Mmu} {l : Fin 512} {p : Path} {table : Nat} {ensured : Bool}, Good a →
      UserTable (l :: p) → tableAt a root p = some table →
      ensureTable a true table l = some (ensured, b) → ensured = true ∧ Rel a b ∧
        (b.entry table l).size = false ∧ tableAt b root (l :: p) = some (b.entry table l).page.toNat)
    (start : Good m) (current : m.currentPml = root) {virtAddr : BitVec 64}
    (low : (pml4Entry virtAddr).val < 256) {found : Option (Nat × Fin 512)}
    (looked : mmuLookupFrame m virtAddr true = some (found, m')) :
    Rel m m' ∧ ∃ table, found = some (table, ptEntry virtAddr) ∧
      tableAt m' root [pdEntry virtAddr, pdpEntry virtAddr, pml4Entry virtAddr] = some table := by
  unfold mmuLookupFrame at looked
  dsimp only at looked
  rw [current] at looked
  have user1 : UserTable [pml4Entry virtAddr] := ⟨by simp, low⟩
  have user2 : UserTable [pdpEntry virtAddr, pml4Entry virtAddr] := ⟨by simp, low⟩
  have user3 : UserTable [pdEntry virtAddr, pdpEntry virtAddr, pml4Entry virtAddr] := ⟨by simp, low⟩
  split at looked
  · cases looked
  · rename_i m1 made1
    cases (each start user1 rfl made1).1
  rename_i m1 made1
  obtain ⟨-, rel1, -, at1⟩ := each start user1 rfl made1
  split at looked
  · cases looked
  · rename_i m2 made2
    cases (each (good rel1) user2 at1 made2).1
  rename_i m2 made2
  obtain ⟨-, rel2, small2, at2⟩ := each (good rel1) user2 at1 made2
  rw [small2, if_neg (by decide)] at looked
  split at looked
  · cases looked
  · rename_i m3 made3
    cases (each (good rel2) user3 at2 made3).1
  rename_i m3 made3
  obtain ⟨-, rel3, small3, at3⟩ := each (good rel2) user3 at2 made3
  rw [small3, if_neg (by decide)] at looked
  cases looked
  exact ⟨trans (trans rel1 rel2) rel3, _, rfl, at3⟩

/-- `mmu_lookup_frame` with `MMU_GET_MAKE` finds the page table of every user address. -/
theorem mmuLookupFrame_make (spaces : AddressSpaces strict m live) (member : m.currentPml ∈ live)
    {virtAddr : BitVec 64} (low : (pml4Entry virtAddr).val < 256)
    {found : Option (Nat × Fin 512)} (looked : mmuLookupFrame m virtAddr true = some (found, m')) :
    Paved strict live m m' ∧ ∃ table, found = some (table, ptEntry virtAddr) ∧
      tableAt m' m.currentPml [pdEntry virtAddr, pdpEntry virtAddr, pml4Entry virtAddr] =
        some table :=
  @mmuLookupFrame_levels _ _ _ (fun a => AddressSpaces strict a live) _
    (fun one two => one.trans two) (fun paved => paved.quiet.spaces)
    (fun spaces user at_ made => ensureTable_make spaces member user at_ made) spaces rfl _ low _
    looked

/-- One page of one process has changed, and is writable. -/
structure Mapped (strict : Prop) (live : Set Nat) (root : Nat) (v : Path) (m m' : Mmu) : Prop where
  spaces : AddressSpaces strict m' live
  current : m'.currentPml = m.currentPml
  nFrames : m'.frames.nFrames = m.frames.nFrames
  walks : ∀ root' ∈ live, ∀ q, UserTable q → tableAt m' root' q = tableAt m root' q
  here : ∃ e, pageAt m' root v = some e ∧ e.writable = true
  pages : ∀ root' ∈ live, ∀ w, UserPage w → (root', w) ≠ (root, v) →
    pageAt m' root' w = pageAt m root' w
  reads : ∀ root' ∈ live, ∀ w, UserPage w → (root', w) ≠ (root, v) →
    readAt m' root' w = readAt m root' w
  kernel : ∀ root' ∈ live, ∀ w, UserPage w → KernelAt m' root' w → KernelAt m root' w

theorem flaggedEntry_user (e : PagemapEntry) {flags : BitVec 32}
    (writable : hasFlag flags mmuFlagWritable = true) (user : hasFlag flags mmuFlagKernel = false) :
    (flaggedEntry e flags).present = true ∧ (flaggedEntry e flags).user = true ∧
      (flaggedEntry e flags).writable = true ∧ (flaggedEntry e flags).cow = e.cow ∧
      (flaggedEntry e flags).page = e.page :=
  ⟨rfl, by simp [flaggedEntry, user], writable, rfl, rfl⟩

/-- What `mmu_allocate_frame_ex` does to the tables, whatever the entry holds: it writes this entry,
and locks at most. -/
theorem mmuAllocateFrameEx_words (m : Mmu) (table : Nat) (i : Fin 512) (flags : BitVec 32) :
    (∀ t j, (t ≠ table ∨ j ≠ i) → (mmuAllocateFrameEx m table i flags).phys t j = m.phys t j) ∧
    (mmuAllocateFrameEx m table i flags).frames.nFrames = m.frames.nFrames ∧
    (∀ frame, m.frames.locked frame = true →
      (mmuAllocateFrameEx m table i flags).frames.locked frame = true) ∧
    (mmuAllocateFrameEx m table i flags).currentPml = m.currentPml ∧
    ∃ e, (mmuAllocateFrameEx m table i flags).entry table i = flaggedEntry e flags := by
  have allocated : (∀ t j, (t ≠ table ∨ j ≠ i) → (allocatePage m table i).phys t j = m.phys t j) ∧
      (allocatePage m table i).frames.nFrames = m.frames.nFrames ∧
      (∀ frame, m.frames.locked frame = true →
        (allocatePage m table i).frames.locked frame = true) ∧
      (allocatePage m table i).currentPml = m.currentPml := by
    unfold allocatePage
    split
    · split
      · rename_i index m1 requested
        obtain ⟨-, -, rfl⟩ := requestFrame_spec requested
        refine ⟨fun t j elsewhere => ?_, mmuLockFrame_nFrames _ _, fun frame locked => ?_, rfl⟩
        · rw [Mmu.setEntry, setWord_phys_of_ne _ _ elsewhere]
          rfl
        · exact mmuLockFrame_keeps (m := { m.frames with lowestAvailable := index + 1 }) locked
      · exact ⟨fun t j elsewhere => by rw [Mmu.setEntry, setWord_phys_of_ne _ _ elsewhere], rfl,
          fun _ locked => locked, rfl⟩
    · exact ⟨fun _ _ _ => rfl, rfl, fun _ locked => locked, rfl⟩
  obtain ⟨words, nFrames, locks, current⟩ := allocated
  rw [mmuAllocateFrameEx]
  refine ⟨fun t j elsewhere => ?_, nFrames, locks, current, _, setEntry_entry_self _ _ _ _⟩
  rw [Mmu.setEntry, setWord_phys_of_ne _ _ elsewhere]
  exact words t j elsewhere

/-- `mmu_allocate_frame_ex` on an absent entry: a private page in a fresh frame. -/
theorem mmuAllocateFrameEx_fresh (spaces : AddressSpaces strict m live) (member : root ∈ live)
    (page : UserPage (l :: p)) (at_ : tableAt m root p = some table)
    (absent : (m.entry table l).present = false) {flags : BitVec 32}
    (writable : hasFlag flags mmuFlagWritable = true) (user : hasFlag flags mmuFlagKernel = false)
    (available : m.requestFrame ≠ none) :
    Mapped strict live root (l :: p) m (mmuAllocateFrameEx m table l flags) := by
  obtain ⟨⟨index, m1⟩, requested⟩ := Option.ne_none_iff_exists'.mp available
  obtain ⟨free, inside, rfl⟩ := requestFrame_spec requested
  have isTable : IsTable m live table := ⟨root, member, p, page.table.1, at_⟩
  have clean := spaces.tables.clean root member l p table page at_ (by simp [absent])
  have ne_index : ∀ {frame}, m.frames.locked frame = true → frame ≠ index := by
    rintro frame isLocked rfl
    rw [free] at isLocked
    cases isLocked
  have small : (BitVec.ofNat 28 index).toNat = index := by
    have bound : index < 2 ^ 28 := lt_of_lt_of_le inside spaces.tables.small
    rw [BitVec.toNat_ofNat, Nat.mod_eq_of_lt bound]
  obtain ⟨m', result⟩ : ∃ m', m' = mmuAllocateFrameEx m table l flags := ⟨_, rfl⟩
  rw [← result]
  rw [mmuAllocateFrameEx, allocatePage, if_pos (clean.2 absent), requested] at result
  dsimp only at result
  rw [setEntry_entry_self] at result
  obtain ⟨presentNew, userNew, writableNew, cowNew, pageNew⟩ := flaggedEntry_user
    { m.entry table l with page := BitVec.ofNat 28 index } writable user
  generalize flaggedEntry { m.entry table l with page := BitVec.ofNat 28 index } flags = new
    at result presentNew userNew writableNew cowNew pageNew
  have framePage : new.page.toNat = index := by
    rw [pageNew]
    exact small
  have entry : m'.entry table l = new := by
    rw [result, setEntry_entry_self]
  have words : ∀ t j, (t ≠ table ∨ j ≠ l) → m'.phys t j = m.phys t j := by
    intro t j elsewhere
    rw [result, Mmu.setEntry, setWord_phys_of_ne _ _ elsewhere, Mmu.setEntry,
      setWord_phys_of_ne _ _ elsewhere]
    rfl
  have nFrames : m'.frames.nFrames = m.frames.nFrames := by
    rw [result]
    exact mmuLockFrame_nFrames _ _
  have locked : m'.frames.locked = Function.update m.frames.locked index true := by
    rw [result]
    exact mmuLockFrame_locked (m := { m.frames with lowestAvailable := index + 1 }) inside
  have locks : ∀ frame, m.frames.locked frame = true → m'.frames.locked frame = true := by
    intro frame isLocked
    rw [locked, Function.update_of_ne (ne_index isLocked)]
    exact isLocked
  have leaf := spaces.tables.setLeaf member page at_ nFrames locks (fun t j _ => words t j)
    (by rw [entry]; exact .of_user (by simp [presentNew, userNew]))
  rw [entry] at leaf
  have unmapped : pagesOf m live (root, l :: p) = none :=
    pagesOf_of_none (by rw [pageAt_cons at_]; simp [absent])
  refine ⟨spaces.setLeaf leaf nFrames locks (fun _ => ?_) ?_, by rw [result]; rfl, nFrames, leaf.walks,
    ⟨new, ?_, writableNew⟩, leaf.elsewhere, ?_, ?_⟩
  · rw [framePage]
    refine ⟨by rw [locked, Function.update_self], inside, ?_, fun isTable' =>
      ne_index (spaces.tables.locked _ isTable').1 rfl⟩
    rintro rfl
    exact ne_index spaces.tables.zero rfl
  · have refs : refsOf m' = refsOf m := by
      rw [result]
      rfl
    rw [leaf.pages, refs]
    simp only [presentNew, userNew, Bool.and_self, if_true]
    refine spaces.counted.mapFresh unmapped writableNew (cowNew.trans clean.1) ?_
    intro key mapping found
    rw [mappingOf, framePage]
    exact ne_index (spaces.mapped key mapping found).1
  · rw [leaf.here]
    simp [presentNew, userNew]
  · intro root' member' w page' different
    refine spaces.readAt_eq (fun frame _ noTable => ?_) member' page' (by
      rw [leaf.elsewhere root' member' w page' different])
    exact funext fun j => words frame j (Or.inl fun same => noTable (same ▸ isTable))
  · intro root' member' w page' kernel
    rcases kernelAt_setLeaf spaces.tables member page at_ leaf.walks (fun t j _ => words t j) member'
      page' kernel with old | ⟨-, -, -, notUser⟩
    · exact old
    · rw [entry, userNew] at notUser
      cases notUser

end

end Voxel.Proofs
