/-
Module: Voxel.Proofs.HeapSharing
Layer: Proofs
Purpose: The program break and copy on write. Growing the heap over an entry that still holds a page
  gives the process write access to that page without a look at its count. As long as nobody else maps
  the page this is harmless; a fork between a shrink and a grow makes it the page of two processes.
Trusted boundary: none
Main exports: mmuAllocateFrameEx_reuse, sysSbrk_spec, sbrk_keeps_isolation
-/
import Voxel.Kernel.Heap
import Voxel.Proofs.RefCounts

namespace Voxel.Proofs

open Voxel.Kernel
open Voxel.Lib

section

variable {live : Set Nat} {root table : Nat} {l : Fin 512} {p : Path} {m m' : Mmu}

/-- `mmu_allocate_frame_ex` on an entry that holds a page of this process alone. -/
theorem mmuAllocateFrameEx_reuse (spaces : AddressSpaces False m live) (member : root ∈ live)
    (page : UserPage (l :: p)) (at_ : tableAt m root p = some table) {e : PagemapEntry}
    (maps : pageAt m root (l :: p) = some e)
    (alone : ∀ other ∈ live, other ≠ root → ∀ w, UserPage w → ∀ e', pageAt m other w = some e' →
      e'.page ≠ e.page) :
    Mapped False live root (l :: p) m (mmuAllocateFrameEx m table l mmuFlagWritable) := by
  have access := pageAt_access maps
  have isTable : IsTable m live table := ⟨root, member, p, page.table.1, at_⟩
  have entry : m.entry table l = e := by
    rw [pageAt_cons at_] at maps
    split at maps
    · exact Option.some.inj maps
    · cases maps
  have mapsOld := pagesOf_of_page member page maps
  have old := spaces.mapped _ _ mapsOld
  have holds : (m.entry table l).page ≠ 0 := by
    intro zero
    rw [entry] at zero
    exact old.2.2.1 (congrArg BitVec.toNat zero)
  obtain ⟨m', result⟩ : ∃ m', m' = mmuAllocateFrameEx m table l mmuFlagWritable := ⟨_, rfl⟩
  rw [← result]
  rw [mmuAllocateFrameEx, allocatePage, if_neg holds, entry] at result
  obtain ⟨presentNew, userNew, writableNew, cowNew, pageNew⟩ :=
    @flaggedEntry_user e mmuFlagWritable (by decide) (by decide)
  generalize flaggedEntry e mmuFlagWritable = new
    at result presentNew userNew writableNew cowNew pageNew
  have words : ∀ t j, (t ≠ table ∨ j ≠ l) → m'.phys t j = m.phys t j := by
    intro t j elsewhere
    rw [result, Mmu.setEntry, setWord_phys_of_ne _ _ elsewhere]
  have entryNew : m'.entry table l = new := by
    rw [result, setEntry_entry_self]
  have frames : m'.frames = m.frames := by rw [result]; rfl
  have locks : ∀ frame, m.frames.locked frame = true → m'.frames.locked frame = true := by
    rw [frames]
    exact fun _ locked => locked
  have leaf := spaces.tables.setLeaf member page at_ (by rw [frames]) locks (fun t j _ => words t j)
    (by rw [entryNew]; exact .of_user (by simp [presentNew, userNew]))
  rw [entryNew] at leaf
  have here : pageAt m' root (l :: p) = some new := by
    rw [leaf.here]
    simp [presentNew, userNew]
  have only : ∀ key mapping, pagesOf m live key = some mapping →
      mapping.frame = (mappingOf e).frame → key = (root, l :: p) := by
    intro key mapping found same
    have samePlace := spaces.counted.aligned _ _ _ _ found mapsOld same
    obtain ⟨isLive, page', e', maps', rfl⟩ := pagesOf_eq_some.mp found
    refine Prod.ext ?_ samePlace
    by_contra other
    exact alone key.1 isLive other key.2 page' e' maps' (BitVec.eq_of_toNat_eq same)
  refine ⟨spaces.setLeaf leaf (by rw [frames]) locks (fun _ => ?_) ?_, by rw [result]; rfl,
    by rw [frames], leaf.walks, ⟨new, here, writableNew⟩, leaf.elsewhere, ?_, ?_⟩
  · rw [pageNew]
    exact ⟨locks _ old.1, old.2⟩
  · have refs : refsOf m' = refsOf m := by rw [result]; rfl
    rw [leaf.pages, refs]
    simp only [presentNew, userNew, Bool.and_self, if_true]
    exact spaces.counted.claim id mapsOld only (congrArg BitVec.toNat pageNew) writableNew
  · intro root' member' w page' different
    refine spaces.readAt_eq (fun frame _ noTable => ?_) member' page' (by
      rw [leaf.elsewhere root' member' w page' different])
    exact funext fun j => words frame j (Or.inl fun same => noTable (same ▸ isTable))
  · intro root' member' w page' kernel
    rcases kernelAt_setLeaf spaces.tables member page at_ leaf.walks (fun t j _ => words t j) member'
      page' kernel with oldKernel | ⟨-, -, -, notUser⟩
    · exact oldKernel
    · rw [entryNew, userNew] at notUser
      cases notUser

/-- One iteration of `sys_sbrk`. -/
theorem sbrkPage_spec {address : BitVec 64} (spaces : AddressSpaces False m live)
    (current : m.currentPml = root) (member : root ∈ live) (low : address.toNat < 0x800000000000)
    (plain : ¬ KernelAt m root (addrPath address))
    (alone : ∀ e, pageAt m root (addrPath address) = some e → ∀ other ∈ live, other ≠ root →
      ∀ w, UserPage w → ∀ e', pageAt m other w = some e' → e'.page ≠ e.page)
    (available : ∀ found m1, mmuLookupFrame m address true = some (found, m1) →
      m1.requestFrame ≠ none)
    (grown : sbrkPage address m = some m') :
    ∃ m1, Paved False live m m1 ∧ Mapped False live root (addrPath address) m1 m' := by
  have page := addrPath_user (pml4Entry_low low)
  unfold sbrkPage at grown
  split at grown
  · rename_i table i m1 looked
    cases grown
    obtain ⟨paved, table', found, at_⟩ :=
      mmuLookupFrame_make spaces (current ▸ member) (pml4Entry_low low) looked
    cases found
    rw [current] at at_
    refine ⟨m1, paved, ?_⟩
    cases maps : pageAt m1 root (addrPath address) with
    | some e =>
        refine mmuAllocateFrameEx_reuse paved.quiet.spaces member page at_ maps ?_
        intro other isLive different w page' e' maps'
        rw [paved.pages root member _ page] at maps
        rw [paved.pages other isLive w page'] at maps'
        exact alone e maps other isLive different w page' e' maps'
    | none =>
        have absent : (m1.entry table (ptEntry address)).present = false := by
          rw [addrPath, pageAt_cons at_] at maps
          cases present : (m1.entry table (ptEntry address)).present with
          | false => rfl
          | true =>
              have notUser : (m1.entry table (ptEntry address)).user = false := by
                by_contra user
                rw [present, Bool.eq_true_of_not_eq_false user] at maps
                cases maps
              exact absurd (paved.quiet.kernel root member _ page ⟨table, at_, present, notUser⟩) plain
        exact mmuAllocateFrameEx_fresh paved.quiet.spaces member page at_ absent (by decide)
          (by decide) (available _ _ looked)
  · cases grown

/-! ## The loop -/

/-- The growth of the heap of `root` after `k` pages: other pages are what they were. -/
structure Growing (live : Set Nat) (root : Nat) (heap : BitVec 64) (start : Mmu) (k : Nat)
    (m : Mmu) : Prop where
  spaces : AddressSpaces False m live
  current : m.currentPml = root
  others : ∀ other ∈ live, other ≠ root → ∀ w, UserPage w → pageAt m other w = pageAt start other w
  later : ∀ w, UserPage w → (∀ j < k, w ≠ addrPath (sbrkAddress heap j)) →
    pageAt m root w = pageAt start root w
  kernel : ∀ root' ∈ live, ∀ w, UserPage w → KernelAt m root' w → KernelAt start root' w

theorem sbrkAddress_toNat {heap : BitVec 64} {k : Nat} (low : heap.toNat + 4096 * k < 2 ^ 64) :
    (sbrkAddress heap k).toNat = heap.toNat + 4096 * k := by
  rw [sbrkAddress, BitVec.toNat_add, BitVec.toNat_ofNat]
  omega

/-- The iterations are about different pages. -/
theorem sbrkAddress_apart {heap : BitVec 64} {j k : Nat} (smaller : j < k)
    (low : heap.toNat + 4096 * k < 0x800000000000) :
    addrPath (sbrkAddress heap k) ≠ addrPath (sbrkAddress heap j) := by
  intro same
  have valueK := @sbrkAddress_toNat heap k (by omega)
  have valueJ := @sbrkAddress_toNat heap j (by omega)
  simp only [addrPath, List.cons.injEq, and_true, Fin.ext_iff] at same
  obtain ⟨k4, k3, k2, k1⟩ := @entries_low (sbrkAddress heap k) (by omega)
  obtain ⟨j4, j3, j2, j1⟩ := @entries_low (sbrkAddress heap j) (by omega)
  rw [k1, j1, k2, j2, k3, j3, k4, j4] at same
  omega

/-- The whole loop of `sys_sbrk`. -/
theorem sbrkLoop_spec {heap : BitVec 64} {pages : Nat} (spaces : AddressSpaces False m live)
    (current : m.currentPml = root) (member : root ∈ live)
    (low : heap.toNat + 4096 * pages ≤ 0x800000000000)
    (plain : ∀ k < pages, ¬ KernelAt m root (addrPath (sbrkAddress heap k)))
    (alone : ∀ k < pages, ∀ e, pageAt m root (addrPath (sbrkAddress heap k)) = some e →
      ∀ other ∈ live, other ≠ root → ∀ w, UserPage w → ∀ e', pageAt m other w = some e' →
        e'.page ≠ e.page)
    (available : ∀ k < pages, ∀ m1 found m2,
      forRange (fun k m => sbrkPage (sbrkAddress heap k) m) 0 k m = some m1 →
      mmuLookupFrame m1 (sbrkAddress heap k) true = some (found, m2) → m2.requestFrame ≠ none)
    (looped : forRange (fun k m => sbrkPage (sbrkAddress heap k) m) 0 pages m = some m') :
    Growing live root heap m pages m' := by
  have whole := @forRange_invariant _ _ (fun k b =>
    forRange (fun k m => sbrkPage (sbrkAddress heap k) m) 0 k m = some b ∧
      Growing live root heap m k b) 0 pages ?_ _ _ ?_ looped
  · rw [Nat.zero_add] at whole
    exact whole.2
  · rintro k b c - inside ⟨prefix_, growing⟩ stepped
    rw [Nat.zero_add] at inside
    have room : heap.toNat + 4096 * k < 0x800000000000 := by omega
    have lowK : (sbrkAddress heap k).toNat < 0x800000000000 := by
      rw [sbrkAddress_toNat (by omega)]
      exact room
    have page := addrPath_user (pml4Entry_low lowK)
    have unvisited : ∀ j < k, addrPath (sbrkAddress heap k) ≠ addrPath (sbrkAddress heap j) :=
      fun j smaller => sbrkAddress_apart smaller room
    refine ⟨by rw [forRange_succ, prefix_, Nat.zero_add]; exact stepped, ?_⟩
    obtain ⟨b1, paved, mapped⟩ := sbrkPage_spec growing.spaces growing.current member lowK
      (fun kernel => plain k inside (growing.kernel root member _ page kernel)) (by
        intro e maps other isLive different w page' e' maps'
        rw [growing.later _ page unvisited] at maps
        rw [growing.others other isLive different w page'] at maps'
        exact alone k inside e maps other isLive different w page' e' maps')
      (fun found m1 looked => available k inside b found m1 prefix_ looked) stepped
    refine ⟨mapped.spaces, (mapped.current.trans paved.quiet.current).trans growing.current, ?_, ?_,
      ?_⟩
    · intro other isLive different w page'
      rw [mapped.pages other isLive w page' fun same => different (Prod.mk.inj same).1,
        paved.pages other isLive w page', growing.others other isLive different w page']
    · intro w page' outside
      rw [mapped.pages root member w page' fun same =>
          outside k (Nat.lt_succ_self k) (Prod.mk.inj same).2,
        paved.pages root member w page',
        growing.later w page' fun j smaller => outside j (Nat.lt_succ_of_lt smaller)]
    · intro root' isLive w page' kernel
      exact growing.kernel root' isLive w page'
        (paved.quiet.kernel root' isLive w page' (mapped.kernel root' isLive w page' kernel))
  · exact ⟨rfl, spaces, current, fun _ _ _ _ _ => rfl, fun _ _ _ => rfl, fun _ _ _ _ kernel => kernel⟩

end

/-- The pages of a grow that stays below a bound. -/
theorem sbrkPages_bound {base top : Nat} {heap size : BitVec 64} (high : top ≤ 0x800000000000)
    (aligned : size &&& 0xFFF = 0) (inside : inArea base top heap size = true)
    (below : heap.toNat ≤ top) :
    heap.toNat + 4096 * sbrkPages heap size ≤ top ∧ base ≤ (heap + size).toNat ∧
      (heap + size).toNat ≤ top := by
  have multiple : size.toNat % 4096 = 0 := by
    have value := congrArg BitVec.toNat aligned
    have mask : (0xFFF : BitVec 64).toNat = 2 ^ 12 - 1 := rfl
    rw [BitVec.toNat_and, mask, Nat.and_two_pow_sub_one_eq_mod] at value
    exact value
  have area : base ≤ heap.toNat + size.toInt ∧ heap.toNat + size.toInt ≤ top := by
    simpa [inArea] using inside
  have sum : ((heap + size).toNat : Int) = heap.toNat + size.toInt := by
    rw [BitVec.toNat_add, BitVec.toInt_eq_toNat_cond] at *
    split at area <;> rename_i sign <;> simp only [sign, if_true, if_false] <;> omega
  refine ⟨?_, by omega, by omega⟩
  rw [sbrkPages]
  split
  · rename_i grows
    have positive : heap.toNat < (heap + size).toNat := grows
    have sizeSum : (heap + size).toNat = heap.toNat + size.toNat := by
      rw [BitVec.toInt_eq_toNat_cond] at sum
      split at sum <;> omega
    omega
  · omega

/-! ## Runs -/

/-- Pages of one process that no other process maps: for every growth over an entry that still holds a
page. A fork copies no page whose count is full, and the frames that a growth requests are there. -/
def Unshared (s : Heaps) : HeapOp → Prop
  | .sbrk root size =>
      (∀ k < sbrkPages (s.heap root) size, ∀ e,
        pageAt s.memory.mmu root (addrPath (sbrkAddress (s.heap root) k)) = some e →
        ∀ other ∈ s.memory.live, other ≠ root → ∀ w, UserPage w → ∀ e',
          pageAt s.memory.mmu other w = some e' → e'.page ≠ e.page) ∧
      ∀ k < sbrkPages (s.heap root) size, ∀ m1 found m2,
        forRange (fun k m => sbrkPage (sbrkAddress (s.heap root) k) m) 0 k
          { s.memory.mmu with currentPml := root } = some m1 →
        mmuLookupFrame m1 (sbrkAddress (s.heap root) k) true = some (found, m2) →
          m2.requestFrame ≠ none
  | .fork parent child => Cloneable s.memory (.fork parent child)
  | .write _ _ _ => True

/-- The invariant of the runs: the counts hold, every break is in the heap area, and the area has no
kernel pages. -/
structure HeapSound (base top : Nat) (s : Heaps) : Prop where
  spaces : AddressSpaces False s.memory.mmu s.memory.live
  breaks : ∀ root ∈ s.memory.live, base ≤ (s.heap root).toNat ∧ (s.heap root).toNat ≤ top
  plain : ∀ root ∈ s.memory.live, ∀ address, base ≤ address.toNat → address.toNat < top →
    ¬ KernelAt s.memory.mmu root (addrPath address)

/-- `sys_sbrk` keeps the invariant. -/
theorem HeapSound.sbrk {base top : Nat} (high : top ≤ 0x800000000000) {s t : Heaps} {root : Nat}
    {size : BitVec 64} (sound : HeapSound base top s) (unshared : Unshared s (.sbrk root size))
    (stepped : s.sbrk base top root size = some t) : HeapSound base top t := by
  obtain ⟨member, inside, result, heap, m, called, rfl⟩ := Heaps.sbrk_eq_some stepped
  obtain ⟨above, below⟩ := sound.breaks root member
  have breaks : ∀ {break_ : BitVec 64}, base ≤ break_.toNat ∧ break_.toNat ≤ top →
      ∀ r ∈ s.memory.live, base ≤ (Function.update s.heap root break_ r).toNat ∧
        (Function.update s.heap root break_ r).toNat ≤ top := by
    intro break_ bounds r isLive
    by_cases same : r = root
    · rw [same, Function.update_self]
      exact bounds
    · rw [Function.update_of_ne same]
      exact sound.breaks r isLive
  have sameWords := fun r v => @walks_of_phys s.memory.mmu
    { s.memory.mmu with currentPml := root } rfl r v
  have plain : ∀ r ∈ s.memory.live, ∀ address, base ≤ address.toNat → address.toNat < top →
      ¬ KernelAt { s.memory.mmu with currentPml := root } r (addrPath address) := by
    rintro r isLive address low high' ⟨t, at_, rest⟩
    rw [(sameWords r _).1] at at_
    exact sound.plain r isLive address low high' ⟨t, at_, rest⟩
  unfold sysSbrk at called
  split at called
  · cases called
    exact ⟨sound.spaces.setCurrent root, breaks ⟨above, below⟩, plain⟩
  · rename_i aligned
    obtain ⟨last, looped, same⟩ := Option.map_eq_some_iff.mp called
    cases same
    obtain ⟨room, newAbove, newBelow⟩ := sbrkPages_bound high (by simpa using aligned) inside below
    have inArea : ∀ k < sbrkPages (s.heap root) size,
        base ≤ (sbrkAddress (s.heap root) k).toNat ∧ (sbrkAddress (s.heap root) k).toNat < top := by
      intro k bound
      rw [sbrkAddress_toNat (by omega)]
      omega
    have growing := sbrkLoop_spec (sound.spaces.setCurrent root) rfl member (by omega)
      (fun k bound => plain root member _ (inArea k bound).1 (inArea k bound).2)
      (fun k bound e maps other isLive different w page e' maps' => by
        rw [(sameWords _ _).2.1] at maps maps'
        exact unshared.1 k bound e maps other isLive different w page e' maps')
      unshared.2 looped
    refine ⟨growing.spaces, breaks ⟨newAbove, newBelow⟩, fun r isLive address low high' kernel => ?_⟩
    have page : UserPage (addrPath address) := addrPath_user (pml4Entry_low (by omega))
    exact plain r isLive address low high' (growing.kernel r isLive _ page kernel)

/-- Every operation keeps the invariant. -/
theorem HeapSound.step {base top : Nat} (high : top ≤ 0x800000000000) {s t : Heaps} {op : HeapOp}
    (sound : HeapSound base top s) (unshared : Unshared s op)
    (stepped : s.step base top op = some t) : HeapSound base top t := by
  cases op with
  | sbrk root size => exact sound.sbrk high unshared stepped
  | fork parent child =>
      obtain ⟨memory, forked, rfl⟩ := Option.map_eq_some_iff.mp stepped
      obtain ⟨member, m, cloned, rfl⟩ := Memory.fork_eq_some.mp forked
      have cloneable : Cloneable s.memory (.fork parent child) := unshared
      have spec := mmuClone_spec sound.spaces member cloneable.unsaturated cloned
      refine ⟨?_, ?_, ?_⟩
      · rw [Finset.coe_insert]
        exact spec.spaces
      · intro r isLive
        dsimp only
        by_cases isChild : r = child
        · rw [isChild, Function.update_self]
          exact sound.breaks parent member
        · rw [Function.update_of_ne isChild]
          exact sound.breaks r ((Finset.mem_insert.mp isLive).resolve_left isChild)
      · intro r isLive address low high' kernel
        have page : UserPage (addrPath address) := addrPath_user (pml4Entry_low (by omega))
        have member' : r ∈ insert child (s.memory.live : Set Nat) := by
          simpa using Finset.mem_insert.mp isLive
        rcases spec.kernel r member' _ page kernel with ⟨old, own⟩ | fromParent
        · exact sound.plain r old address low high' own
        · exact sound.plain parent member address low high' fromParent
  | write root address value =>
      obtain ⟨memory, wrote, rfl⟩ := Option.map_eq_some_iff.mp stepped
      obtain ⟨member, half, m, stored, rfl⟩ := Memory.write_eq_some.mp wrote
      have spec := userWrite_spec sound.spaces member (pml4Entry_low (userHalf_iff.mp half)) stored
      refine ⟨spec.spaces, sound.breaks, fun r isLive address low high' kernel => ?_⟩
      have page : UserPage (addrPath address) := addrPath_user (pml4Entry_low (by omega))
      exact sound.plain r isLive address low high' (spec.kernel r isLive _ page kernel)

/-- The frames of one process that it may write are its own. -/
def WritesOwn (s : Memory) (root : Nat) : Prop :=
  ∀ v, UserPage v → ∀ e, pageAt s.mmu root v = some e → e.writable = true →
    ∀ other ∈ s.live, other ≠ root → ∀ w, UserPage w → ∀ e', pageAt s.mmu other w = some e' →
      e'.page ≠ e.page

theorem HeapSound.writesOwn {base top : Nat} {s : Heaps} (sound : HeapSound base top s) {root : Nat}
    (member : root ∈ s.memory.live) : WritesOwn s.memory root := by
  intro v page e maps writable other isLive different w page' e' maps' same
  have alone := (sound.spaces.counted.alone_of_writable
    (@pagesOf_of_page _ s.memory.live _ _ _ member page maps) writable).2 (other, w) _
    (@pagesOf_of_page _ s.memory.live _ _ _ isLive page' maps') (congrArg BitVec.toNat same)
  exact different (Prod.mk.inj alone).1

/-- In every run in which no growth meets a page that somebody else maps, the processes, and with them
the caller of each `sys_sbrk`, have write access to frames of their own only. -/
theorem sbrk_keeps_isolation {base top : Nat} {m : Mmu} {root : Nat} {heap : Nat → BitVec 64}
    {t : Heaps} {ops : List HeapOp} (high : top ≤ 0x800000000000) (start : PrivateStart m root)
    (break_ : base ≤ (heap root).toNat ∧ (heap root).toNat ≤ top)
    (plain : ∀ address : BitVec 64, base ≤ address.toNat → address.toNat < top →
      ¬ KernelAt m root (addrPath address))
    (run : Run (Heaps.step base top) Unshared ⟨⟨m, {root}⟩, heap⟩ ops t) :
    ∀ r ∈ t.memory.live, WritesOwn t.memory r := by
  have initially : HeapSound base top ⟨⟨m, {root}⟩, heap⟩ := by
    refine ⟨?_, fun r isLive => ?_, fun r isLive address low high' => ?_⟩
    · rw [Finset.coe_singleton]
      exact start.spaces False
    · rw [Finset.mem_singleton.mp isLive]
      exact break_
    · rw [Finset.mem_singleton.mp isLive]
      exact plain address low high'
  have sound := @Run.invariant _ _ _ _ (HeapSound base top)
    (fun s op t unshared stepped sound => sound.step high unshared stepped) _ _ _ run initially
  exact fun r isLive => sound.writesOwn isLive

/-! ## A fork between a shrink and a grow -/

/-- A growth by the first page, over an entry that holds one. -/
theorem sbrkPage_onePage {m : Mmu} {word : BitVec 64} (one : OnePage m word)
    (current : m.currentPml = 1) (holds : (PagemapEntry.ofWord word).page ≠ 0) :
    sbrkPage 0 m = some (m.setEntry 4 0 (flaggedEntry (.ofWord word) mmuFlagWritable)) := by
  have found : mmuLookupFrameFrom m m.currentPml 0 = some (4, 0) := by
    rw [mmuLookupFrameFrom_eq, current]
    exact congrArg (Option.map _) one.walk
  rw [sbrkPage, mmuLookupFrame_found found]
  dsimp only
  rw [mmuAllocateFrameEx, allocatePage, one.entry.2.2.2, if_neg holds, one.entry.2.2.2]

/-- Process 1 shrinks its heap by its page and forks. -/
theorem shrink_fork {ok : Heaps → HeapOp → Prop} {m start : Mmu} {live : Finset Nat} {root child : Nat}
    (current : start.currentPml = root) (member : root ∈ live)
    (cloned : mmuClone start (some root) = some (child, m))
    (okFork : ok ⟨⟨start, live⟩, Function.update (fun _ => 0x1000) root 0⟩ (.fork root child))
    (okShrink : ok ⟨⟨start, live⟩, fun _ => 0x1000⟩ (.sbrk root (-0x1000))) :
    ∃ heap, heap root = 0 ∧ Run (Heaps.step 0 0x1000) ok ⟨⟨start, live⟩, fun _ => 0x1000⟩
      [.sbrk root (-0x1000), .fork root child] ⟨⟨m, insert child live⟩, heap⟩ := by
  have same : { start with currentPml := root } = start := by rw [← current]
  have shrunk : sysSbrk { start with currentPml := root } 0x1000 (-0x1000) =
      some (0x1000, 0, start) := by
    rw [same]
    rfl
  refine ⟨Function.update (Function.update (fun _ => 0x1000) root 0) child 0, ?_,
    .head okShrink (Heaps.step_sbrk member (by decide : inArea 0 0x1000 0x1000 (-0x1000) = true)
      shrunk) (Run.single okFork ?_)⟩
  · by_cases isChild : root = child
    · rw [isChild, Function.update_self]
    · rw [Function.update_of_ne isChild, Function.update_self]
  · rw [Heaps.step_fork member cloned]
    simp

/-- The page of a process whose four tables are in a row. -/
theorem pageAt_links {m : Mmu} {bound : Nat} {word : BitVec 64} (small : bound + 3 < 2 ^ 28)
    (links : ∀ f, bound ≤ f → f < bound + 3 → m.entry f 0 = .ofWord (tableWord (f + 1)))
    (leaf : m.entry (bound + 3) 0 = .ofWord word)
    (access : (PagemapEntry.ofWord word).present = true ∧ (PagemapEntry.ofWord word).user = true) :
    pageAt m bound firstPath = some (.ofWord word) := by
  rw [firstPath, pageAt_cons (tableAt_links small links), leaf, access.1, access.2]
  rfl

theorem sbrk_keeps_isolation_example : ∃ t,
    Run (Heaps.step 0 0x1000) Unshared ⟨⟨onePage 2048, {1}⟩, fun _ => 0x1000⟩
      [.sbrk 1 (-0x1000), .fork 1 6] t ∧ ∀ r ∈ t.memory.live, WritesOwn t.memory r := by
  have start : PrivateStart (onePage 2048) 1 := onePage_start (by decide) (by decide)
  obtain ⟨m, cloned, -⟩ := fork_first
  have noPages : sbrkPages 0x1000 (-0x1000) = 0 := by decide
  obtain ⟨heap, -, run⟩ := @shrink_fork Unshared m (onePage 2048) {1} 1 6 rfl
    (Finset.mem_singleton_self 1) cloned (fun v page e maps readonly => by
      have writable := (start.pages v page e maps).1
      rw [readonly] at writable
      cases writable) ⟨fun k bound => absurd (noPages ▸ bound) (Nat.not_lt_zero k),
        fun k bound => absurd (noPages ▸ bound) (Nat.not_lt_zero k)⟩
  refine ⟨_, run, sbrk_keeps_isolation (by decide) start (by decide) ?_ run⟩
  rintro address - below ⟨table, at_, present, notUser⟩
  have one := onePage_onePage 2048
  obtain ⟨-, rfl⟩ := one.tableAt (addrPath_user (pml4Entry_low (by omega))).table.1 at_
  change ((onePage 2048).entry 4 (ptEntry address)).present = true at present
  change ((onePage 2048).entry 4 (ptEntry address)).user = false at notUser
  by_cases first : ptEntry address = 0
  · rw [first, one.entry.2.2.2, pageWord_entry.2.1] at notUser
    cases notUser
  · rw [only_absent one.pt first] at present
    cases present

/-- Process 1 shrinks its heap by its page, forks, and asks for the page again: it may now write what its
child still reads. -/
theorem sbrk_after_fork_shares : PrivateStart (onePage 2048) 1 ∧
    ∃ t, Run (Heaps.step 0 0x1000) (fun _ _ => True) ⟨⟨onePage 2048, {1}⟩, fun _ => 0x1000⟩
      [.sbrk 1 (-0x1000), .fork 1 6, .sbrk 1 0x1000] t ∧
      1 ∈ t.memory.live ∧ ¬ WritesOwn t.memory 1 := by
  refine ⟨onePage_start (by decide) (by decide), ?_⟩
  obtain ⟨m, cloned, forked, links, leaf⟩ := fork_first
  obtain ⟨present, user, -, frame⟩ := Forked.page
  obtain ⟨heap, isZero, before⟩ := @shrink_fork (fun _ _ => True) m (onePage 2048) {1} 1 6 rfl
    (Finset.mem_singleton_self 1) cloned trivial trivial
  have holds : (PagemapEntry.ofWord sharedWord).page ≠ 0 := by
    intro zero
    rw [zero] at frame
    cases frame
  have one : OnePage { m with currentPml := 1 } sharedWord := forked.tables.of_phys fun _ _ => rfl
  obtain ⟨new, newEq⟩ : ∃ new, new = flaggedEntry (.ofWord sharedWord) mmuFlagWritable := ⟨_, rfl⟩
  obtain ⟨presentNew, userNew, writableNew, -, pageNew⟩ := @flaggedEntry_user
    (.ofWord sharedWord) mmuFlagWritable (by decide) (by decide)
  rw [← newEq] at presentNew userNew writableNew pageNew
  obtain ⟨last, lastEq⟩ : ∃ last : Mmu, last =
      ({ m with currentPml := 1 } : Mmu).setEntry 4 0 new := ⟨_, rfl⟩
  have grown : sysSbrk { m with currentPml := 1 } (heap 1) 0x1000 = some (0, 0x1000, last) := by
    rw [isZero, sysSbrk, if_neg (by decide), show sbrkPages 0 0x1000 = 1 by decide, forRange,
      show sbrkAddress 0 0 = 0 by decide, sbrkPage_onePage one rfl holds, ← newEq, ← lastEq]
    rfl
  have others : ∀ f, f ≠ 4 → last.phys f = m.phys f := by
    intro f other
    rw [lastEq, Mmu.setEntry, setWord_phys_frame _ _ other]
  have member : 1 ∈ (insert 6 {1} : Finset Nat) := Finset.mem_insert_of_mem (Finset.mem_singleton_self 1)
  have page : UserPage firstPath := ⟨rfl, (by decide : (0 : Fin 512).val < 256)⟩
  refine ⟨_, before.trans (Run.single trivial (Heaps.step_sbrk member
    (by change inArea 0 0x1000 (heap 1) 0x1000 = true; rw [isZero]; decide) grown)), member, fun own => ?_⟩
  refine own firstPath page new ?_ writableNew 6 (Finset.mem_insert_self _ _) (by decide) firstPath
    page (.ofWord sharedWord) ?_ pageNew.symm
  · have walk : tableAt last 1 [0, 0, 0] = some 4 := by
      refine tableAt_links (by decide) fun f low high => ?_
      rw [entry_congr (congrFun (others f (by omega)) 0)]
      exact forked.tables.links f low high
    rw [firstPath, pageAt_cons walk, lastEq, setEntry_entry_self, presentNew, userNew]
    rfl
  · refine pageAt_links (by decide) (fun f low high => ?_) ?_ ⟨present, user⟩
    · rw [entry_congr (congrFun (others f (by omega)) 0)]
      exact links f low high
    · rw [entry_congr (congrFun (others 9 (by decide)) 0)]
      exact leaf

end Voxel.Proofs
