/-
Module: Voxel.Proofs.UserRange
Layer: Proofs
Purpose: What `mmu_validate_user` promises about a range that it accepts. The loop looks at every page of
  a range that ends before the address space does; the sum that gives the last byte may overflow, and
  then the loop looks at no page at all.
Trusted boundary: none
Main exports: Canonical, mmuCopyOnWrite_tables, RangeChecked, validate_user_sound_iff
-/
import Voxel.Kernel.Memory
import Voxel.Proofs.Break

namespace Voxel.Proofs

open Voxel.Kernel
open Voxel.Lib

/-! ## Page numbers -/

/-- An address that the processor accepts. -/
def Canonical (address : BitVec 64) : Prop :=
  address.toNat < 0x800000000000 ∨ 0xFFFF800000000000 ≤ address.toNat

/-- The upper page bits, as a number. -/
theorem pageBits_toNat (page : BitVec 64) :
    (page &&& canonicalPageBits).toNat = page.toNat / 2 ^ 35 % 2 ^ 17 * 2 ^ 35 := by
  have bits : canonicalPageBits.toNat = (2 ^ 17 - 1) <<< 35 := by decide
  have shifted : page.toNat &&& (2 ^ 17 - 1) <<< 35 =
      ((page.toNat >>> 35) &&& (2 ^ 17 - 1)) <<< 35 := by
    apply Nat.eq_of_testBit_eq
    intro j
    simp only [Nat.testBit_and, Nat.testBit_shiftLeft, Nat.testBit_shiftRight]
    by_cases low : 35 ≤ j
    · simp [low]
    · simp [low]
  rw [BitVec.toNat_and, bits, shifted, Nat.and_two_pow_sub_one_eq_mod, Nat.shiftLeft_eq,
    Nat.shiftRight_eq_div_pow]

/-- The test of `mmu_validate_user` rejects the pages between the two halves. -/
theorem canonicalPageBits_iff {page : BitVec 64} (small : page.toNat < 2 ^ 52) :
    (page &&& canonicalPageBits ≠ 0 ∧ page &&& canonicalPageBits ≠ canonicalPageBits) ↔
      2 ^ 35 ≤ page.toNat ∧ page.toNat < 2 ^ 52 - 2 ^ 35 := by
  have bits : canonicalPageBits.toNat = (2 ^ 17 - 1) * 2 ^ 35 := by decide
  have value := pageBits_toNat page
  have zero : page &&& canonicalPageBits = 0 ↔ page.toNat / 2 ^ 35 % 2 ^ 17 * 2 ^ 35 = 0 := by
    rw [← value, ← BitVec.toNat_inj]
    rfl
  have full : page &&& canonicalPageBits = canonicalPageBits ↔
      page.toNat / 2 ^ 35 % 2 ^ 17 * 2 ^ 35 = (2 ^ 17 - 1) * 2 ^ 35 := by
    rw [← value, ← bits, BitVec.toNat_inj]
  rw [Ne, Ne, zero, full]
  omega

/-- An address has the entry of its page. -/
theorem userEntry_page (m : Mmu) (root : Nat) {address page : BitVec 64}
    (same : address.toNat / 4096 = page.toNat) :
    userEntry m root address = userEntry m root (page <<< 12) := by
  have start : (page <<< 12).toNat = page.toNat * 4096 := by
    rw [BitVec.toNat_shiftLeft, Nat.shiftLeft_eq]
    have bound := address.isLt
    omega
  have pages : pageAddr address = pageAddr (page <<< 12) := by
    rw [pageAddr_eq, pageAddr_eq, start]
    omega
  have indices : addrPath address = addrPath (page <<< 12) := by
    simp only [addrPath, ptEntry, pdEntry, pdpEntry, pml4Entry, pages]
  rw [userEntry_eq, userEntry_eq, indices]

/-- A page of the lower half starts at an address of the lower half. -/
theorem page_low {page : BitVec 64} (low : page.toNat < 2 ^ 35) :
    (page <<< 12).toNat < 0x800000000000 := by
  rw [BitVec.toNat_shiftLeft, Nat.shiftLeft_eq]
  omega

theorem page_high {page : BitVec 64} (small : page.toNat < 2 ^ 52)
    (high : 2 ^ 52 - 2 ^ 35 ≤ page.toNat) : 0xFFFF800000000000 ≤ (page <<< 12).toNat := by
  rw [BitVec.toNat_shiftLeft, Nat.shiftLeft_eq]
  omega

/-! ## Copy on write below one directory -/

section

variable {m m' : Mmu} {root : Nat}

/-- `_refcount_decrease` touches a count and nothing else. -/
theorem refcountDecrease_same (m : Mmu) (frame : Nat) :
    (refcountDecrease m frame).2.phys = m.phys ∧ (refcountDecrease m frame).2.frames = m.frames ∧
      (refcountDecrease m frame).2.currentPml = m.currentPml := by
  unfold refcountDecrease
  split
  · exact ⟨rfl, rfl, rfl⟩
  · split <;> exact ⟨rfl, rfl, rfl⟩

/-- A page of the process became writable, and the pages that it has stay. -/
structure Unlocked (root : Nat) (m m' : Mmu) : Prop where
  tables : Tables m' {root}
  current : m'.currentPml = m.currentPml
  kept : ∀ v, UserPage v → ∀ e, pageAt m root v = some e →
    ∃ e', pageAt m' root v = some e' ∧ (e.writable = true → e'.writable = true)

theorem Unlocked.refl (tables : Tables m {root}) : Unlocked root m m where
  tables := tables
  current := rfl
  kept := fun _ _ e maps => ⟨e, maps, fun writable => writable⟩

theorem Unlocked.trans {a b c : Mmu} (one : Unlocked root a b) (two : Unlocked root b c) :
    Unlocked root a c where
  tables := two.tables
  current := two.current.trans one.current
  kept := by
    intro v page e maps
    obtain ⟨e', maps', first⟩ := one.kept v page e maps
    obtain ⟨e'', maps'', second⟩ := two.kept v page e' maps'
    exact ⟨e'', maps'', fun writable => second (first writable)⟩

/-- The leaf that `mmu_copy_on_write` writes. -/
theorem Tables.unlock {table : Nat} {i : Fin 512} {p : Path} (tables : Tables m {root})
    (page : UserPage (i :: p)) (at_ : tableAt m root p = some table)
    (marked : (m.entry table i).cow = true) (current : m'.currentPml = m.currentPml)
    (nFrames : m'.frames.nFrames = m.frames.nFrames)
    (locks : ∀ frame, m.frames.locked frame = true → m'.frames.locked frame = true)
    (words : ∀ t j, IsTable m {root} t → (t ≠ table ∨ j ≠ i) → m'.phys t j = m.phys t j)
    (access : (m'.entry table i).present = (m.entry table i).present ∧
      (m'.entry table i).user = (m.entry table i).user)
    (writable : (m'.entry table i).writable = true) :
    Unlocked root m m' ∧ ∃ e, pageAt m' root (i :: p) = some e ∧ e.writable = true := by
  have member : root ∈ ({root} : Set Nat) := rfl
  have usable : ((m.entry table i).present && (m.entry table i).user) = true := by
    by_contra none
    have clean := (tables.clean root member i p table page at_ (by simpa using none)).1
    rw [marked] at clean
    cases clean
  have usable' : ((m'.entry table i).present && (m'.entry table i).user) = true := by
    rw [access.1, access.2]
    exact usable
  have leaf := tables.setLeaf member page at_ nFrames locks words (.of_user usable')
  have here : pageAt m' root (i :: p) = some (m'.entry table i) := by
    rw [leaf.here, if_pos usable']
  refine ⟨⟨leaf.tables, current, fun v page' e maps => ?_⟩, _, here, writable⟩
  by_cases same : v = i :: p
  · subst same
    exact ⟨_, here, fun _ => writable⟩
  · exact ⟨e, by
      rw [leaf.elsewhere root member v page' fun both => same (Prod.mk.inj both).2]
      exact maps, fun isWritable => isWritable⟩

/-- `mmu_copy_on_write` below a well-formed directory: where it reports success the page is writable, and
the other pages stay. -/
theorem mmuCopyOnWrite_tables (tables : Tables m {root}) (current : m.currentPml = root)
    {address : BitVec 64} (low : (pml4Entry address).val < 256)
    (resolved : mmuCopyOnWrite m address = some (false, m')) :
    Unlocked root m m' ∧ ∃ e, pageAt m' root (addrPath address) = some e ∧ e.writable = true := by
  have page := addrPath_user low
  rw [mmuCopyOnWrite, mmuLookupFrame_false, mmuLookupFrameFrom_eq, current] at resolved
  cases at_ : tableAt m root [pdEntry address, pdpEntry address, pml4Entry address] with
  | none =>
      rw [at_] at resolved
      cases resolved
  | some table =>
      rw [at_] at resolved
      dsimp only [Option.map_some] at resolved
      split at resolved
      · cases resolved
      rename_i cow
      have marked : (m.entry table (ptEntry address)).cow = true := by simpa using cow
      have isTable : IsTable m {root} table := ⟨root, rfl, _, page.table.1, at_⟩
      obtain ⟨phys, frames, sameCurrent⟩ :=
        refcountDecrease_same m (m.entry table (ptEntry address)).page.toNat
      cases counted : refcountDecrease m (m.entry table (ptEntry address)).page.toNat with
      | mk count m₁ =>
      rw [counted] at resolved phys frames sameCurrent
      dsimp only at resolved phys frames sameCurrent
      have entries : m₁.entry table (ptEntry address) = m.entry table (ptEntry address) :=
        entry_congr (by rw [phys])
      split at resolved
      · cases resolved
        refine tables.unlock page at_ marked sameCurrent (by rw [← frames]; rfl)
          (fun frame locked => by rw [← frames] at locked; exact locked) (fun t j _ elsewhere => ?_)
          ?_ ?_
        · rw [Mmu.setEntry, setWord_phys_of_ne _ _ elsewhere, phys]
        · rw [setEntry_entry_self, entries]
          exact ⟨rfl, rfl⟩
        · rw [setEntry_entry_self]
      · split at resolved
        · cases resolved
        rename_i fresh m₂ requested
        obtain ⟨free, inside, rfl⟩ := requestFrame_spec requested
        rw [frames] at free inside
        have ne_fresh : ∀ {t}, IsTable m {root} t → t ≠ fresh := fun isTable =>
          tables.ne_of_free isTable free
        cases resolved
        refine tables.unlock page at_ marked sameCurrent ?_ ?_ (fun t j isTable' elsewhere => ?_) ?_ ?_
        · change (mmuLockFrame { m₁.frames with lowestAvailable := fresh + 1 } fresh).nFrames = _
          rw [mmuLockFrame_nFrames, frames]
        · intro frame locked
          rw [← frames] at locked
          exact @mmuLockFrame_keeps { m₁.frames with lowestAvailable := fresh + 1 } fresh frame locked
        · rw [Mmu.setEntry, setWord_phys_of_ne _ _ elsewhere]
          simp only [Mmu.setFrame, Mmu.lockFrame]
          rw [Function.update_of_ne (ne_fresh isTable'), phys]
        · have kept : ∀ words, ((Mmu.lockFrame
              { m₁ with frames := { m₁.frames with lowestAvailable := fresh + 1 } } fresh).setFrame
                fresh words).entry table (ptEntry address) = m.entry table (ptEntry address) := by
            intro words
            rw [← entries]
            refine entry_congr ?_
            simp only [Mmu.setFrame, Mmu.lockFrame]
            rw [Function.update_of_ne (ne_fresh isTable)]
          rw [setEntry_entry_self, kept]
          exact ⟨rfl, rfl⟩
        · rw [setEntry_entry_self]

/-! ## The loop over the pages -/

/-- The page is present and accessible, and writable if the flags ask for it. -/
def PageChecked (m : Mmu) (root : Nat) (flags : BitVec 32) (page : BitVec 64) : Prop :=
  ∃ e, userEntry m root (page <<< 12) = some e ∧
    (hasFlag flags mmuPtrWrite = true → e.writable = true)

/-- What an iteration that goes on has seen. -/
theorem validatePage_true {flags : BitVec 32} {page : BitVec 64} (small : page.toNat < 2 ^ 52)
    (validated : validatePage root flags page m = some (true, m')) :
    (page.toNat < 2 ^ 35 ∨ 2 ^ 52 - 2 ^ 35 ≤ page.toNat) ∧
      ((m' = m ∧ PageChecked m root flags page) ∨
        mmuCopyOnWrite m (page <<< 12) = some (false, m')) := by
  unfold validatePage at validated
  split at validated
  · cases validated
  rename_i canonical
  rw [canonicalPageBits_iff small] at canonical
  refine ⟨by omega, ?_⟩
  split at validated
  · cases validated
  rename_i table i found
  split at validated
  · cases validated
  rename_i present
  split at validated
  · cases validated
  rename_i user
  split at validated
  · obtain ⟨⟨failed, last⟩, resolved, same⟩ := Option.map_eq_some_iff.mp validated
    obtain ⟨notFailed, rfl⟩ := Prod.mk.inj same
    have isFalse : failed = false := by simpa using notFailed
    rw [isFalse] at resolved
    exact Or.inr resolved
  · rename_i asked
    cases validated
    refine Or.inl ⟨rfl, m.entry table i, ?_, fun write => ?_⟩
    · have access : ((m.entry table i).present && (m.entry table i).user) = true := by
        rw [Bool.eq_true_of_not_eq_false present, Bool.eq_true_of_not_eq_false user]
        rfl
      rw [userEntry, found]
      exact if_pos access
    · by_contra readonly
      exact asked ⟨by simpa using readonly, write⟩

/-- A checked page stays one. -/
theorem Unlocked.checked {flags : BitVec 32} {page : BitVec 64} (low : page.toNat < 2 ^ 35)
    (unlocked : Unlocked root m m') (checked : PageChecked m root flags page) :
    PageChecked m' root flags page := by
  obtain ⟨e, maps, writable⟩ := checked
  rw [userEntry_eq] at maps
  obtain ⟨e', maps', kept⟩ := unlocked.kept _ (addrPath_user (pml4Entry_low (page_low low))) e maps
  exact ⟨e', by rw [userEntry_eq]; exact maps', fun write => kept (writable write)⟩

theorem page_add {page : BitVec 64} {j : Nat} (small : page.toNat + j < 2 ^ 64) :
    (page + BitVec.ofNat 64 j).toNat = page.toNat + j := by
  rw [BitVec.toNat_add, BitVec.toNat_ofNat]
  omega

theorem page_succ (page : BitVec 64) (j : Nat) :
    page + 1 + BitVec.ofNat 64 j = page + BitVec.ofNat 64 (j + 1) := by
  rw [BitVec.add_assoc, BitVec.ofNat_add, BitVec.add_comm (BitVec.ofNat 64 j)]
  rfl

/-- A number of pages from the lower half on. -/
theorem validatePages_low {flags : BitVec 32} {n : Nat} {page : BitVec 64}
    (tables : Tables m {root}) (current : m.currentPml = root) (low : page.toNat < 2 ^ 35)
    (validated : validatePages root flags n page m = some (true, m')) :
    Unlocked root m m' ∧ ∀ j < n, page.toNat + j < 2 ^ 35 ∧
      PageChecked m' root flags (page + BitVec.ofNat 64 j) := by
  induction n generalizing m page with
  | zero =>
      cases validated
      exact ⟨.refl tables, fun j inside => absurd inside (Nat.not_lt_zero j)⟩
  | succ n inductionHypothesis =>
      unfold validatePages at validated
      split at validated
      · rename_i m₁ first
        have step : Unlocked root m m₁ ∧ PageChecked m₁ root flags page := by
          rcases (validatePage_true (by omega) first).2 with ⟨rfl, checked⟩ | resolved
          · exact ⟨.refl tables, checked⟩
          · obtain ⟨unlocked, e, maps, writable⟩ :=
              mmuCopyOnWrite_tables tables current (pml4Entry_low (page_low low)) resolved
            exact ⟨unlocked, e, by rw [userEntry_eq]; exact maps, fun _ => writable⟩
        cases n with
        | zero =>
            cases validated
            refine ⟨step.1, fun j inside => ?_⟩
            have isFirst : j = 0 := by omega
            rw [isFirst, BitVec.add_zero]
            exact ⟨low, step.2⟩
        | succ n =>
            have next : (page + 1).toNat = page.toNat + 1 := page_add (j := 1) (by omega)
            have lowNext : (page + 1).toNat < 2 ^ 35 := by
              have second := validated
              unfold validatePages at second
              split at second
              · rename_i m₂ accepted
                have canonical := (validatePage_true (by omega) accepted).1
                omega
              · rename_i other notTrue
                exact absurd second (notTrue _)
            obtain ⟨unlocked, checked⟩ := inductionHypothesis step.1.tables
              (step.1.current.trans current) lowNext validated
            refine ⟨step.1.trans unlocked, fun j inside => ?_⟩
            cases j with
            | zero =>
                rw [BitVec.add_zero]
                exact ⟨low, unlocked.checked low step.2⟩
            | succ j =>
                obtain ⟨bound, here⟩ := checked j (by omega)
                rw [page_succ] at here
                exact ⟨by omega, here⟩
      · rename_i other notTrue
        exact absurd validated (notTrue _)

/-- A number of pages of the upper half, where no page is marked for copying. -/
theorem validatePages_high {flags : BitVec 32} {n : Nat} {page : BitVec 64}
    (current : m.currentPml = root)
    (unmarked : ∀ address : BitVec 64, 0xFFFF800000000000 ≤ address.toNat →
      unmarkedAt m root address = true)
    (high : 2 ^ 52 - 2 ^ 35 ≤ page.toNat) (small : page.toNat + n ≤ 2 ^ 52)
    (validated : validatePages root flags n page m = some (true, m')) :
    m' = m ∧ ∀ j < n, PageChecked m root flags (page + BitVec.ofNat 64 j) := by
  induction n generalizing page with
  | zero =>
      cases validated
      exact ⟨rfl, fun j inside => absurd inside (Nat.not_lt_zero j)⟩
  | succ n inductionHypothesis =>
      unfold validatePages at validated
      split at validated
      · rename_i m₁ first
        have step : m₁ = m ∧ PageChecked m root flags page := by
          rcases (validatePage_true (by omega) first).2 with same | resolved
          · exact same
          · have notMarked := unmarked (page <<< 12) (page_high (by omega) high)
            rw [← current] at notMarked
            cases (mmuCopyOnWrite_of_unmarked notMarked resolved).1
        obtain ⟨rfl, checkedFirst⟩ := step
        have next : (page + 1).toNat = page.toNat + 1 := page_add (j := 1) (by omega)
        obtain ⟨rfl, checked⟩ := inductionHypothesis (by omega) (by omega) validated
        refine ⟨rfl, fun j inside => ?_⟩
        cases j with
        | zero =>
            rw [BitVec.add_zero]
            exact checkedFirst
        | succ j =>
            have here := checked j (by omega)
            rw [page_succ] at here
            exact here
      · rename_i other notTrue
        exact absurd validated (notTrue _)

/-! ## The range -/

/-- Every byte of the range has an address, and lies in a page that is present and accessible, and
writable if the flags ask for it. -/
def RangeChecked (m : Mmu) (root : Nat) (addr size : BitVec 64) (flags : BitVec 32) : Prop :=
  ∀ k < size.toNat, addr.toNat + k < 2 ^ 64 ∧ Canonical (addr + BitVec.ofNat 64 k) ∧
    ∃ e, userEntry m root (addr + BitVec.ofNat 64 k) = some e ∧
      (hasFlag flags mmuPtrWrite = true → e.writable = true)

/-- A range that is not empty and was accepted is checked after the call. -/
def ValidationSound (m : Mmu) (root : Nat) (addr size : BitVec 64) (flags : BitVec 32) : Prop :=
  ∀ m', mmuValidateUser m root addr size flags = some (true, m') → 0 < size.toNat →
    RangeChecked m' root addr size flags

theorem rangeEnd_toNat {addr size : BitVec 64} (positive : 0 < size.toNat) :
    (rangeEnd addr size).toNat = (addr.toNat + (size.toNat - 1)) % 2 ^ 64 := by
  have nonzero : size ≠ 0 := by
    rintro rfl
    exact absurd positive (Nat.lt_irrefl 0)
  have one : (1 : BitVec 64).toNat = 1 := rfl
  rw [rangeEnd, if_neg nonzero, BitVec.toNat_add, BitVec.toNat_sub, one]
  have bound := size.isLt
  omega

/-- The pages of the range are those of its bytes. -/
theorem RangeChecked.of_pages {addr size : BitVec 64} {flags : BitVec 32} {n : Nat}
    (inside : addr.toNat + (size.toNat - 1) < 2 ^ 64) (positive : 0 < size.toNat)
    (count : n = (addr.toNat + (size.toNat - 1)) / 4096 + 1 - addr.toNat / 4096)
    (pages : ∀ j < n, (addr.toNat / 4096 + j < 2 ^ 35 ∨ 2 ^ 52 - 2 ^ 35 ≤ addr.toNat / 4096 + j) ∧
      PageChecked m root flags (addr >>> 12 + BitVec.ofNat 64 j)) :
    RangeChecked m root addr size flags := by
  intro k isByte
  have base : (addr >>> 12).toNat = addr.toNat / 4096 := by
    rw [BitVec.toNat_ushiftRight, Nat.shiftRight_eq_div_pow]
  have here : (addr + BitVec.ofNat 64 k).toNat = addr.toNat + k := page_add (by omega)
  have bound := addr.isLt
  obtain ⟨half, e, maps, writable⟩ :=
    pages ((addr.toNat + k) / 4096 - addr.toNat / 4096) (by omega)
  refine ⟨by omega, ?_, e, ?_, writable⟩
  · rw [Canonical, here]
    omega
  · rw [← maps]
    refine userEntry_page m root ?_
    rw [here, page_add (by omega), base]
    omega

/-- A range that ends before the address space does. -/
theorem ValidationSound.of_inside {addr size : BitVec 64} {flags : BitVec 32}
    (tables : Tables m {root}) (current : m.currentPml = root)
    (unmarked : ∀ address : BitVec 64, 0xFFFF800000000000 ≤ address.toNat →
      unmarkedAt m root address = true)
    (inside : addr.toNat + (size.toNat - 1) < 2 ^ 64) : ValidationSound m root addr size flags := by
  intro m' validated positive
  have base : (addr >>> 12).toNat = addr.toNat / 4096 := by
    rw [BitVec.toNat_ushiftRight, Nat.shiftRight_eq_div_pow]
  have last : (rangeEnd addr size >>> 12).toNat = (addr.toNat + (size.toNat - 1)) / 4096 := by
    rw [BitVec.toNat_ushiftRight, Nat.shiftRight_eq_div_pow, rangeEnd_toNat positive,
      Nat.mod_eq_of_lt inside]
  unfold mmuValidateUser at validated
  dsimp only at validated
  split at validated
  · cases validated
  split at validated
  · cases validated
  rw [last, base] at validated
  obtain ⟨n, count⟩ : ∃ n, n = (addr.toNat + (size.toNat - 1)) / 4096 + 1 - addr.toNat / 4096 := ⟨_, rfl⟩
  rw [← count] at validated
  have bound := addr.isLt
  -- the first page decides in which half the range lies
  have half : (addr >>> 12).toNat < 2 ^ 35 ∨ 2 ^ 52 - 2 ^ 35 ≤ (addr >>> 12).toNat := by
    have first := validated
    obtain ⟨k, more⟩ : ∃ k, n = k + 1 := ⟨n - 1, by omega⟩
    rw [more, validatePages] at first
    split at first
    · rename_i m₁ accepted
      exact (validatePage_true (by omega) accepted).1
    · rename_i other notTrue
      exact absurd first (notTrue _)
  rcases half with low | high
  · obtain ⟨-, pages⟩ := validatePages_low tables current low validated
    refine .of_pages inside positive count fun j isPage => ?_
    obtain ⟨lowPage, checked⟩ := pages j isPage
    exact ⟨Or.inl (by omega), checked⟩
  · obtain ⟨rfl, pages⟩ := validatePages_high current unmarked high (by omega) validated
    exact .of_pages inside positive count fun j isPage => ⟨Or.inr (by omega), pages j isPage⟩

/-- A range over the end of the address space is accepted without a look. -/
theorem mmuValidateUser_over {addr size : BitVec 64} {flags : BitVec 32}
    (short : size.toNat ≤ 0x800000000000) (past : 2 ^ 64 ≤ addr.toNat + (size.toNat - 1)) :
    mmuValidateUser m root addr size flags = some (true, m) := by
  have bound := addr.isLt
  have nonzero : addr ≠ 0 := by
    rintro rfl
    have zero : (0 : BitVec 64).toNat = 0 := rfl
    omega
  have notLong : ¬ 0x800000000000#64 < size := by
    rw [BitVec.lt_def, not_lt]
    exact short
  have noPage : (rangeEnd addr size >>> 12).toNat + 1 - (addr >>> 12).toNat = 0 := by
    rw [BitVec.toNat_ushiftRight, BitVec.toNat_ushiftRight, Nat.shiftRight_eq_div_pow,
      Nat.shiftRight_eq_div_pow, rangeEnd_toNat (by omega)]
    omega
  unfold mmuValidateUser
  dsimp only
  rw [if_neg fun both => nonzero both.1, if_neg notLong, noPage]
  rfl

/-- What `mmu_validate_user` accepts is checked exactly if the range is too long or ends before the
address space does. -/
theorem validate_user_sound_iff {addr size : BitVec 64} {flags : BitVec 32}
    (tables : Tables m {root}) (current : m.currentPml = root)
    (unmarked : ∀ address : BitVec 64, 0xFFFF800000000000 ≤ address.toNat →
      unmarkedAt m root address = true) :
    ValidationSound m root addr size flags ↔
      0x800000000000 < size.toNat ∨ addr.toNat + (size.toNat - 1) < 2 ^ 64 := by
  constructor
  · intro sound
    by_contra neither
    push Not at neither
    have bound := addr.isLt
    have checked := sound m (mmuValidateUser_over neither.1 neither.2) (by omega)
    have overflow := (checked (size.toNat - 1) (by omega)).1
    omega
  · rintro (long | inside)
    · intro m' validated
      unfold mmuValidateUser at validated
      dsimp only at validated
      have isLong : 0x800000000000#64 < size := by
        rw [BitVec.lt_def]
        exact long
      rw [if_pos isLong] at validated
      split at validated <;> cases validated
    · exact .of_inside tables current unmarked inside

end

/-- Nothing is marked in the empty kernel half of the machine of the examples. -/
theorem onePageOf_unmarked (limit : Nat) (word : BitVec 64) (address : BitVec 64)
    (high : 0xFFFF800000000000 ≤ address.toNat) : unmarkedAt (onePageOf limit word) 1 address = true := by
  have one := onePageOf_onePage limit word
  have absent : ((onePageOf limit word).entry 1 (pml4Entry address)).present = false := by
    rw [only_absent one.root]
    · rfl
    · intro first
      have upper := pml4Entry_high high
      rw [first] at upper
      exact absurd upper (by decide)
  have missing : mmuLookupFrameFrom (onePageOf limit word) 1 address = none := by
    rw [mmuLookupFrameFrom, absent]
    rfl
  rw [unmarkedAt, missing]

theorem validate_user_sound_iff_example :
    ValidationSound (onePage 2048) 1 0x10 0x20 mmuPtrWrite ↔
      0x800000000000 < (0x20 : BitVec 64).toNat ∨
        (0x10 : BitVec 64).toNat + ((0x20 : BitVec 64).toNat - 1) < 2 ^ 64 :=
  validate_user_sound_iff
    (onePageOf_tables (by decide) (by decide)
      (.of_user (by rw [pageWord_entry.1, pageWord_entry.2.1]; rfl))).1
    rfl (onePageOf_unmarked 2048 _)

/-- Two pages from the last one on are accepted, for writing. -/
theorem validate_user_over_end : Tables (onePage 2048) {1} ∧
    ¬ ValidationSound (onePage 2048) 1 0xFFFFFFFFFFFFF000 0x2000 mmuPtrWrite := by
  refine ⟨(onePageOf_tables (by decide) (by decide)
    (.of_user (by rw [pageWord_entry.1, pageWord_entry.2.1]; rfl))).1, fun sound => ?_⟩
  have checked := sound (onePage 2048) (mmuValidateUser_over (by decide) (by decide)) (by decide)
  exact absurd (checked 0x1FFF (by decide)).1 (by decide)

end Voxel.Proofs
