/-
Module: Voxel.Proofs.UserStores
Layer: Proofs
Purpose: Loads and stores of user programs. A load depends on the page that is mapped there and on its
  words; a store, with the copy on write before it, changes one byte for one process.
Trusted boundary: none
Main exports: userRead_eq, Stored, userWrite_spec
-/
import Voxel.Kernel.Memory
import Voxel.Proofs.CopyOnWrite

namespace Voxel.Proofs

open Voxel.Kernel
open Voxel.Lib

theorem userEntry_eq (m : Mmu) (pml : Nat) (address : BitVec 64) :
    userEntry m pml address = pageAt m pml (addrPath address) := by
  rw [userEntry, mmuLookupFrameFrom_eq, addrPath, pageAt]
  cases tableAt m pml [pdEntry address, pdpEntry address, pml4Entry address] <;> rfl

theorem userRead_eq (m : Mmu) (pml : Nat) (address : BitVec 64) :
    userRead m pml address = (readAt m pml (addrPath address)).map fun words =>
      readByte (words (wordIndex address)) (byteIndex address) := by
  rw [userRead, userEntry_eq, readAt, Option.map_map]
  rfl

/-! ## Addresses of the user half -/

theorem userHalf_iff {address : BitVec 64} :
    userHalf address = true ↔ address.toNat < 0x800000000000 := by
  simp [userHalf]

theorem pageAddr_low {address : BitVec 64} (low : address.toNat < 0x800000000000) :
    pageAddr address = address.toNat / 4096 := by
  rw [pageAddr_eq, Nat.mod_eq_of_lt (by omega)]

/-- The indices of an address, as digits of its page number. -/
theorem entries_low {address : BitVec 64} (low : address.toNat < 0x800000000000) :
    (pml4Entry address).val = address.toNat / 0x8000000000 ∧
      (pdpEntry address).val = address.toNat / 0x40000000 % 512 ∧
      (pdEntry address).val = address.toNat / 0x200000 % 512 ∧
      (ptEntry address).val = address.toNat / 4096 % 512 := by
  simp only [pml4Entry, pdpEntry, pdEntry, ptEntry, pageAddr_low low, Fin.val_ofNat,
    Nat.shiftRight_eq_div_pow, Nat.div_div_eq_div_mul]
  refine ⟨?_, trivial, trivial, trivial⟩
  omega

theorem pml4Entry_low {address : BitVec 64} (low : address.toNat < 0x800000000000) :
    (pml4Entry address).val < 256 := by
  rw [(entries_low low).1]
  omega

/-- An address is its page, its word and its byte. -/
theorem address_ext {a b : BitVec 64} (lowA : a.toNat < 0x800000000000)
    (lowB : b.toNat < 0x800000000000) (page : addrPath a = addrPath b)
    (word : wordIndex a = wordIndex b) (byte : byteIndex a = byteIndex b) : a = b := by
  simp only [addrPath, List.cons.injEq, and_true, Fin.ext_iff] at page
  obtain ⟨a4, a3, a2, a1⟩ := entries_low lowA
  obtain ⟨b4, b3, b2, b1⟩ := entries_low lowB
  rw [a1, b1, a2, b2, a3, b3, a4, b4] at page
  have words := congrArg Fin.val word
  simp only [wordIndex, Fin.val_ofNat] at words
  simp only [byteIndex] at byte
  apply BitVec.eq_of_toNat_eq
  omega

section

variable {strict : Prop} {live : Set Nat} {m m' : Mmu} {root : Nat} {address : BitVec 64}
  {value : BitVec 8}

/-- A process becomes the current one. -/
theorem AddressSpaces.setCurrent (spaces : AddressSpaces strict m live) (pml : Nat) :
    AddressSpaces strict { m with currentPml := pml } live :=
  (@AddressSpaces.content _ m { m with currentPml := pml } _ spaces rfl rfl fun _ _ => rfl).1

/-- One byte of one process was written. -/
structure Stored (strict : Prop) (live : Set Nat) (root : Nat) (address : BitVec 64)
    (value : BitVec 8) (m m' : Mmu) : Prop where
  spaces : AddressSpaces strict m' live
  nFrames : m'.frames.nFrames = m.frames.nFrames
  writable : ∃ e, pageAt m' root (addrPath address) = some e ∧ e.writable = true
  here : ∃ words, readAt m root (addrPath address) = some words ∧
    readAt m' root (addrPath address) = some (Function.update words (wordIndex address)
      (writeByte (words (wordIndex address)) (byteIndex address) value))
  elsewhere : ∀ root' ∈ live, ∀ v, UserPage v → (root', v) ≠ (root, addrPath address) →
    readAt m' root' v = readAt m root' v
  kernel : ∀ root' ∈ live, ∀ v, UserPage v → KernelAt m' root' v → KernelAt m root' v

/-- The store itself, into a writable page. -/
theorem storeByte_spec (spaces : AddressSpaces strict m live) (member : root ∈ live)
    (low : (pml4Entry address).val < 256) {e : PagemapEntry}
    (maps : pageAt m root (addrPath address) = some e) (writable : e.writable = true) :
    Stored strict live root address value m (storeByte m e.page.toNat address value) := by
  have page := addrPath_user low
  have mapsOld := pagesOf_of_page member page maps
  have noTable : ¬ IsTable m live e.page.toNat := (spaces.mapped _ _ mapsOld).2.2.2
  have words : ∀ t, t ≠ e.page.toNat → (storeByte m e.page.toNat address value).phys t = m.phys t :=
    fun t other => setWord_phys_frame m _ other
  obtain ⟨spaces', walks, pages⟩ := @AddressSpaces.content _ _
    (storeByte m e.page.toNat address value) _ spaces rfl rfl fun t isTable =>
      words t fun same => noTable (same ▸ isTable)
  have here : (storeByte m e.page.toNat address value).phys e.page.toNat =
      Function.update (m.phys e.page.toNat) (wordIndex address)
        (writeByte (m.phys e.page.toNat (wordIndex address)) (byteIndex address) value) := by
    simp [storeByte, Mmu.setWord]
  refine ⟨spaces', rfl, ⟨e, (pages root member _ page).trans maps, writable⟩,
    ⟨m.phys e.page.toNat, by rw [readAt, maps]; rfl, ?_⟩, ?_, ?_⟩
  · rw [readAt, pages root member _ page, maps, Option.map_some, here]
  · intro root' member' v page' different
    rw [readAt, pages root' member' v page', readAt]
    cases maps' : pageAt m root' v with
    | none => rfl
    | some e' =>
        -- a writable page has its frame for itself
        have other : e'.page.toNat ≠ e.page.toNat := fun same => different
          ((spaces.counted.alone_of_writable mapsOld writable).2 _ _
            (pagesOf_of_page member' page' maps') same)
        rw [Option.map_some, Option.map_some, words _ other]
  · intro root' member' v page' kernel
    cases v with
    | nil => exact kernel
    | cons l q =>
        obtain ⟨t, at_, present, notUser⟩ := kernel
        rw [walks root' member' q page'.table.1] at at_
        have isTable : IsTable m live t := ⟨root', member', q, page'.table.1, at_⟩
        have word := congrFun (words t fun same => noTable (same ▸ isTable)) l
        rw [entry_congr word] at present notUser
        exact ⟨t, at_, present, notUser⟩

/-- A store of user code, with the page fault before it. -/
theorem userWrite_spec (spaces : AddressSpaces strict m live) (member : root ∈ live)
    (low : (pml4Entry address).val < 256) (wrote : userWrite m root address value = some m') :
    Stored strict live root address value m m' := by
  have page := addrPath_user low
  unfold userWrite at wrote
  split at wrote
  · cases wrote
  rename_i e found
  rw [userEntry_eq] at found
  split at wrote
  · cases wrote
  rename_i resolved faulted
  split at wrote
  · cases wrote
  rename_i e' found'
  rw [userEntry_eq] at found'
  cases wrote
  unfold writeFault at faulted
  split at faulted
  · rename_i writable
    cases faulted
    rw [found] at found'
    cases found'
    exact storeByte_spec spaces member low found writable
  · rename_i readonly
    split at faulted
    · rename_i m1 cowEq
      cases faulted
      have same := fun root' v =>
        @walks_of_phys m { m with currentPml := root } rfl root' v
      obtain ⟨quiet, -, success⟩ := mmuCopyOnWrite_spec (spaces.setCurrent root) member low (by
        intro e'' maps writable
        rw [(same _ _).2.1] at maps
        rw [show e'' = e from Option.some.inj (maps.symm.trans found)] at writable
        exact absurd writable readonly) cowEq
      obtain ⟨e'', maps, writable⟩ := success rfl
      have isSame : e'' = e' := Option.some.inj (maps.symm.trans found')
      rw [isSame] at maps writable
      have stored := @storeByte_spec _ _ _ _ _ value quiet.spaces member low _ maps writable
      have reads : ∀ root' ∈ live, ∀ v, UserPage v → readAt resolved root' v = readAt m root' v :=
        fun root' member' v page' =>
          (quiet.reads root' member' v page').trans (same root' v).2.2
      refine ⟨stored.spaces, stored.nFrames.trans quiet.nFrames, stored.writable, ?_, ?_, ?_⟩
      · obtain ⟨words, old, new⟩ := stored.here
        exact ⟨words, (reads root member _ page).symm.trans old, new⟩
      · intro root' member' v page' different
        rw [stored.elsewhere root' member' v page' different, reads root' member' v page']
      · intro root' member' v page' kernel
        have back := quiet.kernel root' member' v page' (stored.kernel root' member' v page' kernel)
        cases v with
        | nil => exact back
        | cons l q =>
            obtain ⟨t, at_, rest⟩ := back
            exact ⟨t, by rwa [(same root' q).1] at at_, rest⟩
    · cases faulted

/-- A store to a mapped page is performed whenever a frame is free. -/
theorem userWrite_total (spaces : AddressSpaces strict m live) (member : root ∈ live)
    (low : (pml4Entry address).val < 256) (mapped : userRead m root address ≠ none)
    (available : m.requestFrame ≠ none) (value : BitVec 8) :
    ∃ m', userWrite m root address value = some m' := by
  obtain ⟨byte, read⟩ := Option.ne_none_iff_exists'.mp mapped
  obtain ⟨e, found, -⟩ := Option.map_eq_some_iff.mp read
  have maps := found
  rw [userEntry_eq] at maps
  rw [userWrite, found]
  dsimp only
  rw [writeFault]
  by_cases writable : e.writable = true
  · rw [if_pos writable]
    dsimp only
    rw [found]
    exact ⟨_, rfl⟩
  · have same := fun v => @walks_of_phys m { m with currentPml := root } rfl root v
    have readonly : e.writable = false := by simpa using writable
    have started := spaces.setCurrent root
    obtain ⟨m1, resolved⟩ := mmuCopyOnWrite_total started member low
      ((same _).2.1.trans maps) readonly (requestFrame_available (m := m) rfl available)
    obtain ⟨-, -, success⟩ := mmuCopyOnWrite_spec started member low (by
      intro e' maps' writable'
      rw [(same _).2.1] at maps'
      rw [show e' = e from Option.some.inj (maps'.symm.trans maps)] at writable'
      exact absurd writable' writable) resolved
    obtain ⟨e', maps', -⟩ := success rfl
    rw [if_neg writable, resolved]
    dsimp only
    rw [userEntry_eq, show pageAt m1 root (addrPath address) = some e' from maps']
    exact ⟨_, rfl⟩

end

end Voxel.Proofs
