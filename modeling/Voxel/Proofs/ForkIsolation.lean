/-
Module: Voxel.Proofs.ForkIsolation
Layer: Proofs
Purpose: What fork and copy on write are for: every process has a memory of its own. The abstract
  machine is one memory of bytes for each process, copied by a fork and written by its owner alone; the
  pages, counts and page faults of the kernel follow it as long as a count cannot be full.
Trusted boundary: none
Main exports: PrivateMemory, PrivateMemory.apply, fork_isolation
-/
import Voxel.Proofs.RefCounts

namespace Voxel.Proofs

open Voxel.Kernel
open Voxel.Lib

/-! ## The abstract machine -/

/-- What each process reads at its addresses. -/
abbrev PrivateMemory := Nat → BitVec 64 → Option (BitVec 8)

/-- The meaning of an operation: a fork copies, a store changes one byte of one process. -/
def PrivateMemory.apply (memory : PrivateMemory) : MemoryOp → PrivateMemory
  | .fork parent child => Function.update memory child (memory parent)
  | .write root address value =>
      Function.update memory root (Function.update (memory root) address (some value))
  | .copyOnWrite _ _ => memory
  | .map _ _ _ => memory
  | .exit _ => memory

/-- The process that performs an operation. -/
def actor : MemoryOp → Nat
  | .fork parent _ => parent
  | .copyOnWrite root _ => root
  | .write root _ _ => root
  | .map root _ _ => root
  | .exit root => root

/-- Fewer than 255 address spaces are alive, and the operation maps no new page. -/
def Few (s : Memory) : MemoryOp → Prop
  | .map _ _ _ => False
  | _ => s.live.card < 255

/-- With few address spaces no count is full. -/
theorem Few.cloneable {s t : Memory} {op : MemoryOp} (spaces : AddressSpaces True s.mmu s.live)
    (few : Few s op) (stepped : s.step op = some t) : Cloneable s op := by
  cases op with
  | fork parent child =>
      obtain ⟨member, -⟩ := Memory.fork_eq_some.mp stepped
      intro v page e maps readonly full
      have bound := spaces.counted.count_le_roots
        (@pagesOf_of_page _ s.live _ _ _ member page maps) readonly
        (fun key mapping found => (pagesOf_eq_some.mp found).1)
      have count : refsOf s.mmu (mappingOf e).frame = 255 := congrArg BitVec.toNat full
      have small : s.live.card < 255 := few
      rw [Set.encard_coe_eq_coe_finsetCard, count, Nat.cast_le] at bound
      omega
  | _ => exact trivial

/-! ## The kernel follows -/

/-- Every live process reads what its private memory holds. -/
def Follows (s : Memory) (memory : PrivateMemory) : Prop :=
  ∀ root ∈ s.live, ∀ address, address.toNat < 0x800000000000 →
    userRead s.mmu root address = memory root address

theorem userRead_congr {m m' : Mmu} {root root' : Nat} {address : BitVec 64}
    (same : readAt m' root' (addrPath address) = readAt m root (addrPath address)) :
    userRead m' root' address = userRead m root address := by
  rw [userRead_eq, userRead_eq, same]

/-- What one process reads after a store of it. -/
theorem Stored.userRead {strict : Prop} {live : Set Nat} {root : Nat} {address : BitVec 64}
    {value : BitVec 8} {m m' : Mmu} (stored : Stored strict live root address value m m')
    (low : address.toNat < 0x800000000000) {root' : Nat} (member : root' ∈ live) {a : BitVec 64}
    (lowA : a.toNat < 0x800000000000) :
    userRead m' root' a = if root' = root ∧ a = address then some value else userRead m root' a := by
  by_cases here : (root', addrPath a) = (root, addrPath address)
  · obtain ⟨rfl, samePage⟩ := Prod.mk.inj here
    obtain ⟨words, old, new⟩ := stored.here
    rw [userRead_eq, userRead_eq, samePage, old, new, Option.map_some, Option.map_some]
    by_cases sameWord : wordIndex a = wordIndex address
    · rw [sameWord, Function.update_self]
      have inside : byteIndex a < 8 := Nat.mod_lt _ (by decide)
      by_cases sameByte : byteIndex a = byteIndex address
      · rw [if_pos ⟨rfl, address_ext lowA low samePage sameWord sameByte⟩, sameByte,
          readByte_writeByte_self _ (sameByte ▸ inside)]
      · have different : a ≠ address := fun same => sameByte (by rw [same])
        rw [if_neg fun both => different both.2, readByte_writeByte_of_ne _ sameByte inside]
    · have different : a ≠ address := fun same => sameWord (by rw [same])
      rw [if_neg fun both => different both.2, Function.update_of_ne sameWord]
  · rw [if_neg fun both => here (by rw [both.1, both.2]),
      userRead_congr (stored.elsewhere root' member _ (addrPath_user (pml4Entry_low lowA)) here)]

/-- One operation of the kernel, and of the private memories. -/
theorem Memory.step_follows {s t : Memory} {op : MemoryOp} {memory : PrivateMemory}
    (few : Few s op) (stepped : s.step op = some t)
    (related : AddressSpaces True s.mmu s.live ∧ Follows s memory) :
    AddressSpaces True t.mmu t.live ∧ Follows t (memory.apply op) := by
  obtain ⟨spaces, follows⟩ := related
  have cloneable := few.cloneable spaces stepped
  refine ⟨Memory.step_spaces spaces cloneable stepped, ?_⟩
  cases op with
  | fork parent child =>
      obtain ⟨member, m, cloned, rfl⟩ := Memory.fork_eq_some.mp stepped
      have spec := mmuClone_spec spaces member cloneable.unsaturated cloned
      intro root isLive address low
      have page := addrPath_user (pml4Entry_low low)
      rw [PrivateMemory.apply]
      by_cases isChild : root = child
      · subst isChild
        rw [Function.update_self, ← follows parent member address low]
        exact userRead_congr (spec.copied trivial _ page)
      · have old : root ∈ s.live := (Finset.mem_insert.mp isLive).resolve_left isChild
        rw [Function.update_of_ne isChild, ← follows root old address low]
        exact userRead_congr (spec.reads root old _ page)
  | copyOnWrite root address =>
      obtain ⟨member, place, failed, m, faulted, rfl⟩ := Memory.copyOnWrite_eq_some.mp stepped
      have same := fun root' v => (@walks_of_phys s.mmu
          { s.mmu with currentPml := root } rfl root' v).2.2
      intro root' isLive address' low
      rw [PrivateMemory.apply, ← follows root' isLive address' low]
      refine userRead_congr ?_
      by_cases half : (pml4Entry address).val < 256
      · have quiet := (mmuCopyOnWrite_spec (spaces.setCurrent root) member half
          (fun _ _ _ => trivial) faulted).1
        exact (quiet.reads root' isLive _ (addrPath_user (pml4Entry_low low))).trans (same root' _)
      · have unmarked := place.resolve_left fun inHalf =>
          half (pml4Entry_low (userHalf_iff.mp inHalf))
        rw [(mmuCopyOnWrite_of_unmarked unmarked faulted).2]
        exact same root' _
  | write root address value =>
      obtain ⟨member, half, m, wrote, rfl⟩ := Memory.write_eq_some.mp stepped
      have low := userHalf_iff.mp half
      have stored := userWrite_spec spaces member (pml4Entry_low low) wrote
      intro root' isLive address' low'
      rw [stored.userRead low isLive low', PrivateMemory.apply]
      by_cases isRoot : root' = root
      · subst isRoot
        rw [Function.update_self]
        by_cases isAddress : address' = address
        · rw [isAddress, Function.update_self, if_pos ⟨rfl, rfl⟩]
        · rw [Function.update_of_ne isAddress, if_neg fun both => isAddress both.2]
          exact follows root' isLive address' low'
      · rw [Function.update_of_ne isRoot, if_neg fun both => isRoot both.1]
        exact follows root' isLive address' low'
  | map root address flags => exact few.elim
  | exit root =>
      obtain ⟨member, rfl⟩ := Memory.exit_eq_some.mp stepped
      have phys := (mmuFree_spec spaces member).2.1
      intro root' isLive address low
      rw [PrivateMemory.apply, ← follows root' (Finset.mem_of_mem_erase isLive) address low]
      exact userRead_congr (walks_of_phys phys root' _).2.2

/-- An operation leaves the private memory of everybody but its actor and a new child alone. -/
theorem PrivateMemory.apply_other (memory : PrivateMemory) {op : MemoryOp} {root : Nat}
    (other : root ≠ actor op) (old : ∀ parent, op ≠ .fork parent root) :
    memory.apply op root = memory root := by
  cases op with
  | fork parent child =>
      refine Function.update_of_ne ?_ _ _
      rintro rfl
      exact old parent rfl
  | write r address value => exact Function.update_of_ne other _ _
  | _ => rfl

/-- Fork isolation: after any run every process reads at its addresses what the private memories hold,
the next operation changes nothing for a process that does not perform it, and a store to a mapped
address goes through while a frame is free. -/
theorem fork_isolation {m : Mmu} {root : Nat} {t : Memory} {ops : List MemoryOp}
    (start : PrivateStart m root) (run : Run Memory.step Few ⟨m, {root}⟩ ops t) :
    (∀ r ∈ t.live, ∀ address, address.toNat < 0x800000000000 →
      userRead t.mmu r address = ops.foldl PrivateMemory.apply (fun _ => userRead m root) r address) ∧
    (∀ op t', Few t op → t.step op = some t' → ∀ r ∈ t.live, r ∈ t'.live → r ≠ actor op →
      ∀ address, address.toNat < 0x800000000000 →
        userRead t'.mmu r address = userRead t.mmu r address) ∧
    ∀ r ∈ t.live, ∀ address value, address.toNat < 0x800000000000 →
      userRead t.mmu r address ≠ none → t.mmu.requestFrame ≠ none →
        t.step (.write r address value) ≠ none := by
  have initially : AddressSpaces True m (({root} : Finset Nat) : Set Nat) ∧
      Follows ⟨m, {root}⟩ fun _ => userRead m root := by
    refine ⟨?_, fun r isLive address _ => ?_⟩
    · rw [Finset.coe_singleton]
      exact start.spaces True
    · rw [Finset.mem_singleton.mp isLive]
  have related := @Run.simulation _ _ _ _ _ PrivateMemory.apply
    (fun s memory => AddressSpaces True s.mmu s.live ∧ Follows s memory)
    (fun s op t memory few stepped related => Memory.step_follows few stepped related)
    _ _ _ run _ initially
  refine ⟨related.2, fun op t' few stepped r isLive isLive' other address low => ?_,
    fun r isLive address value low mapped available => ?_⟩
  · have next := (Memory.step_follows few stepped related).2 r isLive' address low
    rw [next, related.2 r isLive address low, PrivateMemory.apply_other _ other]
    rintro parent rfl
    -- a fork does not reuse the root of a live process
    obtain ⟨member, m', cloned, -⟩ := Memory.fork_eq_some.mp stepped
    exact (mmuClone_spec related.1 member (few.cloneable related.1 stepped).unsaturated cloned).fresh
      isLive
  · obtain ⟨m', wrote⟩ :=
      userWrite_total related.1 isLive (pml4Entry_low low) mapped available value
    have stepped : t.step (.write r address value) = some { t with mmu := m' } :=
      Memory.write_eq_some.mpr ⟨isLive, userHalf_iff.mpr low, m', wrote, rfl⟩
    rw [stepped]
    exact Option.some_ne_none _

/-- A fork and a store of the child: the parent keeps its byte. -/
theorem fork_isolation_example : ∃ t,
    Run Memory.step Few ⟨onePage 2048, {1}⟩ [.fork 1 6, .write 6 8 7] t ∧
      userRead t.mmu 6 8 = some 7 ∧ userRead t.mmu 1 8 = some 0 := by
  have start : PrivateStart (onePage 2048) 1 := onePage_start (by decide) (by decide)
  have startRead : userRead (onePage 2048) 1 8 = some 0 := by decide
  obtain ⟨m, cloned, forked, -⟩ := fork_first
  have first : Run Memory.step Few ⟨onePage 2048, {1}⟩ [.fork 1 6] ⟨m, insert 6 {1}⟩ :=
    run_fork (show ({1} : Finset Nat).card < 255 by decide) (Finset.mem_singleton_self 1) cloned
  obtain ⟨reads, -, performed⟩ := fork_isolation start first
  have childRead : userRead m 6 8 = some 0 :=
    (reads 6 (Finset.mem_insert_self _ _) 8 (by decide)).trans startRead
  have available : m.requestFrame ≠ none := by
    rw [Mmu.requestFrame, forked.frames, mmuRequestFrame_usedBelow (by decide)]
    exact Option.some_ne_none _
  obtain ⟨t, wrote⟩ := Option.ne_none_iff_exists'.mp (performed 6 (Finset.mem_insert_self _ _) 8 7
    (by decide) (by rw [childRead]; exact Option.some_ne_none _) available)
  have few : Few ⟨m, insert 6 {1}⟩ (.write 6 8 7) :=
    (by decide : (insert 6 {1} : Finset Nat).card < 255)
  have run := first.trans (Run.single few wrote)
  obtain ⟨-, -, m', -, rfl⟩ := Memory.write_eq_some.mp wrote
  obtain ⟨reads', -⟩ := fork_isolation start run
  refine ⟨_, run, ?_, ?_⟩
  · rw [reads' 6 (Finset.mem_insert_self _ _) 8 (by decide)]
    rfl
  · rw [reads' 1 (Finset.mem_insert_of_mem (Finset.mem_singleton_self 1)) 8 (by decide)]
    exact startRead

end Voxel.Proofs
