/-
Module: Voxel.Kernel.Memory
Layer: Kernel
Purpose: The memory of all processes as a machine. A step is one of the operations of
  `kernel/cpu/mmu.c` on a live address space, or a store of a user program, which the processor
  performs after the page fault handler made the page writable. A step that finds no free frame, or
  that faults, is not taken. The processor's translation cache and its accessed bits are left out. Then
  how the kernel looks at a pointer that a user program passes: `mmu_validate_user`, which walks over the
  pages of a range, and `validate_ptr` of `kernel/sys/syscall.c`.
Trusted boundary: human-reviewed spec
Main exports: Memory, MemoryOp, Memory.step, userRead, userWrite, mmuValidateUser, validatePtr
-/
import Mathlib.Data.Finset.Erase
import Mathlib.Data.Finset.Insert
import Voxel.Kernel.Mmu

namespace Voxel.Kernel

open Voxel.Lib

/-! ## What the processor does for a user program -/

/-- The word of its page in which an address lies. -/
def wordIndex (address : BitVec 64) : Fin 512 := Fin.ofNat 512 (address.toNat / 8)

/-- The place of an address in its word. -/
def byteIndex (address : BitVec 64) : Nat := address.toNat % 8

/-- The page entry through which user code reaches an address. -/
def userEntry (m : Mmu) (pml : Nat) (address : BitVec 64) : Option PagemapEntry :=
  match mmuLookupFrameFrom m pml address with
  | none => none
  | some (table, i) =>
      if (m.entry table i).present && (m.entry table i).user then some (m.entry table i) else none

/-- The byte user code reads at an address; `none` is a page fault. -/
def userRead (m : Mmu) (pml : Nat) (address : BitVec 64) : Option (BitVec 8) :=
  (userEntry m pml address).map fun e =>
    readByte (m.phys e.page.toNat (wordIndex address)) (byteIndex address)

/-- Store a byte in a frame. -/
def storeByte (m : Mmu) (frame : Nat) (address : BitVec 64) (value : BitVec 8) : Mmu :=
  m.setWord frame (wordIndex address)
    (writeByte (m.phys frame (wordIndex address)) (byteIndex address) value)

/-- The page fault handler on a write to a present page: nothing to do, or a copy on write. The result
is the state in which the store is repeated. -/
def writeFault (m : Mmu) (pml : Nat) (address : BitVec 64) (e : PagemapEntry) : Option Mmu :=
  if e.writable then some m
  else
    match mmuCopyOnWrite { m with currentPml := pml } address with
    | some (false, m) => some m
    | _ => none

/-- A store of user code; `none` is a fault that is not resolved. -/
def userWrite (m : Mmu) (pml : Nat) (address : BitVec 64) (value : BitVec 8) : Option Mmu :=
  match userEntry m pml address with
  | none => none
  | some e =>
      match writeFault m pml address e with
      | none => none
      | some resolved =>
          match userEntry resolved pml address with
          | none => none
          | some e => some (storeByte resolved e.page.toNat address value)

/-! ## The machine -/

/-- The memory management and the roots of the live address spaces. -/
structure Memory where
  mmu : Mmu
  live : Finset Nat

/-- The operations, with the root of the address space they are about. A fork names its result. -/
inductive MemoryOp where
  | fork (parent child : Nat)
  | copyOnWrite (root : Nat) (address : BitVec 64)
  | write (root : Nat) (address : BitVec 64) (value : BitVec 8)
  | map (root : Nat) (address : BitVec 64) (flags : BitVec 32)
  | exit (root : Nat)
deriving DecidableEq

/-- An address of the user half. -/
def userHalf (address : BitVec 64) : Bool := address.toNat < 0x800000000000

/-- The kernel marks no page of its own half for copying. -/
def unmarkedAt (m : Mmu) (pml : Nat) (address : BitVec 64) : Bool :=
  match mmuLookupFrameFrom m pml address with
  | none => true
  | some (table, i) => !(m.entry table i).cow

namespace Memory

/-- `mmu_clone` of a live address space. -/
def fork (s : Memory) (parent child : Nat) : Option Memory :=
  if parent ∈ s.live then
    match mmuClone s.mmu (some parent) with
    | none => none
    | some (newPml, m) => if newPml = child then some ⟨m, insert child s.live⟩ else none
  else none

/-- `mmu_copy_on_write` while an address space is the current one. -/
def copyOnWrite (s : Memory) (root : Nat) (address : BitVec 64) : Option Memory :=
  if root ∈ s.live ∧ (userHalf address ∨ unmarkedAt s.mmu root address) then
    match mmuCopyOnWrite { s.mmu with currentPml := root } address with
    | none => none
    | some (_, m) => some { s with mmu := m }
  else none

/-- A store at an address of the user half. -/
def write (s : Memory) (root : Nat) (address : BitVec 64) (value : BitVec 8) : Option Memory :=
  if root ∈ s.live ∧ userHalf address then
    match userWrite s.mmu root address value with
    | none => none
    | some m => some { s with mmu := m }
  else none

/-- A fresh writable user page: `mmu_lookup_frame` with `MMU_GET_MAKE`, then `mmu_allocate_frame_ex`
on the entry, which maps nothing yet. -/
def map (s : Memory) (root : Nat) (address : BitVec 64) (flags : BitVec 32) : Option Memory :=
  if root ∈ s.live ∧ userHalf address ∧ hasFlag flags mmuFlagWritable ∧
      hasFlag flags mmuFlagKernel = false then
    match mmuLookupFrame { s.mmu with currentPml := root } address true with
    | some (some (table, i), m) =>
        if (m.entry table i).present = false ∧ m.requestFrame.isSome then
          some { s with mmu := mmuAllocateFrameEx m table i flags }
        else none
    | _ => none
  else none

/-- `mmu_free` of a live address space. -/
def exit (s : Memory) (root : Nat) : Option Memory :=
  if root ∈ s.live then some ⟨mmuFree s.mmu (some root), s.live.erase root⟩ else none

/-- One operation. -/
def step (s : Memory) : MemoryOp → Option Memory
  | .fork parent child => s.fork parent child
  | .copyOnWrite root address => s.copyOnWrite root address
  | .write root address value => s.write root address value
  | .map root address flags => s.map root address flags
  | .exit root => s.exit root

/-! ## What a step can do -/

variable {s t : Memory}

theorem fork_eq_some {parent child : Nat} :
    s.fork parent child = some t ↔ parent ∈ s.live ∧
      ∃ m, mmuClone s.mmu (some parent) = some (child, m) ∧ t = ⟨m, insert child s.live⟩ := by
  unfold fork
  split
  · rename_i member
    cases cloned : mmuClone s.mmu (some parent) with
    | none => simp
    | some made =>
        obtain ⟨newPml, m⟩ := made
        by_cases same : newPml = child
        · subst same
          simp only [if_true]
          constructor
          · rintro ⟨⟩
            exact ⟨member, m, rfl, rfl⟩
          · rintro ⟨-, m', sameResult, rfl⟩
            cases sameResult
            rfl
        · simp [same]
  · rename_i notLive
    simp [notLive]

theorem copyOnWrite_eq_some {root : Nat} {address : BitVec 64} :
    s.copyOnWrite root address = some t ↔
      root ∈ s.live ∧ (userHalf address = true ∨ unmarkedAt s.mmu root address = true) ∧
      ∃ failed m, mmuCopyOnWrite { s.mmu with currentPml := root } address = some (failed, m) ∧
        t = { s with mmu := m } := by
  unfold copyOnWrite
  split
  · rename_i allowed
    cases mmuCopyOnWrite { s.mmu with currentPml := root } address with
    | none => simp
    | some result =>
        constructor
        · rintro ⟨⟩
          exact ⟨allowed.1, allowed.2, _, _, rfl, rfl⟩
        · rintro ⟨-, -, failed, m, same, rfl⟩
          cases same
          rfl
  · rename_i notAllowed
    constructor
    · intro absurdity
      cases absurdity
    · rintro ⟨member, place, -⟩
      exact absurd ⟨member, place⟩ notAllowed

theorem write_eq_some {root : Nat} {address : BitVec 64} {value : BitVec 8} :
    s.write root address value = some t ↔ root ∈ s.live ∧ userHalf address = true ∧
      ∃ m, userWrite s.mmu root address value = some m ∧ t = { s with mmu := m } := by
  unfold write
  split
  · rename_i allowed
    cases userWrite s.mmu root address value with
    | none => simp
    | some m =>
        constructor
        · rintro ⟨⟩
          exact ⟨allowed.1, allowed.2, m, rfl, rfl⟩
        · rintro ⟨-, -, m', same, rfl⟩
          cases same
          rfl
  · rename_i notAllowed
    constructor
    · intro absurdity
      cases absurdity
    · rintro ⟨member, place, -⟩
      exact absurd ⟨member, place⟩ notAllowed

theorem map_eq_some {root : Nat} {address : BitVec 64} {flags : BitVec 32} :
    s.map root address flags = some t → root ∈ s.live ∧ userHalf address = true ∧
      hasFlag flags mmuFlagWritable = true ∧ hasFlag flags mmuFlagKernel = false ∧
      ∃ table i m, mmuLookupFrame { s.mmu with currentPml := root } address true =
          some (some (table, i), m) ∧ (m.entry table i).present = false ∧ m.requestFrame ≠ none ∧
        t = { s with mmu := mmuAllocateFrameEx m table i flags } := by
  unfold map
  intro mapped
  split at mapped
  · rename_i allowed
    obtain ⟨member, place, writable, user⟩ := allowed
    split at mapped
    · rename_i table i m looked
      split at mapped
      · rename_i fresh
        cases mapped
        exact ⟨member, place, writable, user, table, i, m, looked, fresh.1,
          Option.isSome_iff_ne_none.mp fresh.2, rfl⟩
      · cases mapped
    · cases mapped
  · cases mapped

theorem exit_eq_some {root : Nat} :
    s.exit root = some t ↔ root ∈ s.live ∧
      t = ⟨mmuFree s.mmu (some root), s.live.erase root⟩ := by
  unfold exit
  split
  · rename_i member
    simpa [member] using eq_comm
  · rename_i notLive
    simp [notLive]

end Memory

/-! ## mmu_validate_user -/

/-- The `MMU_PTR_*` bits. -/
def mmuPtrNull : BitVec 32 := 1

def mmuPtrWrite : BitVec 32 := 2

/-- The page bits that a canonical address has all clear or all set. -/
def canonicalPageBits : BitVec 64 := 0xFFFF800000000

/-- The body of the loop of `mmu_validate_user`; `false` is `return 0`. The outer `none` is a copy on
write that finds no free frame. -/
def validatePage (pageDirectory : Nat) (flags : BitVec 32) (page : BitVec 64) (m : Mmu) :
    Option (Bool × Mmu) :=
  if page &&& canonicalPageBits ≠ 0 ∧ page &&& canonicalPageBits ≠ canonicalPageBits then
    some (false, m)
  else
    match mmuLookupFrameFrom m pageDirectory (page <<< 12) with
    | none => some (false, m)
    | some (table, i) =>
        if (m.entry table i).present = false then some (false, m)
        else if (m.entry table i).user = false then some (false, m)
        else if (m.entry table i).writable = false ∧ hasFlag flags mmuPtrWrite = true then
          (mmuCopyOnWrite m (page <<< 12)).map fun resolved => (!resolved.1, resolved.2)
        else some (true, m)

/-- The loop over a number of pages, from one on. -/
def validatePages (pageDirectory : Nat) (flags : BitVec 32) :
    Nat → BitVec 64 → Mmu → Option (Bool × Mmu)
  | 0, _, m => some (true, m)
  | n + 1, page, m =>
      match validatePage pageDirectory flags page m with
      | some (true, m) => validatePages pageDirectory flags n (page + 1) m
      | stopped => stopped

/-- `end`: the last byte of the range, with the overflow of the sum. -/
def rangeEnd (base size : BitVec 64) : BitVec 64 := if size = 0 then base else base + (size - 1)

/-- `mmu_validate_user`, for a process with this page directory. -/
def mmuValidateUser (m : Mmu) (pageDirectory : Nat) (addr size : BitVec 64) (flags : BitVec 32) :
    Option (Bool × Mmu) :=
  if addr = 0 ∧ hasFlag flags mmuPtrNull = false then some (false, m)
  else if 0x800000000000#64 < size then some (false, m)
  else
    let pageBase := addr >>> 12
    let pageEnd := rangeEnd addr size >>> 12
    validatePages pageDirectory flags (pageEnd.toNat + 1 - pageBase.toNat) pageBase m

/-! ## validate_ptr -/

end Voxel.Kernel
