/-
Module: Voxel.Proofs.ProcessHeap
Layer: Proofs
Purpose: The blocks that a process gets from its allocator. A call does what it should exactly if its size,
  with the header and the rounding, is a 64-bit number, and if a block that is resized is not null.
Trusted boundary: none
Main exports: Block, AllocState, AllocCall, AllocCall.Meets, AllocCall.Fits, AllocSound,
  allocation_contract_iff
-/
import Mathlib.Data.List.Pairwise
import Mathlib.Logic.Function.Basic
import Voxel.Lib.Run
import Voxel.Libc.Malloc

namespace Voxel.Proofs

open Voxel.Lib Voxel.Libc

/-! ## Calls -/

/-- A block that the program has: the pointer and the size that was asked for. -/
structure Block where
  ptr : BitVec 64
  size : Nat

/-- The heap with the blocks of the program. -/
structure AllocState where
  heap : ProcessHeap
  live : List Block

/-- The calls, with what `sbrk` finds in the memory that it maps; and a store of the program. -/
inductive AllocCall
  | malloc (fresh : ByteMemory) (size : BitVec 64)
  | calloc (fresh : ByteMemory) (size nmemb : BitVec 64)
  | realloc (fresh : ByteMemory) (ptr size : BitVec 64)
  | free (ptr : BitVec 64)
  | store (ptr : BitVec 64) (i : Nat) (byte : BitVec 8)

/-- The blocks without the one at a pointer. -/
def without (ptr : BitVec 64) (live : List Block) : List Block := live.filter fun b => b.ptr ≠ ptr

/-- The blocks with a new one, unless it is null. -/
def withBlock (ptr : BitVec 64) (size : Nat) (live : List Block) : List Block :=
  if ptr = 0 then live else ⟨ptr, size⟩ :: live

/-- The state after a call. -/
def AllocCall.step (s : AllocState) : AllocCall → Option AllocState
  | .malloc fresh size =>
      (Libc.malloc fresh s.heap size).map fun done => ⟨done.2, withBlock done.1 size.toNat s.live⟩
  | .calloc fresh size nmemb =>
      (Libc.calloc fresh s.heap size nmemb).map fun done =>
        ⟨done.2, withBlock done.1 (size.toNat * nmemb.toNat) s.live⟩
  | .realloc fresh ptr size =>
      (Libc.realloc fresh s.heap ptr size).map fun done =>
        ⟨done.2, withBlock done.1 size.toNat (without ptr s.live)⟩
  | .free ptr => some ⟨Libc.free s.heap ptr, without ptr s.live⟩
  | .store ptr i byte =>
      some { s with
        heap := { s.heap with mem := Function.update s.heap.mem (ptr + BitVec.ofNat 64 i) byte } }

/-- A pointer that the program may pass: null or one of its blocks. -/
def Passable (ptr : BitVec 64) (live : List Block) : Prop := ptr = 0 ∨ ∃ b ∈ live, b.ptr = ptr

/-- The program passes its own pointers and stores into its own blocks. -/
def AllocCall.Valid (s : AllocState) : AllocCall → Prop
  | .malloc _ _ => True
  | .calloc _ _ _ => True
  | .realloc _ ptr _ => Passable ptr s.live
  | .free ptr => Passable ptr s.live
  | .store ptr i _ => ∃ b ∈ s.live, b.ptr = ptr ∧ i < b.size

/-- `sbrk` can do what the call asks of it. -/
def AllocCall.SbrkMaps (s : AllocState) : AllocCall → Prop
  | .malloc _ size => s.heap.brk + (requestSize size).toNat ≤ 2 ^ 64
  | .calloc _ size nmemb => s.heap.brk + (requestSize (size * nmemb)).toNat ≤ 2 ^ 64
  | .realloc _ _ size => s.heap.brk + (requestSize size).toNat ≤ 2 ^ 64
  | .free _ => True
  | .store _ _ _ => True

/-! ## The contract -/

/-- A result for a request of `n` bytes beside other blocks: null, or `n` mapped bytes apart from them. A
request that the addresses behind the break do not suffice for gets null. -/
def Answers (s : AllocState) (h : ProcessHeap) (others : List Block) (ptr : BitVec 64) (n : Nat) : Prop :=
  (ptr ≠ 0 → h.Maps ptr n ∧
    ∀ b ∈ others, ptr.toNat + n ≤ b.ptr.toNat ∨ b.ptr.toNat + b.size ≤ ptr.toNat) ∧
  (2 ^ 64 < s.heap.brk + n → ptr = 0)

/-- What a call must do. -/
def AllocCall.Meets (s : AllocState) : AllocCall → Prop
  | .malloc fresh size => ∃ ptr h, Libc.malloc fresh s.heap size = some (ptr, h) ∧
      Answers s h s.live ptr size.toNat
  | .calloc fresh size nmemb => ∃ ptr h, Libc.calloc fresh s.heap size nmemb = some (ptr, h) ∧
      Answers s h s.live ptr (size.toNat * nmemb.toNat) ∧
      (ptr ≠ 0 → ∀ i < size.toNat * nmemb.toNat, h.mem (ptr + BitVec.ofNat 64 i) = 0)
  | .realloc fresh ptr size =>
      (ptr = 0 → Libc.realloc fresh s.heap ptr size = Libc.malloc fresh s.heap size) ∧
      ∀ b ∈ s.live, b.ptr = ptr → ∃ newptr h, Libc.realloc fresh s.heap ptr size = some (newptr, h) ∧
        Answers s h (without ptr s.live) newptr size.toNat ∧
        (newptr ≠ 0 → ∀ i < min b.size size.toNat,
          h.mem (newptr + BitVec.ofNat 64 i) = s.heap.mem (ptr + BitVec.ofNat 64 i))
  | .free _ => True
  | .store _ _ _ => True

/-- The size with its header and rounding is a 64-bit number; and a resized block is not null. -/
def AllocCall.Fits : AllocCall → Prop
  | .malloc _ size => size.toNat + 4104 ≤ 2 ^ 64
  | .calloc _ size nmemb => size.toNat * nmemb.toNat + 4104 ≤ 2 ^ 64
  | .realloc _ ptr size => ptr ≠ 0 ∧ size.toNat + 4104 ≤ 2 ^ 64
  | .free _ => True
  | .store _ _ _ => True

instance AllocCall.decidableSbrkMaps (s : AllocState) : (call : AllocCall) → Decidable (call.SbrkMaps s)
  | .malloc _ _ => inferInstanceAs (Decidable (_ ≤ _))
  | .calloc _ _ _ => inferInstanceAs (Decidable (_ ≤ _))
  | .realloc _ _ _ => inferInstanceAs (Decidable (_ ≤ _))
  | .free _ => inferInstanceAs (Decidable True)
  | .store _ _ _ => inferInstanceAs (Decidable True)

instance AllocCall.decidableFits : (call : AllocCall) → Decidable call.Fits
  | .malloc _ _ => inferInstanceAs (Decidable (_ ≤ _))
  | .calloc _ _ _ => inferInstanceAs (Decidable (_ ≤ _))
  | .realloc _ _ _ => inferInstanceAs (Decidable (_ ∧ _))
  | .free _ => inferInstanceAs (Decidable True)
  | .store _ _ _ => inferInstanceAs (Decidable True)

/-! ## malloc -/

/-- A size that fits is asked for with its header; one that does not wraps around to next to nothing. -/
theorem requestSize_cases (size : BitVec 64) :
    (size.toNat + 4104 ≤ 2 ^ 64 ∧ size.toNat + 8 ≤ (requestSize size).toNat ∧
      4096 ≤ (requestSize size).toNat) ∨
    (2 ^ 64 < size.toNat + 4104 ∧ (requestSize size = 0 ∨ requestSize size = 0x1000)) := by
  have sum : (size + 8).toNat = (size.toNat + 8) % 2 ^ 64 := BitVec.toNat_add size 8
  have rest : ((size + 8) % 0x1000).toNat = (size + 8).toNat % 4096 := BitVec.toNat_umod
  unfold requestSize
  dsimp only
  generalize (size + 8) % 0x1000 = remainder at rest ⊢
  generalize size + 8 = total at sum rest ⊢
  split <;> bv_omega

/-- A block was cut from the fresh bytes, with its size in front. -/
structure Allocated (h h' : ProcessHeap) (ptr size : BitVec 64) : Prop where
  place : ptr.toNat = h.brk + 8
  start : h'.start = h.start
  brk : h'.brk = h.brk + (requestSize size).toNat
  header : h'.mem.load (ptr - 8) 8 = size
  kept : ∀ a : BitVec 64, a.toNat < h.brk → h'.mem a = h.mem a

/-- `malloc` with a page or more from `sbrk`. -/
theorem malloc_allocates {h : ProcessHeap} {size : BitVec 64} (fresh : ByteMemory)
    (order : h.start ≤ h.brk) (room : h.brk + (requestSize size).toNat ≤ 2 ^ 64)
    (page : 4096 ≤ (requestSize size).toNat) :
    ∃ ptr h', malloc fresh h size = some (ptr, h') ∧ Allocated h h' ptr size := by
  have base : (BitVec.ofNat 64 h.brk).toNat = h.brk := by
    rw [BitVec.toNat_ofNat]
    omega
  have place : (BitVec.ofNat 64 h.brk + 8).toNat = h.brk + 8 := by
    rw [BitVec.toNat_add, base]
    change (h.brk + 8) % 2 ^ 64 = h.brk + 8
    omega
  have maps : (syscallSbrk fresh h (requestSize size)).2.Maps (BitVec.ofNat 64 h.brk) 8 := by
    refine .inr ⟨?_, ?_⟩
    · rw [base]
      exact order
    · rw [base]
      change h.brk + 8 ≤ h.brk + (requestSize size).toNat
      omega
  refine ⟨_, _, if_pos maps, place, rfl, rfl, ?_, fun a below => ?_⟩
  · rw [show BitVec.ofNat 64 h.brk + 8 - 8 = BitVec.ofNat 64 h.brk from BitVec.add_sub_cancel _ _]
    exact ByteMemory.load_store _ _ _
  · -- neither the header nor the fresh bytes are in front of the old break
    have apart : ¬ (a - BitVec.ofNat 64 h.brk).toNat < 8 := by
      rw [BitVec.toNat_sub, base]
      omega
    refine (if_neg apart).trans ?_
    exact if_neg fun behind => Nat.not_lt.mpr behind.1 below

/-- Without a page from `sbrk` there is no room for the header. -/
theorem malloc_faults {h : ProcessHeap} {size : BitVec 64} (fresh : ByteMemory) (placed : 0 < h.start)
    (top : h.brk ≤ 2 ^ 64) (nothing : requestSize size = 0) : malloc fresh h size = none := by
  refine if_neg ?_
  rintro (none_ | ⟨low, high⟩)
  · exact absurd none_ (by decide)
  · change h.start ≤ (BitVec.ofNat 64 h.brk).toNat at low
    change (BitVec.ofNat 64 h.brk).toNat + 8 ≤ h.brk + (requestSize size).toNat at high
    rw [nothing] at high
    rw [BitVec.toNat_ofNat] at low high
    change h.brk % 2 ^ 64 + 8 ≤ h.brk + 0 at high
    omega

/-- Whatever `malloc` returns was cut from the fresh bytes. -/
theorem malloc_some {h h' : ProcessHeap} {ptr size : BitVec 64} {fresh : ByteMemory} (placed : 0 < h.start)
    (order : h.start ≤ h.brk) (room : h.brk + (requestSize size).toNat ≤ 2 ^ 64)
    (allocated : malloc fresh h size = some (ptr, h')) : Allocated h h' ptr size := by
  have ofPage : 4096 ≤ (requestSize size).toNat → Allocated h h' ptr size := by
    intro page
    obtain ⟨ptr', h'', same, done⟩ := malloc_allocates fresh order room page
    cases allocated.symm.trans same
    exact done
  obtain ⟨_, _, page⟩ | ⟨_, nothing | page⟩ := requestSize_cases size
  · exact ofPage page
  · rw [malloc_faults fresh placed (by omega) nothing] at allocated
    cases allocated
  · exact ofPage (by rw [page]; decide)

/-- It is not null. -/
theorem Allocated.ptr_ne_zero {h h' : ProcessHeap} {ptr size : BitVec 64} (done : Allocated h h' ptr size) :
    ptr ≠ 0 := by
  intro null
  have place := done.place
  rw [null] at place
  change 0 = h.brk + 8 at place
  omega

/-- A request that wraps around does not get its bytes. -/
theorem Allocated.wraps {h h' : ProcessHeap} {ptr size : BitVec 64} (done : Allocated h h' ptr size)
    (large : 2 ^ 64 < size.toNat + 4104) : ¬ h'.Maps ptr size.toNat := by
  have place := done.place
  have brk := done.brk
  obtain ⟨small, _⟩ | ⟨_, nothing | page⟩ := requestSize_cases size
  · omega
  · rw [nothing] at brk
    change h'.brk = h.brk + 0 at brk
    rintro (none_ | ⟨_, high⟩) <;> omega
  · rw [page] at brk
    change h'.brk = h.brk + 4096 at brk
    rintro (none_ | ⟨_, high⟩) <;> omega

/-- A request that fits gets its bytes. -/
theorem malloc_fits {h : ProcessHeap} {size : BitVec 64} (fresh : ByteMemory)
    (order : h.start ≤ h.brk) (room : h.brk + (requestSize size).toNat ≤ 2 ^ 64)
    (fits : size.toNat + 4104 ≤ 2 ^ 64) :
    ∃ ptr h', malloc fresh h size = some (ptr, h') ∧ Allocated h h' ptr size ∧
      ptr.toNat + size.toNat ≤ h'.brk := by
  obtain ⟨_, enough, page⟩ | ⟨large, _⟩ := requestSize_cases size
  · obtain ⟨ptr, h', allocated, done⟩ := malloc_allocates fresh order room page
    refine ⟨ptr, h', allocated, done, ?_⟩
    rw [done.place, done.brk]
    omega
  · omega

/-! ## The invariant -/

/-- The headers and blocks of two blocks do not meet. -/
def Block.Apart (a b : Block) : Prop :=
  a.ptr.toNat + a.size + 8 ≤ b.ptr.toNat ∨ b.ptr.toNat + b.size + 8 ≤ a.ptr.toNat

instance : Std.Symm Block.Apart := ⟨fun _ _ => Or.symm⟩

/-- A block lies behind its header in the mapped memory, and the header has its size. -/
structure BlockSound (h : ProcessHeap) (b : Block) : Prop where
  low : h.start + 8 ≤ b.ptr.toNat
  high : b.ptr.toNat + b.size ≤ h.brk
  header : h.mem.load (b.ptr - 8) 8 = BitVec.ofNat 64 b.size

/-- What every call keeps. -/
structure AllocSound (s : AllocState) : Prop where
  placed : 0 < s.heap.start
  order : s.heap.start ≤ s.heap.brk
  top : s.heap.brk ≤ 2 ^ 64
  blocks : ∀ b ∈ s.live, BlockSound s.heap b
  apart : s.live.Pairwise Block.Apart

/-- The bytes in front of an address, as offsets from the header. -/
theorem header_byte {ptr : BitVec 64} (behind : 8 ≤ ptr.toNat) {k : Nat} (inside : k < 8) :
    (ptr - 8 + BitVec.ofNat 64 k).toNat = ptr.toNat - 8 + k := by
  bv_omega

/-- The bytes of a block. -/
theorem block_byte {ptr : BitVec 64} {n i : Nat} (inside : ptr.toNat + n ≤ 2 ^ 64) (below : i < n) :
    (ptr + BitVec.ofNat 64 i).toNat = ptr.toNat + i := by
  bv_omega

/-- A block stays sound while its header stays. -/
theorem BlockSound.keep {h h' : ProcessHeap} {b : Block} (sound : BlockSound h b) (start : h'.start = h.start)
    (brk : h.brk ≤ h'.brk)
    (kept : ∀ a : BitVec 64, b.ptr.toNat ≤ a.toNat + 8 → a.toNat < b.ptr.toNat → h'.mem a = h.mem a) :
    BlockSound h' b := by
  have low := sound.low
  refine ⟨start ▸ low, Nat.le_trans sound.high brk, ?_⟩
  rw [← sound.header]
  refine ByteMemory.load_congr fun k inside => ?_
  have place : (b.ptr - 8 + BitVec.ofNat 64 k).toNat = b.ptr.toNat - 8 + k := header_byte (by omega) inside
  exact kept _ (by omega) (by omega)

/-- Fewer blocks, more memory, and headers that stay. -/
theorem AllocSound.keep {s : AllocState} (sound : AllocSound s) {h' : ProcessHeap} {live' : List Block}
    (fewer : live'.Sublist s.live) (start : h'.start = s.heap.start) (brk : s.heap.brk ≤ h'.brk)
    (top : h'.brk ≤ 2 ^ 64)
    (kept : ∀ b ∈ s.live, ∀ a : BitVec 64, b.ptr.toNat ≤ a.toNat + 8 → a.toNat < b.ptr.toNat →
      h'.mem a = s.heap.mem a) : AllocSound ⟨h', live'⟩ where
  placed := start ▸ sound.placed
  order := by
    have order := sound.order
    change h'.start ≤ h'.brk
    omega
  top := top
  blocks := fun b member =>
    (sound.blocks b (fewer.subset member)).keep start brk (kept b (fewer.subset member))
  apart := sound.apart.sublist fewer

/-- A new block behind the old break, with the blocks that the program keeps. -/
theorem AllocSound.add {s : AllocState} (sound : AllocSound s) {h' : ProcessHeap} {ptr size : BitVec 64}
    {live' : List Block} (fewer : live'.Sublist s.live) (done : Allocated s.heap h' ptr size)
    (high : ptr.toNat + size.toNat ≤ h'.brk) (top : h'.brk ≤ 2 ^ 64) :
    AllocSound ⟨h', withBlock ptr size.toNat live'⟩ := by
  have brk : s.heap.brk ≤ h'.brk := by
    rw [done.brk]
    exact Nat.le_add_right _ _
  have rest := @AllocSound.keep s sound h' live' fewer done.start brk top (by
    intro b member a _ below
    have inside := (sound.blocks b member).high
    exact done.kept a (by omega))
  have order := sound.order
  have place := done.place
  rw [withBlock, if_neg done.ptr_ne_zero]
  refine ⟨rest.placed, rest.order, rest.top, ?_, ?_⟩
  · intro b member
    rcases List.mem_cons.mp member with rfl | old
    · refine ⟨?_, high, ?_⟩
      · change h'.start + 8 ≤ ptr.toNat
        rw [done.start]
        omega
      · change h'.mem.load (ptr - 8) 8 = BitVec.ofNat 64 size.toNat
        rw [done.header, BitVec.ofNat_toNat, BitVec.setWidth_eq]
    · exact rest.blocks b old
  · refine List.Pairwise.cons (fun b member => .inr ?_) rest.apart
    have inside := (sound.blocks b (fewer.subset member)).high
    change b.ptr.toNat + b.size + 8 ≤ ptr.toNat
    omega

/-- What a new block is for the contract. -/
theorem Allocated.answers {s : AllocState} (sound : AllocSound s) {h' : ProcessHeap} {ptr size : BitVec 64}
    {others : List Block} (fewer : others.Sublist s.live) (done : Allocated s.heap h' ptr size)
    (high : ptr.toNat + size.toNat ≤ h'.brk) (top : h'.brk ≤ 2 ^ 64) :
    Answers s h' others ptr size.toNat := by
  have order := sound.order
  have place := done.place
  refine ⟨fun _ => ⟨.inr ⟨?_, high⟩, fun b member => .inr ?_⟩, fun unmet => ?_⟩
  · rw [done.start]
    omega
  · have inside := (sound.blocks b (fewer.subset member)).high
    omega
  · omega

/-! ## calloc and realloc -/

/-- A change behind the start of the new block. -/
theorem Allocated.fill {h h' h'' : ProcessHeap} {ptr size : BitVec 64} (done : Allocated h h' ptr size)
    (start : h''.start = h'.start) (brk : h''.brk = h'.brk)
    (kept : ∀ a : BitVec 64, a.toNat < ptr.toNat → h''.mem a = h'.mem a) : Allocated h h'' ptr size := by
  have place := done.place
  refine ⟨place, start.trans done.start, brk.trans done.brk, ?_, fun a below => ?_⟩
  · rw [← done.header]
    refine ByteMemory.load_congr fun k inside => ?_
    have byte := @header_byte ptr (by omega) k inside
    exact kept _ (by omega)
  · rw [kept a (by omega), done.kept a below]

/-- No byte in front of a block is one of its bytes. -/
theorem not_in_block {ptr a : BitVec 64} {n : Nat} (high : ptr.toNat + n ≤ 2 ^ 64)
    (front : a.toNat < ptr.toNat) : ¬ (a - ptr).toNat < n := by
  bv_omega

/-- The distance of a byte of a block. -/
theorem block_distance {ptr : BitVec 64} {n i : Nat} (high : ptr.toNat + n ≤ 2 ^ 64) (inside : i < n) :
    (ptr + BitVec.ofNat 64 i - ptr) = BitVec.ofNat 64 i ∧ (BitVec.ofNat 64 i).toNat = i := by
  have small : (BitVec.ofNat 64 i).toNat = i := by
    rw [BitVec.toNat_ofNat]
    omega
  exact ⟨by rw [BitVec.add_comm, BitVec.add_sub_cancel], small⟩

/-- The product of two sizes that fit. -/
theorem product_toNat {size nmemb : BitVec 64} (fits : size.toNat * nmemb.toNat < 2 ^ 64) :
    (size * nmemb).toNat = size.toNat * nmemb.toNat := by
  rw [BitVec.toNat_mul, Nat.mod_eq_of_lt fits]

/-- `calloc` for a product that fits. -/
theorem calloc_fits {h : ProcessHeap} {size nmemb : BitVec 64} (fresh : ByteMemory)
    (order : h.start ≤ h.brk) (room : h.brk + (requestSize (size * nmemb)).toNat ≤ 2 ^ 64)
    (fits : size.toNat * nmemb.toNat + 4104 ≤ 2 ^ 64) :
    ∃ ptr h', calloc fresh h size nmemb = some (ptr, h') ∧ Allocated h h' ptr (size * nmemb) ∧
      ptr.toNat + (size * nmemb).toNat ≤ h'.brk ∧
      ∀ i < (size * nmemb).toNat, h'.mem (ptr + BitVec.ofNat 64 i) = 0 := by
  have product := @product_toNat size nmemb (by omega)
  obtain ⟨ptr, h', allocated, done, high⟩ := malloc_fits fresh order room (by rw [product]; exact fits)
  have brk := done.brk
  have place := done.place
  have maps : h'.Maps ptr (size * nmemb).toNat := .inr ⟨by rw [done.start]; omega, high⟩
  refine ⟨ptr, { h' with mem := fun a => if (a - ptr).toNat < (size * nmemb).toNat then 0 else h'.mem a }, ?_,
    done.fill rfl rfl fun a front => ?_, high, fun i inside => ?_⟩
  · rw [calloc, allocated]
    dsimp only
    rw [if_neg done.ptr_ne_zero, memsetZero, if_pos maps]
    rfl
  · exact if_neg (not_in_block (by omega) front)
  · obtain ⟨distance, small⟩ := @block_distance ptr _ i (by omega) inside
    refine if_pos ?_
    rw [distance, small]
    exact inside

/-- `realloc` of a block for a size that fits. -/
theorem realloc_fits {h : ProcessHeap} {b : Block} {size : BitVec 64} (fresh : ByteMemory)
    (placed : 0 < h.start) (order : h.start ≤ h.brk) (sound : BlockSound h b) (some_ : size ≠ 0)
    (room : h.brk + (requestSize size).toNat ≤ 2 ^ 64) (fits : size.toNat + 4104 ≤ 2 ^ 64) :
    ∃ ptr h', realloc fresh h b.ptr size = some (ptr, h') ∧ Allocated h h' ptr size ∧
      ptr.toNat + size.toNat ≤ h'.brk ∧ ∀ i < min b.size size.toNat,
        h'.mem (ptr + BitVec.ofNat 64 i) = h.mem (b.ptr + BitVec.ofNat 64 i) := by
  have low := sound.low
  have inside := sound.high
  obtain ⟨ptr, h', allocated, done, high⟩ := malloc_fits fresh order room fits
  have brk := done.brk
  have place := done.place
  have header : (b.ptr - 8).toNat = b.ptr.toNat - 8 := by bv_omega
  have headerMaps : h.Maps (b.ptr - 8) 8 := .inr (by omega)
  -- the number of bytes that are copied
  have count : (if BitVec.ofNat 64 b.size < size then BitVec.ofNat 64 b.size else size).toNat =
      min b.size size.toNat := by
    have number : (BitVec.ofNat 64 b.size).toNat = b.size := by
      rw [BitVec.toNat_ofNat]
      omega
    split <;> rename_i order
    · rw [BitVec.lt_def, number] at order
      omega
    · rw [BitVec.lt_def, number] at order
      omega
  obtain ⟨copied, isCopied⟩ : ∃ copied,
      copied = if BitVec.ofNat 64 b.size < size then BitVec.ofNat 64 b.size else size := ⟨_, rfl⟩
  rw [← isCopied] at count
  have maps : h'.Maps b.ptr copied.toNat ∧ h'.Maps ptr copied.toNat := by
    rw [count]
    exact ⟨.inr (by rw [done.start]; omega), .inr (by rw [done.start]; omega)⟩
  refine ⟨ptr, { h' with mem := fun a =>
      if (a - ptr).toNat < copied.toNat then h'.mem (b.ptr + (a - ptr)) else h'.mem a }, ?_,
    done.fill rfl rfl fun a front => ?_, high, fun i below => ?_⟩
  · have pointer : b.ptr ≠ 0 := by
      intro null
      rw [null] at low
      exact absurd (show h.start + 8 ≤ 0 from low) (by omega)
    rw [realloc, if_neg pointer, if_neg some_, if_pos headerMaps]
    dsimp only
    rw [sound.header, allocated]
    dsimp only
    rw [← isCopied, memcpy, if_pos maps]
    rfl
  · exact if_neg (not_in_block (by omega) front)
  · obtain ⟨distance, small⟩ := @block_distance ptr (min b.size size.toNat) i (by omega) below
    have byte := @block_byte b.ptr b.size i (by omega) (by omega)
    have within : (ptr + BitVec.ofNat 64 i - ptr).toNat < copied.toNat := by
      rw [distance, small, count]
      exact below
    refine (if_pos within).trans ?_
    rw [distance]
    exact done.kept _ (by omega)

/-! ## The contract -/

/-- A call that fits keeps the invariant. -/
theorem AllocSound.step {s s' : AllocState} {call : AllocCall} (sound : AllocSound s)
    (valid : call.Valid s) (room : call.SbrkMaps s) (fits : call.Fits) (stepped : call.step s = some s') :
    AllocSound s' := by
  have top : ∀ {h' : ProcessHeap} {ptr size : BitVec 64}, Allocated s.heap h' ptr size →
      s.heap.brk + (requestSize size).toNat ≤ 2 ^ 64 → h'.brk ≤ 2 ^ 64 := by
    intro h' ptr size done room
    rw [done.brk]
    exact room
  cases call with
  | malloc fresh size =>
      obtain ⟨⟨ptr, h'⟩, same, rfl⟩ := Option.map_eq_some_iff.mp stepped
      obtain ⟨ptr', h'', allocated, done, high⟩ := malloc_fits fresh sound.order room fits
      cases same.symm.trans allocated
      exact sound.add (.refl _) done high (top done room)
  | calloc fresh size nmemb =>
      obtain ⟨⟨ptr, h'⟩, same, rfl⟩ := Option.map_eq_some_iff.mp stepped
      obtain ⟨ptr', h'', allocated, done, high, _⟩ := calloc_fits fresh sound.order room fits
      cases same.symm.trans allocated
      have product := @product_toNat size nmemb (by change _ + 4104 ≤ _ at fits; omega)
      dsimp only
      rw [← product]
      exact sound.add (.refl _) done high (top done room)
  | realloc fresh ptr size =>
      obtain ⟨⟨newptr, h'⟩, same, rfl⟩ := Option.map_eq_some_iff.mp stepped
      have fewer : (without ptr s.live).Sublist s.live := List.filter_sublist
      obtain null | ⟨b, member, rfl⟩ := valid
      · exact absurd null fits.1
      by_cases nothing : size = 0
      · rw [realloc, if_neg fits.1, if_pos nothing] at same
        cases same
        exact sound.keep fewer rfl (Nat.le_refl _) sound.top fun _ _ _ _ _ => rfl
      · obtain ⟨ptr', h'', moved, done, high, _⟩ := realloc_fits fresh sound.placed sound.order
          (sound.blocks b member) nothing room fits.2
        cases same.symm.trans moved
        exact sound.add fewer done high (top done room)
  | free ptr =>
      cases stepped
      exact sound.keep List.filter_sublist rfl (Nat.le_refl _) sound.top fun _ _ _ _ _ => rfl
  | store ptr i byte =>
      cases stepped
      obtain ⟨b, member, rfl, inside⟩ := valid
      refine sound.keep (.refl _) rfl (Nat.le_refl _) sound.top fun c other a front below => ?_
      have high := (sound.blocks b member).high
      have highest := sound.top
      have place := @block_byte b.ptr b.size i (by omega) inside
      -- the byte lies in its own block, so in the header of none
      refine Function.update_of_ne (fun same => ?_) _ _
      rw [same] at front below
      by_cases own : c = b
      · rw [own] at below
        omega
      · have apart := sound.apart.forall other member own
        unfold Block.Apart at apart
        omega

/-- A call that fits meets its contract. -/
theorem AllocSound.meets {s : AllocState} {call : AllocCall} (sound : AllocSound s)
    (room : call.SbrkMaps s) (fits : call.Fits) : call.Meets s := by
  have top : ∀ {h' : ProcessHeap} {ptr size : BitVec 64}, Allocated s.heap h' ptr size →
      s.heap.brk + (requestSize size).toNat ≤ 2 ^ 64 → h'.brk ≤ 2 ^ 64 := by
    intro h' ptr size done room
    rw [done.brk]
    exact room
  cases call with
  | malloc fresh size =>
      obtain ⟨ptr, h', allocated, done, high⟩ := malloc_fits fresh sound.order room fits
      exact ⟨ptr, h', allocated, done.answers sound (.refl _) high (top done room)⟩
  | calloc fresh size nmemb =>
      obtain ⟨ptr, h', allocated, done, high, zero⟩ := calloc_fits fresh sound.order room fits
      have product := @product_toNat size nmemb (by change _ + 4104 ≤ _ at fits; omega)
      rw [product] at zero
      refine ⟨ptr, h', allocated, ?_, fun _ => zero⟩
      rw [← product]
      exact done.answers sound (.refl _) high (top done room)
  | realloc fresh ptr size =>
      refine ⟨fun null => absurd null fits.1, ?_⟩
      rintro b member rfl
      by_cases nothing : size = 0
      · refine ⟨0, s.heap, by rw [realloc, if_neg fits.1, if_pos nothing]; rfl,
          ⟨fun some_ => absurd rfl some_, ?_⟩,
          fun some_ => absurd rfl some_⟩
        exact fun _ => rfl
      · obtain ⟨newptr, h', moved, done, high, copied⟩ := realloc_fits fresh sound.placed sound.order
          (sound.blocks b member) nothing room fits.2
        exact ⟨newptr, h', moved, done.answers sound List.filter_sublist high (top done room),
          fun _ => copied⟩
  | free ptr => trivial
  | store ptr i byte => trivial

/-- The heap behind a `calloc` that returns. -/
theorem calloc_some {h h' : ProcessHeap} {ptr size nmemb : BitVec 64} {fresh : ByteMemory}
    (placed : 0 < h.start) (order : h.start ≤ h.brk)
    (room : h.brk + (requestSize (size * nmemb)).toNat ≤ 2 ^ 64)
    (allocated : calloc fresh h size nmemb = some (ptr, h')) :
    ∃ middle, Allocated h middle ptr (size * nmemb) ∧ h'.brk = middle.brk ∧
      middle.Maps ptr (size * nmemb).toNat := by
  unfold calloc at allocated
  split at allocated
  · cases allocated
  rename_i newptr middle taken
  have done := malloc_some placed order room taken
  rw [if_neg done.ptr_ne_zero, memsetZero] at allocated
  split at allocated
  · rename_i maps
    cases allocated
    exact ⟨middle, done, rfl, maps⟩
  · cases allocated

/-- `memcpy` maps nothing. -/
theorem memcpy_some {h h' : ProcessHeap} {dest src n : BitVec 64} (copied : memcpy h dest src n = some h') :
    h'.start = h.start ∧ h'.brk = h.brk := by
  unfold memcpy at copied
  split at copied
  · cases copied
    exact ⟨rfl, rfl⟩
  · cases copied

/-- The heap behind a `realloc` that returns a block. -/
theorem realloc_some {h h' : ProcessHeap} {ptr newptr size : BitVec 64} {fresh : ByteMemory}
    (placed : 0 < h.start) (order : h.start ≤ h.brk) (room : h.brk + (requestSize size).toNat ≤ 2 ^ 64)
    (pointer : ptr ≠ 0) (some_ : size ≠ 0) (moved : realloc fresh h ptr size = some (newptr, h')) :
    ∃ middle, Allocated h middle newptr size ∧ h'.start = middle.start ∧ h'.brk = middle.brk := by
  unfold realloc at moved
  rw [if_neg pointer, if_neg some_] at moved
  split at moved
  · dsimp only at moved
    split at moved
    · cases moved
    rename_i given middle taken
    obtain ⟨copied, isCopied, same⟩ := Option.map_eq_some_iff.mp moved
    cases same
    exact ⟨middle, malloc_some placed order room taken, memcpy_some isCopied⟩
  · cases moved

/-- A call that meets its contract fits. -/
theorem AllocSound.fits {s : AllocState} {call : AllocCall} (sound : AllocSound s) (valid : call.Valid s)
    (room : call.SbrkMaps s) (meets : call.Meets s) : call.Fits := by
  have placed := sound.placed
  have order := sound.order
  cases call with
  | malloc fresh size =>
      obtain ⟨ptr, h', allocated, answers⟩ := meets
      have done := malloc_some placed order room allocated
      by_contra large
      change ¬ size.toNat + 4104 ≤ 2 ^ 64 at large
      exact done.wraps (by omega) (answers.1 done.ptr_ne_zero).1
  | calloc fresh size nmemb =>
      obtain ⟨ptr, h', allocated, answers, _⟩ := meets
      obtain ⟨middle, done, brk, maps⟩ := calloc_some placed order room allocated
      have given := (answers.1 done.ptr_ne_zero).1
      have top := done.brk
      change s.heap.brk + (requestSize (size * nmemb)).toNat ≤ 2 ^ 64 at room
      by_contra large
      change ¬ size.toNat * nmemb.toNat + 4104 ≤ 2 ^ 64 at large
      -- the block would reach over the last address, unless the product is exact
      have exact_ : size.toNat * nmemb.toNat < 2 ^ 64 := by
        have place := done.place
        obtain none_ | ⟨_, high⟩ := given <;> omega
      exact done.wraps (by rw [product_toNat exact_]; omega) maps
  | realloc fresh ptr size =>
      obtain ⟨asMalloc, ofBlock⟩ := meets
      have pointer : ptr ≠ 0 := by
        intro null
        have same := asMalloc null
        rw [null, realloc, if_pos rfl] at same
        exact (malloc_some placed order room same.symm).ptr_ne_zero rfl
      refine ⟨pointer, ?_⟩
      obtain ⟨b, member, isBlock⟩ := valid.resolve_left pointer
      obtain ⟨newptr, h', moved, answers, _⟩ := ofBlock b member isBlock
      by_cases nothing : size = 0
      · rw [nothing]
        decide
      obtain ⟨middle, done, start, brk⟩ := realloc_some placed order room pointer nothing moved
      have given := (answers.1 done.ptr_ne_zero).1
      unfold ProcessHeap.Maps at given
      rw [start, brk] at given
      by_contra large
      exact done.wraps (by omega) given
  | free ptr => trivial
  | store ptr i byte => trivial

/-- A heap from which nothing was allocated. -/
structure NewHeap (s : AllocState) : Prop where
  placed : 0 < s.heap.start
  order : s.heap.start ≤ s.heap.brk
  top : s.heap.brk ≤ 2 ^ 64
  none : s.live = []

theorem NewHeap.sound {s : AllocState} (new : NewHeap s) : AllocSound s := by
  refine ⟨new.placed, new.order, new.top, ?_, ?_⟩
  · intro b member
    rw [new.none] at member
    cases member
  · rw [new.none]
    exact .nil

/-- In every run of calls that fit, on pointers of the program and while `sbrk` maps what it is asked for, the
next call meets its contract exactly if it fits, too. -/
theorem allocation_contract_iff {start s : AllocState} {calls : List AllocCall} (new : NewHeap start)
    (run : Run AllocCall.step (fun s call => call.Valid s ∧ call.SbrkMaps s ∧ call.Fits) start calls s)
    {call : AllocCall} (valid : call.Valid s) (room : call.SbrkMaps s) : call.Meets s ↔ call.Fits := by
  have sound := run.invariant
    (fun _ _ _ allowed stepped sound => AllocSound.step sound allowed.1 allowed.2.1 allowed.2.2 stepped)
    new.sound
  exact ⟨sound.fits valid room, sound.meets room⟩

/-- A heap that begins at the second page. -/
def secondPage : AllocState := ⟨⟨0x1000, 0x1000, fun _ => 0⟩, []⟩

theorem secondPage_new : NewHeap secondPage := ⟨by decide, Nat.le_refl _, by decide, rfl⟩

/-- A block of 100 bytes is resized to 200. -/
theorem allocation_contract_iff_example :
    ∃ s, AllocCall.step secondPage (.malloc (fun _ => 7) 100) = some s ∧
      (AllocCall.realloc (fun _ => 7) 0x1008 200).Meets s := by
  have allowed : (AllocCall.malloc (fun _ => 7) 100).Valid secondPage ∧
      (AllocCall.malloc (fun _ => 7) 100).SbrkMaps secondPage ∧ (AllocCall.malloc (fun _ => 7) 100).Fits :=
    ⟨trivial, by decide, by decide⟩
  refine ⟨_, rfl, (allocation_contract_iff secondPage_new (.head allowed rfl (.refl _)) ?_ ?_).mpr
    (by decide)⟩
  · exact .inr ⟨⟨0x1008, 100⟩, List.mem_singleton.mpr rfl, rfl⟩
  · decide

/-- The first calls of a process: a product of sizes that is no 64-bit number, a null pointer to resize, and a
size that wraps around with its header. -/
theorem allocation_contract_broken : NewHeap secondPage ∧
    ¬ (AllocCall.calloc (fun _ => 7) 0x100000000 0x100000000).Meets secondPage ∧
    ¬ (AllocCall.realloc (fun _ => 7) 0 8).Meets secondPage ∧
    ¬ (AllocCall.malloc (fun _ => 7) 0xFFFFFFFFFFFFFFFF).Meets secondPage := by
  have sound := secondPage_new.sound
  have unfit : ∀ call : AllocCall, call.Valid secondPage → call.SbrkMaps secondPage → ¬ call.Fits →
      ¬ call.Meets secondPage :=
    fun call valid room large meets => large (sound.fits valid room meets)
  exact ⟨secondPage_new, unfit _ trivial (by decide) (by decide), unfit _ (.inl rfl) (by decide) (by decide),
    unfit _ trivial (by decide) (by decide)⟩

end Voxel.Proofs
