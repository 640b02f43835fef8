/-
Module: Voxel.Proofs.ContextSwitch
Layer: Proofs
Purpose: When a context switch brings a thread back as it was: exactly when every byte of `%r15`, and
  the two bytes next to its slot, are the same.
Trusted boundary: none
Main exports: ContextRoundTrip, context_round_trip_iff
-/
import Voxel.Kernel.Interrupts

namespace Voxel.Proofs

open Voxel.Lib Voxel.Lib.X64 Voxel.Kernel

/-! ## What the two routines do -/

/-- The fields that `save_context` writes: the stack pointer `sp`, the address `ip`, and registers of
`c`. The last one is not the slot that `restore_context` reads. -/
def contextFields (c : Cpu) (sp ip : BitVec 64) : List ByteMemory.Field :=
  [ ⟨0, 8, sp⟩, ⟨8, 8, c.regs .rbp⟩, ⟨16, 8, ip⟩,
    ⟨24, 4, c.msr fsBase &&& 0xFFFFFFFF⟩, ⟨28, 4, c.msr fsBase >>> 32⟩, ⟨32, 8, c.regs .rbx⟩,
    ⟨40, 8, c.regs .r12⟩, ⟨48, 8, c.regs .r13⟩, ⟨56, 8, c.regs .r14⟩, ⟨65, 8, c.regs .r15⟩ ]

/-- The memory after `save_context`. -/
theorem saveContext_mem (c : Cpu) :
    (run saveContext c).mem = c.mem.storeFields (c.regs .rdi) (contextFields c (c.address 8 .rsp)
      ((c.mem.storeFields (c.regs .rdi) [⟨0, 8, c.address 8 .rsp⟩, ⟨8, 8, c.regs .rbp⟩]).load
        (c.address 0 .rsp) 8)) :=
  rfl

/-- The registers that `restore_context` sets, and where it goes. -/
theorem restoreContext_regs (c : Cpu) :
    (run restoreContext c).rip = c.mem.load (c.address 16 .rdi) 8 ∧
      (run restoreContext c).regs .rsp = c.mem.load (c.address 0 .rdi) 8 ∧
      (run restoreContext c).regs .rbp = c.mem.load (c.address 8 .rdi) 8 ∧
      (run restoreContext c).regs .rbx = c.mem.load (c.address 32 .rdi) 8 ∧
      (run restoreContext c).regs .r12 = c.mem.load (c.address 40 .rdi) 8 ∧
      (run restoreContext c).regs .r13 = c.mem.load (c.address 48 .rdi) 8 ∧
      (run restoreContext c).regs .r14 = c.mem.load (c.address 56 .rdi) 8 ∧
      (run restoreContext c).regs .r15 = c.mem.load (c.address 64 .rdi) 8 :=
  ⟨rfl, rfl, rfl, rfl, rfl, rfl, rfl, rfl⟩

/-- The FS base that `restore_context` sets. -/
theorem restoreContext_fsBase (c : Cpu) :
    (run restoreContext c).msr fsBase =
      (c.mem.load (c.address 28 .rdi) 4 <<< 32) ||| (c.mem.load (c.address 24 .rdi) 4 &&& 0xFFFFFFFF) := by
  have written : (run restoreContext c).msr = Function.update c.msr ((0xC0000100 : BitVec 64).setWidth 32)
      ((c.mem.load (c.address 28 .rdi) 4 <<< 32) ||| (c.mem.load (c.address 24 .rdi) 4 &&& 0xFFFFFFFF)) :=
    rfl
  have index : (0xC0000100 : BitVec 64).setWidth 32 = fsBase := by decide
  rw [written, index, Function.update_self]

/-- The memory in which `restore_context` runs, after the push of the return address of its call. -/
def calledMem (c : Cpu) (after : BitVec 64) : ByteMemory := c.mem.store (c.regs .rsp - 8) 8 after

theorem call_mem (c : Cpu) (thread after : BitVec 64) :
    ((c.setReg .rdi thread).call after).mem = calledMem c after :=
  rfl

theorem call_address (c : Cpu) (thread after : BitVec 64) (d : Nat) :
    ((c.setReg .rdi thread).call after).address d .rdi = thread + BitVec.ofNat 64 d := by
  rw [Cpu.address, Cpu.call, Cpu.setReg_of_ne _ (by decide)]
  exact congrArg (· + BitVec.ofNat 64 d) (Cpu.setReg_self c .rdi thread)

/-- The slots that the call of `restore_context` loads the registers from. -/
theorem callRestoreContext_regs (c : Cpu) (thread after : BitVec 64) :
    (callRestoreContext c thread after).rip = (calledMem c after).load (thread + BitVec.ofNat 64 16) 8 ∧
      (callRestoreContext c thread after).regs .rsp =
        (calledMem c after).load (thread + BitVec.ofNat 64 0) 8 ∧
      (callRestoreContext c thread after).regs .rbp =
        (calledMem c after).load (thread + BitVec.ofNat 64 8) 8 ∧
      (callRestoreContext c thread after).regs .rbx =
        (calledMem c after).load (thread + BitVec.ofNat 64 32) 8 ∧
      (callRestoreContext c thread after).regs .r12 =
        (calledMem c after).load (thread + BitVec.ofNat 64 40) 8 ∧
      (callRestoreContext c thread after).regs .r13 =
        (calledMem c after).load (thread + BitVec.ofNat 64 48) 8 ∧
      (callRestoreContext c thread after).regs .r14 =
        (calledMem c after).load (thread + BitVec.ofNat 64 56) 8 ∧
      (callRestoreContext c thread after).regs .r15 =
        (calledMem c after).load (thread + BitVec.ofNat 64 64) 8 := by
  have regs := restoreContext_regs ((c.setReg .rdi thread).call after)
  simp only [call_mem, call_address] at regs
  exact regs

/-! ## The round trip -/

/-- The stack slot of the return address and the structure do not overlap. -/
def StackApart (c : Cpu) (thread : BitVec 64) : Prop :=
  ∀ i < 8, ∀ k < threadSize,
    c.regs .rsp - 8 + BitVec.ofNat 64 i ≠ thread + BitVec.ofNat 64 k

/-- Execution in `t` goes on at `next` with the registers of `c`. -/
structure Resumes (c t : Cpu) (next : BitVec 64) : Prop where
  ip : t.rip = next
  sp : t.regs .rsp = c.regs .rsp
  bp : t.regs .rbp = c.regs .rbp
  saved : ∀ r ∈ [Reg.rbx, .r12, .r13, .r14, .r15], t.regs r = c.regs r
  tlsBase : t.msr fsBase = c.msr fsBase

/-- `save_context`, and later, with the structure as it was left, `restore_context`: the caller of the
first goes on after its call as it was, and the rest of the structure is as before. -/
structure ContextRoundTrip (c : Cpu) (thread next : BitVec 64) : Prop where
  resumes : ∀ (later : Cpu) (after : BitVec 64), StackApart later thread →
    (∀ k < threadSize, later.mem (thread + BitVec.ofNat 64 k) =
      (callSaveContext c thread next).mem (thread + BitVec.ofNat 64 k)) →
    Resumes c (callRestoreContext later thread after) next
  outside : ∀ k, contextSize ≤ k → k < threadSize →
    (callSaveContext c thread next).mem (thread + BitVec.ofNat 64 k) =
      c.mem (thread + BitVec.ofNat 64 k)

/-- The memory after the call of `save_context`. -/
theorem callSaveContext_mem {c : Cpu} {thread : BitVec 64} (next : BitVec 64)
    (apart : StackApart c thread) :
    (callSaveContext c thread next).mem =
      (c.mem.store (c.regs .rsp - 8) 8 next).storeFields thread
        (contextFields c (c.regs .rsp) next) := by
  have top : c.regs .rsp - 8 + BitVec.ofNat 64 8 = c.regs .rsp := BitVec.sub_add_cancel ..
  have bottom : c.regs .rsp - 8 + BitVec.ofNat 64 0 = c.regs .rsp - 8 := BitVec.add_zero _
  -- the two fields stored before the return address is read leave its slot alone
  have pushed : ((c.mem.store (c.regs .rsp - 8) 8 next).storeFields thread
      [⟨0, 8, c.regs .rsp⟩, ⟨8, 8, c.regs .rbp⟩]).load (c.regs .rsp - 8) 8 = next := by
    rw [ByteMemory.load_congr fun k inside => ByteMemory.storeFields_of_ne _ (apart k inside) ?_]
    · exact ByteMemory.load_store ..
    · simp [threadSize, contextSize]
  rw [callSaveContext, saveContext_mem]
  change (c.mem.store (c.regs .rsp - 8) 8 next).storeFields thread (contextFields c
    (c.regs .rsp - 8 + BitVec.ofNat 64 8) (((c.mem.store (c.regs .rsp - 8) 8 next).storeFields thread
      [⟨0, 8, c.regs .rsp - 8 + BitVec.ofNat 64 8⟩, ⟨8, 8, c.regs .rbp⟩]).load
        (c.regs .rsp - 8 + BitVec.ofNat 64 0) 8)) = _
  rw [top, bottom, pushed]

/-- The push of a return address leaves the structure alone. -/
theorem push_apart {c : Cpu} {thread : BitVec 64} (next : BitVec 64) (apart : StackApart c thread)
    {k : Nat} (inside : k < threadSize) :
    (c.mem.store (c.regs .rsp - 8) 8 next) (thread + BitVec.ofNat 64 k) =
      c.mem (thread + BitVec.ofNat 64 k) :=
  ByteMemory.store_of_ne _ _ fun i low same => apart i low k inside same.symm

/-- A byte of the structure that no field covers is as before the call. -/
theorem callSaveContext_kept {c : Cpu} {thread : BitVec 64} (next : BitVec 64)
    (apart : StackApart c thread) {k : Nat} (inside : k < threadSize)
    (uncovered : k = 64 ∨ 73 ≤ k) :
    (callSaveContext c thread next).mem (thread + BitVec.ofNat 64 k) =
      c.mem (thread + BitVec.ofNat 64 k) := by
  rw [threadSize, contextSize] at inside
  rw [callSaveContext_mem next apart, ByteMemory.storeFields_outside _ _ (by omega)]
  · exact push_apart next apart inside
  · simp [contextFields]
  · simp only [contextFields, List.mem_cons, List.not_mem_nil, or_false, forall_eq_or_imp, forall_eq]
    omega

/-- The bytes of field number `i`, which no later field covers. -/
theorem callSaveContext_field {c : Cpu} {thread : BitVec 64} (next : BitVec 64)
    (apart : StackApart c thread) (i : Nat) {f : ByteMemory.Field}
    (here : (contextFields c (c.regs .rsp) next)[i]? = some f)
    (alone : ∀ g ∈ (contextFields c (c.regs .rsp) next).drop (i + 1), f.offset + f.size ≤ g.offset)
    {k : Nat} (within : k < f.size) :
    (callSaveContext c thread next).mem (thread + BitVec.ofNat 64 (f.offset + k)) =
      readByte f.value k := by
  have small : ∀ g ∈ contextFields c (c.regs .rsp) next, g.offset + g.size < 2 ^ 63 := by
    simp [contextFields]
  rw [callSaveContext_mem next apart]
  generalize contextFields c (c.regs .rsp) next = fields at *
  obtain ⟨bound, rfl⟩ := List.getElem?_eq_some_iff.mp here
  have split : fields = fields.take i ++ fields[i] :: fields.drop (i + 1) := by
    rw [← List.drop_eq_getElem_cons bound, List.take_append_drop]
  rw [split] at small
  have field := ByteMemory.storeFields_field (c.mem.store (c.regs .rsp - 8) 8 next) thread
    (fields.take i) (fields.drop (i + 1)) fields[i] within
    (fun g member => small g (List.mem_append_right _ member))
    (fun g member => Or.inl (alone g member))
  rwa [← split] at field

/-- The last byte of `%r15` lands in `page_directory`. -/
theorem callSaveContext_neighbour {c : Cpu} {thread : BitVec 64} (next : BitVec 64)
    (apart : StackApart c thread) :
    (callSaveContext c thread next).mem (thread + BitVec.ofNat 64 72) = readByte (c.regs .r15) 7 := by
  have field := @callSaveContext_field c thread next apart 9 ⟨65, 8, c.regs .r15⟩ rfl
    (by simp [contextFields]) 7 (show 7 < 8 by decide)
  simp only [Nat.reduceAdd] at field
  exact field

/-- The byte that both sides of the slot of `%r15` and every byte of the register must be. -/
def Uniform (c : Cpu) (thread : BitVec 64) : Prop :=
  (∀ k < 8, readByte (c.regs .r15) k = c.mem (thread + BitVec.ofNat 64 64)) ∧
    c.mem (thread + BitVec.ofNat 64 72) = c.mem (thread + BitVec.ofNat 64 64)

section RoundTrip

variable {c later : Cpu} {thread next after : BitVec 64}

/-- What `restore_context` loads from a slot that `save_context` filled. -/
theorem restored_field (apart : StackApart c thread) (apart' : StackApart later thread)
    (same : ∀ k < threadSize, later.mem (thread + BitVec.ofNat 64 k) =
      (callSaveContext c thread next).mem (thread + BitVec.ofNat 64 k))
    (i : Nat) {f : ByteMemory.Field} (here : (contextFields c (c.regs .rsp) next)[i]? = some f)
    (alone : ∀ g ∈ (contextFields c (c.regs .rsp) next).drop (i + 1), f.offset + f.size ≤ g.offset)
    (inside : f.offset + f.size ≤ contextSize) (atMost : f.size ≤ 8)
    (high : ∀ k, f.size ≤ k → k < 8 → readByte f.value k = 0) :
    (calledMem later after).load (thread + BitVec.ofNat 64 f.offset) f.size =
      f.value := by
  apply ByteMemory.load_of_bytes atMost _ high
  intro k within
  have bound : f.offset + k < threadSize := by
    rw [threadSize]
    omega
  rw [BitVec.add_assoc, ← BitVec.ofNat_add]
  calc calledMem later after (thread + BitVec.ofNat 64 (f.offset + k))
      = later.mem (thread + BitVec.ofNat 64 (f.offset + k)) := push_apart after apart' bound
    _ = (callSaveContext c thread next).mem (thread + BitVec.ofNat 64 (f.offset + k)) :=
        same _ bound
    _ = readByte f.value k := callSaveContext_field next apart i here alone within

/-- The bytes that `restore_context` loads for `%r15`: first the byte that was there before the save,
then all but the last one of the saved register. -/
theorem restored_r15 (apart : StackApart c thread) (apart' : StackApart later thread)
    (same : ∀ k < threadSize, later.mem (thread + BitVec.ofNat 64 k) =
      (callSaveContext c thread next).mem (thread + BitVec.ofNat 64 k)) {k : Nat} (inside : k < 8) :
    readByte ((callRestoreContext later thread after).regs .r15) k =
      if k = 0 then c.mem (thread + BitVec.ofNat 64 64) else readByte (c.regs .r15) (k - 1) := by
  have bound : 64 + k < threadSize := by
    rw [threadSize, contextSize]
    omega
  obtain ⟨-, -, -, -, -, -, -, loaded⟩ := callRestoreContext_regs later thread after
  rw [loaded, ByteMemory.readByte_load _ _ inside (Nat.le_refl 8), BitVec.add_assoc,
    ← BitVec.ofNat_add]
  calc calledMem later after (thread + BitVec.ofNat 64 (64 + k))
      = later.mem (thread + BitVec.ofNat 64 (64 + k)) := push_apart after apart' bound
    _ = (callSaveContext c thread next).mem (thread + BitVec.ofNat 64 (64 + k)) := same _ bound
    _ = _ := by
      by_cases first : k = 0
      · rw [first, if_pos rfl]
        exact callSaveContext_kept next apart (by decide) (Or.inl rfl)
      · rw [if_neg first, show 64 + k = 65 + (k - 1) by omega]
        exact @callSaveContext_field c thread next apart 9 ⟨65, 8, c.regs .r15⟩ rfl
          (by simp [contextFields]) (k - 1) (show k - 1 < 8 by omega)

/-- The eight-byte slots that both routines agree on. -/
theorem restored_word (apart : StackApart c thread) (apart' : StackApart later thread)
    (same : ∀ k < threadSize, later.mem (thread + BitVec.ofNat 64 k) =
      (callSaveContext c thread next).mem (thread + BitVec.ofNat 64 k))
    (i : Nat) {offset : Nat} {value : BitVec 64}
    (here : (contextFields c (c.regs .rsp) next)[i]? = some ⟨offset, 8, value⟩)
    (alone : ∀ g ∈ (contextFields c (c.regs .rsp) next).drop (i + 1), offset + 8 ≤ g.offset)
    (inside : offset + 8 ≤ contextSize) :
    (calledMem later after).load (thread + BitVec.ofNat 64 offset) 8 = value :=
  restored_field apart apart' same i here alone inside (Nat.le_refl 8)
    fun _ above low => absurd low (Nat.not_lt.mpr above)

/-- The FS base goes through its two halves. -/
theorem restored_fsBase (apart : StackApart c thread) (apart' : StackApart later thread)
    (same : ∀ k < threadSize, later.mem (thread + BitVec.ofNat 64 k) =
      (callSaveContext c thread next).mem (thread + BitVec.ofNat 64 k)) :
    (callRestoreContext later thread after).msr fsBase = c.msr fsBase := by
  have high : ∀ word : BitVec 64, (∀ i, 32 ≤ i → word.getLsbD i = false) →
      ∀ k, 4 ≤ k → k < 8 → readByte word k = 0 := by
    intro word zero k above inside
    apply BitVec.eq_of_getLsbD_eq
    intro i low
    rw [readByte, BitVec.getLsbD_extractLsb', zero _ (by omega)]
    simp
  have lower := @restored_field c later thread next after apart apart' same 3
    ⟨24, 4, c.msr fsBase &&& 0xFFFFFFFF⟩ rfl (by simp [contextFields])
    (show 24 + 4 ≤ contextSize by decide) (show 4 ≤ 8 by decide)
    (high _ fun i above => by simp [BitVec.getLsbD_and, getLsbD_lowHalf, above])
  have upper := @restored_field c later thread next after apart apart' same 4
    ⟨28, 4, c.msr fsBase >>> 32⟩ rfl (by simp [contextFields])
    (show 28 + 4 ≤ contextSize by decide) (show 4 ≤ 8 by decide)
    (high _ fun i above => by
      rw [BitVec.getLsbD_ushiftRight, BitVec.getLsbD_of_ge _ _ (by omega)])
  rw [callRestoreContext, restoreContext_fsBase, call_mem, call_address, call_address, lower, upper,
    BitVec.and_assoc, BitVec.and_self, wrmsr_rdmsr]

/-- A round trip needs the bytes of `%r15` to be the ones next to its slot. -/
theorem ContextRoundTrip.uniform (apart : StackApart c thread) (trip : ContextRoundTrip c thread next) :
    Uniform c thread := by
  have exist : ∀ mem : ByteMemory, ∃ later : Cpu, later.regs = c.regs ∧ later.mem = mem :=
    fun mem => ⟨{ c with mem := mem }, rfl, rfl⟩
  obtain ⟨later, regs, mem⟩ := exist (callSaveContext c thread next).mem
  have apart' : StackApart later thread := by
    rw [StackApart, regs]
    exact apart
  have same : ∀ k < threadSize, later.mem (thread + BitVec.ofNat 64 k) =
      (callSaveContext c thread next).mem (thread + BitVec.ofNat 64 k) := by
    intro k _
    rw [mem]
  have resumed := trip.resumes later next apart' same
  have shifted : ∀ k < 8, readByte (c.regs .r15) k =
      if k = 0 then c.mem (thread + BitVec.ofNat 64 64) else readByte (c.regs .r15) (k - 1) := by
    intro k inside
    rw [← @restored_r15 c later thread next next apart apart' same k inside,
      resumed.saved .r15 (by simp)]
  have uniform : ∀ k < 8, readByte (c.regs .r15) k = c.mem (thread + BitVec.ofNat 64 64) := by
    intro k
    induction k with
    | zero => exact fun inside => shifted 0 inside
    | succ k inductionHypothesis =>
        intro inside
        rw [shifted (k + 1) inside, if_neg (Nat.succ_ne_zero k), Nat.add_sub_cancel]
        exact inductionHypothesis (by omega)
  have kept := trip.outside 72 (by decide) (by decide)
  rw [callSaveContext_neighbour next apart, uniform 7 (by decide)] at kept
  exact ⟨uniform, kept.symm⟩

/-- The bytes of `%r15` being the ones next to its slot is enough for a round trip. -/
theorem Uniform.roundTrip (apart : StackApart c thread) (uniform : Uniform c thread) :
    ContextRoundTrip c thread next := by
  obtain ⟨uniform, neighbour⟩ := uniform
  constructor
  · intro later after apart' same
    have word := @restored_word c later thread next after apart apart' same
    obtain ⟨ip, sp, bp, rbx, r12, r13, r14, -⟩ := callRestoreContext_regs later thread after
    refine ⟨ip.trans (word 2 rfl (by simp [contextFields]) (by decide)),
      sp.trans (word 0 rfl (by simp [contextFields]) (by decide)),
      bp.trans (word 1 rfl (by simp [contextFields]) (by decide)), ?_,
      restored_fsBase apart apart' same⟩
    intro r member
    simp only [List.mem_cons, List.not_mem_nil, or_false] at member
    rcases member with rfl | rfl | rfl | rfl | rfl
    · exact rbx.trans (word 5 rfl (by simp [contextFields]) (by decide))
    · exact r12.trans (word 6 rfl (by simp [contextFields]) (by decide))
    · exact r13.trans (word 7 rfl (by simp [contextFields]) (by decide))
    · exact r14.trans (word 8 rfl (by simp [contextFields]) (by decide))
    · apply word_ext
      intro k inside
      rw [restored_r15 apart apart' same inside, uniform k inside]
      by_cases first : k = 0
      · rw [if_pos first]
      · rw [if_neg first, uniform (k - 1) (by omega)]
  · intro k low inside
    rw [contextSize] at low
    by_cases first : k = 72
    · rw [first, callSaveContext_neighbour next apart, uniform 7 (by decide), neighbour]
    · exact callSaveContext_kept next apart inside (Or.inr (by omega))

/-- A context switch brings a thread back as it was exactly when all bytes of `%r15` are the byte that
was in the structure before its slot, and that byte is also the first one of `page_directory`. -/
theorem context_round_trip_iff (apart : StackApart c thread) :
    ContextRoundTrip c thread next ↔ Uniform c thread :=
  ⟨ContextRoundTrip.uniform apart, Uniform.roundTrip apart⟩

end RoundTrip

/-! ## Two threads -/

/-- A processor with a stack at `0x2000`, the value `r15` in `%r15`, and zeros everywhere else. -/
def idleCpu (r15 : BitVec 64) : Cpu where
  regs r := if r = .rsp then 0x2000 else if r = .r15 then r15 else 0
  rip := 0
  msr _ := 0
  mem _ := 0

theorem idleCpu_apart (r15 : BitVec 64) : StackApart (idleCpu r15) 0x1000 := by
  intro i low k inside same
  have numbers := congrArg BitVec.toNat same
  rw [threadSize, contextSize] at inside
  rw [show (idleCpu r15).regs .rsp = 0x2000 from rfl] at numbers
  simp only [BitVec.ofNat_eq_ofNat, BitVec.toNat_add, BitVec.toNat_sub, BitVec.toNat_ofNat] at numbers
  omega

theorem context_round_trip_iff_example :
    StackApart (idleCpu 0) 0x1000 ∧ ContextRoundTrip (idleCpu 0) 0x1000 0x3000 :=
  ⟨idleCpu_apart 0, (context_round_trip_iff (idleCpu_apart 0)).mpr ⟨by decide, by decide⟩⟩

/-- With 1 in `%r15` the round trip fails: it comes back as 0x100. -/
theorem context_loses_r15 : ¬ ContextRoundTrip (idleCpu 1) 0x1000 0x3000 := by
  intro trip
  have first := (trip.uniform (idleCpu_apart 1)).1 0 (by decide)
  exact absurd first (by decide)

end Voxel.Proofs
