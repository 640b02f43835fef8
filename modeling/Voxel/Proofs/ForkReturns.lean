/-
Module: Voxel.Proofs.ForkReturns
Layer: Proofs
Purpose: A system call of `fork` returns twice. The parent comes back from the interrupt with all its
  registers and the answer in `%rax`; the child, whenever it first runs, comes back from the same interrupt
  with the same registers and 0 in `%rax`.
Trusted boundary: none
Main exports: ForkPlaces, forkThread_child, fork_returns_twice
-/
import Voxel.Proofs.ContextSwitch
import Voxel.Proofs.InterruptFrames

namespace Voxel.Proofs

open Voxel.Lib Voxel.Lib.X64 Voxel.Kernel

/-! ## resume_user -/

/-- `resume_user` brings back the structure on the stack, with the GS bases exchanged. -/
theorem resumeUser_regs (m : Machine) (r : Regs) (frame : readRegs m.cpu.mem (m.cpu.regs .rsp) = r) :
    regsOf (Machine.run resumeUser m) r.intNo r.errCode = r ∧
      (Machine.run resumeUser m).cpu.msr = m.cpu.swapgs.msr := by
  have code : resumeUser = savedRegs.reverse.map StackInstr.pop ++ [.addq 16 .rsp, .swapgs, .iretq] := rfl
  let before : Machine := StackInstr.exec (addq16 { m with cpu := m.cpu.popAll savedRegs.reverse }) .swapgs
  have run : Machine.run resumeUser m = before.iretq := by
    rw [Machine.run, code, Machine.runFrom_append _ _ _ (by decide), Machine.foldl_pop]
    rfl
  have msr : before.cpu.msr = m.cpu.swapgs.msr := by
    have kept : (m.cpu.popAll savedRegs.reverse).msr = m.cpu.msr := Cpu.popAll_msr ..
    simp only [before, addq16, StackInstr.exec, Machine.setZf, Cpu.swapgs, Cpu.setMsr, Cpu.setReg_msr, kept]
  have regs := popped_iretq before m.cpu rfl
  rw [frame, ← run] at regs
  refine ⟨regs, ?_⟩
  rw [run, Machine.iretq, Cpu.setReg_msr]
  exact msr

/-! ## Where fork writes -/

/-- The `n` bytes from `a` and the `k` bytes from `b` have none in common. -/
def BytesApart (a : BitVec 64) (n : Nat) (b : BitVec 64) (k : Nat) : Prop :=
  ∀ i < n, ∀ j < k, a + BitVec.ofNat 64 i ≠ b + BitVec.ofNat 64 j

/-- The start of the structure at the top of the child's kernel stack. -/
def childFrame (stack : BitVec 64) : BitVec 64 := stack - BitVec.ofNat 64 (8 * regsWords)

/-- The places of a `fork`: the kernel stack below the current stack pointer, the structure of the parent's
system call, the threads of parent and child, and the top of the child's kernel stack. -/
structure ForkPlaces (c : Cpu) (frame parentThread childThread stack : BitVec 64) : Prop where
  stackParent : BytesApart (c.regs .rsp - 8) 8 parentThread threadSize
  stackFrame : BytesApart (c.regs .rsp - 8) 8 frame (8 * regsWords)
  stackChildThread : BytesApart (c.regs .rsp - 8) 8 childThread contextSize
  stackChild : BytesApart (c.regs .rsp - 8) 8 (childFrame stack) (8 * regsWords)
  frameParent : BytesApart frame (8 * regsWords) parentThread threadSize
  frameChildThread : BytesApart frame (8 * regsWords) childThread contextSize
  frameChild : BytesApart frame (8 * regsWords) (childFrame stack) (8 * regsWords)
  childParent : BytesApart (childFrame stack) (8 * regsWords) parentThread threadSize
  childChildThread : BytesApart (childFrame stack) (8 * regsWords) childThread contextSize
  threads : BytesApart childThread contextSize parentThread threadSize

section Fork

variable {c : Cpu} {frame parentThread childThread stack : BitVec 64} (resume next : BitVec 64)

/-- The structure that `fork` gives the child. -/
def childRegs (c : Cpu) (frame : BitVec 64) : Regs := { readRegs c.mem frame with rax := 0 }

/-- The first four fields of the child's thread. -/
def childFields (c : Cpu) (parentThread stack resume : BitVec 64) : List ByteMemory.Field :=
  [⟨0, 8, childFrame stack⟩, ⟨8, 8, stack⟩, ⟨24, 8, c.mem.load (parentThread + 24) 8⟩, ⟨16, 8, resume⟩]

/-- The memory after `fork` has stored the structure of the child and the first fields of its thread. -/
def storedMem (c : Cpu) (frame parentThread childThread stack resume : BitVec 64) : ByteMemory :=
  (c.mem.storeFields (childFrame stack) (wordFields 0 (childRegs c frame).words)).storeFields childThread
    (childFields c parentThread stack resume)

/-- The memory after the parent's context has been saved as well. -/
def parentSaved (c : Cpu) (frame parentThread childThread stack resume next : BitVec 64) : ByteMemory :=
  ((storedMem c frame parentThread childThread stack resume).store (c.regs .rsp - 8) 8 next).storeFields
    parentThread (contextFields c (c.regs .rsp) next)

/-- The memory after `fork`. -/
theorem forkThread_mem (places : ForkPlaces c frame parentThread childThread stack) :
    (forkThread c frame parentThread childThread stack resume next).mem =
      (parentSaved c frame parentThread childThread stack resume next).storeFields childThread
        (wordFields 32 (words (parentSaved c frame parentThread childThread stack resume next)
          (parentThread + 32) 5)) := by
  have saved := @callSaveContext_mem { c with mem := storedMem c frame parentThread childThread stack resume }
    parentThread next places.stackParent
  have parent : (callSaveContext { c with mem := storedMem c frame parentThread childThread stack resume }
      parentThread next).mem = parentSaved c frame parentThread childThread stack resume next := saved
  rw [← parent]
  rfl

theorem contextFields_inside (c : Cpu) (sp ip : BitVec 64) :
    ∀ f ∈ contextFields c sp ip, f.offset + f.size ≤ threadSize := by
  simp [contextFields, threadSize, contextSize]

theorem childFields_inside (c : Cpu) (parentThread stack resume : BitVec 64) :
    ∀ f ∈ childFields c parentThread stack resume, f.offset + f.size ≤ 32 := by
  simp [childFields]

/-- The save of the parent's context changes its thread and the slot of the return address. -/
theorem parentSaved_outside {a : BitVec 64} (parent : ∀ k < threadSize, a ≠ parentThread + BitVec.ofNat 64 k)
    (slot : ∀ k < 8, a ≠ c.regs .rsp - 8 + BitVec.ofNat 64 k) :
    parentSaved c frame parentThread childThread stack resume next a =
      storedMem c frame parentThread childThread stack resume a := by
  rw [parentSaved, ByteMemory.storeFields_of_ne _ parent (contextFields_inside c _ _),
    ByteMemory.store_of_ne _ _ slot]

/-- Outside the child's thread, the parent's and the slot, only the structure of the child is new. -/
theorem forkThread_apart (places : ForkPlaces c frame parentThread childThread stack) {a : BitVec 64}
    (thread : ∀ k < contextSize, a ≠ childThread + BitVec.ofNat 64 k)
    (parent : ∀ k < threadSize, a ≠ parentThread + BitVec.ofNat 64 k)
    (slot : ∀ k < 8, a ≠ c.regs .rsp - 8 + BitVec.ofNat 64 k) :
    (forkThread c frame parentThread childThread stack resume next).mem a =
      c.mem.storeFields (childFrame stack) (wordFields 0 (childRegs c frame).words) a := by
  have room : ∀ f ∈ wordFields 32 (words (parentSaved c frame parentThread childThread stack resume next)
      (parentThread + 32) 5), f.offset + f.size ≤ contextSize :=
    fun f member => (wordFields_inside (by rw [words_length]; decide) member).2
  rw [forkThread_mem resume next places, ByteMemory.storeFields_of_ne _ thread room,
    parentSaved_outside resume next parent slot, storedMem]
  apply ByteMemory.storeFields_of_ne _ thread
  intro f member
  exact Nat.le_trans (childFields_inside c parentThread stack resume f member) (by decide)

/-- The structure of the parent's system call is not touched. -/
theorem forkThread_frame (places : ForkPlaces c frame parentThread childThread stack) :
    readRegs (forkThread c frame parentThread childThread stack resume next).mem frame =
      readRegs c.mem frame := by
  apply readRegs_congr
  intro i inside
  rw [forkThread_apart resume next places (fun k low => places.frameChildThread i inside k low)
    (fun k low => places.frameParent i inside k low) (fun k low => (places.stackFrame k low i inside).symm)]
  apply ByteMemory.storeFields_of_ne _ fun k low => places.frameChild i inside k low
  intro f member
  exact (wordFields_inside (Nat.le_of_eq (by rw [Regs.words_length, Nat.zero_add])) member).2

/-- The structure of the child is the parent's with 0 in `rax`. -/
theorem forkThread_childFrame (places : ForkPlaces c frame parentThread childThread stack) :
    readRegs (forkThread c frame parentThread childThread stack resume next).mem (childFrame stack) =
      childRegs c frame := by
  apply Regs.words_injective
  rw [readRegs_words]
  have stored := @words_storeFields c.mem (childFrame stack) (childRegs c frame).words (by
    rw [Regs.words_length]
    decide)
  rw [Regs.words_length] at stored
  refine (words_congr ?_).trans stored
  intro i inside
  exact forkThread_apart resume next places (fun k low => places.childChildThread i inside k low)
    (fun k low => places.childParent i inside k low) (fun k low => (places.stackChild k low i inside).symm)

/-- The first fields of the child's thread. -/
theorem forkThread_childField (places : ForkPlaces c frame parentThread childThread stack) {i offset : Nat}
    {value : BitVec 64} (here : (childFields c parentThread stack resume)[i]? = some ⟨offset, 8, value⟩)
    (alone : ∀ g ∈ (childFields c parentThread stack resume).drop (i + 1),
      offset + 8 ≤ g.offset ∨ g.offset + g.size ≤ offset) :
    (forkThread c frame parentThread childThread stack resume next).mem.load
      (childThread + BitVec.ofNat 64 offset) 8 = value := by
  have low : offset + 8 ≤ 32 :=
    childFields_inside c parentThread stack resume _ (List.mem_of_getElem? here)
  have stored : (storedMem c frame parentThread childThread stack resume).load
      (childThread + BitVec.ofNat 64 offset) 8 = value :=
    ByteMemory.load_storeFields _ childThread here (fun g member =>
      Nat.lt_of_le_of_lt (childFields_inside c parentThread stack resume g member) (by decide)) alone
  rw [← stored]
  apply ByteMemory.load_congr
  intro k inside
  have within : offset + k < contextSize := by
    rw [contextSize]
    omega
  rw [BitVec.add_assoc, ← BitVec.ofNat_add, forkThread_mem resume next places,
    ByteMemory.storeFields_outside _ _ (by omega)]
  · exact parentSaved_outside resume next (fun j bound => places.threads _ within j bound)
      (fun j bound => (places.stackChildThread j bound _ within).symm)
  · intro f member
    have room := wordFields_inside (Nat.le_refl _) member
    rw [words_length] at room
    omega
  · intro f member
    have room := wordFields_inside (Nat.le_refl _) member
    omega

/-- Until the child first runs, its structure and its thread stay as `fork` left them, and the stack on which
the switch to it is made does not overlap them. -/
structure ChildKept (forked : Cpu) (childThread stack : BitVec 64) (later : Cpu) : Prop where
  thread : ∀ k < contextSize, later.mem (childThread + BitVec.ofNat 64 k) =
    forked.mem (childThread + BitVec.ofNat 64 k)
  frame : ∀ k < 8 * regsWords, later.mem (childFrame stack + BitVec.ofNat 64 k) =
    forked.mem (childFrame stack + BitVec.ofNat 64 k)
  slotThread : BytesApart (later.regs .rsp - 8) 8 childThread contextSize
  slotFrame : BytesApart (later.regs .rsp - 8) 8 (childFrame stack) (8 * regsWords)

/-- When the child is switched to, it is in `resume_user` with the parent's registers on its stack. -/
theorem forkThread_child (places : ForkPlaces c frame parentThread childThread stack) {later : Cpu}
    (kept : ChildKept (forkThread c frame parentThread childThread stack resume next) childThread stack later)
    (after : BitVec 64) :
    (callRestoreContext later childThread after).rip = resume ∧
      (callRestoreContext later childThread after).regs .rsp = childFrame stack ∧
      (callRestoreContext later childThread after).msr fsBase = c.mem.load (parentThread + 24) 8 ∧
      readRegs (callRestoreContext later childThread after).mem (childFrame stack) = childRegs c frame := by
  have field : ∀ {i offset : Nat} {value : BitVec 64},
      (childFields c parentThread stack resume)[i]? = some ⟨offset, 8, value⟩ →
      (∀ g ∈ (childFields c parentThread stack resume).drop (i + 1),
        offset + 8 ≤ g.offset ∨ g.offset + g.size ≤ offset) →
      (calledMem later after).load (childThread + BitVec.ofNat 64 offset) 8 = value := by
    intro i offset value here alone
    have low : offset + 8 ≤ 32 :=
      childFields_inside c parentThread stack resume _ (List.mem_of_getElem? here)
    rw [← forkThread_childField resume next places here alone]
    apply ByteMemory.load_congr
    intro k inside
    have within : offset + k < contextSize := by
      rw [contextSize]
      omega
    rw [BitVec.add_assoc, ← BitVec.ofNat_add, calledMem, ← kept.thread _ within]
    exact ByteMemory.store_of_ne _ _ fun j bound => (kept.slotThread j bound _ within).symm
  have fields : childFields c parentThread stack resume =
      [⟨0, 8, childFrame stack⟩, ⟨8, 8, stack⟩, ⟨24, 8, c.mem.load (parentThread + 24) 8⟩, ⟨16, 8, resume⟩] :=
    rfl
  obtain ⟨ip, sp, -⟩ := callRestoreContext_regs later childThread after
  refine ⟨?_, ?_, ?_, ?_⟩
  · rw [ip]
    exact @field 3 16 resume rfl (by simp [fields])
  · rw [sp]
    exact @field 0 0 (childFrame stack) rfl (by simp [fields])
  · rw [callRestoreContext, restoreContext_fsBase, call_mem, call_address, call_address, load_halves]
    exact @field 2 24 _ rfl (by simp [fields])
  · rw [← forkThread_childFrame resume next places]
    apply readRegs_congr
    intro i inside
    rw [← kept.frame i inside]
    exact ByteMemory.store_of_ne _ _ fun j bound => (kept.slotFrame j bound i inside).symm

end Fork

/-! ## Both returns -/

/-- A program calls `fork` with `int $0x80`. Whenever the child that was made first runs, it goes on after the
interrupt with the registers of the program, and 0 in `%rax`; and the program itself goes on there with its
registers and the answer of the system call, when `syscall_handler` has put that into the structure. -/
theorem fork_returns_twice {m : Machine} {rsp0 entry error : BitVec 64} {code : List StackInstr}
    (known : (128, code) ∈ stubs) {c : Cpu} {parentThread childThread stack : BitVec 64}
    (resume next : BitVec 64)
    (called : readRegs c.mem (regsAt m rsp0) =
      readRegs (enter m rsp0 entry 128 error code).cpu.mem (regsAt m rsp0))
    (places : ForkPlaces c (regsAt m rsp0) parentThread childThread stack) :
    (∀ (later : Cpu) (after cs ss flags : BitVec 64),
      ChildKept (forkThread c (regsAt m rsp0) parentThread childThread stack resume next) childThread stack
        later →
      (callRestoreContext later childThread after).rip = resume ∧
        (callRestoreContext later childThread after).msr fsBase = c.mem.load (parentThread + 24) 8 ∧
        regsOf (Machine.run resumeUser ⟨callRestoreContext later childThread after, cs, ss, flags⟩) 0 0 =
          { regsOf m 0 0 with rax := 0 }) ∧
      ∀ (returned : Machine) (pid : BitVec 64), returned.cpu.regs .rax = regsAt m rsp0 →
        readRegs returned.cpu.mem (regsAt m rsp0) =
          { readRegs (forkThread c (regsAt m rsp0) parentThread childThread stack resume next).mem
              (regsAt m rsp0) with rax := pid } →
        returned.cpu.msr = (enter m rsp0 entry 128 error code).cpu.msr →
        regsOf (leave returned) 0 0 = { regsOf m 0 0 with rax := pid } ∧
          (leave returned).cpu.msr = m.cpu.msr := by
  have entered := enter_frame m rsp0 entry 128 error known
  constructor
  · intro later after cs ss flags kept
    obtain ⟨ip, sp, tls, frame⟩ := forkThread_child resume next places kept after
    refine ⟨ip, tls, ?_⟩
    rw [← sp] at frame
    obtain ⟨regs, -⟩ := resumeUser_regs ⟨callRestoreContext later childThread after, cs, ss, flags⟩ _ frame
    rw [childRegs, called, entered] at regs
    simpa [regsOf] using regs
  · intro returned pid rax frame msr
    rw [forkThread_frame resume next places, called] at frame
    have returns : Returns (enter m rsp0 entry 128 error code) returned pid :=
      ⟨rax.trans (enter_rdi m rsp0 entry 128 error known).symm,
        by rw [enter_rdi m rsp0 entry 128 error known, frame], msr⟩
    obtain ⟨regs, bases, -⟩ := interrupt_returns known returns 0 0
    exact ⟨regs, bases⟩

/-! ## A fork -/

/-- Two places that do not overlap as numbers. -/
theorem BytesApart.ofNumbers {a b : BitVec 64} {n k : Nat} (low : a.toNat + n < 2 ^ 64) (high : b.toNat + k < 2 ^ 64)
    (apart : a.toNat + n ≤ b.toNat ∨ b.toNat + k ≤ a.toNat) : BytesApart a n b k := by
  intro i inside j within same
  have numbers := congrArg BitVec.toNat same
  simp only [BitVec.toNat_add, BitVec.toNat_ofNat] at numbers
  omega

/-- The processor in `fork`, in the system call of a small program. -/
def inFork : Cpu := (enter smallProgram kernelStack 0 128 0 (isrNoErr 128)).cpu.setReg .rsp 0xFFFF80000000F000

theorem inFork_frame : regsAt smallProgram kernelStack = 0xFFFF80000000FF50 := by
  rw [regsAt, Machine.handlerStack, if_neg (by decide)]
  rfl

/-- The places of this `fork`. -/
theorem inFork_places : ForkPlaces inFork (regsAt smallProgram kernelStack) 0xFFFF800000020000
    0xFFFF800000021000 0xFFFF800000031000 := by
  have rsp : inFork.regs .rsp = 0xFFFF80000000F000 := Cpu.setReg_self ..
  rw [inFork_frame]
  constructor
  all_goals
    first
    | rw [rsp]
      exact BytesApart.ofNumbers (by decide) (by decide) (by decide)
    | exact BytesApart.ofNumbers (by decide) (by decide) (by decide)

/-- A switch made on another stack right after it. -/
theorem childKept_atOnce (forked : Cpu) : ChildKept forked 0xFFFF800000021000 0xFFFF800000031000
    (forked.setReg .rsp 0xFFFF800000041000) := by
  refine ⟨fun _ _ => rfl, fun _ _ => rfl, ?_, ?_⟩
  · rw [Cpu.setReg_self]
    exact BytesApart.ofNumbers (by decide) (by decide) (by decide)
  · rw [Cpu.setReg_self]
    exact BytesApart.ofNumbers (by decide) (by decide) (by decide)

/-- The machine that has returned with the answer in the structure. -/
def answeredMachine (entered : Machine) (mem : ByteMemory) (frame answer : BitVec 64) : Machine :=
  { entered with
    cpu := Cpu.setReg
      { entered.cpu with mem := mem.store (frame + BitVec.ofNat 64 (8 * 14)) 8 answer } .rax frame }

theorem answeredMachine_rax (entered : Machine) (mem : ByteMemory) (frame answer : BitVec 64) :
    (answeredMachine entered mem frame answer).cpu.regs .rax = frame :=
  Cpu.setReg_self ..

theorem answeredMachine_frame (entered : Machine) (mem : ByteMemory) (frame answer : BitVec 64) :
    readRegs (answeredMachine entered mem frame answer).cpu.mem frame =
      { readRegs mem frame with rax := answer } :=
  readRegs_storeRax mem frame answer

theorem answeredMachine_msr (entered : Machine) (mem : ByteMemory) (frame answer : BitVec 64) :
    (answeredMachine entered mem frame answer).cpu.msr = entered.cpu.msr :=
  rfl

/-- The child of this `fork` and, once the answer 2 is in the structure, the program come back. -/
theorem fork_returns_twice_example : ∃ child parent : Machine,
    regsOf child 0 0 = { regsOf smallProgram 0 0 with rax := 0 } ∧
      regsOf parent 0 0 = { regsOf smallProgram 0 0 with rax := 2 } := by
  have known : (128, isrNoErr 128) ∈ stubs := by decide
  have called : readRegs inFork.mem (regsAt smallProgram kernelStack) =
      readRegs (enter smallProgram kernelStack 0 128 0 (isrNoErr 128)).cpu.mem
        (regsAt smallProgram kernelStack) := by
    rw [inFork, Cpu.setReg_mem]
  obtain ⟨first, second⟩ := fork_returns_twice known 0xFFFF800000001000 0xFFFF800000002000 called inFork_places
  obtain ⟨-, -, child⟩ := first _ 0 8 0 0 (childKept_atOnce _)
  obtain ⟨parent, -⟩ := second _ 2 (answeredMachine_rax (enter smallProgram kernelStack 0 128 0 (isrNoErr 128))
    _ _ 2) (answeredMachine_frame _ _ _ 2) (answeredMachine_msr _ _ _ 2)
  exact ⟨_, _, child, parent⟩

end Voxel.Proofs
