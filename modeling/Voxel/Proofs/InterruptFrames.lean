/-
Module: Voxel.Proofs.InterruptFrames
Layer: Proofs
Purpose: The way into the kernel and back. A handler gets the registers of the interrupted code in
  `struct regs`, whatever the vector, and what it leaves there is what the code goes on with; so a
  program cannot see the interrupts that come between its instructions, and sees of a system call its
  result and nothing else.
Trusted boundary: none
Main exports: enter_frame, leave_regs, Returns, interrupts_invisible, system_call
-/
import Mathlib.Logic.Function.Iterate
import Voxel.Kernel.Interrupts

namespace Voxel.Proofs

open Voxel.Lib Voxel.Lib.X64 Voxel.Kernel

/-! ## struct regs in memory -/

/-- The words of the structure that is read are the words in memory. -/
theorem readRegs_words (mem : ByteMemory) (address : BitVec 64) :
    (readRegs mem address).words = words mem address regsWords := by
  rw [words_eq_map]
  rfl

theorem Regs.words_length (r : Regs) : r.words.length = regsWords := rfl

theorem Regs.words_injective {r other : Regs} (same : r.words = other.words) : r = other := by
  cases r
  cases other
  simpa [Regs.words] using same

/-- The structure is read from its bytes only. -/
theorem readRegs_congr {mem other : ByteMemory} {address : BitVec 64}
    (same : ∀ i < 8 * regsWords, mem (address + BitVec.ofNat 64 i) = other (address + BitVec.ofNat 64 i)) :
    readRegs mem address = readRegs other address := by
  apply Regs.words_injective
  rw [readRegs_words, readRegs_words]
  exact words_congr same

/-- The assignment to the field `rax`. -/
theorem readRegs_storeRax (mem : ByteMemory) (address value : BitVec 64) :
    readRegs (mem.store (address + BitVec.ofNat 64 (8 * 14)) 8 value) address =
      { readRegs mem address with rax := value } := by
  apply Regs.words_injective
  rw [readRegs_words, words_store _ _ _ (by decide) (by decide), ← readRegs_words]
  rfl

/-- What a machine has in `struct regs`, with the two words that tell the interrupt. -/
def regsOf (m : Machine) (intNo errCode : BitVec 64) : Regs where
  r15 := m.cpu.regs .r15
  r14 := m.cpu.regs .r14
  r13 := m.cpu.regs .r13
  r12 := m.cpu.regs .r12
  r11 := m.cpu.regs .r11
  r10 := m.cpu.regs .r10
  r9 := m.cpu.regs .r9
  r8 := m.cpu.regs .r8
  rbp := m.cpu.regs .rbp
  rdi := m.cpu.regs .rdi
  rsi := m.cpu.regs .rsi
  rdx := m.cpu.regs .rdx
  rcx := m.cpu.regs .rcx
  rbx := m.cpu.regs .rbx
  rax := m.cpu.regs .rax
  intNo := intNo
  errCode := errCode
  rip := m.cpu.rip
  cs := m.cs
  rflags := m.rflags
  rsp := m.cpu.regs .rsp
  ss := m.ss

/-! ## The way in -/

/-- The error code in the structure: the one of the processor, or the zero of the stub. -/
def errorOf (vector : Nat) (error : BitVec 64) : BitVec 64 := if vector ∈ pushesError then error else 0

/-- Every stub pushes its own vector, and a zero exactly when the processor has pushed no error code. -/
theorem stubs_balanced : ∀ stub ∈ stubs,
    (stub.1 ∉ pushesError ∧ stub.2 = isrNoErr stub.1) ∨ (stub.1 ∈ pushesError ∧ stub.2 = isrErr stub.1) := by
  decide

/-- What is on the stack when `isr_common` begins. -/
def stubbed (m : Machine) (vector : Nat) (error : BitVec 64) : List (BitVec 64) :=
  [m.ss, m.cpu.regs .rsp, m.rflags, m.cs, m.cpu.rip, errorOf vector error, BitVec.ofNat 64 vector]

/-- The machine at `isr_common`. -/
def atCommon (m : Machine) (rsp0 entry : BitVec 64) (vector : Nat) (error : BitVec 64) : Machine where
  cpu := { (m.cpu.setReg .rsp (m.handlerStack rsp0)).pushAll (stubbed m vector error) with rip := entry }
  cs := 8
  ss := if m.cs &&& 3 = 0 then m.ss else 0
  rflags := m.rflags &&& ~~~gateFlags

/-- The stub completes what the processor has pushed. -/
theorem enter_stub (m : Machine) (rsp0 entry : BitVec 64) {vector : Nat} (error : BitVec 64)
    {code : List StackInstr} (known : (vector, code) ∈ stubs) :
    enter m rsp0 entry vector error code =
      Machine.run isrCommonEntry (atCommon m rsp0 entry vector error) := by
  rcases stubs_balanced _ known with ⟨quiet, balanced⟩ | ⟨pushes, balanced⟩
  · have noErr : code = isrNoErr vector := balanced
    have none_ : vector ∉ pushesError := quiet
    rw [enter, atCommon, stubbed, errorOf, if_neg none_, if_neg none_, noErr]
    rfl
  · have err : code = isrErr vector := balanced
    have some_ : vector ∈ pushesError := pushes
    rw [enter, atCommon, stubbed, errorOf, if_pos some_, if_pos some_, err]
    rfl

section Entry

variable (m : Machine) (rsp0 entry : BitVec 64) (vector : Nat) (error : BitVec 64)

/-- The word that `isr_common` compares is the code segment of the interrupted code. -/
theorem atCommon_cs : (atCommon m rsp0 entry vector error).cpu.mem.load
    ((atCommon m rsp0 entry vector error).cpu.address 24 .rsp) 8 = m.cs := by
  have onStack := words_pushAll (m.cpu.setReg .rsp (m.handlerStack rsp0)) (stubbed m vector error)
    (by simp [stubbed])
  have third := congrArg (·[3]?) onStack
  simp only [words_getElem? _ _ (show 3 < (stubbed m vector error).length by simp [stubbed])] at third
  exact Option.some.inj third

/-- The machine after the comparison, the jump and the exchange of the GS bases. -/
def gsReady (m : Machine) (cs : BitVec 64) : Machine :=
  { m.setZf (decide (cs = 8)) with cpu := if cs = 8 then m.cpu else m.cpu.swapgs }

/-- The GS bases after the exchange, or without it. -/
def gsBases (c : Cpu) (cs : BitVec 64) : BitVec 32 → BitVec 64 := (if cs = 8 then c else c.swapgs).msr

theorem gsBases_congr {c c' : Cpu} (same : c.msr = c'.msr) (cs : BitVec 64) :
    gsBases c cs = gsBases c' cs := by
  rw [gsBases, gsBases]
  split
  · exact same
  · simp only [Cpu.swapgs, Cpu.setMsr, same]

theorem gsReady_cpu (m : Machine) (cs : BitVec 64) :
    (gsReady m cs).cpu = { m.cpu with msr := gsBases m.cpu cs } := by
  rw [gsReady, gsBases]
  by_cases kernel : cs = 8
  · simp only [if_pos kernel]
  · simp only [if_neg kernel]
    rfl

/-- The exchange is made unless the kernel itself was interrupted. -/
theorem runFrom_checkGs (m : Machine) (rest : List StackInstr) :
    Machine.runFrom (.cmpq 8 24 .rsp :: .je 1 :: .swapgs :: rest) 0 m =
      Machine.runFrom rest 0 (gsReady m (m.cpu.mem.load (m.cpu.address 24 .rsp) 8)) := by
  change Machine.runFrom (.swapgs :: rest) (if (m.setZf _).zf then 1 else 0) (m.setZf _) = _
  rw [Machine.zf_setZf, gsReady]
  by_cases kernel : m.cpu.mem.load (m.cpu.address 24 .rsp) 8 = 8
  · rw [if_pos (decide_eq_true kernel), if_pos kernel]
    rfl
  · rw [if_neg (by simpa using kernel), if_neg kernel]
    rfl

/-- The machine at the call of `isr_handler`, from the one at `isr_common` with its GS bases exchanged or
not. -/
def saveAll (m : Machine) : Machine :=
  let saved := m.cpu.pushAll (savedRegs.map m.cpu.regs)
  { m with cpu := saved.setReg .rdi (saved.regs .rsp), rflags := m.rflags &&& ~~~0x400 }

/-- The machine at the call of `isr_handler`. -/
theorem enter_eq {code : List StackInstr} (known : (vector, code) ∈ stubs) :
    enter m rsp0 entry vector error code =
      saveAll (gsReady (atCommon m rsp0 entry vector error) m.cs) := by
  have common : isrCommonEntry =
      .cmpq 8 24 .rsp :: .je 1 :: .swapgs :: (savedRegs.map StackInstr.push ++ [.cld, .movq .rsp .rdi]) :=
    rfl
  rw [enter_stub m rsp0 entry error known, Machine.run, common, runFrom_checkGs, atCommon_cs,
    Machine.runFrom_append _ _ _ (by decide), Machine.foldl_push _ _ (by decide)]
  rfl

/-- The words on the stack of the handler, from its top down. -/
def onStack : List (BitVec 64) := stubbed m vector error ++ savedRegs.map m.cpu.regs

/-- The processor on which they are pushed: on the stack of the handler, with its GS bases exchanged unless
the kernel was interrupted. -/
def onTop : Cpu :=
  { (m.cpu.setReg .rsp (m.handlerStack rsp0)) with
    rip := entry, msr := gsBases m.cpu m.cs }

/-- All that is on the stack of the handler was pushed there. -/
theorem enter_cpu {code : List StackInstr} (known : (vector, code) ∈ stubs) :
    (enter m rsp0 entry vector error code).cpu =
      ((onTop m rsp0 entry).pushAll (onStack m vector error)).setReg .rdi
        (((onTop m rsp0 entry).pushAll (onStack m vector error)).regs .rsp) := by
  have ready : (gsReady (atCommon m rsp0 entry vector error) m.cs).cpu =
      (onTop m rsp0 entry).pushAll (stubbed m vector error) := by
    have msr : (atCommon m rsp0 entry vector error).cpu.msr = m.cpu.msr := Cpu.pushAll_msr ..
    rw [onTop, Cpu.pushAll_with, gsReady_cpu]
    simp only [gsBases_congr msr]
    rfl
  have regs : savedRegs.map (gsReady (atCommon m rsp0 entry vector error) m.cs).cpu.regs =
      savedRegs.map m.cpu.regs := by
    apply List.map_congr_left
    intro r member
    have other : r ≠ .rsp := fun same => absurd (same ▸ member) (by decide)
    rw [ready, Cpu.pushAll_regs _ _ other]
    exact Cpu.setReg_of_ne _ other _
  rw [enter_eq m rsp0 entry vector error known, saveAll, regs, ready, onStack, Cpu.pushAll_append]

/-- The address of the structure that the handler gets. -/
def regsAt : BitVec 64 := m.handlerStack rsp0 - BitVec.ofNat 64 (8 * regsWords)

theorem enter_rdi {code : List StackInstr} (known : (vector, code) ∈ stubs) :
    (enter m rsp0 entry vector error code).cpu.regs .rdi = regsAt m rsp0 := by
  have top : (onTop m rsp0 entry).regs .rsp = m.handlerStack rsp0 := Cpu.setReg_self m.cpu .rsp _
  rw [enter_cpu m rsp0 entry vector error known, Cpu.setReg_self, Cpu.pushAll_rsp, top]
  rfl

/-- The structure that the handler gets has what the interrupted code had. -/
theorem enter_frame {code : List StackInstr} (known : (vector, code) ∈ stubs) :
    readRegs (enter m rsp0 entry vector error code).cpu.mem (regsAt m rsp0) =
      regsOf m (BitVec.ofNat 64 vector) (errorOf vector error) := by
  apply Regs.words_injective
  rw [readRegs_words, ← enter_rdi m rsp0 entry vector error known, enter_cpu m rsp0 entry vector error known,
    Cpu.setReg_self, Cpu.setReg_mem]
  exact words_pushAll (onTop m rsp0 entry) (onStack m vector error) (by simp [onStack, stubbed, savedRegs])

/-- Outside the structure nothing is written. -/
theorem enter_outside {code : List StackInstr} (known : (vector, code) ∈ stubs) {a : BitVec 64}
    (outside : ∀ i < 8 * regsWords, a ≠ regsAt m rsp0 + BitVec.ofNat 64 i) :
    (enter m rsp0 entry vector error code).cpu.mem a = m.cpu.mem a := by
  rw [← enter_rdi m rsp0 entry vector error known] at outside
  rw [enter_cpu m rsp0 entry vector error known, Cpu.setReg_mem]
  rw [enter_cpu m rsp0 entry vector error known, Cpu.setReg_self] at outside
  exact Cpu.pushAll_outside (onTop m rsp0 entry) (onStack m vector error) outside

/-- The GS bases are exchanged unless the kernel was interrupted. -/
theorem enter_msr {code : List StackInstr} (known : (vector, code) ∈ stubs) :
    (enter m rsp0 entry vector error code).cpu.msr = gsBases m.cpu m.cs := by
  rw [enter_cpu m rsp0 entry vector error known, Cpu.setReg_msr, Cpu.pushAll_msr]
  rfl

end Entry

/-! ## The way back -/

/-- What `iretq` brings back when the registers have been popped and the stack pointer is at the third word
after them. -/
theorem iretq_regs {m : Machine} {mem : ByteMemory} {base : BitVec 64} (memory : m.cpu.mem = mem)
    (rsp : m.cpu.regs .rsp = base + BitVec.ofNat 64 (8 * 17))
    (popped : ∀ (k : Nat) (dst : Reg), savedRegs.reverse[k]? = some dst →
      m.cpu.regs dst = mem.load (base + BitVec.ofNat 64 (8 * k)) 8) :
    regsOf m.iretq (readRegs mem base).intNo (readRegs mem base).errCode = readRegs mem base := by
  have regs : ∀ (k : Nat) (dst : Reg), savedRegs.reverse[k]? = some dst →
      m.iretq.cpu.regs dst = mem.load (base + BitVec.ofNat 64 (8 * k)) 8 := by
    intro k dst here
    have other : dst ≠ .rsp := fun same => absurd (same ▸ List.mem_of_getElem? here) (by decide)
    rw [← popped k dst here, Machine.iretq, Cpu.setReg_of_ne _ other]
  have word : ∀ d : Nat, m.cpu.mem.load (m.cpu.address d .rsp) 8 =
      mem.load (base + BitVec.ofNat 64 (8 * 17 + d)) 8 := by
    intro d
    rw [memory, Cpu.address, rsp, BitVec.add_assoc, ← BitVec.ofNat_add]
  have stack : m.iretq.cpu.regs .rsp = m.cpu.mem.load (m.cpu.address 24 .rsp) 8 := Cpu.setReg_self ..
  simp only [regsOf, readRegs, Regs.mk.injEq]
  exact ⟨regs 0 .r15 rfl, regs 1 .r14 rfl, regs 2 .r13 rfl, regs 3 .r12 rfl, regs 4 .r11 rfl,
    regs 5 .r10 rfl, regs 6 .r9 rfl, regs 7 .r8 rfl, regs 8 .rbp rfl, regs 9 .rdi rfl, regs 10 .rsi rfl,
    regs 11 .rdx rfl, regs 12 .rcx rfl, regs 13 .rbx rfl, regs 14 .rax rfl, trivial, trivial, word 0, word 8, word 16,
    stack.trans (word 24), word 32⟩

theorem popAll_saved_rsp (c : Cpu) :
    (c.popAll savedRegs.reverse).regs .rsp = c.regs .rsp + BitVec.ofNat 64 (8 * 15) := by
  have fifteen : savedRegs.reverse.length = 15 := rfl
  rw [Cpu.popAll_rsp c (by decide), fifteen]

theorem popAll_saved (c : Cpu) (k : Nat) (dst : Reg) (here : savedRegs.reverse[k]? = some dst) :
    (c.popAll savedRegs.reverse).regs dst =
      c.mem.load (c.regs .rsp + BitVec.ofNat 64 (8 * k)) 8 :=
  popAll_reg c (by decide) (by decide) here

/-- What `iretq` brings back after the pops from a stack, whatever happens to the model specific registers
and the flags before it. -/
theorem popped_iretq (m : Machine) (c : Cpu) (cpu : m.cpu =
      (Cpu.setReg { c.popAll savedRegs.reverse with msr := m.cpu.msr } .rsp
        ((c.popAll savedRegs.reverse).regs .rsp + 16))) :
    regsOf m.iretq (readRegs c.mem (c.regs .rsp)).intNo (readRegs c.mem (c.regs .rsp)).errCode =
      readRegs c.mem (c.regs .rsp) := by
  apply iretq_regs
  · rw [cpu, Cpu.setReg_mem, Cpu.popAll_mem]
  · rw [cpu, Cpu.setReg_self, popAll_saved_rsp, BitVec.add_assoc]
    rfl
  · intro k dst here
    have other : dst ≠ .rsp := fun same => absurd (same ▸ List.mem_of_getElem? here) (by decide)
    rw [cpu, Cpu.setReg_of_ne _ other]
    exact popAll_saved c k dst here

/-- The machine after `add $16, %rsp`. -/
def addq16 (m : Machine) : Machine := (StackInstr.addq 16 .rsp).exec m

/-- The way out of `isr_common`: the structure that `isr_handler` returned comes back, and the GS bases are
exchanged when it is one of a program. -/
theorem leave_regs (m : Machine) (r : Regs) (frame : readRegs m.cpu.mem (m.cpu.regs .rax) = r) :
    regsOf (leave m) r.intNo r.errCode = r ∧ (leave m).cpu.mem = m.cpu.mem ∧
      (leave m).cpu.msr = gsBases m.cpu r.cs := by
  have code : isrCommonExit = (.movq .rax .rsp :: savedRegs.reverse.map StackInstr.pop) ++
      .cmpq 8 24 .rsp :: .je 1 :: .swapgs :: [.addq 16 .rsp, .iretq] :=
    rfl
  -- the machine once the registers are popped from the structure
  let top : Machine := { m with cpu := m.cpu.setReg .rsp (m.cpu.regs .rax) }
  let popped : Machine := { top with cpu := top.cpu.popAll savedRegs.reverse }
  have run : leave m = Machine.runFrom [.addq 16 .rsp, .iretq] 0
      (gsReady popped (popped.cpu.mem.load (popped.cpu.address 24 .rsp) 8)) := by
    rw [leave, Machine.run, code, Machine.runFrom_append _ _ _ (by decide), List.foldl_cons,
      Machine.foldl_pop, runFrom_checkGs]
    rfl
  have cs : popped.cpu.mem.load (popped.cpu.address 24 .rsp) 8 = r.cs := by
    have rax : top.cpu.regs .rsp = m.cpu.regs .rax := Cpu.setReg_self ..
    rw [Cpu.address, popAll_saved_rsp, Cpu.popAll_mem, rax, BitVec.add_assoc, ← frame]
    rfl
  rw [cs] at run
  have back : readRegs top.cpu.mem (top.cpu.regs .rsp) = r := by
    rw [← frame, show top.cpu.regs .rsp = m.cpu.regs .rax from Cpu.setReg_self ..]
    rfl
  have result : leave m = Machine.iretq (addq16 (gsReady popped r.cs)) := run
  have cpu : (addq16 (gsReady popped r.cs)).cpu = Cpu.setReg
      { top.cpu.popAll savedRegs.reverse with msr := gsBases m.cpu r.cs } .rsp
      ((top.cpu.popAll savedRegs.reverse).regs .rsp + 16) := by
    have kept : popped.cpu.msr = m.cpu.msr := Cpu.popAll_msr ..
    simp only [addq16, StackInstr.exec, Machine.setZf, gsReady_cpu, gsBases_congr kept]
    rfl
  have regs := popped_iretq (addq16 (gsReady popped r.cs)) top.cpu (by rw [cpu, Cpu.setReg_msr])
  rw [back, ← result] at regs
  refine ⟨regs, ?_, ?_⟩
  · rw [result, Machine.iretq, Cpu.setReg_mem, cpu, Cpu.setReg_mem, Cpu.popAll_mem]
    rfl
  · rw [result, Machine.iretq, Cpu.setReg_msr, cpu, Cpu.setReg_msr]

/-- Two exchanges undo each other, and so do none. -/
theorem gsBases_twice {c c' : Cpu} {cs : BitVec 64} (once : c'.msr = gsBases c cs) :
    gsBases c' cs = c.msr := by
  rw [gsBases] at once ⊢
  by_cases kernel : cs = 8
  · rw [if_pos kernel] at once ⊢
    exact once
  · rw [if_neg kernel] at once ⊢
    have twice : c'.swapgs.msr = c.swapgs.swapgs.msr := by
      simp only [Cpu.swapgs, Cpu.setMsr] at once ⊢
      rw [once]
    rw [twice, Cpu.swapgs_swapgs]

/-! ## What the interrupted code sees -/

/-- `isr_handler`, called in `entered`, has returned in `returned`. It returns the structure that it got, in
which it has set `rax` to `answer` and nothing else, and the model specific registers are as they were. -/
structure Returns (entered returned : Machine) (answer : BitVec 64) : Prop where
  rax : returned.cpu.regs .rax = entered.cpu.regs .rdi
  frame : readRegs returned.cpu.mem (entered.cpu.regs .rdi) =
    { readRegs entered.cpu.mem (entered.cpu.regs .rdi) with rax := answer }
  msr : returned.cpu.msr = entered.cpu.msr

/-- The interrupted code goes on as it was, but for `%rax`. -/
theorem interrupt_returns {m : Machine} {rsp0 entry : BitVec 64} {vector : Nat} {error : BitVec 64}
    {code : List StackInstr} (known : (vector, code) ∈ stubs) {returned : Machine} {answer : BitVec 64}
    (returns : Returns (enter m rsp0 entry vector error code) returned answer) (intNo errCode : BitVec 64) :
    regsOf (leave returned) intNo errCode = { regsOf m intNo errCode with rax := answer } ∧
      (leave returned).cpu.msr = m.cpu.msr ∧ (leave returned).cpu.mem = returned.cpu.mem := by
  have frame := returns.frame
  rw [enter_rdi m rsp0 entry vector error known, enter_frame m rsp0 entry vector error known] at frame
  have rax := returns.rax
  rw [enter_rdi m rsp0 entry vector error known] at rax
  rw [← rax] at frame
  obtain ⟨regs, mem, msr⟩ := leave_regs returned _ frame
  refine ⟨?_, ?_, mem⟩
  · simpa [regsOf] using regs
  · rw [msr]
    apply gsBases_twice
    rw [returns.msr, enter_msr m rsp0 entry vector error known]
    rfl

/-! ## Runs of a program with interrupts -/

/-- Two machines are the same for a program whose memory is at the addresses `user`: its registers, its
place and flags, its segments, the model specific registers and its memory. -/
structure SameForProgram (user : BitVec 64 → Prop) (a b : Machine) : Prop where
  regs : regsOf a 0 0 = regsOf b 0 0
  msr : a.cpu.msr = b.cpu.msr
  mem : ∀ address, user address → a.cpu.mem address = b.cpu.mem address

theorem SameForProgram.refl (user : BitVec 64 → Prop) (m : Machine) : SameForProgram user m m :=
  ⟨rfl, rfl, fun _ _ => rfl⟩

theorem SameForProgram.trans {user : BitVec 64 → Prop} {a b c : Machine} (first : SameForProgram user a b)
    (second : SameForProgram user b c) : SameForProgram user a c :=
  ⟨first.regs.trans second.regs, first.msr.trans second.msr,
    fun address mine => (first.mem address mine).trans (second.mem address mine)⟩

/-- From `m` the program has taken a number of steps, with any number of interrupts between them. An
interrupt comes by any of the stubs, to a stack that is not the program's memory; what `isr_handler` does
before it returns is not known, except that it keeps `struct regs` and the memory of the program. -/
inductive Interrupted (user : BitVec 64 → Prop) (step : Machine → Machine) (m : Machine) :
    Nat → Machine → Prop
  | start : Interrupted user step m 0 m
  | step {k : Nat} {now : Machine} : Interrupted user step m k now → Interrupted user step m (k + 1) (step now)
  | interrupt {k : Nat} {now returned : Machine} {rsp0 entry : BitVec 64} {vector : Nat} {error : BitVec 64}
      {code : List StackInstr} : Interrupted user step m k now → (vector, code) ∈ stubs →
      (∀ i < 8 * regsWords, ¬ user (regsAt now rsp0 + BitVec.ofNat 64 i)) →
      Returns (enter now rsp0 entry vector error code) returned (now.cpu.regs .rax) →
      (∀ address, user address →
        returned.cpu.mem address = (enter now rsp0 entry vector error code).cpu.mem address) →
      Interrupted user step m k (leave returned)

/-- One interrupt changes nothing for the program. -/
theorem interrupt_same {user : BitVec 64 → Prop} {now returned : Machine} {rsp0 entry : BitVec 64}
    {vector : Nat} {error : BitVec 64} {code : List StackInstr} (known : (vector, code) ∈ stubs)
    (apart : ∀ i < 8 * regsWords, ¬ user (regsAt now rsp0 + BitVec.ofNat 64 i))
    (returns : Returns (enter now rsp0 entry vector error code) returned (now.cpu.regs .rax))
    (kept : ∀ address, user address →
      returned.cpu.mem address = (enter now rsp0 entry vector error code).cpu.mem address) :
    SameForProgram user now (leave returned) := by
  obtain ⟨regs, msr, mem⟩ := interrupt_returns known returns 0 0
  refine ⟨?_, msr.symm, ?_⟩
  · rw [regs]
    rfl
  · intro address mine
    rw [mem, kept address mine, enter_outside now rsp0 entry vector error known]
    intro i inside same
    exact apart i inside (same ▸ mine)

/-- A program cannot see the interrupts between its instructions: after any of them, it is where it is
without them. -/
theorem interrupts_invisible {user : BitVec 64 → Prop} {step : Machine → Machine}
    (local_ : ∀ a b, SameForProgram user a b → SameForProgram user (step a) (step b)) {m now : Machine}
    {k : Nat} (run : Interrupted user step m k now) : SameForProgram user (step^[k] m) now := by
  induction run with
  | start => exact SameForProgram.refl user m
  | step _ inductionHypothesis =>
      rw [Function.iterate_succ_apply']
      exact local_ _ _ inductionHypothesis
  | interrupt _ known apart returns kept inductionHypothesis =>
      exact inductionHypothesis.trans (interrupt_same known apart returns kept)

/-- A program at `0x400000` with a stack at `0x7000` and zeros elsewhere. -/
def smallProgram : Machine where
  cpu :=
    { regs := fun r => if r = .rsp then 0x7000 else 0
      rip := 0x400000
      msr := fun _ => 0
      mem := fun _ => 0 }
  cs := 0x1B
  ss := 0x23
  rflags := 0x202

/-- The lower half of the addresses. -/
def lowerHalf (address : BitVec 64) : Prop := address.toNat < 2 ^ 47

/-- The kernel stack of a program. -/
def kernelStack : BitVec 64 := 0xFFFF800000010000

theorem regsAt_apart {m : Machine} (program : m.cs = 0x1B) :
    ∀ i < 8 * regsWords, ¬ lowerHalf (regsAt m kernelStack + BitVec.ofNat 64 i) := by
  intro i inside
  have top : regsAt m kernelStack = 0xFFFF80000000FF50 := by
    rw [regsAt, Machine.handlerStack, program, if_neg (by decide)]
    rfl
  rw [regsWords] at inside
  rw [top, lowerHalf]
  simp only [BitVec.toNat_add, BitVec.toNat_ofNat, BitVec.ofNat_eq_ofNat]
  omega

/-- The machine in which an `isr_handler` that does nothing has returned. -/
def returnAtOnce (m : Machine) : Machine := { m with cpu := m.cpu.setReg .rax (m.cpu.regs .rdi) }

theorem returnAtOnce_returns {m : Machine} {rsp0 entry error : BitVec 64} {vector : Nat}
    {code : List StackInstr} (known : (vector, code) ∈ stubs) :
    Returns (enter m rsp0 entry vector error code) (returnAtOnce (enter m rsp0 entry vector error code))
      (m.cpu.regs .rax) := by
  refine ⟨Cpu.setReg_self .., ?_, rfl⟩
  have frame := enter_frame m rsp0 entry vector error known
  rw [← enter_rdi m rsp0 entry vector error known] at frame
  rw [returnAtOnce, Cpu.setReg_mem, frame]
  rfl

theorem interrupts_invisible_example : ∃ now,
    Interrupted lowerHalf (fun m => (StackInstr.movq .rsp .rbx).exec m) smallProgram 2 now ∧
      SameForProgram lowerHalf ((fun m => (StackInstr.movq .rsp .rbx).exec m)^[2] smallProgram) now := by
  -- an interrupt of the timer between the two steps
  have run : Interrupted lowerHalf (fun m => (StackInstr.movq .rsp .rbx).exec m) smallProgram 2 _ :=
    .step (@Interrupted.interrupt lowerHalf _ smallProgram 1 _ _ kernelStack 0 32 0 (irq 0 32)
      (.step .start) (by decide) (regsAt_apart rfl) (returnAtOnce_returns (by decide)) fun _ _ => rfl)
  refine ⟨_, run, interrupts_invisible ?_ run⟩
  intro a b same
  refine ⟨?_, same.msr, same.mem⟩
  have fields := same.regs
  simp only [regsOf, Regs.mk.injEq] at fields ⊢
  simp [StackInstr.exec, Cpu.setReg, fields]

/-! ## System calls -/

/-- What the system call of a program with registers `regs` answers, and the rest of the system after it. -/
def callResult {σ : Type} (syscallFuncs : List (Option (SyscallFunc σ))) (regs : Reg → BitVec 64) (rest : σ) :
    BitVec 64 × σ :=
  match syscallFuncs[(regs .rax).toNat]? with
  | some (some func) => func (regs .rbx) (regs .rcx) (regs .rdx) (regs .rsi) (regs .rdi) rest
  | _ => (invalidCall, rest)

theorem syscallHandler_result {σ : Type} (syscallFuncs : List (Option (SyscallFunc σ))) (frame : BitVec 64)
    (m : Machine) (intNo errCode : BitVec 64) (calling : Calling σ) :
    (syscallHandler syscallFuncs frame (regsOf m intNo errCode) calling).1.rax =
        (callResult syscallFuncs m.cpu.regs calling.rest).1 ∧
      (syscallHandler syscallFuncs frame (regsOf m intNo errCode) calling).2.rest =
        (callResult syscallFuncs m.cpu.regs calling.rest).2 := by
  have number : (regsOf m intNo errCode).rax = m.cpu.regs .rax := rfl
  rw [syscallHandler, callResult, number]
  rcases syscallFuncs[(m.cpu.regs .rax).toNat]? with _ | _ | func
  · exact ⟨rfl, rfl⟩
  · exact ⟨rfl, rfl⟩
  · exact ⟨rfl, rfl⟩

/-- The system call of a program: the function of the table that `%rax` names gets the words in `%rbx`,
`%rcx`, `%rdx`, `%rsi` and `%rdi`, and the program goes on after the interrupt with its answer in `%rax` and
everything else as it was, or with `-EINVAL` where the table has no function. -/
theorem system_call {σ : Type} (syscallFuncs : List (Option (SyscallFunc σ))) (calling : Calling σ)
    {m returned : Machine} {rsp0 entry error : BitVec 64} {code : List StackInstr}
    (known : (128, code) ∈ stubs)
    (returns : Returns (enter m rsp0 entry 128 error code) returned
      (syscallHandler syscallFuncs (regsAt m rsp0)
        (readRegs (enter m rsp0 entry 128 error code).cpu.mem (regsAt m rsp0)) calling).1.rax) :
    isrHandler (readRegs (enter m rsp0 entry 128 error code).cpu.mem (regsAt m rsp0)).intNo = .syscall ∧
      regsOf (leave returned) 0 0 =
        { regsOf m 0 0 with rax := (callResult syscallFuncs m.cpu.regs calling.rest).1 } ∧
      (leave returned).cpu.msr = m.cpu.msr ∧
      (syscallHandler syscallFuncs (regsAt m rsp0)
        (readRegs (enter m rsp0 entry 128 error code).cpu.mem (regsAt m rsp0)) calling).2.rest =
        (callResult syscallFuncs m.cpu.regs calling.rest).2 := by
  obtain ⟨regs, msr, -⟩ := interrupt_returns known returns 0 0
  rw [enter_frame m rsp0 entry 128 error known] at regs ⊢
  obtain ⟨answer, rest⟩ := syscallHandler_result syscallFuncs (regsAt m rsp0) m (BitVec.ofNat 64 128)
    (errorOf 128 error) calling
  rw [answer] at regs
  exact ⟨rfl, regs, msr, rest⟩

theorem system_call_example :
    regsOf (leave (returnAtOnce (enter smallProgram kernelStack 0 128 0 (isrNoErr 128)))) 0 0 =
      { regsOf smallProgram 0 0 with rax := 0 } :=
  (system_call [some fun a _ _ _ _ s => (a, s)] ⟨0, 0, ()⟩ (show (128, isrNoErr 128) ∈ stubs by decide)
    (by
      rw [enter_frame _ _ _ _ _ (show (128, isrNoErr 128) ∈ stubs by decide)]
      exact returnAtOnce_returns (by decide))).2.1

end Voxel.Proofs
