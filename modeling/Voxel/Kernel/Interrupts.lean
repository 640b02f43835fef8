/-
Module: Voxel.Kernel.Interrupts
Layer: Kernel
Purpose: The two assembly routines of `kernel/sys/process.s`, instruction by instruction, and the layout of the
  structure of `kernel/sys/process.h` that they work on. How the kernel is entered and left: the assembly of
  `kernel/cpu/isr.s`, `struct regs`, the gates and handlers of `kernel/cpu/idt.c`, the system call table of
  `kernel/sys/syscall.c` as far as the registers go, and the frame that `fork` builds for a child. What the
  handlers of the device lines and the system calls do to the rest of the kernel is a parameter.
Trusted boundary: human-reviewed spec
Main exports: saveContext, restoreContext, contextSize, threadSize, Regs, stubs, isrCommonEntry, isrCommonExit,
  enter, Idt, idtInit, irqSetHandler, handleIrq, syscallHandler, resumeUser, forkThread
-/
import Voxel.Lib.X64

namespace Voxel.Kernel

open Voxel.Lib Voxel.Lib.X64

/-! ## thread_t -/

/-- `sizeof(thread_context_t)`: `sp`, `bp`, `ip`, `tls_base` and `saved[5]`, which is also the offset of
`page_directory` in `thread_t`. -/
def contextSize : Nat := 9 * 8

/-- `sizeof(thread_t)`: the context and `page_directory`. -/
def threadSize : Nat := contextSize + 8

/-- The model specific register that holds the FS base. -/
def fsBase : BitVec 32 := 0xC0000100

/-! ## process.s -/

/-- `save_context`: the registers of the caller go to the context at `%rdi`. -/
def saveContext : List Instr :=
  [ .leaq 8 .rsp .rax,
    .movqStore .rax 0 .rdi,
    .movqStore .rbp 8 .rdi,
    .movqLoad 0 .rsp .rax,
    .movqStore .rax 16 .rdi,
    .movqImm 0xC0000100 .rcx,
    .rdmsr,
    .movlStore .rax 24 .rdi,
    .movlStore .rdx 28 .rdi,
    .movqStore .rbx 32 .rdi,
    .movqStore .r12 40 .rdi,
    .movqStore .r13 48 .rdi,
    .movqStore .r14 56 .rdi,
    .movqStore .r15 65 .rdi,
    .xorq .rax .rax,
    .retq ]

/-- `restore_context`: the registers come from the context at `%rdi`, and execution goes on at its
`ip`. -/
def restoreContext : List Instr :=
  [ .movqLoad 0 .rdi .rsp,
    .movqLoad 8 .rdi .rbp,
    .movlLoad 24 .rdi .rax,
    .movlLoad 28 .rdi .rdx,
    .movqImm 0xC0000100 .rcx,
    .wrmsr,
    .movqLoad 32 .rdi .rbx,
    .movqLoad 40 .rdi .r12,
    .movqLoad 48 .rdi .r13,
    .movqLoad 56 .rdi .r14,
    .movqLoad 64 .rdi .r15,
    .movqImm 1 .rax,
    .jmpq 16 .rdi ]

/-- The call `save_context(&thread)` of C code that goes on at `next`. -/
def callSaveContext (c : Cpu) (thread next : BitVec 64) : Cpu :=
  run saveContext ((c.setReg .rdi thread).call next)

/-- The call `restore_context(&thread)`; it does not come back. -/
def callRestoreContext (c : Cpu) (thread next : BitVec 64) : Cpu :=
  run restoreContext ((c.setReg .rdi thread).call next)

/-! ## struct regs -/

/-- `struct regs`. -/
structure Regs where
  r15 : BitVec 64
  r14 : BitVec 64
  r13 : BitVec 64
  r12 : BitVec 64
  r11 : BitVec 64
  r10 : BitVec 64
  r9 : BitVec 64
  r8 : BitVec 64
  rbp : BitVec 64
  rdi : BitVec 64
  rsi : BitVec 64
  rdx : BitVec 64
  rcx : BitVec 64
  rbx : BitVec 64
  rax : BitVec 64
  intNo : BitVec 64
  errCode : BitVec 64
  rip : BitVec 64
  cs : BitVec 64
  rflags : BitVec 64
  rsp : BitVec 64
  ss : BitVec 64
  deriving DecidableEq, Repr

/-- The words of the structure in memory, lowest first. -/
def Regs.words (r : Regs) : List (BitVec 64) :=
  [r.r15, r.r14, r.r13, r.r12, r.r11, r.r10, r.r9, r.r8, r.rbp, r.rdi, r.rsi, r.rdx, r.rcx, r.rbx, r.rax,
    r.intNo, r.errCode, r.rip, r.cs, r.rflags, r.rsp, r.ss]

/-- `sizeof(struct regs)` in words. -/
def regsWords : Nat := 22

/-- The structure at an address. -/
def readRegs (mem : ByteMemory) (address : BitVec 64) : Regs :=
  let word := fun k => mem.load (address + BitVec.ofNat 64 (8 * k)) 8
  { r15 := word 0, r14 := word 1, r13 := word 2, r12 := word 3, r11 := word 4, r10 := word 5, r9 := word 6,
    r8 := word 7, rbp := word 8, rdi := word 9, rsi := word 10, rdx := word 11, rcx := word 12,
    rbx := word 13, rax := word 14, intNo := word 15, errCode := word 16, rip := word 17, cs := word 18,
    rflags := word 19, rsp := word 20, ss := word 21 }

/-! ## isr.s -/

/-- `ISR_NOERR`: there is no error code, so the stub pushes a zero in its place. -/
def isrNoErr (index : Nat) : List StackInstr := [.pushq 0, .pushq (BitVec.ofNat 64 index)]

/-- `ISR_ERR`: the processor has pushed an error code. -/
def isrErr (index : Nat) : List StackInstr := [.pushq (BitVec.ofNat 64 index)]

/-- `IRQ`: device line `index`, whose vector is `byte`. -/
def irq (_index byte : Nat) : List StackInstr := [.pushq 0, .pushq (BitVec.ofNat 64 byte)]

/-- The stubs that go on at `isr_common`, with the vector of their gate in `idt_init`. -/
def stubs : List (Nat × List StackInstr) :=
  [ (0, isrNoErr 0), (1, isrNoErr 1), (3, isrNoErr 3), (4, isrNoErr 4), (5, isrNoErr 5), (6, isrNoErr 6),
    (7, isrNoErr 7), (8, isrErr 8), (9, isrNoErr 9), (10, isrErr 10), (11, isrErr 11), (12, isrErr 12),
    (13, isrErr 13), (14, isrErr 14), (15, isrNoErr 15), (16, isrNoErr 16), (17, isrErr 17),
    (18, isrNoErr 18), (19, isrNoErr 19), (20, isrNoErr 20), (21, isrErr 21), (22, isrNoErr 22),
    (23, isrNoErr 23), (24, isrNoErr 24), (25, isrNoErr 25), (26, isrNoErr 26), (27, isrNoErr 27),
    (28, isrNoErr 28), (29, isrErr 29), (30, isrErr 30), (31, isrNoErr 31), (32, irq 0 32), (33, irq 1 33),
    (34, irq 2 34), (35, irq 3 35), (36, irq 4 36), (37, irq 5 37), (38, irq 6 38), (39, irq 7 39),
    (40, irq 8 40), (41, irq 9 41), (42, irq 10 42), (43, irq 11 43), (44, irq 12 44), (45, irq 13 45),
    (46, irq 14 46), (47, irq 15 47), (128, isrNoErr 128) ]

/-- The registers that `isr_common` pushes, in order. -/
def savedRegs : List Reg :=
  [.rax, .rbx, .rcx, .rdx, .rsi, .rdi, .rbp, .r8, .r9, .r10, .r11, .r12, .r13, .r14, .r15]

/-- `isr_common` up to the call of `isr_handler`. -/
def isrCommonEntry : List StackInstr :=
  [ .cmpq 8 24 .rsp, .je 1, .swapgs,
    .push .rax, .push .rbx, .push .rcx, .push .rdx, .push .rsi, .push .rdi, .push .rbp, .push .r8,
    .push .r9, .push .r10, .push .r11, .push .r12, .push .r13, .push .r14, .push .r15,
    .cld, .movq .rsp .rdi ]

/-- `isr_common` from the return of `isr_handler` on. -/
def isrCommonExit : List StackInstr :=
  [ .movq .rax .rsp,
    .pop .r15, .pop .r14, .pop .r13, .pop .r12, .pop .r11, .pop .r10, .pop .r9, .pop .r8, .pop .rbp,
    .pop .rdi, .pop .rsi, .pop .rdx, .pop .rcx, .pop .rbx, .pop .rax,
    .cmpq 8 24 .rsp, .je 1, .swapgs,
    .addq 16 .rsp, .iretq ]

/-- `resume_user`, where a child of `fork` starts. -/
def resumeUser : List StackInstr :=
  [ .pop .r15, .pop .r14, .pop .r13, .pop .r12, .pop .r11, .pop .r10, .pop .r9, .pop .r8, .pop .rbp,
    .pop .rdi, .pop .rsi, .pop .rdx, .pop .rcx, .pop .rbx, .pop .rax,
    .addq 16 .rsp, .swapgs, .iretq ]

/-! ## idt.c -/

/-- `idt_entry_t`. -/
structure IdtEntry where
  offset0 : BitVec 16
  selector : BitVec 16
  ist : BitVec 8
  gateType : BitVec 8
  offset1 : BitVec 16
  offset2 : BitVec 32
  zero : BitVec 32
  deriving DecidableEq, Repr

/-- The table `idt`. -/
abbrev Idt := BitVec 8 → IdtEntry

/-- `idt_set_gate`. -/
def idtSetGate (idt : Idt) (n : BitVec 8) (handler : BitVec 64) (selector : BitVec 16) (flags : BitVec 8)
    (userspace : Bool) : Idt :=
  Function.update idt n
    { offset0 := (handler &&& 0xFFFF).setWidth 16
      offset1 := ((handler >>> 16) &&& 0xFFFF).setWidth 16
      offset2 := ((handler >>> 32) &&& 0xFFFFFFFF).setWidth 32
      selector := selector
      ist := 0
      zero := 0
      gateType := flags ||| if userspace then 0x60 else 0 }

/-- The table at boot, all zeros. -/
def emptyIdt : Idt := fun _ => ⟨0, 0, 0, 0, 0, 0, 0⟩

/-- The gates that `idt_init` sets, in order; the last one is open to user programs. -/
def idtGates : List (Nat × Bool) :=
  (List.range 48).map (·, false) ++ [(123, false), (124, false), (125, false), (126, false), (128, true)]

/-- `idt_init`, where the handlers of the vectors are at `isr`. -/
def idtInit (isr : Nat → BitVec 64) : Idt :=
  idtGates.foldl
    (fun idt gate => idtSetGate idt (BitVec.ofNat 8 gate.1) (isr gate.1) 0x08 0x8E gate.2) emptyIdt

/-- The table `irq_routines`: four handlers for each of sixteen lines. A handler works on a state. -/
abbrev IrqRoutines (σ : Type) := Nat → Option (σ → Bool × σ)

/-- The loop of `irq_set_handler`, at slots `i` and on, of which `left` are left. -/
def irqSetHandlerFrom {σ : Type} (routines : IrqRoutines σ) (line : Nat) (handler : σ → Bool × σ) :
    Nat → Nat → IrqRoutines σ
  | _, 0 => routines
  | i, left + 1 =>
      if (routines (i * 16 + line)).isSome then irqSetHandlerFrom routines line handler (i + 1) left
      else Function.update routines (i * 16 + line) (some handler)

/-- `irq_set_handler`. -/
def irqSetHandler {σ : Type} (routines : IrqRoutines σ) (line : Nat) (handler : σ → Bool × σ) :
    IrqRoutines σ :=
  irqSetHandlerFrom routines line handler 0 4

/-- The loop of `handle_irq`; the handlers get the state from each other, and `irqAck` is the
acknowledgement at the end. -/
def handleIrqFrom {σ : Type} (routines : IrqRoutines σ) (irqAck : σ → σ) (line : Nat) : Nat → Nat → σ → σ
  | _, 0, state => irqAck state
  | i, left + 1, state =>
      match routines (i * 16 + line) with
      | none => irqAck state
      | some handler =>
          if (handler state).1 then (handler state).2
          else handleIrqFrom routines irqAck line (i + 1) left (handler state).2

/-- `handle_irq`. -/
def handleIrq {σ : Type} (routines : IrqRoutines σ) (irqAck : σ → σ) (line : Nat) (state : σ) : σ :=
  handleIrqFrom routines irqAck line 0 4 state

/-- What `isr_handler` does with an interrupt. -/
inductive Dispatch
  | exception (desc : String)
  | doubleFault
  | generalProtectionFault
  | pageFault
  | irq (line : Nat)
  | nothing
  | syscall
  | unexpected
  deriving DecidableEq, Repr

/-- The switch of `isr_handler`. -/
def isrHandler (intNo : BitVec 64) : Dispatch :=
  match intNo.toNat with
  | 0 => .exception "divide_by_zero"
  | 3 => .exception "breakpoint"
  | 4 => .exception "overflow"
  | 5 => .exception "bound range exceeded"
  | 6 => .exception "invalid opcode"
  | 7 => .exception "device not available"
  | 8 => .doubleFault
  | 10 => .exception "invalid tss"
  | 11 => .exception "segment not present"
  | 12 => .exception "stack-segment fault"
  | 13 => .generalProtectionFault
  | 14 => .pageFault
  | 16 => .exception "floating point exception"
  | 17 => .exception "alignment check"
  | 18 => .exception "machine check"
  | 19 => .exception "simd floating-point exception"
  | 20 => .exception "virtualization exception"
  | 21 => .exception "control protection exception"
  | 28 => .exception "hypervisor injection exception"
  | 29 => .exception "vmm communication exception"
  | 30 => .exception "security exception"
  | 39 => .nothing
  | 128 => .syscall
  | n => if 32 ≤ n ∧ n ≤ 47 then .irq (n - 32) else .unexpected

/-! ## syscall.c -/

/-- `syscall_func_t`: a system call takes five words and changes the rest of the system. -/
abbrev SyscallFunc (σ : Type) := BitVec 64 → BitVec 64 → BitVec 64 → BitVec 64 → BitVec 64 → σ → BitVec 64 × σ

/-- The two fields of `current_process` that `syscall_handler` sets, and the rest of the system. -/
structure Calling (σ : Type) where
  syscallRegs : BitVec 64
  interruptedSyscall : BitVec 64
  rest : σ

/-- `-EINVAL`, as a word. -/
def invalidCall : BitVec 64 := -22

/-- `-ERESTART`, as a word. -/
def restartCall : BitVec 64 := -85

/-- `syscall_handler`, on the structure `r` at the address `frame`. -/
def syscallHandler {σ : Type} (syscallFuncs : List (Option (SyscallFunc σ))) (frame : BitVec 64) (r : Regs)
    (calling : Calling σ) : Regs × Calling σ :=
  let calling := { calling with syscallRegs := frame }
  match syscallFuncs[r.rax.toNat]? with
  | some (some func) =>
      let called := func r.rbx r.rcx r.rdx r.rsi r.rdi calling.rest
      ({ r with rax := called.1 },
        { calling with
          rest := called.2
          interruptedSyscall := if called.1 = restartCall then r.rax else calling.interruptedSyscall })
  | _ => ({ r with rax := invalidCall }, calling)

/-! ## Entering a handler -/

/-- The vectors for which the processor pushes an error code. -/
def pushesError : List Nat := [8, 10, 11, 12, 13, 14, 17, 21, 29, 30]

/-- The machine at the call of `isr_handler`, after interrupt `vector` with error code `error` (where the
processor has one) came in `m`, with the stub `code` at `entry`. -/
def enter (m : Machine) (rsp0 entry : BitVec 64) (vector : Nat) (error : BitVec 64)
    (code : List StackInstr) : Machine :=
  Machine.run (code ++ isrCommonEntry)
    (m.deliver rsp0 0x08 entry (if vector ∈ pushesError then some error else none))

/-- The machine after `isr_common`, when `isr_handler` has returned to it in `m`. -/
def leave (m : Machine) : Machine := Machine.run isrCommonExit m

/-! ## fork -/

/-- The fields that `fork` writes to the kernel stack and the thread of the child, apart from `saved`: the
registers, and the context that runs `resume_user` on them. -/
def storeChild (mem : ByteMemory) (r : Regs) (stack childThread tlsBase resume : BitVec 64) : ByteMemory :=
  let sp := stack - BitVec.ofNat 64 (8 * regsWords)
  let mem := mem.storeFields sp (wordFields 0 r.words)
  mem.storeFields childThread [⟨0, 8, sp⟩, ⟨8, 8, stack⟩, ⟨24, 8, tlsBase⟩, ⟨16, 8, resume⟩]

/-- The part of `fork` after the child has been made: `stack` is the child's `image.stack`, `frame` the
parent's `syscall_regs`, and the code goes on at `next` after its call of `save_context`. -/
def forkThread (c : Cpu) (frame parentThread childThread stack resume next : BitVec 64) : Cpu :=
  let r := { readRegs c.mem frame with rax := 0 }
  let tlsBase := c.mem.load (parentThread + 24) 8
  let saved := callSaveContext { c with mem := storeChild c.mem r stack childThread tlsBase resume }
    parentThread next
  { saved with
    mem := saved.mem.storeFields childThread (wordFields 32 (words saved.mem (parentThread + 32) 5)) }

end Voxel.Kernel
