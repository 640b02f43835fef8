/-
Module: Voxel.Lib.X64
Layer: Lib
Purpose: Two fragments of the 64-bit x86 instruction set. The first has moves between registers and
  memory, model specific registers, and the two ways to leave straight-line code; flags are left out,
  since no instruction of it reads them. The second has what interrupt handlers are written in: the
  stack, the exchange of the GS bases, one comparison with its jump, and the way into and out of a
  handler.
Trusted boundary: human-reviewed spec
Main exports: Reg, Cpu, Instr, Instr.exec, run, Machine, StackInstr, Machine.run, Machine.deliver,
  words_pushAll, popAll_regs
-/
import Mathlib.Data.List.Induction
import Mathlib.Logic.Function.Basic
import Voxel.Lib.ByteMemory

namespace Voxel.Lib.X64

/-! ## The machine -/

/-- The general purpose registers. -/
inductive Reg
  | rax | rcx | rdx | rbx | rsp | rbp | rsi | rdi | r8 | r9 | r10 | r11 | r12 | r13 | r14 | r15
  deriving DecidableEq, Repr

/-- A processor and the memory it runs on. -/
structure Cpu where
  regs : Reg → BitVec 64
  rip : BitVec 64
  /-- The model specific registers. -/
  msr : BitVec 32 → BitVec 64
  mem : ByteMemory

/-- Write a register. -/
def Cpu.setReg (c : Cpu) (dst : Reg) (value : BitVec 64) : Cpu :=
  { c with regs := Function.update c.regs dst value }

/-- Write a model specific register. -/
def Cpu.setMsr (c : Cpu) (index : BitVec 32) (value : BitVec 64) : Cpu :=
  { c with msr := Function.update c.msr index value }

/-- The address `disp(base)`. -/
def Cpu.address (c : Cpu) (disp : Nat) (base : Reg) : BitVec 64 := c.regs base + BitVec.ofNat 64 disp

/-! ## Instructions -/

/-- Instructions, with their operands in the order of the assembler: source first. -/
inductive Instr
  | leaq (disp : Nat) (base dst : Reg)
  | movqStore (src : Reg) (disp : Nat) (base : Reg)
  | movlStore (src : Reg) (disp : Nat) (base : Reg)
  | movqLoad (disp : Nat) (base dst : Reg)
  | movlLoad (disp : Nat) (base dst : Reg)
  | movqImm (value : BitVec 64) (dst : Reg)
  | xorq (src dst : Reg)
  | rdmsr
  | wrmsr
  | retq
  | jmpq (disp : Nat) (base : Reg)
  deriving Repr

/-- What an instruction does. A 32-bit load clears the upper half of its register. -/
def Instr.exec (c : Cpu) : Instr → Cpu
  | .leaq disp base dst => c.setReg dst (c.address disp base)
  | .movqStore src disp base =>
      { c with mem := c.mem.store (c.address disp base) 8 (c.regs src) }
  | .movlStore src disp base =>
      { c with mem := c.mem.store (c.address disp base) 4 (c.regs src) }
  | .movqLoad disp base dst => c.setReg dst (c.mem.load (c.address disp base) 8)
  | .movlLoad disp base dst => c.setReg dst (c.mem.load (c.address disp base) 4)
  | .movqImm value dst => c.setReg dst value
  | .xorq src dst => c.setReg dst (c.regs src ^^^ c.regs dst)
  | .rdmsr =>
      (c.setReg .rax (c.msr ((c.regs .rcx).setWidth 32) &&& 0xFFFFFFFF)).setReg .rdx
        (c.msr ((c.regs .rcx).setWidth 32) >>> 32)
  | .wrmsr =>
      c.setMsr ((c.regs .rcx).setWidth 32) ((c.regs .rdx <<< 32) ||| (c.regs .rax &&& 0xFFFFFFFF))
  | .retq =>
      Cpu.setReg { c with rip := c.mem.load (c.address 0 .rsp) 8 } .rsp (c.address 8 .rsp)
  | .jmpq disp base => { c with rip := c.mem.load (c.address disp base) 8 }

/-- Run straight-line code. -/
def run (code : List Instr) (c : Cpu) : Cpu := code.foldl Instr.exec c

/-- The `call` instruction: push the address of the next instruction. -/
def Cpu.call (c : Cpu) (next : BitVec 64) : Cpu :=
  Cpu.setReg { c with mem := c.mem.store (c.regs .rsp - 8) 8 next } .rsp (c.regs .rsp - 8)

/-! ## Laws -/

@[simp] theorem Cpu.setReg_self (c : Cpu) (dst : Reg) (value : BitVec 64) :
    (c.setReg dst value).regs dst = value :=
  Function.update_self ..

theorem Cpu.setReg_of_ne (c : Cpu) {r dst : Reg} (different : r ≠ dst) (value : BitVec 64) :
    (c.setReg dst value).regs r = c.regs r :=
  Function.update_of_ne different ..

@[simp] theorem Cpu.setReg_mem (c : Cpu) (dst : Reg) (value : BitVec 64) :
    (c.setReg dst value).mem = c.mem :=
  rfl

@[simp] theorem Cpu.setReg_msr (c : Cpu) (dst : Reg) (value : BitVec 64) :
    (c.setReg dst value).msr = c.msr :=
  rfl

/-- The mask of the low half has exactly the bits below 32. -/
theorem getLsbD_lowHalf (i : Nat) : (0xFFFFFFFF#64).getLsbD i = decide (i < 32) := by
  rw [show (0xFFFFFFFF#64) = (BitVec.allOnes 32).setWidth 64 from rfl, BitVec.getLsbD_setWidth,
    BitVec.getLsbD_allOnes]
  by_cases inside : i < 32
  · simp [inside, show i < 64 by omega]
  · simp [inside]

/-- The two halves that `rdmsr` reads are the word that `wrmsr` writes. -/
theorem wrmsr_rdmsr (word : BitVec 64) :
    ((word >>> 32) <<< 32) ||| (word &&& 0xFFFFFFFF) = word := by
  apply BitVec.eq_of_getLsbD_eq
  intro i bound
  simp only [BitVec.getLsbD_or, BitVec.getLsbD_shiftLeft, BitVec.getLsbD_and,
    BitVec.getLsbD_ushiftRight]
  rw [show (0xFFFFFFFF : BitVec 64) = 0xFFFFFFFF#64 from rfl, getLsbD_lowHalf]
  by_cases inside : i < 32
  · simp [inside]
  · simp [inside, bound, show 32 + (i - 32) = i by omega]

/-- The two halves of a word in memory. -/
theorem load_halves (mem : ByteMemory) (base : BitVec 64) (d : Nat) :
    (mem.load (base + BitVec.ofNat 64 (d + 4)) 4 <<< 32) |||
      (mem.load (base + BitVec.ofNat 64 d) 4 &&& 0xFFFFFFFF) = mem.load (base + BitVec.ofNat 64 d) 8 := by
  have bytes : ∀ (n k : Nat), k < n → n ≤ 8 → readByte (mem.load (base + BitVec.ofNat 64 d) n) k =
      mem (base + BitVec.ofNat 64 (d + k)) := by
    intro n k low atMost
    rw [ByteMemory.readByte_load _ _ low atMost, BitVec.add_assoc, ← BitVec.ofNat_add]
  have lower : mem.load (base + BitVec.ofNat 64 d) 4 &&& 0xFFFFFFFF =
      mem.load (base + BitVec.ofNat 64 d) 8 &&& 0xFFFFFFFF := by
    apply BitVec.eq_of_getLsbD_eq
    intro i _
    rw [BitVec.getLsbD_and, BitVec.getLsbD_and, show (0xFFFFFFFF : BitVec 64) = 0xFFFFFFFF#64 from rfl,
      getLsbD_lowHalf]
    by_cases low : i < 32
    · rw [getLsbD_readByte, getLsbD_readByte (mem.load _ 8), bytes 4 (i / 8) (by omega) (by decide),
        bytes 8 (i / 8) (by omega) (Nat.le_refl 8)]
    · simp [low]
  have upper : mem.load (base + BitVec.ofNat 64 (d + 4)) 4 = mem.load (base + BitVec.ofNat 64 d) 8 >>> 32 := by
    apply BitVec.eq_of_getLsbD_eq
    intro i _
    rw [BitVec.getLsbD_ushiftRight, getLsbD_readByte, getLsbD_readByte (mem.load _ 8)]
    by_cases low : i < 32
    · rw [ByteMemory.readByte_load _ _ (show i / 8 < 4 by omega) (by decide), BitVec.add_assoc,
        ← BitVec.ofNat_add, bytes 8 ((32 + i) / 8) (by omega) (Nat.le_refl 8),
        show d + 4 + i / 8 = d + (32 + i) / 8 by omega, show i % 8 = (32 + i) % 8 by omega]
    · rw [ByteMemory.readByte_load_high _ _ (show 4 ≤ i / 8 by omega) (by omega), ← getLsbD_readByte,
        BitVec.getLsbD_of_ge (mem.load _ 8) (32 + i) (by omega)]
      exact BitVec.getLsbD_zero
  rw [lower, upper, wrmsr_rdmsr]

/-! ## Words on the stack -/

/-- The `n` words of a memory from an address on, lowest first. -/
def words (mem : ByteMemory) (base : BitVec 64) : Nat → List (BitVec 64)
  | 0 => []
  | n + 1 => mem.load base 8 :: words mem (base + 8) n

/-- The `push` instruction, with the value of its operand. -/
def Cpu.push (c : Cpu) (word : BitVec 64) : Cpu :=
  Cpu.setReg { c with mem := c.mem.store (c.regs .rsp - 8) 8 word } .rsp (c.regs .rsp - 8)

/-- The `pop` instruction. -/
def Cpu.pop (c : Cpu) (dst : Reg) : Cpu :=
  (c.setReg .rsp (c.regs .rsp + 8)).setReg dst (c.mem.load (c.regs .rsp) 8)

/-- Pushes, one after the other. -/
def Cpu.pushAll (c : Cpu) (values : List (BitVec 64)) : Cpu := values.foldl Cpu.push c

/-- Pops, one after the other. -/
def Cpu.popAll (c : Cpu) (dsts : List Reg) : Cpu := dsts.foldl Cpu.pop c

@[simp] theorem words_length (mem : ByteMemory) (base : BitVec 64) (n : Nat) :
    (words mem base n).length = n := by
  induction n generalizing base with
  | zero => rfl
  | succ n inductionHypothesis => simp [words, inductionHypothesis]

/-- Word `k` from an address on. -/
theorem words_getElem? (mem : ByteMemory) (base : BitVec 64) {n k : Nat} (inside : k < n) :
    (words mem base n)[k]? = some (mem.load (base + BitVec.ofNat 64 (8 * k)) 8) := by
  induction n generalizing base k with
  | zero => exact absurd inside (Nat.not_lt_zero k)
  | succ n inductionHypothesis =>
      cases k with
      | zero => simp [words]
      | succ k =>
          have next : base + 8 + BitVec.ofNat 64 (8 * k) = base + BitVec.ofNat 64 (8 * (k + 1)) := by
            rw [BitVec.add_assoc, show (8 : BitVec 64) = BitVec.ofNat 64 8 from rfl, ← BitVec.ofNat_add,
              show 8 + 8 * k = 8 * (k + 1) by omega]
          rw [words, List.getElem?_cons_succ, inductionHypothesis _ (by omega), next]

/-- The words by their places. -/
theorem words_eq_map (mem : ByteMemory) (base : BitVec 64) (n : Nat) :
    words mem base n = (List.range n).map fun k => mem.load (base + BitVec.ofNat 64 (8 * k)) 8 := by
  apply List.ext_getElem?
  intro k
  by_cases inside : k < n
  · rw [words_getElem? _ _ inside]
    simp [inside]
  · rw [List.getElem?_eq_none (by simpa using inside), List.getElem?_eq_none (by simpa using inside)]

/-- The words depend only on the bytes they take up. -/
theorem words_congr {mem other : ByteMemory} {base : BitVec 64} {n : Nat}
    (same : ∀ i < 8 * n, mem (base + BitVec.ofNat 64 i) = other (base + BitVec.ofNat 64 i)) :
    words mem base n = words other base n := by
  induction n generalizing base with
  | zero => rfl
  | succ n inductionHypothesis =>
      have first : mem.load base 8 = other.load base 8 :=
        ByteMemory.load_congr fun k inside => same k (by omega)
      have rest : words mem (base + 8) n = words other (base + 8) n := by
        apply inductionHypothesis
        intro i inside
        have shift : base + 8 + BitVec.ofNat 64 i = base + BitVec.ofNat 64 (8 + i) := by
          rw [BitVec.add_assoc, show (8 : BitVec 64) = BitVec.ofNat 64 8 from rfl, ← BitVec.ofNat_add]
        rw [shift]
        exact same (8 + i) (by omega)
      rw [words, words, first, rest]

/-- A store to one of the words. -/
theorem words_store (mem : ByteMemory) (base word : BitVec 64) {j n : Nat} (small : 8 * n < 2 ^ 63)
    (inside : j < n) : words (mem.store (base + BitVec.ofNat 64 (8 * j)) 8 word) base n =
      (words mem base n).set j word := by
  apply List.ext_getElem?
  intro k
  by_cases here : k < n
  · rw [words_getElem? _ _ here, List.getElem?_set]
    by_cases same : j = k
    · rw [if_pos same, if_pos (by simpa using inside), same, ByteMemory.load_store]
    · rw [if_neg same, words_getElem? _ _ here]
      congr 1
      apply ByteMemory.load_congr
      intro i low
      rw [BitVec.add_assoc, ← BitVec.ofNat_add, ByteMemory.store_offset _ _ _ (by omega) (by omega),
        if_neg (by omega)]
  · rw [List.getElem?_eq_none (by simpa using here), List.getElem?_eq_none (by simpa using here)]

/-- Words as the fields of a structure. -/
def wordFields (offset : Nat) (values : List (BitVec 64)) : List ByteMemory.Field :=
  values.mapIdx fun k word => ⟨offset + 8 * k, 8, word⟩

theorem wordFields_inside {offset size : Nat} {values : List (BitVec 64)} (room : offset + 8 * values.length ≤ size)
    {field : ByteMemory.Field} (member : field ∈ wordFields offset values) :
    offset ≤ field.offset ∧ field.offset + field.size ≤ size := by
  obtain ⟨k, inside, rfl⟩ := List.mem_mapIdx.mp member
  simp only
  omega

/-- Words that are stored one after the other are read back. -/
theorem words_storeFields (mem : ByteMemory) (base : BitVec 64) {values : List (BitVec 64)}
    (small : 8 * values.length < 2 ^ 63) :
    words (mem.storeFields base (wordFields 0 values)) base values.length = values := by
  apply List.ext_getElem?
  intro k
  by_cases inside : k < values.length
  · have here : (wordFields 0 values)[k]? = some ⟨8 * k, 8, values[k]⟩ := by
      simp [wordFields, inside]
    rw [words_getElem? _ _ inside, List.getElem?_eq_getElem inside,
      ByteMemory.load_storeFields mem base here]
    · intro g member
      have := wordFields_inside (Nat.le_refl _) member
      omega
    · intro g member
      obtain ⟨j, bound, rfl⟩ := List.mem_iff_getElem.mp member
      left
      simp only [List.getElem_drop, wordFields, List.getElem_mapIdx]
      omega
  · rw [List.getElem?_eq_none (by simpa using inside), List.getElem?_eq_none (by simpa using inside)]

theorem Cpu.push_rsp (c : Cpu) (word : BitVec 64) : (c.push word).regs .rsp = c.regs .rsp - 8 :=
  Cpu.setReg_self ..

theorem Cpu.push_regs (c : Cpu) (word : BitVec 64) {r : Reg} (other : r ≠ .rsp) :
    (c.push word).regs r = c.regs r :=
  Cpu.setReg_of_ne _ other _

theorem Cpu.pushAll_rsp (c : Cpu) (values : List (BitVec 64)) :
    (c.pushAll values).regs .rsp = c.regs .rsp - BitVec.ofNat 64 (8 * values.length) := by
  induction values generalizing c with
  | nil => simp [Cpu.pushAll]
  | cons word rest inductionHypothesis =>
      rw [Cpu.pushAll, List.foldl_cons, ← Cpu.pushAll, inductionHypothesis, Cpu.push_rsp, List.length_cons,
        show 8 * (rest.length + 1) = 8 + 8 * rest.length by omega, BitVec.ofNat_add, BitVec.sub_sub]
      rfl

theorem Cpu.pushAll_regs (c : Cpu) (values : List (BitVec 64)) {r : Reg} (other : r ≠ .rsp) :
    (c.pushAll values).regs r = c.regs r := by
  induction values generalizing c with
  | nil => rfl
  | cons word rest inductionHypothesis =>
      rw [Cpu.pushAll, List.foldl_cons, ← Cpu.pushAll, inductionHypothesis, Cpu.push_regs _ _ other]

@[simp] theorem Cpu.pushAll_msr (c : Cpu) (values : List (BitVec 64)) :
    (c.pushAll values).msr = c.msr := by
  induction values generalizing c with
  | nil => rfl
  | cons word rest inductionHypothesis =>
      rw [Cpu.pushAll, List.foldl_cons, ← Cpu.pushAll, inductionHypothesis]
      rfl

/-- Pushes have nothing to do with the instruction pointer and the model specific registers. -/
theorem Cpu.pushAll_with (c : Cpu) (values : List (BitVec 64)) (rip : BitVec 64)
    (msr : BitVec 32 → BitVec 64) : Cpu.pushAll { c with rip := rip, msr := msr } values =
      { c.pushAll values with rip := rip, msr := msr } := by
  induction values generalizing c with
  | nil => rfl
  | cons word rest inductionHypothesis => exact inductionHypothesis (c.push word)

theorem Cpu.pushAll_append (c : Cpu) (values more : List (BitVec 64)) :
    c.pushAll (values ++ more) = (c.pushAll values).pushAll more :=
  List.foldl_append ..

/-- Pushes write below the stack pointer and nowhere else. -/
theorem Cpu.pushAll_outside (c : Cpu) (values : List (BitVec 64)) {a : BitVec 64}
    (outside : ∀ i < 8 * values.length, a ≠ (c.pushAll values).regs .rsp + BitVec.ofNat 64 i) :
    (c.pushAll values).mem a = c.mem a := by
  induction values using List.reverseRecOn with
  | nil => rfl
  | append_singleton rest word inductionHypothesis =>
      have last : c.pushAll (rest ++ [word]) = (c.pushAll rest).push word := by
        simp [Cpu.pushAll]
      rw [last, Cpu.push_rsp, List.length_append, List.length_singleton] at outside
      have kept : (c.pushAll rest).mem a = c.mem a := by
        apply inductionHypothesis
        intro i inside same
        apply outside (8 + i) (by omega)
        rw [same, BitVec.ofNat_add, ← BitVec.add_assoc]
        exact congrArg (· + BitVec.ofNat 64 i) (BitVec.sub_add_cancel _ _).symm
      rw [last, ← kept]
      exact ByteMemory.store_of_ne _ _ fun i inside => outside i (by omega)

/-- What was pushed stands on the stack, the last word first. -/
theorem words_pushAll (c : Cpu) (values : List (BitVec 64)) (small : 8 * values.length < 2 ^ 63) :
    words (c.pushAll values).mem ((c.pushAll values).regs .rsp) values.length = values.reverse := by
  induction values using List.reverseRecOn with
  | nil => rfl
  | append_singleton rest word inductionHypothesis =>
      have last : c.pushAll (rest ++ [word]) = (c.pushAll rest).push word := by
        simp [Cpu.pushAll]
      rw [List.length_append, List.length_singleton] at small
      rw [last, List.length_append, List.length_singleton, List.reverse_append, List.reverse_singleton,
        List.singleton_append, words, Cpu.push_rsp]
      congr 1
      · exact ByteMemory.load_store _ _ _
      · have back : (c.pushAll rest).regs .rsp - 8 + 8 = (c.pushAll rest).regs .rsp :=
          BitVec.sub_add_cancel _ _
        rw [back, ← inductionHypothesis (by omega)]
        apply words_congr
        intro i inside
        apply ByteMemory.store_of_ne
        intro k low same
        -- the pushed word lies in the eight bytes below the words that were there
        have numbers := congrArg BitVec.toNat same
        simp only [BitVec.toNat_add, BitVec.toNat_sub, BitVec.toNat_ofNat, BitVec.ofNat_eq_ofNat] at numbers
        have := ((c.pushAll rest).regs .rsp).isLt
        omega

theorem Cpu.pop_rsp (c : Cpu) {dst : Reg} (other : dst ≠ .rsp) :
    (c.pop dst).regs .rsp = c.regs .rsp + 8 := by
  rw [Cpu.pop, Cpu.setReg_of_ne _ other.symm, Cpu.setReg_self]

@[simp] theorem Cpu.popAll_mem (c : Cpu) (dsts : List Reg) : (c.popAll dsts).mem = c.mem := by
  induction dsts generalizing c with
  | nil => rfl
  | cons dst rest inductionHypothesis =>
      rw [Cpu.popAll, List.foldl_cons, ← Cpu.popAll, inductionHypothesis]
      rfl

@[simp] theorem Cpu.popAll_msr (c : Cpu) (dsts : List Reg) : (c.popAll dsts).msr = c.msr := by
  induction dsts generalizing c with
  | nil => rfl
  | cons dst rest inductionHypothesis =>
      rw [Cpu.popAll, List.foldl_cons, ← Cpu.popAll, inductionHypothesis]
      rfl

theorem Cpu.popAll_rsp (c : Cpu) {dsts : List Reg} (others : Reg.rsp ∉ dsts) :
    (c.popAll dsts).regs .rsp = c.regs .rsp + BitVec.ofNat 64 (8 * dsts.length) := by
  induction dsts generalizing c with
  | nil => simp [Cpu.popAll]
  | cons dst rest inductionHypothesis =>
      have different : dst ≠ .rsp := fun same => others (same ▸ List.mem_cons_self)
      rw [Cpu.popAll, List.foldl_cons, ← Cpu.popAll,
        inductionHypothesis _ fun member => others (List.mem_cons_of_mem dst member),
        Cpu.pop_rsp c different, List.length_cons, BitVec.add_assoc,
        show 8 * (rest.length + 1) = 8 + 8 * rest.length by omega, BitVec.ofNat_add]
      rfl

/-- A register that is not popped keeps its value. -/
theorem Cpu.popAll_other (c : Cpu) {dsts : List Reg} {r : Reg} (kept : r ∉ dsts) (other : r ≠ .rsp) :
    (c.popAll dsts).regs r = c.regs r := by
  induction dsts generalizing c with
  | nil => rfl
  | cons dst rest inductionHypothesis =>
      have different : r ≠ dst := fun same => kept (same ▸ List.mem_cons_self)
      rw [Cpu.popAll, List.foldl_cons, ← Cpu.popAll,
        inductionHypothesis _ fun member => kept (List.mem_cons_of_mem dst member), Cpu.pop,
        Cpu.setReg_of_ne _ different, Cpu.setReg_of_ne _ other]

/-- The registers that are popped have the words of the stack, in order. -/
theorem popAll_regs (c : Cpu) {dsts : List Reg} (others : Reg.rsp ∉ dsts) (distinct : dsts.Nodup) :
    dsts.map (c.popAll dsts).regs = words c.mem (c.regs .rsp) dsts.length := by
  induction dsts generalizing c with
  | nil => rfl
  | cons dst rest inductionHypothesis =>
      have different : dst ≠ .rsp := fun same => others (same ▸ List.mem_cons_self)
      have popped : c.popAll (dst :: rest) = (c.pop dst).popAll rest := rfl
      rw [popped, List.map_cons, List.length_cons, words,
        inductionHypothesis _ (fun member => others (List.mem_cons_of_mem dst member)) distinct.of_cons,
        Cpu.pop_rsp c different, Cpu.popAll_other _ (List.nodup_cons.mp distinct).1 different]
      congr 1
      exact Cpu.setReg_self ..

/-- The register that is popped at position `k` has the word there. -/
theorem popAll_reg (c : Cpu) {dsts : List Reg} (others : Reg.rsp ∉ dsts) (distinct : dsts.Nodup) {k : Nat}
    {dst : Reg} (here : dsts[k]? = some dst) :
    (c.popAll dsts).regs dst = c.mem.load (c.regs .rsp + BitVec.ofNat 64 (8 * k)) 8 := by
  obtain ⟨inside, -⟩ := List.getElem?_eq_some_iff.mp here
  have popped := congrArg (·[k]?) (popAll_regs c others distinct)
  simp only [List.getElem?_map, here, Option.map_some, words_getElem? _ _ inside, Option.some.injEq] at popped
  exact popped

/-! ## Interrupt handlers -/

/-- A processor with the rest of what an interrupt saves. -/
structure Machine where
  cpu : Cpu
  cs : BitVec 64
  ss : BitVec 64
  rflags : BitVec 64

/-- The base of GS. -/
def gsBase : BitVec 32 := 0xC0000101

/-- The base that `swapgs` exchanges with the one of GS. -/
def kernelGsBase : BitVec 32 := 0xC0000102

/-- The `swapgs` instruction. -/
def Cpu.swapgs (c : Cpu) : Cpu :=
  (c.setMsr gsBase (c.msr kernelGsBase)).setMsr kernelGsBase (c.msr gsBase)

/-- Instructions that interrupt handlers begin and end with. A jump is forward, over a number of
instructions. -/
inductive StackInstr
  | push (src : Reg)
  | pushq (value : BitVec 64)
  | pop (dst : Reg)
  | movq (src dst : Reg)
  | addq (value : BitVec 64) (dst : Reg)
  | cmpq (value : BitVec 64) (disp : Nat) (base : Reg)
  | je (skip : Nat)
  | swapgs
  | cld
  | iretq
  deriving DecidableEq, Repr

/-- Is the instruction a jump? -/
def StackInstr.isJump : StackInstr → Bool
  | .je _ => true
  | _ => false

/-- The zero flag. -/
def Machine.zf (m : Machine) : Bool := m.rflags.getLsbD 6

/-- Set the zero flag. Of the flags that arithmetic sets, the fragment reads no other. -/
def Machine.setZf (m : Machine) (zero : Bool) : Machine :=
  { m with rflags := if zero then m.rflags ||| 0x40 else m.rflags &&& ~~~0x40 }

/-- The `iretq` instruction: `%rip`, `%cs`, the flags, `%rsp` and `%ss` come from the stack. -/
def Machine.iretq (m : Machine) : Machine where
  cpu := Cpu.setReg { m.cpu with rip := m.cpu.mem.load (m.cpu.address 0 .rsp) 8 } .rsp
    (m.cpu.mem.load (m.cpu.address 24 .rsp) 8)
  cs := m.cpu.mem.load (m.cpu.address 8 .rsp) 8
  rflags := m.cpu.mem.load (m.cpu.address 16 .rsp) 8
  ss := m.cpu.mem.load (m.cpu.address 32 .rsp) 8

/-- What an instruction does, a jump apart. -/
def StackInstr.exec (m : Machine) : StackInstr → Machine
  | .push src => { m with cpu := m.cpu.push (m.cpu.regs src) }
  | .pushq value => { m with cpu := m.cpu.push value }
  | .pop dst => { m with cpu := m.cpu.pop dst }
  | .movq src dst => { m with cpu := m.cpu.setReg dst (m.cpu.regs src) }
  | .addq value dst =>
      Machine.setZf { m with cpu := m.cpu.setReg dst (m.cpu.regs dst + value) }
        (decide (m.cpu.regs dst + value = 0))
  | .cmpq value disp base => m.setZf (decide (m.cpu.mem.load (m.cpu.address disp base) 8 = value))
  | .je _ => m
  | .swapgs => { m with cpu := m.cpu.swapgs }
  | .cld => { m with rflags := m.rflags &&& ~~~0x400 }
  | .iretq => m.iretq

/-- Run code, of which the next `skip` instructions are jumped over. -/
def Machine.runFrom : List StackInstr → Nat → Machine → Machine
  | [], _, m => m
  | _ :: rest, skip + 1, m => runFrom rest skip m
  | .je skip :: rest, 0, m => runFrom rest (if m.zf then skip else 0) m
  | i :: rest, 0, m => runFrom rest 0 (i.exec m)

/-- Run code from its start. -/
def Machine.run (code : List StackInstr) (m : Machine) : Machine := Machine.runFrom code 0 m

/-- The flags that an interrupt gate clears: TF, IF, NT, RF and VM. -/
def gateFlags : BitVec 64 := 0x34300

/-- What the processor pushes when it enters a handler, in order: the stack, the flags and the place of
the interrupted code, and for some exceptions an error code. -/
def Machine.pushed (m : Machine) (error : Option (BitVec 64)) : List (BitVec 64) :=
  [m.ss, m.cpu.regs .rsp, m.rflags, m.cs, m.cpu.rip] ++ error.toList

/-- The stack on which a handler of ring 0 starts: from another ring the one of the task state, `rsp0`,
and the current one otherwise. The processor aligns it to 16 bytes. -/
def Machine.handlerStack (m : Machine) (rsp0 : BitVec 64) : BitVec 64 :=
  (if m.cs &&& 3 = 0 then m.cpu.regs .rsp else rsp0) &&& ~~~0xF

/-- Enter the handler at `entry`, in the ring 0 code segment `selector`, through an interrupt gate. A
change of ring leaves `%ss` null. -/
def Machine.deliver (m : Machine) (rsp0 selector entry : BitVec 64) (error : Option (BitVec 64)) :
    Machine where
  cpu := { (m.cpu.setReg .rsp (m.handlerStack rsp0)).pushAll (m.pushed error) with rip := entry }
  cs := selector
  ss := if m.cs &&& 3 = 0 then m.ss else 0
  rflags := m.rflags &&& ~~~gateFlags

/-! ## Laws of the handlers' instructions -/

theorem Machine.zf_setZf (m : Machine) (zero : Bool) : (m.setZf zero).zf = zero := by
  cases zero <;> simp [Machine.zf, Machine.setZf]

theorem Cpu.swapgs_swapgs (c : Cpu) : c.swapgs.swapgs = c := by
  have different : kernelGsBase ≠ gsBase := by decide
  have same : Function.update (Function.update (Function.update (Function.update c.msr gsBase
      (c.msr kernelGsBase)) kernelGsBase (c.msr gsBase)) gsBase (c.msr gsBase)) kernelGsBase
      (c.msr kernelGsBase) = c.msr := by
    funext i
    by_cases kernel : i = kernelGsBase
    · simp [kernel]
    · by_cases user : i = gsBase
      · simp [user, different.symm]
      · simp [kernel, user]
  simpa [Cpu.swapgs, Cpu.setMsr, different.symm] using congrArg (fun msr => { c with msr := msr }) same

/-- Straight code runs first. -/
theorem Machine.runFrom_append (code rest : List StackInstr) (m : Machine)
    (straight : ∀ i ∈ code, i.isJump = false) :
    Machine.runFrom (code ++ rest) 0 m = Machine.runFrom rest 0 (code.foldl StackInstr.exec m) := by
  induction code generalizing m with
  | nil => rfl
  | cons i code inductionHypothesis =>
      have step : Machine.runFrom (i :: code ++ rest) 0 m = Machine.runFrom (code ++ rest) 0 (i.exec m) := by
        cases i with
        | je skip => exact absurd (straight _ List.mem_cons_self) (by simp [StackInstr.isJump])
        | _ => rfl
      rw [step, inductionHypothesis _ fun j member => straight j (List.mem_cons_of_mem i member)]
      rfl

/-- Pushes of registers, as pushes of what they hold. -/
theorem Machine.foldl_push (srcs : List Reg) (m : Machine) (others : Reg.rsp ∉ srcs) :
    (srcs.map StackInstr.push).foldl StackInstr.exec m =
      { m with cpu := m.cpu.pushAll (srcs.map m.cpu.regs) } := by
  induction srcs generalizing m with
  | nil => rfl
  | cons src rest inductionHypothesis =>
      have later : Reg.rsp ∉ rest := fun member => others (List.mem_cons_of_mem src member)
      have kept : rest.map (m.cpu.push (m.cpu.regs src)).regs = rest.map m.cpu.regs := by
        apply List.map_congr_left
        intro r member
        exact Cpu.push_regs _ _ fun same => later (same ▸ member)
      rw [List.map_cons, List.foldl_cons, inductionHypothesis _ later, StackInstr.exec]
      simp only [kept]
      rfl

/-- Pops into registers. -/
theorem Machine.foldl_pop (dsts : List Reg) (m : Machine) :
    (dsts.map StackInstr.pop).foldl StackInstr.exec m = { m with cpu := m.cpu.popAll dsts } := by
  induction dsts generalizing m with
  | nil => rfl
  | cons dst rest inductionHypothesis =>
      rw [List.map_cons, List.foldl_cons, inductionHypothesis]
      rfl

end Voxel.Lib.X64
