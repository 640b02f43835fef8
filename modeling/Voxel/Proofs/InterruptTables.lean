/-
Module: Voxel.Proofs.InterruptTables
Layer: Proofs
Purpose: The two tables that lead an interrupt to its handler. The gates that `idt_init` sets, as the
  processor reads them, and the handlers of a device line after any registrations.
Trusted boundary: none
Main exports: IdtEntry.entry, idt_gates, registerAll, handleIrq_registered
-/
import Mathlib.Data.List.Induction
import Mathlib.Data.List.Nodup
import Voxel.Kernel.Interrupts

namespace Voxel.Proofs

open Voxel.Lib Voxel.Lib.X64 Voxel.Kernel

/-! ## What the processor reads in a gate -/

/-- The address that a gate leads to. -/
def IdtEntry.entry (e : IdtEntry) : BitVec 64 :=
  e.offset0.setWidth 64 ||| (e.offset1.setWidth 64 <<< 16) ||| (e.offset2.setWidth 64 <<< 32)

/-- Is there a gate? -/
def IdtEntry.present (e : IdtEntry) : Bool := e.gateType.getLsbD 7

/-- The least privileged ring that may use the gate with an instruction. -/
def IdtEntry.dpl (e : IdtEntry) : BitVec 8 := (e.gateType >>> 5) &&& 3

/-- A mask of the low bits before they are kept changes nothing. -/
theorem setWidth_lowMask (word : BitVec 64) (n : Nat) :
    (word &&& BitVec.ofNat 64 (2 ^ n - 1)).setWidth n = word.setWidth n := by
  apply BitVec.eq_of_getLsbD_eq
  intro i inside
  rw [BitVec.getLsbD_setWidth, BitVec.getLsbD_setWidth, BitVec.getLsbD_and, BitVec.getLsbD_ofNat,
    Nat.testBit_two_pow_sub_one]
  by_cases low : i < 64
  · simp [inside, low]
  · simp [BitVec.getLsbD_of_ge word i (by omega)]

/-- The three parts of an address make the address. -/
theorem address_parts (address : BitVec 64) :
    ((address &&& 0xFFFF).setWidth 16).setWidth 64 |||
        ((((address >>> 16) &&& 0xFFFF).setWidth 16).setWidth 64 <<< 16) |||
        ((((address >>> 32) &&& 0xFFFFFFFF).setWidth 32).setWidth 64 <<< 32) = address := by
  rw [show (address &&& 0xFFFF).setWidth 16 = address.setWidth 16 from setWidth_lowMask address 16,
    show ((address >>> 16) &&& 0xFFFF).setWidth 16 = (address >>> 16).setWidth 16 from
      setWidth_lowMask (address >>> 16) 16,
    show ((address >>> 32) &&& 0xFFFFFFFF).setWidth 32 = (address >>> 32).setWidth 32 from
      setWidth_lowMask (address >>> 32) 32]
  apply BitVec.eq_of_getLsbD_eq
  intro i inside
  simp only [BitVec.getLsbD_or, BitVec.getLsbD_shiftLeft, BitVec.getLsbD_setWidth, BitVec.getLsbD_ushiftRight]
  -- each bit comes from one of the parts
  by_cases first : i < 16
  · simp [first, inside, show i < 32 by omega]
  · by_cases second : i < 32
    · simp [first, second, inside, show i - 16 < 16 by omega, show i - 16 < 64 by omega,
        show 16 + (i - 16) = i by omega]
    · simp [first, second, inside, show ¬ i - 16 < 16 by omega, show i - 32 < 32 by omega,
        show i - 32 < 64 by omega, show 32 + (i - 32) = i by omega]

/-- The gates that `idtInit` sets have different vectors. -/
theorem idtGates_nodup : (idtGates.map fun gate => BitVec.ofNat 8 gate.1).Nodup := by
  decide

/-- The entry that a gate of `idtGates` gets. -/
def gateEntry (handler : BitVec 64) (userspace : Bool) : IdtEntry :=
  idtSetGate emptyIdt 0 handler 0x08 0x8E userspace 0

theorem idtSetGate_apply (idt : Idt) (n k : BitVec 8) (handler : BitVec 64) (userspace : Bool) :
    idtSetGate idt n handler 0x08 0x8E userspace k = if k = n then gateEntry handler userspace else idt k := by
  by_cases same : k = n
  · rw [if_pos same, same, idtSetGate, Function.update_self, gateEntry, idtSetGate, Function.update_self]
  · rw [if_neg same, idtSetGate, Function.update_of_ne same]

/-- The entries after gates of different vectors have been set. -/
theorem setGates_apply (isr : Nat → BitVec 64) (gates : List (Nat × Bool))
    (distinct : (gates.map fun gate => BitVec.ofNat 8 gate.1).Nodup) (idt : Idt) (k : BitVec 8) :
    let after := gates.foldl
      (fun idt gate => idtSetGate idt (BitVec.ofNat 8 gate.1) (isr gate.1) 0x08 0x8E gate.2) idt
    (∀ gate ∈ gates, BitVec.ofNat 8 gate.1 = k → after k = gateEntry (isr gate.1) gate.2) ∧
      (k ∉ gates.map (fun gate => BitVec.ofNat 8 gate.1) → after k = idt k) := by
  induction gates generalizing idt with
  | nil => simp
  | cons gate rest inductionHypothesis =>
      obtain ⟨apart, distinct⟩ := List.nodup_cons.mp distinct
      obtain ⟨inRest, outside⟩ := inductionHypothesis distinct
        (idtSetGate idt (BitVec.ofNat 8 gate.1) (isr gate.1) 0x08 0x8E gate.2)
      rw [List.foldl_cons]
      constructor
      · intro other member same
        rcases List.mem_cons.mp member with rfl | later
        · rw [outside (same ▸ apart), idtSetGate_apply, if_pos same.symm]
        · exact inRest other later same
      · intro absent
        rw [List.map_cons, List.mem_cons, not_or] at absent
        rw [outside absent.2, idtSetGate_apply, if_neg absent.1]

theorem gateEntry_type (handler : BitVec 64) (userspace : Bool) :
    (gateEntry handler userspace).gateType = 0x8E ||| if userspace then 0x60 else 0 := by
  rw [gateEntry, idtSetGate, Function.update_self]

theorem gateEntry_entry (handler : BitVec 64) (userspace : Bool) :
    IdtEntry.entry (gateEntry handler userspace) = handler := by
  rw [gateEntry, idtSetGate, Function.update_self]
  exact address_parts handler

/-- The vectors of the gates fit, and only the one of 128 is open. -/
theorem idtGates_vectors : ∀ gate ∈ idtGates, gate.1 < 256 ∧ gate.2 = decide (gate.1 = 128) := by
  decide

/-- The table at boot, as the processor reads it. A vector has a gate exactly when `idt_init` names it; the
gate leads to the handler of that vector in the kernel's code segment, with interrupts off and on the current
stack; and a program may use the one of vector 128 and no other. -/
theorem idt_gates (isr : Nat → BitVec 64) (n : BitVec 8) :
    (IdtEntry.present (idtInit isr n) = true ↔ n.toNat ∈ idtGates.map Prod.fst) ∧
      (IdtEntry.present (idtInit isr n) = true →
        IdtEntry.entry (idtInit isr n) = isr n.toNat ∧ (idtInit isr n).selector = 0x08 ∧
          (idtInit isr n).gateType &&& 0xF = 0xE ∧ (idtInit isr n).ist = 0 ∧
          IdtEntry.dpl (idtInit isr n) = if n = 128 then 3 else 0) := by
  obtain ⟨inTable, outside⟩ := setGates_apply isr idtGates idtGates_nodup emptyIdt n
  have number : ∀ gate ∈ idtGates, (BitVec.ofNat 8 gate.1 = n ↔ gate.1 = n.toNat) := by
    intro gate member
    have small := (idtGates_vectors gate member).1
    rw [← BitVec.toNat_inj, BitVec.toNat_ofNat, Nat.mod_eq_of_lt small]
  by_cases named : n.toNat ∈ idtGates.map Prod.fst
  · obtain ⟨gate, member, vector⟩ := List.mem_map.mp named
    have entry : idtInit isr n = gateEntry (isr n.toNat) gate.2 := by
      rw [← vector]
      exact inTable gate member ((number gate member).mpr vector)
    have open_ : gate.2 = decide (n = 128) := by
      have same : gate.1 = 128 ↔ n = 128 := by
        rw [vector, ← BitVec.toNat_inj]
        rfl
      rw [(idtGates_vectors gate member).2, decide_eq_decide]
      exact same
    have present : IdtEntry.present (idtInit isr n) = true := by
      rw [entry, IdtEntry.present, gateEntry_type]
      cases gate.2 <;> rfl
    refine ⟨⟨fun _ => named, fun _ => present⟩, fun _ => ?_⟩
    rw [entry, IdtEntry.dpl, gateEntry_type, open_]
    refine ⟨gateEntry_entry .., ?_, ?_, ?_, ?_⟩
    · rw [gateEntry, idtSetGate, Function.update_self]
    · cases decide (n = 128) <;> rfl
    · rw [gateEntry, idtSetGate, Function.update_self]
    · by_cases last : n = 128
      · rw [if_pos last, decide_eq_true last]
        rfl
      · rw [if_neg last, decide_eq_false last]
        rfl
  · have empty : idtInit isr n = emptyIdt n := by
      apply outside
      intro given
      obtain ⟨gate, member, same⟩ := List.mem_map.mp given
      exact named (List.mem_map.mpr ⟨gate, member, (number gate member).mp same⟩)
    have absent : IdtEntry.present (idtInit isr n) = false := by
      rw [empty]
      exact show IdtEntry.present ⟨0, 0, 0, 0, 0, 0, 0⟩ = false by decide
    refine ⟨⟨fun present => ?_, fun given => absurd given named⟩, fun present => ?_⟩
    · rw [absent] at present
      cases present
    · rw [absent] at present
      cases present

/-! ## Device lines -/

section Lines

variable {σ : Type}

/-- The table after registrations, each a line and a handler, one after the other. -/
def registerAll (registrations : List (Nat × (σ → Bool × σ))) : IrqRoutines σ :=
  registrations.foldl (fun routines r => irqSetHandler routines r.1 r.2) fun _ => none

/-- The handlers that were registered for a line, in order. -/
def registeredFor (registrations : List (Nat × (σ → Bool × σ))) (line : Nat) : List (σ → Bool × σ) :=
  (registrations.filter fun r => r.1 = line).map Prod.snd

/-- Handlers in order, up to the first that claims the interrupt; if none does, it is acknowledged. -/
def runHandlers (irqAck : σ → σ) : List (σ → Bool × σ) → σ → σ
  | [], state => irqAck state
  | handler :: rest, state =>
      if (handler state).1 then (handler state).2 else runHandlers irqAck rest (handler state).2

/-- The slots of line `l` are the first four of the handlers `registered` for it. -/
def Packed (routines : IrqRoutines σ) (registered : Nat → List (σ → Bool × σ)) : Prop :=
  ∀ line < 16, ∀ i < 4, routines (i * 16 + line) = (registered line)[i]?

/-- A registration takes the first free slot of its line, and none when the four are taken. -/
theorem irqSetHandlerFrom_packed {routines : IrqRoutines σ} {registered : Nat → List (σ → Bool × σ)}
    (packed : Packed routines registered) {line : Nat} (low : line < 16) (handler : σ → Bool × σ) :
    ∀ left i : Nat, i + left = 4 → i ≤ (registered line).length →
      irqSetHandlerFrom routines line handler i left =
        if (registered line).length < 4 then
          Function.update routines ((registered line).length * 16 + line) (some handler)
        else routines := by
  intro left
  induction left with
  | zero =>
      intro i total before
      rw [irqSetHandlerFrom, if_neg (by omega)]
  | succ left inductionHypothesis =>
      intro i total before
      rw [irqSetHandlerFrom, packed line low i (by omega)]
      rcases Nat.lt_or_eq_of_le before with taken | free
      · rw [List.getElem?_eq_getElem taken, Option.isSome_some, if_pos rfl]
        exact inductionHypothesis (i + 1) (by omega) taken
      · rw [free, List.getElem?_eq_none (Nat.le_refl _), if_neg (by simp), if_pos (by omega)]

/-- One registration. -/
theorem irqSetHandler_packed {routines : IrqRoutines σ} {registered : Nat → List (σ → Bool × σ)}
    (packed : Packed routines registered) {line : Nat} (low : line < 16) (handler : σ → Bool × σ) :
    Packed (irqSetHandler routines line handler)
      fun l => if l = line then registered l ++ [handler] else registered l := by
  rw [irqSetHandler, irqSetHandlerFrom_packed packed low handler 4 0 (by omega) (Nat.zero_le _)]
  intro other here i inside
  dsimp only
  by_cases same : other = line
  · rw [if_pos same, same]
    by_cases room : (registered line).length < 4
    · rw [if_pos room]
      by_cases last : i = (registered line).length
      · rw [last, Function.update_self, List.getElem?_concat_length]
      · have apart : i * 16 + line ≠ (registered line).length * 16 + line := by omega
        rw [Function.update_of_ne apart, packed line low i inside]
        rcases Nat.lt_or_gt_of_ne last with before | after
        · rw [List.getElem?_append_left before]
        · rw [List.getElem?_eq_none (by omega), List.getElem?_eq_none (by simp; omega)]
    · rw [if_neg room, packed line low i inside, List.getElem?_append_left (by omega)]
  · rw [if_neg same]
    by_cases room : (registered line).length < 4
    · have apart : i * 16 + other ≠ (registered line).length * 16 + line := by omega
      rw [if_pos room, Function.update_of_ne apart]
      exact packed other here i inside
    · rw [if_neg room]
      exact packed other here i inside

/-- All registrations. -/
theorem registerAll_packed (registrations : List (Nat × (σ → Bool × σ)))
    (lines : ∀ r ∈ registrations, r.1 < 16) :
    Packed (registerAll registrations) (registeredFor registrations) := by
  induction registrations using List.reverseRecOn with
  | nil =>
      intro line _ i _
      simp [registerAll, registeredFor]
  | append_singleton earlier r inductionHypothesis =>
      have last : registerAll (earlier ++ [r]) = irqSetHandler (registerAll earlier) r.1 r.2 := by
        simp [registerAll]
      have packed := irqSetHandler_packed
        (inductionHypothesis fun other member => lines other (List.mem_append_left _ member))
        (lines r (List.mem_append_right _ List.mem_cons_self)) r.2
      rw [last]
      intro line low i inside
      rw [packed line low i inside]
      by_cases same : line = r.1
      · simp [registeredFor, same]
      · simp [registeredFor, same, Ne.symm same]

theorem handleIrqFrom_packed {routines : IrqRoutines σ} {registered : Nat → List (σ → Bool × σ)}
    (packed : Packed routines registered) (irqAck : σ → σ) {line : Nat} (low : line < 16) :
    ∀ (left i : Nat) (state : σ), i + left = 4 →
      handleIrqFrom routines irqAck line i left state =
        runHandlers irqAck (((registered line).take 4).drop i) state := by
  intro left
  induction left with
  | zero =>
      intro i state total
      rw [handleIrqFrom, List.drop_eq_nil_of_le (by simp; omega), runHandlers]
  | succ left inductionHypothesis =>
      intro i state total
      rw [handleIrqFrom, packed line low i (by omega)]
      by_cases taken : i < (registered line).length
      · have within : i < ((registered line).take 4).length := by simp; omega
        rw [List.getElem?_eq_getElem taken, List.drop_eq_getElem_cons within, List.getElem_take, runHandlers]
        by_cases claimed : ((registered line)[i] state).1 = true
        · simp only [if_pos claimed]
        · simp only [if_neg claimed]
          exact inductionHypothesis (i + 1) _ (by omega)
      · rw [List.getElem?_eq_none (by omega), List.drop_eq_nil_of_le (by simp; omega), runHandlers]

/-- What an interrupt of a device line does after any registrations: the first four handlers that were
registered for that line, and no handler of another line, get it in the order of their registration, up to the
first that claims it; when none does, it is acknowledged. -/
theorem handleIrq_registered {registrations : List (Nat × (σ → Bool × σ))}
    (lines : ∀ r ∈ registrations, r.1 < 16) (irqAck : σ → σ) {line : Nat} (low : line < 16) (state : σ) :
    handleIrq (registerAll registrations) irqAck line state =
      runHandlers irqAck ((registeredFor registrations line).take 4) state := by
  rw [handleIrq, handleIrqFrom_packed (registerAll_packed registrations lines) irqAck low 4 0 state (by omega),
    List.drop_zero]

end Lines

/-- The timer and the keyboard: an interrupt of line 0 goes to the first only. -/
theorem handleIrq_registered_example :
    handleIrq (registerAll [(0, fun tick : Nat => (true, tick + 1)), (1, fun tick => (true, tick))]) id 0 5 =
      6 :=
  handleIrq_registered (by simp) id (by decide) 5

end Voxel.Proofs
