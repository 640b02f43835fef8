/-
Module: Voxel.Proofs.PtyTranslation
Layer: Proofs
Purpose: What a pseudo terminal makes of the bytes that are written to it. On the way out, a line end becomes
  two bytes in the wrong order; on the way in, carriage returns are ignored as soon as any flag is set.
Trusted boundary: none
Main exports: lineOutput, OutputTranslated, outputTranslated_iff, lineInput, InputTranslated,
  inputTranslated_iff
-/
import Mathlib.Data.Nat.Bitwise
import Voxel.Proofs.PtyWrite

namespace Voxel.Proofs

open Voxel.Lib Voxel.Kernel

/-! ## Output -/

/-- What a byte of the slave is to be for the master. -/
def lineOutput (oflag : BitVec 32) (c : BitVec 8) : List (BitVec 8) :=
  if oflag &&& opost = 0 then [c]
  else if c = newline ∧ oflag &&& onlcr ≠ 0 then [carriageReturn, newline]
  else if c = carriageReturn ∧ oflag &&& onlret ≠ 0 then []
  else if oflag &&& olcuc ≠ 0 ∧ 0x61 ≤ c ∧ c ≤ 0x7A then [c - 0x61 + 0x41]
  else [c]

/-- A read of the master with a buffer for the whole queue gets it and leaves nothing. -/
def MasterReads (pty : Pty) (queue : List (BitVec 8)) : Prop :=
  ∀ buffer : List (BitVec 8), buffer.length = queue.length → ∃ pty',
    readPtyMaster pty (BitVec.ofNat 64 queue.length) buffer =
        some ((BitVec.ofNat 64 queue.length, queue), pty') ∧
      RingHolds pty'.outBuffer []

/-- What the slave writes stands translated behind what was there, and the master reads it so. -/
def OutputTranslated (pty : Pty) (bytes : List (BitVec 8)) : Prop :=
  ∀ queue, RingHolds pty.outBuffer queue → ∃ n pty', writePtySlave pty bytes = some (n, pty') ∧
    RingHolds pty'.outBuffer (queue ++ bytes.flatMap (lineOutput pty.ios.oflag)) ∧
    MasterReads pty' (queue ++ bytes.flatMap (lineOutput pty.ios.oflag))

/-- A queue is what the master reads. -/
theorem RingHolds.masterReads {pty : Pty} {queue : List (BitVec 8)} (holds : RingHolds pty.outBuffer queue) :
    MasterReads pty queue := by
  intro buffer length
  have small := holds.small
  have room := holds.room
  have size : (BitVec.ofNat 64 queue.length).toNat = queue.length := by
    rw [BitVec.toNat_ofNat]
    exact Nat.mod_eq_of_lt (by omega)
  obtain ⟨rb', read, _, after⟩ := holds.read (Nat.le_of_eq (size.trans length.symm))
    (List.take_of_length_le (Nat.le_of_eq size.symm)).symm
  rw [List.drop_of_length_le (Nat.le_of_eq length), List.append_nil] at read
  rw [List.drop_of_length_le (Nat.le_of_eq size.symm)] at after
  exact ⟨{ pty with outBuffer := rb' }, by rw [readPtyMaster, read]; rfl, after⟩

/-- The output has the right length. -/
theorem slaveOutput_length (ios : Termios) (c : BitVec 8) :
    (slaveOutput ios c).length = (lineOutput ios.oflag c).length := by
  unfold slaveOutput lineOutput
  split_ifs <;> rfl

/-- Only the order of the two bytes of a line end is wrong. -/
theorem slaveOutput_eq_iff (ios : Termios) (c : BitVec 8) :
    slaveOutput ios c = lineOutput ios.oflag c ↔
      (ios.oflag &&& opost = 0 ∨ ios.oflag &&& onlcr = 0 ∨ c ≠ newline) := by
  unfold slaveOutput lineOutput
  by_cases raw : ios.oflag &&& opost = 0
  · rw [if_pos raw, if_pos raw]
    exact iff_of_true rfl (.inl raw)
  rw [if_neg raw, if_neg raw]
  by_cases lineEnd : c = newline ∧ ios.oflag &&& onlcr ≠ 0
  · rw [if_pos lineEnd, if_pos lineEnd]
    refine iff_of_false (by decide) ?_
    rintro (unprocessed | single | other)
    · exact raw unprocessed
    · exact lineEnd.2 single
    · exact other lineEnd.1
  rw [if_neg lineEnd, if_neg lineEnd]
  refine iff_of_true ?_ (.inr ?_)
  · split_ifs
    · rfl
    · rw [BitVec.sub_eq_add_neg, BitVec.sub_eq_add_neg, BitVec.add_assoc, BitVec.add_assoc,
        BitVec.add_comm 0x41]
    · rfl
  · by_cases single : ios.oflag &&& onlcr = 0
    · exact .inl single
    · exact .inr fun same => lineEnd ⟨same, single⟩

/-- What the slave writes into a ring buffer with room for the translation is translated as its flags say
exactly if no output is processed, line ends stay single, or no line ends. -/
theorem outputTranslated_iff {pty : Pty} (sound : Pty.Sound pty) (bytes : List (BitVec 8))
    (room : (bytes.flatMap (lineOutput pty.ios.oflag)).length ≤ (ringbufferAvail pty.outBuffer).toNat) :
    OutputTranslated pty bytes ↔
      (pty.ios.oflag &&& opost = 0 ∨ pty.ios.oflag &&& onlcr = 0 ∨ newline ∉ bytes) := by
  obtain ⟨queue, holds⟩ := sound.output
  obtain ⟨pty', run, after⟩ := writePty_offers .slave sound bytes holds
  change RingHolds pty'.outBuffer (offer (RingBuffer.capacity pty.outBuffer) queue
    (bytes.flatMap (slaveOutput pty.ios))) at after
  have shorter : ∀ c, (slaveOutput pty.ios c).length ≤ (lineOutput pty.ios.oflag c).length :=
    fun c => Nat.le_of_eq (slaveOutput_length pty.ios c)
  rw [offer_of_room (by
    have avail := holds.avail
    exact Nat.le_trans (flatMap_length_le shorter bytes) (avail ▸ room))] at after
  have translated : OutputTranslated pty bytes ↔
      bytes.flatMap (slaveOutput pty.ios) = bytes.flatMap (lineOutput pty.ios.oflag) := by
    constructor
    · intro claimed
      obtain ⟨_, _, same, queued, _⟩ := claimed queue holds
      cases run.symm.trans same
      exact List.append_cancel_left (after.unique queued)
    · intro same other otherHolds
      obtain rfl := holds.unique otherHolds
      rw [same] at after
      exact ⟨_, pty', run, after, after.masterReads⟩
  rw [translated, flatMap_eq_iff shorter]
  constructor
  · intro agree
    by_cases lineEnd : newline ∈ bytes
    · rcases (slaveOutput_eq_iff pty.ios newline).mp (agree _ lineEnd) with raw | single | other
      · exact .inl raw
      · exact .inr (.inl single)
      · exact absurd rfl other
    · exact .inr (.inr lineEnd)
  · intro condition c member
    refine (slaveOutput_eq_iff pty.ios c).mpr ?_
    rcases condition with raw | single | noLineEnd
    · exact .inl raw
    · exact .inr (.inl single)
    · exact .inr (.inr fun same => noLineEnd (same ▸ member))

/-- A word through a new terminal. -/
theorem outputTranslated_iff_example : ∃ pty, Pty.Reachable pty ∧ OutputTranslated pty [0x61, 0x62] := by
  obtain ⟨pty, m, new⟩ := ptyNew_eightFrames
  have reachable : Pty.Reachable pty := ⟨_, _, _, _, pty, m, [], new, .refl _⟩
  refine ⟨pty, reachable, (outputTranslated_iff reachable.sound _ ?_).mpr (.inr (.inr (by decide)))⟩
  refine Nat.le_trans (Nat.le_of_eq ?_) (Nat.le_trans (show 2 ≤ 4095 by decide)
    (Nat.le_of_eq (ptyNew_avail new).symm))
  rw [ptyNew_ios new]
  decide

/-- A line end through a new terminal: the line feed arrives before the carriage return. -/
theorem outputTranslated_lineEnd : ∃ pty, Pty.Reachable pty ∧
    ([newline].flatMap (lineOutput pty.ios.oflag)).length ≤ (ringbufferAvail pty.outBuffer).toNat ∧
    ¬ OutputTranslated pty [newline] := by
  obtain ⟨pty, m, new⟩ := ptyNew_eightFrames
  have reachable : Pty.Reachable pty := ⟨_, _, _, _, pty, m, [], new, .refl _⟩
  obtain ⟨_, _, size, empty⟩ := ptyNew_empty new
  have avail : (ringbufferAvail pty.outBuffer).toNat = 4095 := ptyNew_avail new
  refine ⟨pty, reachable, ?_, fun translated => ?_⟩
  · rw [avail, ptyNew_ios new]
    decide
  obtain ⟨_, _, same, queued, _⟩ := translated [] empty
  obtain ⟨pty', run, after⟩ := writePty_offers .slave reachable.sound [newline] empty
  cases run.symm.trans same
  have wrong := after.unique queued
  change offer (RingBuffer.capacity pty.outBuffer) [] ([newline].flatMap (slaveOutput pty.ios)) = _ at wrong
  rw [RingBuffer.capacity, size, ptyNew_ios new] at wrong
  exact absurd wrong (by decide)

/-! ## Input -/

/-- A byte without its eighth bit, if that is asked for. -/
def stripped (iflag : BitVec 32) (c : BitVec 8) : BitVec 8 := if iflag &&& istrip ≠ 0 then c &&& 0x7F else c

/-- What a byte of the master is to be for the slave. -/
def lineInput (iflag : BitVec 32) (c : BitVec 8) : Option (BitVec 8) :=
  let c := stripped iflag c
  if iflag &&& igncr ≠ 0 ∧ c = carriageReturn then none
  else
    let c :=
      if iflag &&& inlcr ≠ 0 ∧ c = newline then carriageReturn
      else if iflag &&& icrnl ≠ 0 ∧ c = carriageReturn then newline
      else c
    some (if iflag &&& iuclc ≠ 0 ∧ 0x41 ≤ c ∧ c ≤ 0x5A then c - 0x41 + 0x61 else c)

/-- The bytes for the slave. -/
def translatedInput (ios : Termios) (bytes : List (BitVec 8)) : List (BitVec 8) :=
  bytes.flatMap fun c => (lineInput ios.iflag c).toList

/-- The bytes that go back to the master. -/
def echoedInput (ios : Termios) (bytes : List (BitVec 8)) : List (BitVec 8) :=
  if ios.lflag &&& echo ≠ 0 then (translatedInput ios bytes).flatMap (slaveOutput ios) else []

/-- What the master writes is queued translated for the slave; the echo of just these bytes, processed as
output, stands behind what the master has still to read. -/
def InputTranslated (pty : Pty) (bytes : List (BitVec 8)) : Prop :=
  ∀ input output, RingHolds pty.inBuffer input → RingHolds pty.outBuffer output →
    ∃ n pty', writePtyMaster pty bytes = some (n, pty') ∧
      RingHolds pty'.inBuffer (input ++ translatedInput pty.ios bytes) ∧
      RingHolds pty'.outBuffer (output ++ echoedInput pty.ios bytes)

/-- The terminal has the same settings and sizes, and both of its ring buffers are queues. -/
structure BothHold (pty pty' : Pty) (input output : List (BitVec 8)) : Prop where
  input : InputHolds pty pty' input
  size : pty'.outBuffer.size = pty.outBuffer.size
  output : RingHolds pty'.outBuffer output

/-- What a byte of the input leaves in the output. -/
def echoOf (ios : Termios) (c : BitVec 8) : List (BitVec 8) :=
  if ios.lflag &&& echo ≠ 0 then (inputByte ios c).toList.flatMap (slaveOutput ios) else []

/-- `tty_input_process` offers the echo to the output. -/
theorem ttyInputProcess_echoes {pty pty' : Pty} {output : List (BitVec 8)} {c : BitVec 8}
    (done : ttyInputProcess pty c = some pty') (holds : RingHolds pty.outBuffer output) :
    pty'.outBuffer.size = pty.outBuffer.size ∧ RingHolds pty'.outBuffer
      (offer (RingBuffer.capacity pty.outBuffer) output (echoOf pty.ios c)) := by
  rw [ttyInputProcess_eq] at done
  unfold echoOf
  cases became : inputByte pty.ios c with
  | none =>
      rw [became] at done
      cases done
      refine ⟨rfl, ?_⟩
      rw [Option.toList_none, List.flatMap_nil, ite_self, offer_nil]
      exact holds
  | some c' =>
      rw [became, Option.elim_some] at done
      obtain ⟨middle, echoed, written⟩ := Option.bind_eq_some_iff.mp done
      obtain ⟨_, _, rfl⟩ := Option.map_eq_some_iff.mp written
      rw [Option.toList_some, List.flatMap_singleton]
      by_cases echoes : pty.ios.lflag &&& echo ≠ 0
      · rw [if_pos echoes] at echoed
        rw [if_pos echoes]
        obtain ⟨after, same, outputHolds⟩ := ttyOutputProcessSlave_offers holds c'
        cases echoed.symm.trans same
        exact ⟨outputHolds.size, outputHolds.holds⟩
      · rw [if_neg echoes] at echoed
        rw [if_neg echoes, offer_nil]
        cases echoed
        exact ⟨rfl, holds⟩

/-- One byte of the input: what it becomes is offered to the slave, its output to the echo. -/
theorem BothHold.step {pty pty' : Pty} {input output : List (BitVec 8)}
    (before : BothHold pty pty' input output) (c : BitVec 8) :
    ∃ pty'', ttyInputProcess pty' c = some pty'' ∧ BothHold pty pty''
      (offer (RingBuffer.capacity pty.inBuffer) input (inputByte pty.ios c).toList)
      (offer (RingBuffer.capacity pty.outBuffer) output (echoOf pty.ios c)) := by
  obtain ⟨pty'', done, inputHolds⟩ := ttyInputProcess_offers before.input c
  obtain ⟨size, outputHolds⟩ := ttyInputProcess_echoes done before.output
  rw [RingBuffer.capacity, before.size, before.input.ios] at outputHolds
  exact ⟨pty'', done, inputHolds, size.trans before.size, outputHolds⟩

/-- All bytes of a write. -/
theorem BothHold.run {pty : Pty} (bytes : List (BitVec 8)) {pty' : Pty} {input output : List (BitVec 8)}
    (before : BothHold pty pty' input output) (processed : Nat) :
    ∃ n pty'', processBytes ttyInputProcess bytes processed pty' = some (n, pty'') ∧ BothHold pty pty''
      (offer (RingBuffer.capacity pty.inBuffer) input (bytes.flatMap fun c => (inputByte pty.ios c).toList))
      (offer (RingBuffer.capacity pty.outBuffer) output (bytes.flatMap (echoOf pty.ios))) := by
  induction bytes generalizing pty' input output processed with
  | nil =>
      refine ⟨processed, pty', rfl, ?_⟩
      rw [List.flatMap_nil, List.flatMap_nil, offer_nil, offer_nil]
      exact before
  | cons c rest inductionHypothesis =>
      obtain ⟨middle, done, middleHolds⟩ := before.step c
      obtain ⟨n, pty'', run, after⟩ := inductionHypothesis middleHolds (processed + 1)
      refine ⟨n, pty'', by rw [processBytes, done]; exact run, ?_⟩
      rw [List.flatMap_cons, List.flatMap_cons, ← offer_offer, ← offer_offer]
      exact after

/-- The echoes of all bytes are the output of what the bytes become. -/
theorem flatMap_echoOf (ios : Termios) (bytes : List (BitVec 8)) :
    bytes.flatMap (echoOf ios) =
      if ios.lflag &&& echo ≠ 0 then
        (bytes.flatMap fun c => (inputByte ios c).toList).flatMap (slaveOutput ios)
      else [] := by
  unfold echoOf
  split
  · rw [List.flatMap_assoc]
  · exact List.flatMap_eq_nil_iff.mpr fun _ _ => rfl

/-- The product of the flags with `IGNCR` is zero only if the 29 lowest flags are clear. -/
theorem mul_igncr_eq_zero (iflag : BitVec 32) : iflag * igncr = 0 ↔ iflag.toNat % 2 ^ 29 = 0 := by
  rw [← BitVec.toNat_inj, BitVec.toNat_mul]
  change iflag.toNat * 8 % 2 ^ 32 = 0 ↔ _
  omega

/-- Then `IGNCR` itself is clear. -/
theorem and_igncr_of_mul {iflag : BitVec 32} (clear : iflag * igncr = 0) : iflag &&& igncr = 0 := by
  have low := (mul_igncr_eq_zero iflag).mp clear
  have bit : iflag.toNat.testBit 3 = false := by
    rw [Nat.testBit_eq_decide_div_mod_eq, decide_eq_false_iff_not]
    omega
  rw [← BitVec.toNat_inj, BitVec.toNat_and]
  change iflag.toNat &&& 2 ^ 3 = 0
  rw [Nat.and_comm, Nat.two_pow_and, bit]
  rfl

/-- A byte becomes what it should, or it is a carriage return that is dropped and should not be. -/
theorem inputByte_eq (ios : Termios) (c : BitVec 8) :
    inputByte ios c =
      if ios.iflag * igncr ≠ 0 ∧ stripped ios.iflag c = carriageReturn then none
      else lineInput ios.iflag c := by
  change (if ios.iflag * igncr ≠ 0 ∧ stripped ios.iflag c = carriageReturn then none else _) = _
  split
  · rfl
  rename_i kept
  unfold lineInput
  dsimp only
  have notIgnored : ¬ (ios.iflag &&& igncr ≠ 0 ∧ stripped ios.iflag c = carriageReturn) :=
    fun ignored => kept ⟨fun clear => ignored.1 (and_igncr_of_mul clear), ignored.2⟩
  rw [if_neg notIgnored]
  rfl

/-- That is the whole difference. -/
theorem inputByte_eq_iff (ios : Termios) (c : BitVec 8) :
    inputByte ios c = lineInput ios.iflag c ↔
      (ios.iflag &&& igncr ≠ 0 ∨ ios.iflag.toNat % 2 ^ 29 = 0 ∨ stripped ios.iflag c ≠ carriageReturn) := by
  rw [inputByte_eq, ← mul_igncr_eq_zero]
  by_cases dropped : ios.iflag * igncr ≠ 0 ∧ stripped ios.iflag c = carriageReturn
  · rw [if_pos dropped]
    unfold lineInput
    dsimp only
    by_cases asked : ios.iflag &&& igncr ≠ 0
    · rw [if_pos ⟨asked, dropped.2⟩]
      exact iff_of_true rfl (.inl asked)
    · rw [if_neg fun both => asked both.1]
      refine iff_of_false (by simp) ?_
      rintro (set | clear | other)
      · exact asked set
      · exact dropped.1 clear
      · exact other dropped.2
  · rw [if_neg dropped]
    refine iff_of_true rfl ?_
    by_cases clear : ios.iflag * igncr = 0
    · exact .inr (.inl clear)
    · exact .inr (.inr fun same => dropped ⟨clear, same⟩)

/-- No byte becomes more than it should. -/
theorem inputByte_length_le (ios : Termios) (c : BitVec 8) :
    (inputByte ios c).toList.length ≤ (lineInput ios.iflag c).toList.length := by
  rw [inputByte_eq]
  split
  · exact Nat.zero_le _
  · exact Nat.le_refl _

/-- Nor is more echoed. -/
theorem flatMap_echoOf_length_le (ios : Termios) (bytes : List (BitVec 8)) :
    (bytes.flatMap (echoOf ios)).length ≤ (echoedInput ios bytes).length := by
  unfold echoedInput translatedInput
  rw [flatMap_echoOf]
  split
  · rw [List.flatMap_assoc, List.flatMap_assoc]
    refine flatMap_length_le (fun c => ?_) bytes
    rw [inputByte_eq]
    split
    · exact Nat.zero_le _
    · exact Nat.le_refl _
  · exact Nat.le_refl _

/-- What the master writes into ring buffers with room for the translation and its echo is translated as the
flags say exactly if `IGNCR` is set, the 29 lowest flags are clear, or no stripped byte is a carriage
return. -/
theorem inputTranslated_iff {pty : Pty} (sound : Pty.Sound pty) (bytes : List (BitVec 8))
    (room : (translatedInput pty.ios bytes).length ≤ (ringbufferAvail pty.inBuffer).toNat)
    (echoRoom : (echoedInput pty.ios bytes).length ≤ (ringbufferAvail pty.outBuffer).toNat) :
    InputTranslated pty bytes ↔
      (pty.ios.iflag &&& igncr ≠ 0 ∨ pty.ios.iflag.toNat % 2 ^ 29 = 0 ∨
        ∀ c ∈ bytes, stripped pty.ios.iflag c ≠ carriageReturn) := by
  obtain ⟨input, inputHolds⟩ := sound.input
  obtain ⟨output, outputHolds⟩ := sound.output
  have start : BothHold pty pty input output :=
    ⟨⟨rfl, rfl, inputHolds, output, outputHolds⟩, rfl, outputHolds⟩
  obtain ⟨n, pty', run, ⟨_, _, inputAfter, _⟩, _, outputAfter⟩ := start.run bytes 0
  have shorter := inputByte_length_le pty.ios
  rw [offer_of_room (Nat.le_trans (flatMap_length_le shorter bytes) (inputHolds.avail ▸ room))] at inputAfter
  rw [offer_of_room (Nat.le_trans (flatMap_echoOf_length_le pty.ios bytes) (outputHolds.avail ▸ echoRoom))]
    at outputAfter
  have translated : InputTranslated pty bytes ↔
      (bytes.flatMap fun c => (inputByte pty.ios c).toList) = translatedInput pty.ios bytes := by
    constructor
    · intro claimed
      obtain ⟨_, _, same, queued, _⟩ := claimed input output inputHolds outputHolds
      cases run.symm.trans same
      exact List.append_cancel_left (inputAfter.unique queued)
    · intro same otherInput otherOutput holdsInput holdsOutput
      obtain rfl := inputHolds.unique holdsInput
      obtain rfl := outputHolds.unique holdsOutput
      rw [flatMap_echoOf, same] at outputAfter
      exact ⟨n, pty', run, same ▸ inputAfter, outputAfter⟩
  have agree : ∀ c, (inputByte pty.ios c).toList = (lineInput pty.ios.iflag c).toList ↔
      (pty.ios.iflag &&& igncr ≠ 0 ∨ pty.ios.iflag.toNat % 2 ^ 29 = 0 ∨
        stripped pty.ios.iflag c ≠ carriageReturn) := by
    intro c
    rw [← inputByte_eq_iff]
    cases inputByte pty.ios c <;> cases lineInput pty.ios.iflag c <;> simp
  rw [translated]
  refine (flatMap_eq_iff shorter bytes).trans ?_
  constructor
  · intro all
    by_cases asked : pty.ios.iflag &&& igncr ≠ 0
    · exact .inl asked
    by_cases clear : pty.ios.iflag.toNat % 2 ^ 29 = 0
    · exact .inr (.inl clear)
    refine .inr (.inr fun c member => ?_)
    exact (((agree c).mp (all c member)).resolve_left asked).resolve_left clear
  · intro condition c member
    exact (agree c).mpr (condition.imp_right (Or.imp_right fun none => none c member))

/-- The settings of a new terminal with input flags of its own. -/
def rawInput (ios : Termios) : Termios := { ios with iflag := 0 }

/-- A line with a carriage return through a new terminal whose input flags are all clear. -/
theorem inputTranslated_iff_example : ∃ pty, Pty.Reachable pty ∧
    InputTranslated pty [0x61, carriageReturn] := by
  obtain ⟨new, m, made⟩ := ptyNew_eightFrames
  have reachable : Pty.Reachable { new with ios := rawInput new.ios } :=
    ⟨_, _, _, _, new, m, [.settings (rawInput new.ios)], made, .head trivial rfl (.refl _)⟩
  have roomIn : (ringbufferAvail new.inBuffer).toNat = 4095 := by
    obtain ⟨size, holds, _⟩ := ptyNew_empty made
    rw [holds.avail, size]
    rfl
  refine ⟨_, reachable, (inputTranslated_iff reachable.sound _ ?_ ?_).mpr (.inr (.inl rfl))⟩
  · refine Nat.le_trans ?_ (Nat.le_of_eq roomIn.symm)
    change (translatedInput (rawInput new.ios) _).length ≤ 4095
    rw [ptyNew_ios made]
    decide
  · refine Nat.le_trans ?_ (Nat.le_of_eq (ptyNew_avail made).symm)
    change (echoedInput (rawInput new.ios) _).length ≤ 4095
    rw [ptyNew_ios made]
    decide

/-- A carriage return that is written to a new terminal is dropped; its flags ask for a line feed. -/
theorem inputTranslated_return : ∃ pty, Pty.Reachable pty ∧
    (translatedInput pty.ios [carriageReturn]).length ≤ (ringbufferAvail pty.inBuffer).toNat ∧
    (echoedInput pty.ios [carriageReturn]).length ≤ (ringbufferAvail pty.outBuffer).toNat ∧
    ¬ InputTranslated pty [carriageReturn] := by
  obtain ⟨pty, m, new⟩ := ptyNew_eightFrames
  have reachable : Pty.Reachable pty := ⟨_, _, _, _, pty, m, [], new, .refl _⟩
  obtain ⟨sizeIn, emptyIn, sizeOut, emptyOut⟩ := ptyNew_empty new
  refine ⟨pty, reachable, ?_, ?_, fun translated => ?_⟩
  · rw [emptyIn.avail, sizeIn, ptyNew_ios new]
    decide
  · rw [emptyOut.avail, sizeOut, ptyNew_ios new]
    decide
  obtain ⟨_, _, same, queued, _⟩ := translated [] [] emptyIn emptyOut
  obtain ⟨pty', run, after⟩ := writePty_offers .master reachable.sound [carriageReturn] emptyIn
  cases run.symm.trans same
  have wrong := after.unique queued
  change offer (RingBuffer.capacity pty.inBuffer) []
    ([carriageReturn].flatMap fun c => (inputByte pty.ios c).toList) = _ at wrong
  rw [RingBuffer.capacity, sizeIn, ptyNew_ios new] at wrong
  exact absurd wrong (by decide)

end Voxel.Proofs
