/-
Module: Voxel.Proofs.PtyWrite
Layer: Proofs
Purpose: Writing to a pseudo terminal. Both writes return their size, whatever the ring buffer takes; the
  size is the number of bytes that got through exactly if all output finds room.
Trusted boundary: none
Main exports: PtySide, PtySide.output, Pty.Sound, PtyWriteSound, writePty_offers, pty_write_counts_iff
-/
import Voxel.Kernel.Pty
import Voxel.Lib.Run
import Voxel.Proofs.RingQueue

namespace Voxel.Proofs

open Voxel.Lib Voxel.Kernel

/-! ## What a byte becomes -/

/-- The output of a byte that is written to the slave. -/
def slaveOutput (ios : Termios) (c : BitVec 8) : List (BitVec 8) :=
  if ios.oflag &&& opost = 0 then [c]
  else if c = newline ∧ ios.oflag &&& onlcr ≠ 0 then [newline, carriageReturn]
  else if c = carriageReturn ∧ ios.oflag &&& onlret ≠ 0 then []
  else if ios.oflag &&& olcuc ≠ 0 ∧ 0x61 ≤ c ∧ c ≤ 0x7A then [c + 0x41 - 0x61]
  else [c]

/-- The byte itself after the translations of the input, if it is not ignored. -/
def inputByte (ios : Termios) (c : BitVec 8) : Option (BitVec 8) :=
  let c := if ios.iflag &&& istrip ≠ 0 then c &&& 0x7F else c
  if ios.iflag * igncr ≠ 0 ∧ c = carriageReturn then none
  else
    let c :=
      if ios.iflag &&& inlcr ≠ 0 ∧ c = newline then carriageReturn
      else if ios.iflag &&& icrnl ≠ 0 ∧ c = carriageReturn then newline
      else c
    some (if ios.iflag &&& iuclc ≠ 0 ∧ 0x41 ≤ c ∧ c ≤ 0x5A then c - 0x41 + 0x61 else c)

/-- The ends of a pseudo terminal. -/
inductive PtySide
  | master
  | slave
  deriving Repr, DecidableEq

/-- A write at one end. -/
def PtySide.write : PtySide → Pty → List (BitVec 8) → Option (Nat × Pty)
  | .master => writePtyMaster
  | .slave => writePtySlave

/-- The ring buffer that the other end reads. -/
def PtySide.ring : PtySide → Pty → RingBuffer
  | .master => Pty.inBuffer
  | .slave => Pty.outBuffer

/-- The complete output of a byte for the other end. The echo of a byte goes back to its own end. -/
def PtySide.output : PtySide → Termios → BitVec 8 → List (BitVec 8)
  | .master, ios, c => (inputByte ios c).toList
  | .slave, ios, c => slaveOutput ios c

/-- Both ring buffers hold a queue. -/
structure Pty.Sound (pty : Pty) : Prop where
  input : ∃ queue, RingHolds pty.inBuffer queue
  output : ∃ queue, RingHolds pty.outBuffer queue

/-- A write returns the number of leading bytes whose complete output was appended to the ring buffer that
the other end reads. -/
def PtyWriteSound (side : PtySide) (pty : Pty) (bytes : List (BitVec 8)) : Prop :=
  ∀ queue, RingHolds (side.ring pty) queue → ∃ n pty' appended,
    side.write pty bytes = some (n, pty') ∧ RingHolds (side.ring pty') (queue ++ appended) ∧
      n = delivered (bytes.map (side.output pty.ios)) appended

/-! ## One byte -/

/-- What a ring buffer takes, for its size. -/
def RingBuffer.capacity (rb : RingBuffer) : Nat := rb.size.toNat - 1

/-- A byte is offered to a ring buffer. -/
theorem RingHolds.offerByte {rb : RingBuffer} {queue : List (BitVec 8)} (holds : RingHolds rb queue)
    (c : BitVec 8) : ∃ n rb', ringbufferWrite rb 1 [c] = some (n, rb') ∧ rb'.size = rb.size ∧
      RingHolds rb' (offer (RingBuffer.capacity rb) queue [c]) := by
  obtain ⟨rb', written, size, holds'⟩ := @RingHolds.write rb queue holds 1 [c] (Nat.le_refl 1) _ rfl
  exact ⟨_, rb', written, size, holds'⟩

/-- The terminal is the same but for its output, which is a queue behind what was written. -/
structure OutputHolds (pty pty' : Pty) (queue : List (BitVec 8)) : Prop where
  size : pty'.outBuffer.size = pty.outBuffer.size
  rest : pty' = { pty with outBuffer := pty'.outBuffer }
  holds : RingHolds pty'.outBuffer queue

theorem OutputHolds.refl {pty : Pty} {queue : List (BitVec 8)} (holds : RingHolds pty.outBuffer queue) :
    OutputHolds pty pty queue :=
  ⟨rfl, rfl, holds⟩

/-- A byte is offered to the output. -/
theorem OutputHolds.write {pty pty' : Pty} {queue : List (BitVec 8)} (before : OutputHolds pty pty' queue)
    (c : BitVec 8) : ∃ pty'', ptyWriteOut pty' c = some pty'' ∧
      OutputHolds pty pty'' (offer (RingBuffer.capacity pty.outBuffer) queue [c]) := by
  obtain ⟨n, rb', written, size, holds⟩ := before.holds.offerByte c
  refine ⟨{ pty' with outBuffer := rb' }, by rw [ptyWriteOut, written]; rfl, size.trans before.size, ?_, ?_⟩
  · rw [before.rest]
  · rw [RingBuffer.capacity, ← before.size]
    exact holds

/-- `tty_output_process_slave` offers the output of a byte, one byte after the other. -/
theorem ttyOutputProcessSlave_offers {pty : Pty} {queue : List (BitVec 8)}
    (holds : RingHolds pty.outBuffer queue) (c : BitVec 8) :
    ∃ pty', ttyOutputProcessSlave pty c = some pty' ∧
      OutputHolds pty pty' (offer (RingBuffer.capacity pty.outBuffer) queue (slaveOutput pty.ios c)) := by
  have start := OutputHolds.refl holds
  unfold ttyOutputProcessSlave slaveOutput
  split
  · exact start.write c
  split
  · obtain ⟨middle, first, firstHolds⟩ := start.write newline
    obtain ⟨pty', second, secondHolds⟩ := firstHolds.write carriageReturn
    refine ⟨pty', by rw [first]; exact second, ?_⟩
    rw [offer_offer] at secondHolds
    exact secondHolds
  split
  · refine ⟨pty, rfl, ?_⟩
    rw [offer_nil]
    exact start
  dsimp only
  split
  · exact start.write _
  · exact start.write c

/-- The terminal has the same settings and sizes, and its input is a queue. -/
structure InputHolds (pty pty' : Pty) (queue : List (BitVec 8)) : Prop where
  size : pty'.inBuffer.size = pty.inBuffer.size
  ios : pty'.ios = pty.ios
  holds : RingHolds pty'.inBuffer queue
  output : ∃ other, RingHolds pty'.outBuffer other

/-- A byte is offered to the input. -/
theorem InputHolds.write {pty pty' : Pty} {queue : List (BitVec 8)} (before : InputHolds pty pty' queue)
    (c : BitVec 8) : ∃ pty'', ptyWriteIn pty' c = some pty'' ∧
      InputHolds pty pty'' (offer (RingBuffer.capacity pty.inBuffer) queue [c]) := by
  obtain ⟨n, rb', written, size, holds⟩ := before.holds.offerByte c
  refine ⟨{ pty' with inBuffer := rb' }, by rw [ptyWriteIn, written]; rfl, size.trans before.size,
    before.ios, ?_, before.output⟩
  rw [RingBuffer.capacity, ← before.size]
  exact holds

/-- `tty_input_process` drops a byte or echoes and writes what the byte becomes. -/
theorem ttyInputProcess_eq (pty : Pty) (c : BitVec 8) :
    ttyInputProcess pty c = (inputByte pty.ios c).elim (some pty) fun c =>
      (if pty.ios.lflag &&& echo ≠ 0 then ttyOutputProcess pty c else some pty).bind fun pty =>
        ptyWriteIn pty c := by
  unfold ttyInputProcess inputByte
  dsimp only
  by_cases ignored : pty.ios.iflag * igncr ≠ 0 ∧
      (if pty.ios.iflag &&& istrip ≠ 0 then c &&& 0x7F else c) = carriageReturn
  · simp only [if_pos ignored, Option.elim_none]
  · simp only [if_neg ignored, Option.elim_some]

/-- `tty_input_process` offers the byte to the input; an echo changes the output only. -/
theorem ttyInputProcess_offers {pty pty' : Pty} {queue : List (BitVec 8)}
    (before : InputHolds pty pty' queue) (c : BitVec 8) :
    ∃ pty'', ttyInputProcess pty' c = some pty'' ∧ InputHolds pty pty''
      (offer (RingBuffer.capacity pty.inBuffer) queue (inputByte pty.ios c).toList) := by
  obtain ⟨other, output⟩ := before.output
  -- the echo leaves the input and the settings as they are
  have echoed : ∀ c, ∃ middle,
      (if pty'.ios.lflag &&& echo ≠ 0 then ttyOutputProcess pty' c else some pty') = some middle ∧
        InputHolds pty middle queue := by
    intro c
    split
    · obtain ⟨middle, done, outputHolds⟩ := ttyOutputProcessSlave_offers output c
      refine ⟨middle, done, ?_⟩
      have same : middle.inBuffer = pty'.inBuffer ∧ middle.ios = pty'.ios := by
        rw [outputHolds.rest]
        exact ⟨rfl, rfl⟩
      exact ⟨same.1 ▸ before.size, same.2.trans before.ios, same.1 ▸ before.holds, _, outputHolds.holds⟩
    · exact ⟨pty', rfl, before⟩
  rw [ttyInputProcess_eq, before.ios]
  cases inputByte pty.ios c with
  | none =>
      refine ⟨pty', rfl, ?_⟩
      rw [Option.toList_none, offer_nil]
      exact before
  | some c' =>
      obtain ⟨middle, done, holds⟩ := echoed c'
      rw [before.ios] at done
      rw [Option.elim_some, done]
      exact holds.write c'

/-! ## A whole write -/

/-- A loop over bytes of which every one offers its output returns the number of bytes. -/
theorem processBytes_offers {process : Pty → BitVec 8 → Option Pty} {bytesOf : BitVec 8 → List (BitVec 8)}
    {capacity : Nat} {Holds : Pty → List (BitVec 8) → Prop}
    (offers : ∀ pty queue c, Holds pty queue →
      ∃ pty', process pty c = some pty' ∧ Holds pty' (offer capacity queue (bytesOf c)))
    (bytes : List (BitVec 8)) {pty : Pty} {queue : List (BitVec 8)} (holds : Holds pty queue)
    (processed : Nat) :
    ∃ pty', processBytes process bytes processed pty = some (processed + bytes.length, pty') ∧
      Holds pty' (offer capacity queue (bytes.flatMap bytesOf)) := by
  induction bytes generalizing pty queue processed with
  | nil =>
      refine ⟨pty, rfl, ?_⟩
      rw [List.flatMap_nil, offer_nil]
      exact holds
  | cons c rest inductionHypothesis =>
      obtain ⟨middle, done, middleHolds⟩ := offers pty queue c holds
      obtain ⟨pty', run, holds'⟩ := inductionHypothesis middleHolds (processed + 1)
      refine ⟨pty', ?_, ?_⟩
      · rw [processBytes, done]
        dsimp only
        rw [run, List.length_cons, Nat.add_right_comm, Nat.add_assoc]
      · rw [List.flatMap_cons, ← offer_offer]
        exact holds'

/-- A write at either end returns its size and offers the output of all its bytes. -/
theorem writePty_offers (side : PtySide) {pty : Pty} (sound : Pty.Sound pty) (bytes : List (BitVec 8))
    {queue : List (BitVec 8)} (holds : RingHolds (side.ring pty) queue) :
    ∃ pty', side.write pty bytes = some (bytes.length, pty') ∧
      RingHolds (side.ring pty') (offer (RingBuffer.capacity (side.ring pty)) queue
        (bytes.flatMap (side.output pty.ios))) := by
  cases side with
  | master =>
      have start : InputHolds pty pty queue := ⟨rfl, rfl, holds, sound.output⟩
      obtain ⟨pty', run, after⟩ := @processBytes_offers ttyInputProcess
        (fun c => (inputByte pty.ios c).toList) (RingBuffer.capacity pty.inBuffer) (InputHolds pty)
        (fun _ _ c before => ttyInputProcess_offers before c) bytes _ _ start 0
      rw [Nat.zero_add] at run
      exact ⟨pty', run, after.holds⟩
  | slave =>
      obtain ⟨pty', run, after⟩ := @processBytes_offers ttyOutputProcessSlave (slaveOutput pty.ios)
        (RingBuffer.capacity pty.outBuffer) (OutputHolds pty)
        (fun pty' queue c before => by
          obtain ⟨pty'', done, holds'⟩ := ttyOutputProcessSlave_offers before.holds c
          have ios : pty'.ios = pty.ios := by rw [before.rest]
          refine ⟨pty'', done, holds'.size.trans before.size, ?_, ?_⟩
          · rw [holds'.rest, before.rest]
          · have after := holds'.holds
            rw [RingBuffer.capacity, before.size, ios] at after
            exact after)
        bytes _ _ (OutputHolds.refl holds) 0
      rw [Nat.zero_add] at run
      exact ⟨pty', run, after.holds⟩

/-- The queue of a ring buffer is in its cells. -/
theorem RingHolds.unique {rb : RingBuffer} {queue other : List (BitVec 8)} (holds : RingHolds rb queue)
    (also : RingHolds rb other) : queue = other := by
  have length : queue.length = other.length := by rw [← holds.readable, also.readable]
  refine List.ext_getElem? fun i => ?_
  by_cases inside : i < queue.length
  · rw [← holds.cells i inside, also.cells i (length ▸ inside)]
  · rw [List.getElem?_eq_none (by omega), List.getElem?_eq_none (by omega)]

/-- A write counts right exactly if the other end's ring buffer has room for all its output. -/
theorem ptyWriteSound_iff (side : PtySide) {pty : Pty} (sound : Pty.Sound pty) (bytes : List (BitVec 8)) :
    PtyWriteSound side pty bytes ↔
      (bytes.flatMap (side.output pty.ios)).length ≤ (ringbufferAvail (side.ring pty)).toNat := by
  have exists_ : ∃ queue, RingHolds (side.ring pty) queue := by
    cases side with
    | master => exact sound.input
    | slave => exact sound.output
  obtain ⟨queue, holds⟩ := exists_
  obtain ⟨pty', run, after⟩ := writePty_offers side sound bytes holds
  have counts := delivered_take (bytes.map (side.output pty.ios))
    (RingBuffer.capacity (side.ring pty) - queue.length)
  rw [List.length_map, ← List.flatMap_def] at counts
  rw [holds.avail]
  refine Iff.trans ?_ counts
  constructor
  · intro claimed
    obtain ⟨n, pty'', appended, same, claims, count⟩ := claimed queue holds
    cases run.symm.trans same
    rw [List.append_cancel_left (after.unique claims)]
    exact count.symm
  · intro count other otherHolds
    obtain rfl := holds.unique otherHolds
    exact ⟨_, pty', _, run, after, count.symm⟩

/-! ## Runs -/

/-- What is done with a terminal: the reads and writes of both ends, with the buffers of the callers, and
new settings. -/
inductive PtyCall
  | write (side : PtySide) (bytes : List (BitVec 8))
  | readMaster (size : BitVec 64) (buffer : List (BitVec 8)) (room : size.toNat ≤ buffer.length)
  | readSlave (size : BitVec 64) (buffer : List (BitVec 8)) (room : size.toNat ≤ buffer.length)
  | settings (ios : Termios)

/-- The terminal after a call. -/
def PtyCall.step (pty : Pty) : PtyCall → Option Pty
  | .write side bytes => (side.write pty bytes).map Prod.snd
  | .readMaster size buffer _ => (readPtyMaster pty size buffer).map Prod.snd
  | .readSlave size buffer _ => (readPtySlave pty size buffer).map Prod.snd
  | .settings ios => some { pty with ios := ios }

/-- The terminals that a run of calls reaches from a new one. -/
def Pty.Reachable (pty : Pty) : Prop :=
  ∃ m junkIn junkOut index start m' calls, ptyNew m junkIn junkOut index = some (start, m') ∧
    Run PtyCall.step (fun _ _ => True) start calls pty

/-- The ring buffers of a new terminal are empty. -/
theorem ptyNew_empty {m m' : FrameMap} {junkIn junkOut : Nat → BitVec 8} {index : BitVec 32} {pty : Pty}
    (new : ptyNew m junkIn junkOut index = some (pty, m')) :
    pty.inBuffer.size = ptyBufferSize ∧ RingHolds pty.inBuffer [] ∧
      pty.outBuffer.size = ptyBufferSize ∧ RingHolds pty.outBuffer [] := by
  unfold ptyNew at new
  obtain ⟨⟨input, m₁⟩, allocatedIn, rest⟩ := Option.bind_eq_some_iff.mp new
  obtain ⟨⟨output, m₂⟩, allocatedOut, same⟩ := Option.map_eq_some_iff.mp rest
  cases same
  obtain ⟨sizeIn, holdsIn⟩ := ringbufferAlloc_holds (by decide) allocatedIn
  obtain ⟨sizeOut, holdsOut⟩ := ringbufferAlloc_holds (by decide) allocatedOut
  exact ⟨sizeIn, holdsIn, sizeOut, holdsOut⟩

/-- The settings of a new terminal. -/
theorem ptyNew_ios {m m' : FrameMap} {junkIn junkOut : Nat → BitVec 8} {index : BitVec 32} {pty : Pty}
    (new : ptyNew m junkIn junkOut index = some (pty, m')) :
    pty.ios = { iflag := icrnl ||| brkint, oflag := onlcr ||| opost, cflag := defaultCflag,
                lflag := defaultLflag, ccVmin := 1 } := by
  unfold ptyNew at new
  obtain ⟨_, _, rest⟩ := Option.bind_eq_some_iff.mp new
  obtain ⟨_, _, same⟩ := Option.map_eq_some_iff.mp rest
  cases same
  rfl

/-- A write leaves the other ring buffer a queue, too. -/
theorem Pty.Sound.write {pty pty' : Pty} {side : PtySide} {bytes : List (BitVec 8)} {n : Nat}
    (sound : Pty.Sound pty) (wrote : side.write pty bytes = some (n, pty')) : Pty.Sound pty' := by
  have step : ∀ {process : Pty → BitVec 8 → Option Pty},
      (∀ pty c, Pty.Sound pty → ∃ pty', process pty c = some pty' ∧ Pty.Sound pty') →
      processBytes process bytes 0 pty = some (n, pty') → Pty.Sound pty' := by
    intro process keeps run
    obtain ⟨pty'', run', sound'⟩ := @processBytes_offers process (fun _ => []) 0
      (fun pty _ => Pty.Sound pty) (fun pty _ c holds => keeps pty c holds) bytes _ [] sound 0
    cases run.symm.trans run'
    exact sound'
  cases side with
  | master =>
      refine step (fun pty c holds => ?_) wrote
      obtain ⟨queue, input⟩ := holds.input
      obtain ⟨pty', done, after⟩ := ttyInputProcess_offers
        (show InputHolds pty pty queue from ⟨rfl, rfl, input, holds.output⟩) c
      exact ⟨pty', done, ⟨_, after.holds⟩, after.output⟩
  | slave =>
      refine step (fun pty c holds => ?_) wrote
      obtain ⟨queue, output⟩ := holds.output
      obtain ⟨pty', done, after⟩ := ttyOutputProcessSlave_offers output c
      refine ⟨pty', done, ?_, ⟨_, after.holds⟩⟩
      rw [after.rest]
      exact holds.input

/-- A read leaves a queue. -/
theorem RingHolds.afterRead {rb rb' : RingBuffer} {queue : List (BitVec 8)} (holds : RingHolds rb queue)
    {size : BitVec 64} {buffer : List (BitVec 8)} (room : size.toNat ≤ buffer.length)
    {answer : BitVec 64 × List (BitVec 8)} (read : ringbufferRead rb size buffer = some (answer, rb')) :
    ∃ other, RingHolds rb' other := by
  obtain ⟨rb'', same, _, after⟩ := holds.read room rfl
  cases read.symm.trans same
  exact ⟨_, after⟩

/-- Every call leaves queues in both ring buffers. -/
theorem Pty.Sound.step {pty pty' : Pty} {call : PtyCall} (sound : Pty.Sound pty)
    (stepped : call.step pty = some pty') : Pty.Sound pty' := by
  cases call with
  | write side bytes =>
      obtain ⟨⟨n, _⟩, wrote, rfl⟩ := Option.map_eq_some_iff.mp stepped
      exact sound.write wrote
  | readMaster size buffer room =>
      obtain ⟨_, done, rfl⟩ := Option.map_eq_some_iff.mp stepped
      obtain ⟨⟨answer, rb⟩, read, rfl⟩ := Option.map_eq_some_iff.mp done
      obtain ⟨queue, holds⟩ := sound.output
      exact ⟨sound.input, holds.afterRead room read⟩
  | readSlave size buffer room =>
      obtain ⟨_, done, rfl⟩ := Option.map_eq_some_iff.mp stepped
      unfold readPtySlave at done
      obtain ⟨⟨answer, rb⟩, read, rfl⟩ := Option.map_eq_some_iff.mp done
      obtain ⟨queue, holds⟩ := sound.input
      refine ⟨holds.afterRead (Nat.le_trans ?_ room) read, sound.output⟩
      split
      · exact Nat.le_refl _
      split
      · dsimp only
        split
        · exact Nat.le_refl _
        · bv_omega
      split
      · bv_omega
      · exact Nat.le_refl _
  | settings ios =>
      cases stepped
      exact ⟨sound.input, sound.output⟩

theorem Pty.Reachable.sound {pty : Pty} (reachable : Pty.Reachable pty) : Pty.Sound pty := by
  obtain ⟨_, _, _, _, _, _, _, new, run⟩ := reachable
  obtain ⟨_, input, _, output⟩ := ptyNew_empty new
  exact run.invariant (fun _ _ _ _ stepped sound => sound.step stepped) ⟨⟨_, input⟩, ⟨_, output⟩⟩

/-- In every state of a terminal, a write at either end returns the number of leading bytes whose complete
output the other end gets exactly if the ring buffer of the other end has room for the output of all. -/
theorem pty_write_counts_iff {pty : Pty} (reachable : Pty.Reachable pty) (side : PtySide)
    (bytes : List (BitVec 8)) :
    PtyWriteSound side pty bytes ↔
      (bytes.flatMap (side.output pty.ios)).length ≤ (ringbufferAvail (side.ring pty)).toNat :=
  ptyWriteSound_iff side reachable.sound bytes

/-- Memory of eight free frames. -/
def eightFrames : FrameMap := { nFrames := 8, locked := fun _ => false, lowestAvailable := 0 }

/-- There is a new terminal. -/
theorem ptyNew_eightFrames :
    ∃ pty m, ptyNew eightFrames (fun _ => 0) (fun _ => 0) 1 = some (pty, m) := by
  have made : (ptyNew eightFrames (fun _ => 0) (fun _ => 0) 1).isSome = true := by decide +kernel
  obtain ⟨⟨pty, m⟩, new⟩ := Option.isSome_iff_exists.mp made
  exact ⟨pty, m, new⟩

/-- The slave can write 4095 bytes to a new terminal. -/
theorem ptyNew_avail {m m' : FrameMap} {junkIn junkOut : Nat → BitVec 8} {index : BitVec 32} {pty : Pty}
    (new : ptyNew m junkIn junkOut index = some (pty, m')) :
    (ringbufferAvail (PtySide.slave.ring pty)).toNat = 4095 := by
  obtain ⟨_, _, size, holds⟩ := ptyNew_empty new
  refine (RingHolds.avail holds).trans ?_
  rw [size]
  rfl

/-- A byte that ends no line becomes one byte. -/
theorem slaveOutput_single (ios : Termios) {c : BitVec 8} (notNewline : c ≠ newline)
    (notReturn : c ≠ carriageReturn) : (slaveOutput ios c).length = 1 := by
  unfold slaveOutput
  split
  · rfl
  rw [if_neg fun both => notNewline both.1, if_neg fun both => notReturn both.1]
  split <;> rfl

/-- The output of copies of such a byte. -/
theorem flatMap_replicate_length (ios : Termios) (n : Nat) {c : BitVec 8} (notNewline : c ≠ newline)
    (notReturn : c ≠ carriageReturn) :
    ((List.replicate n c).flatMap (PtySide.slave.output ios)).length = n := by
  rw [List.length_flatMap, List.map_replicate, List.sum_replicate_nat]
  change n * (slaveOutput ios c).length = n
  rw [slaveOutput_single ios notNewline notReturn, Nat.mul_one]

/-- A word of two bytes through a new terminal. -/
theorem pty_write_counts_iff_example :
    ∃ pty, Pty.Reachable pty ∧ PtyWriteSound .slave pty [0x61, 0x61] := by
  obtain ⟨pty, m, new⟩ := ptyNew_eightFrames
  have reachable : Pty.Reachable pty := ⟨_, _, _, _, pty, m, [], new, .refl _⟩
  refine ⟨pty, reachable, (pty_write_counts_iff reachable .slave _).mpr ?_⟩
  have length := flatMap_replicate_length pty.ios 2 (show (0x61 : BitVec 8) ≠ newline by decide) (by decide)
  rw [ptyNew_avail new]
  exact Nat.le_trans (Nat.le_of_eq length) (by decide)

/-- The slave writes 4096 bytes to a new terminal that nobody reads; the last one is lost and counted. -/
theorem pty_write_counts_lost_byte :
    ∃ pty, Pty.Reachable pty ∧ ¬ PtyWriteSound .slave pty (List.replicate 4096 0x61) := by
  obtain ⟨pty, m, new⟩ := ptyNew_eightFrames
  have reachable : Pty.Reachable pty := ⟨_, _, _, _, pty, m, [], new, .refl _⟩
  refine ⟨pty, reachable, fun sound => ?_⟩
  have room := (ptyWriteSound_iff .slave reachable.sound _).mp sound
  have length := flatMap_replicate_length pty.ios 4096 (show (0x61 : BitVec 8) ≠ newline by decide)
    (by decide)
  rw [ptyNew_avail new] at room
  exact absurd (Nat.le_trans (Nat.le_of_eq length.symm) room) (by decide)

end Voxel.Proofs
