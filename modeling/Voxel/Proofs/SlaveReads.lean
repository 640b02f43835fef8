/-
Module: Voxel.Proofs.SlaveReads
Layer: Proofs
Purpose: Reading the slave of a pseudo terminal. `read_pty_slave` looks for `ICANON`, a flag of `lflag`, in
  `cflag`, where the same bit belongs to the baud rate; the reads tell the two words apart as soon as there
  is more to read than `cc[VMIN]`.
Trusted boundary: none
Main exports: slaveCount, readPtySlave_spec, ReadsByLineMode, CflagIgnored, slave_reads_iff
-/
import Voxel.Proofs.PtyWrite

namespace Voxel.Proofs

open Voxel.Lib Voxel.Kernel

/-! ## What a read takes -/

/-- Whether a word of flags has the bit of `ICANON`. -/
def canonical (flags : BitVec 32) : Bool := flags &&& icanon ≠ 0

/-- The bytes that a read takes in a mode: as many as it can, or not more than `cc[VMIN]` of them. -/
def slaveCount (byLine : Bool) (ccVmin : BitVec 8) (size readable : Nat) : Nat :=
  if byLine then min size readable
  else if ccVmin = 0 then min size readable
  else min (min ccVmin.toNat size) readable

/-- The mode makes no difference unless there is more to read than `cc[VMIN]`. -/
theorem slaveCount_eq_iff {byLine other : Bool} {ccVmin : BitVec 8} {size readable : Nat} :
    slaveCount byLine ccVmin size readable = slaveCount other ccVmin size readable ↔
      ccVmin = 0 ∨ min size readable ≤ ccVmin.toNat ∨ byLine = other := by
  have mixed : min size readable = min (min ccVmin.toNat size) readable ↔
      min size readable ≤ ccVmin.toNat := by omega
  unfold slaveCount
  by_cases none_ : ccVmin = 0
  · rw [if_pos none_, ite_self, ite_self]
    exact iff_of_true rfl (.inl none_)
  · rw [if_neg none_]
    by_cases same : byLine = other
    · rw [same]
      exact iff_of_true rfl (.inr (.inr rfl))
    · have either : (ccVmin = 0 ∨ min size readable ≤ ccVmin.toNat ∨ byLine = other) ↔
          min size readable ≤ ccVmin.toNat := by
        simp only [none_, same, false_or, or_false]
      rw [either, ← mixed]
      cases byLine <;> cases other
      · exact absurd rfl same
      · exact eq_comm
      · exact Iff.rfl
      · exact absurd rfl same

theorem slaveCount_le (byLine : Bool) (ccVmin : BitVec 8) (size readable : Nat) :
    slaveCount byLine ccVmin size readable ≤ size ∧ slaveCount byLine ccVmin size readable ≤ readable := by
  unfold slaveCount
  split_ifs <;> omega

/-- A ring buffer gives no more than it has. -/
theorem ringbufferRead_min (rb : RingBuffer) (size : BitVec 64) (buffer : List (BitVec 8)) :
    ringbufferRead rb size buffer =
      ringbufferRead rb (if ringbufferReadable rb < size then ringbufferReadable rb else size) buffer := by
  have same : ∀ readable : BitVec 64,
      (if readable < (if readable < size then readable else size) then readable
        else (if readable < size then readable else size)) = if readable < size then readable else size := by
    intro readable
    split_ifs <;> rfl
  unfold ringbufferRead
  dsimp only
  rw [same]

/-- What `read_pty_slave` asks for is what it takes in the mode that it finds in `cflag`. -/
theorem readPtySlave_eq (pty : Pty) (size : BitVec 64) (buffer : List (BitVec 8)) :
    readPtySlave pty size buffer =
      (ringbufferRead pty.inBuffer
        (BitVec.ofNat 64 (slaveCount (canonical pty.ios.cflag) pty.ios.ccVmin size.toNat
          (ringbufferReadable pty.inBuffer).toNat)) buffer).map
        fun done => (done.1, { pty with inBuffer := done.2 }) := by
  unfold readPtySlave
  dsimp only
  rw [ringbufferRead_min pty.inBuffer, ringbufferRead_min pty.inBuffer (BitVec.ofNat 64 _)]
  congr 2
  generalize ringbufferReadable pty.inBuffer = readable
  have clamp : ∀ x : BitVec 64, (if readable < x then readable else x) =
      BitVec.ofNat 64 (min x.toNat readable.toNat) := by
    intro x
    split_ifs <;> bv_omega
  have small : ∀ n : Nat, n ≤ readable.toNat → (BitVec.ofNat 64 n).toNat = n := fun n _ => by
    rw [BitVec.toNat_ofNat, Nat.mod_eq_of_lt (by omega)]
  rw [clamp, clamp, small _ (slaveCount_le _ _ _ _).2, Nat.min_eq_left (slaveCount_le _ _ _ _).2]
  congr 1
  unfold slaveCount canonical
  by_cases byLine : pty.ios.cflag &&& icanon = 0
  · rw [if_neg (not_not.mpr byLine), decide_eq_false (not_not.mpr byLine), if_neg Bool.false_ne_true]
    by_cases none_ : pty.ios.ccVmin = 0
    · rw [if_pos none_, if_pos none_]
      split_ifs <;> bv_omega
    · have vmin : (pty.ios.ccVmin.setWidth 64).toNat = pty.ios.ccVmin.toNat := by
        rw [BitVec.toNat_setWidth]
        omega
      rw [if_neg none_, if_neg none_]
      split_ifs with less
      · rw [vmin]
        have : pty.ios.ccVmin.toNat < size.toNat := by rw [← vmin]; exact less
        omega
      · have : ¬pty.ios.ccVmin.toNat < size.toNat := by rw [← vmin]; exact less
        omega
  · rw [if_pos byLine, decide_eq_true byLine, if_pos rfl]

/-- A read takes the first bytes out of the input. -/
theorem readPtySlave_spec {pty : Pty} {queue : List (BitVec 8)} (holds : RingHolds pty.inBuffer queue)
    {size : BitVec 64} {buffer : List (BitVec 8)} (room : size.toNat ≤ buffer.length) {count : Nat}
    (counted : count = slaveCount (canonical pty.ios.cflag) pty.ios.ccVmin size.toNat queue.length) :
    ∃ rb, readPtySlave pty size buffer =
        some ((BitVec.ofNat 64 count, queue.take count ++ buffer.drop count), { pty with inBuffer := rb }) ∧
      RingHolds rb (queue.drop count) := by
  have bounds := slaveCount_le (canonical pty.ios.cflag) pty.ios.ccVmin size.toNat queue.length
  rw [← counted] at bounds
  have asked : (BitVec.ofNat 64 count).toNat = count := by
    rw [BitVec.toNat_ofNat]
    omega
  have length : (queue.take count).length = count := List.length_take_of_le bounds.2
  obtain ⟨rb, read, -, after⟩ := @RingHolds.read _ _ holds (BitVec.ofNat 64 count) buffer (by omega)
    (queue.take count) (by rw [asked])
  rw [asked] at after
  rw [length] at read
  rw [readPtySlave_eq, holds.readable, ← counted, read]
  exact ⟨rb, rfl, after⟩

/-! ## The two words of flags -/

/-- The terminal with another `cflag`. -/
def Pty.withCflag (pty : Pty) (cflag : BitVec 32) : Pty := { pty with ios := { pty.ios with cflag := cflag } }

/-- A read takes what it is to take in the mode that `lflag` says. -/
def ReadsByLineMode (pty : Pty) (size : BitVec 64) (buffer : List (BitVec 8)) : Prop :=
  ∀ queue, RingHolds pty.inBuffer queue → ∀ count,
    count = slaveCount (canonical pty.ios.lflag) pty.ios.ccVmin size.toNat queue.length →
      ∃ rb, readPtySlave pty size buffer =
          some ((BitVec.ofNat 64 count, queue.take count ++ buffer.drop count), { pty with inBuffer := rb }) ∧
        RingHolds rb (queue.drop count)

/-- A read with another `cflag` has the same result. -/
def CflagIgnored (pty : Pty) (cflag : BitVec 32) (size : BitVec 64) (buffer : List (BitVec 8)) : Prop :=
  readPtySlave (Pty.withCflag pty cflag) size buffer =
    (readPtySlave pty size buffer).map fun done => (done.1, Pty.withCflag done.2 cflag)

section Modes

variable {pty : Pty} {queue : List (BitVec 8)} {size : BitVec 64} {buffer : List (BitVec 8)}

theorem readsByLineMode_iff (holds : RingHolds pty.inBuffer queue) (room : size.toNat ≤ buffer.length) :
    ReadsByLineMode pty size buffer ↔
      slaveCount (canonical pty.ios.lflag) pty.ios.ccVmin size.toNat queue.length =
        slaveCount (canonical pty.ios.cflag) pty.ios.ccVmin size.toNat queue.length := by
  obtain ⟨rb, read, after⟩ := readPtySlave_spec holds room rfl
  constructor
  · intro byMode
    obtain ⟨rb', read', -⟩ := byMode queue holds _ rfl
    have counts := congrArg (fun done => done.1.1.toNat) (Option.some.inj (read'.symm.trans read))
    have bound := slaveCount_le (canonical pty.ios.lflag) pty.ios.ccVmin size.toNat queue.length
    have bound' := slaveCount_le (canonical pty.ios.cflag) pty.ios.ccVmin size.toNat queue.length
    dsimp only at counts
    rw [BitVec.toNat_ofNat, BitVec.toNat_ofNat, Nat.mod_eq_of_lt (by omega),
      Nat.mod_eq_of_lt (by omega)] at counts
    exact counts
  · intro same other otherHolds count counted
    obtain rfl := holds.unique otherHolds
    rw [counted, same]
    exact ⟨rb, read, after⟩

theorem cflagIgnored_iff (holds : RingHolds pty.inBuffer queue) (room : size.toNat ≤ buffer.length)
    (cflag : BitVec 32) :
    CflagIgnored pty cflag size buffer ↔
      slaveCount (canonical cflag) pty.ios.ccVmin size.toNat queue.length =
        slaveCount (canonical pty.ios.cflag) pty.ios.ccVmin size.toNat queue.length := by
  have bound := slaveCount_le (canonical cflag) pty.ios.ccVmin size.toNat queue.length
  have bound' := slaveCount_le (canonical pty.ios.cflag) pty.ios.ccVmin size.toNat queue.length
  unfold CflagIgnored
  constructor
  · intro ignored
    obtain ⟨rb, read, -⟩ := readPtySlave_spec holds room rfl
    obtain ⟨rb', read', -⟩ := @readPtySlave_spec (Pty.withCflag pty cflag) _ holds _ _ room _ rfl
    rw [read, read'] at ignored
    have counts := congrArg (fun done => done.1.1.toNat) (Option.some.inj ignored)
    dsimp only [Pty.withCflag] at counts
    rw [BitVec.toNat_ofNat, BitVec.toNat_ofNat, Nat.mod_eq_of_lt (by omega),
      Nat.mod_eq_of_lt (by omega)] at counts
    exact counts
  · intro same
    rw [readPtySlave_eq, readPtySlave_eq, Option.map_map, holds.readable, ← same]
    dsimp only [Pty.withCflag]
    rw [holds.readable]
    rfl

end Modes

/-- The reads of the slave follow the mode in `lflag`, and take no notice of a change of `cflag`, exactly if
`cc[VMIN]` is zero, or there is no more to read than it says, or the bit of `ICANON` is the same in `lflag`
and in both values of `cflag`. -/
theorem slave_reads_iff {pty : Pty} (sound : Pty.Sound pty) {size : BitVec 64} {buffer : List (BitVec 8)}
    (room : size.toNat ≤ buffer.length) (cflag : BitVec 32) :
    ReadsByLineMode pty size buffer ∧ CflagIgnored pty cflag size buffer ↔
      pty.ios.ccVmin = 0 ∨
      min size.toNat (ringbufferReadable pty.inBuffer).toNat ≤ pty.ios.ccVmin.toNat ∨
      (canonical pty.ios.lflag = canonical pty.ios.cflag ∧ canonical cflag = canonical pty.ios.cflag) := by
  obtain ⟨queue, holds⟩ := sound.input
  rw [readsByLineMode_iff holds room, cflagIgnored_iff holds room, slaveCount_eq_iff, slaveCount_eq_iff,
    holds.readable]
  tauto

/-- A terminal with two bytes to read, in the settings that it is given. -/
theorem pty_twoBytes (ios : Termios) :
    ∃ pty, Pty.Reachable pty ∧ pty.ios = ios ∧ RingHolds pty.inBuffer [0x61, 0x62] := by
  obtain ⟨pty, m, new⟩ := ptyNew_eightFrames
  have reachable : Pty.Reachable pty := ⟨_, _, _, _, pty, m, [], new, .refl _⟩
  obtain ⟨size, holds, -⟩ := ptyNew_empty new
  obtain ⟨pty', wrote, after⟩ := writePty_offers .master reachable.sound [0x61, 0x62] holds
  have input : ([0x61, 0x62] : List (BitVec 8)).flatMap (PtySide.master.output pty.ios) = [0x61, 0x62] := by
    rw [ptyNew_ios new]
    decide
  have capacity : RingBuffer.capacity (PtySide.master.ring pty) = 4095 := by
    show pty.inBuffer.size.toNat - 1 = 4095
    rw [size]
    rfl
  rw [input, capacity] at after
  refine ⟨{ pty' with ios := ios }, ?_, rfl, after⟩
  exact ⟨_, _, _, _, pty, m, [.write .master [0x61, 0x62], .settings ios], new,
    .head trivial (congrArg (Option.map Prod.snd) wrote) (.head trivial rfl (.refl _))⟩

theorem slave_reads_iff_default :
    ∃ pty, Pty.Reachable pty ∧ pty.ios.cflag = defaultCflag ∧
      ReadsByLineMode pty 2 [0, 0] ∧ CflagIgnored pty (defaultCflag ||| echo) 2 [0, 0] := by
  obtain ⟨pty, reachable, settings, -⟩ := pty_twoBytes
    { iflag := 0, oflag := 0, cflag := defaultCflag, lflag := defaultLflag, ccVmin := 1 }
  refine ⟨pty, reachable, by rw [settings], (slave_reads_iff reachable.sound (by decide) _).mpr ?_⟩
  rw [settings]
  exact .inr (.inr (by decide))

/-- With the `lflag` of a new terminal, but 9600 baud, a line is not read as a whole. -/
theorem slave_reads_baudRate :
    ∃ pty, Pty.Reachable pty ∧ pty.ios.lflag = defaultLflag ∧ pty.ios.cflag = 0o200 ||| 0o60 ||| 0o15 ∧
      ¬ReadsByLineMode pty 2 [0, 0] := by
  obtain ⟨pty, reachable, settings, holds⟩ := pty_twoBytes
    { iflag := 0, oflag := 0, cflag := 0o200 ||| 0o60 ||| 0o15, lflag := defaultLflag, ccVmin := 1 }
  refine ⟨pty, reachable, by rw [settings], by rw [settings], fun byMode => ?_⟩
  have counts := (readsByLineMode_iff holds (by decide)).mp byMode
  rw [settings] at counts
  exact absurd counts (by decide)

end Voxel.Proofs
