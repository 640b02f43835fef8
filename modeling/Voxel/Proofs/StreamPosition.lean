/-
Module: Voxel.Proofs.StreamPosition
Layer: Proofs
Purpose: `ftell` adds `read_from` to the place of the last refill. This is the position of the next byte only
  if the refill went to the beginning of the buffer and no `fseek` came after it. A stream refills behind
  the beginning when it asks once more at the end of a file; `fseek` leaves the place of the last refill.
Trusted boundary: none
Main exports: nextByte, Smooth, Sound, readLoop_sound, PositionOp, ToldTrue, ftell_true, ftell_lies
-/
import Voxel.Lib.Run
import Voxel.Libc.RegularFile
import Voxel.Proofs.BufferedRead

namespace Voxel.Proofs

open Voxel.Lib Voxel.Libc

/-! ## The position -/

/-- The position of the next byte that the stream delivers: what is available was already read. -/
def nextByte (s : Stream Disk) : BitVec 64 := s.world.position - BitVec.ofNat 64 s.file.available

/-- Reading `n` bytes refills the buffer only at its beginning: the bytes are available, or the next
refill is at the beginning and the bytes are in the file, or no refill but the last finds less than a
full buffer. -/
def Smooth (s : Stream Disk) (n : Nat) : Prop :=
  n ≤ s.file.available ∨
    (s.file.offset = 0 ∨ s.file.offset = s.file.bufsiz) ∧
      (n - s.file.available ≤ s.world.remaining ∨ s.world.remaining % s.file.bufsiz = 0)

/-- What the cursors of a stream say about its file. -/
structure Sound (s : Stream Disk) : Prop where
  cursors : Cursors s.file
  unpushed : s.file.ungetc < 0
  unwritten : s.file.written = 0
  told : s.file.readFrom = 0 ∧ s.file.available = 0 ∨
    s.file.lastReadStart + BitVec.ofNat 64 s.file.readFrom + BitVec.ofNat 64 s.file.available =
      s.world.position
  held : 0 < s.file.available →
    s.file.available ≤ s.world.position.toNat ∧ s.world.position.toNat ≤ s.world.data.length ∧
      buffered s.file =
        (s.world.data.drop (s.world.position.toNat - s.file.available)).take s.file.available
  beyond : s.world.data.length < s.world.position.toNat → s.file.readFrom = 0 ∧ s.file.offset = 0

/-- Between calls a stream has delivered a byte of every refill that gave one. -/
def AtRest (s : Stream Disk) : Prop := s.file.readFrom = 0 → s.file.available = 0

variable (pastEnd : Option Int) {s t : Stream Disk} {n : Nat}

theorem Sound.available_le (sound : Sound s) : s.file.available ≤ s.world.position.toNat := by
  rcases Nat.eq_zero_or_pos s.file.available with none_ | some_
  · omega
  · exact (sound.held some_).1

theorem nextByte_toNat (sound : Sound s) :
    (nextByte s).toNat = s.world.position.toNat - s.file.available := by
  have inside := sound.available_le
  have top := s.world.position.isLt
  rw [nextByte, BitVec.toNat_sub, BitVec.toNat_ofNat]
  omega

/-- Behind the end of the file nothing is available. -/
theorem Sound.far (sound : Sound s) (far : s.world.data.length < s.world.position.toNat) :
    s.file.available = 0 := by
  rcases Nat.eq_zero_or_pos s.file.available with none_ | some_
  · exact none_
  · have high := (sound.held some_).2.1
    omega

/-- What is buffered are the bytes of the file from the position on. -/
theorem buffered_data (sound : Sound s) :
    buffered s.file = (s.world.data.drop (nextByte s).toNat).take s.file.available := by
  rcases Nat.eq_zero_or_pos s.file.available with none_ | some_
  · rw [none_, List.take_zero]
    exact List.length_eq_zero_iff.mp ((buffered_length sound.cursors).trans none_)
  · rw [nextByte_toNat sound]
    exact (sound.held some_).2.2

/-- A stream at rest whose buffer is used up refills where the file goes on. -/
theorem nextByte_empty (empty : s.file.available = 0) : nextByte s = s.world.position := by
  rw [nextByte, empty]
  exact BitVec.sub_zero _

/-! ## Delivering -/

/-- The stream behind the inner loop. -/
def copied (s : Stream Disk) (n : Nat) : Stream Disk := { s with file := advance s.file n }

theorem nextByte_copied (inside : n ≤ s.file.available) :
    nextByte (copied s n) = nextByte s + BitVec.ofNat 64 n := by
  have parts : BitVec.ofNat 64 s.file.available =
      BitVec.ofNat 64 (s.file.available - n) + BitVec.ofNat 64 n := by
    rw [← BitVec.ofNat_add]
    congr 1
    omega
  show s.world.position - BitVec.ofNat 64 (s.file.available - n) = _
  rw [nextByte, parts]
  generalize BitVec.ofNat 64 (s.file.available - n) = rest
  generalize BitVec.ofNat 64 n = given
  bv_omega

theorem Sound.copied (sound : Sound s) (inside : n ≤ s.file.available) : Sound (copied s n) := by
  refine ⟨sound.cursors.advance inside, sound.unpushed, sound.unwritten, ?_, ?_, ?_⟩
  · rcases sound.told with ⟨start, none_⟩ | told
    · left
      show s.file.readFrom + n = 0 ∧ s.file.available - n = 0
      omega
    · right
      refine Eq.trans ?_ told
      show s.file.lastReadStart + BitVec.ofNat 64 (s.file.readFrom + n) +
        BitVec.ofNat 64 (s.file.available - n) = _
      rw [BitVec.ofNat_add, ← BitVec.add_assoc, BitVec.add_assoc, ← BitVec.ofNat_add]
      congr 2
      omega
  · intro some_
    have available : 0 < s.file.available := Nat.lt_of_lt_of_le some_ (Nat.sub_le _ _)
    obtain ⟨low, high, held⟩ := sound.held available
    refine ⟨Nat.le_trans (Nat.sub_le _ _) low, high, ?_⟩
    show buffered (advance s.file n) = (s.world.data.drop (s.world.position.toNat -
      (s.file.available - n))).take (s.file.available - n)
    rw [buffered_advance, held, List.drop_take, List.drop_drop]
    congr 2
    omega
  · intro far
    obtain ⟨start, empty⟩ := sound.beyond far
    have none_ := sound.far far
    refine ⟨?_, empty⟩
    show s.file.readFrom + n = 0
    omega

theorem Smooth.copied {extra : Nat} (smooth : Smooth s (n + extra)) (inside : n ≤ s.file.available) :
    Smooth (copied s n) extra := by
  rcases smooth with buffered | ⟨place, enough⟩
  · left
    show extra ≤ s.file.available - n
    omega
  · refine .inr ⟨place, enough.imp (fun few => ?_) id⟩
    show extra - (s.file.available - n) ≤ s.world.remaining
    omega

theorem seek_here (disk : Disk) : disk.seek 0 seekCur = (disk.position, disk) := by
  simp [Disk.seek, seekCur, seekSet]

/-- What a refill at the beginning of the buffer leaves: all bytes that it got are available. -/
structure Refilled (s : Stream Disk) (read : Bool) (t : Stream Disk) : Prop where
  sound : Sound t
  data : t.world.data = s.world.data
  same : nextByte t = nextByte s
  bufsiz : t.file.bufsiz = s.file.bufsiz
  offset : t.file.offset = min s.file.bufsiz s.world.remaining
  available : t.file.available = min s.file.bufsiz s.world.remaining
  remaining : t.world.remaining = s.world.remaining - min s.file.bufsiz s.world.remaining
  failed : read = false → s.world.remaining = 0

/-- A refill inside the file. -/
theorem refilled_near (sound : Sound s) (empty : s.file.available = 0)
    (near : s.world.position.toNat ≤ s.world.data.length) {bytes : List (BitVec 8)}
    (got : bytes = (s.world.data.drop s.world.position.toNat).take s.file.bufsiz) :
    Refilled s true
      { s with
        file := { s.file with
          readBuf := bytes ++ s.file.readBuf.drop bytes.length
          readFrom := 0
          available := bytes.length
          offset := bytes.length
          lastReadStart := s.world.position }
        world := { s.world with position := s.world.position + BitVec.ofNat 64 bytes.length } } := by
  have length : bytes.length = min s.file.bufsiz s.world.remaining := by
    rw [got, List.length_take, List.length_drop]
    rfl
  have room := sound.cursors.room
  have fits := s.world.fits
  have remaining : s.world.remaining = s.world.data.length - s.world.position.toNat := rfl
  have moved : (s.world.position + BitVec.ofNat 64 bytes.length).toNat =
      s.world.position.toNat + bytes.length := by
    rw [BitVec.toNat_add, BitVec.toNat_ofNat]
    omega
  refine ⟨⟨⟨sound.cursors.some_, ?_, ?_, .inr (Nat.zero_add _)⟩, sound.unpushed, sound.unwritten, .inr ?_,
    fun _ => ?_, fun far => ?_⟩, rfl, ?_, rfl, length, length, ?_, by intro wrong; cases wrong⟩
  · simp only [List.length_append, List.length_drop]
    omega
  · show bytes.length ≤ s.file.bufsiz
    omega
  · show s.world.position + BitVec.ofNat 64 0 + BitVec.ofNat 64 bytes.length = _
    rw [BitVec.add_zero]
  · show bytes.length ≤ (s.world.position + BitVec.ofNat 64 bytes.length).toNat ∧ _
    rw [moved]
    refine ⟨Nat.le_add_left _ _, ?_, ?_⟩
    · show s.world.position.toNat + bytes.length ≤ s.world.data.length
      omega
    · show (List.drop 0 (bytes ++ s.file.readBuf.drop bytes.length)).take bytes.length =
        (s.world.data.drop (s.world.position.toNat + bytes.length - bytes.length)).take bytes.length
      have front : bytes <+: s.world.data.drop s.world.position.toNat := by
        rw [got]
        exact List.take_prefix _ _
      rw [List.drop_zero, List.take_left' rfl, Nat.add_sub_cancel]
      exact List.prefix_iff_eq_take.mp front
  · have behind : s.world.data.length < (s.world.position + BitVec.ofNat 64 bytes.length).toNat := far
    omega
  · show s.world.position + BitVec.ofNat 64 bytes.length - BitVec.ofNat 64 bytes.length = _
    rw [nextByte_empty empty, BitVec.add_sub_cancel]
  · show s.world.data.length - (s.world.position + BitVec.ofNat 64 bytes.length).toNat = _
    rw [moved, ← length, remaining]
    omega

/-- A refill behind the end of the file gets nothing. -/
theorem refilled_far (sound : Sound s) (far : s.world.data.length < s.world.position.toNat)
    (read : Bool) (errno : Int) :
    Refilled s read
      { s with
        file := { s.file with lastReadStart := s.world.position }
        errno := errno } := by
  obtain ⟨start, offset⟩ := sound.beyond far
  have none_ := sound.far far
  have remaining : s.world.remaining = 0 := Nat.sub_eq_zero_of_le (Nat.le_of_lt far)
  refine ⟨⟨⟨sound.cursors.some_, sound.cursors.room, sound.cursors.stop, .inl none_⟩, sound.unpushed,
    sound.unwritten, .inl ⟨start, none_⟩, fun some_ => ?_, fun _ => ⟨start, offset⟩⟩, rfl, rfl, rfl, ?_,
    ?_, ?_,
    fun _ => remaining⟩
  · have available : 0 < s.file.available := some_
    omega
  · rw [remaining, Nat.min_zero]
    exact offset
  · rw [remaining, Nat.min_zero]
    exact none_
  · show s.world.remaining = _
    rw [remaining, Nat.zero_sub]

theorem refill_sound (sound : Sound s) (empty : s.file.available = 0)
    (place : s.file.offset = 0 ∨ s.file.offset = s.file.bufsiz) :
    ∃ read t, refill (regular pastEnd) s = some (read, t) ∧ Refilled s read t := by
  have start : (if s.file.offset = s.file.bufsiz then 0 else s.file.offset) = 0 := by
    split <;> omega
  unfold refill
  simp only [start, regular, seek_here]
  rw [if_pos ⟨Nat.zero_le _, sound.cursors.room.ge⟩]
  by_cases near : s.world.position.toNat ≤ s.world.data.length
  · refine ⟨true, _, ?_, refilled_near sound empty near rfl⟩
    simp [Disk.read, near]
  · have far : s.world.data.length < s.world.position.toNat := by omega
    obtain ⟨from_, offset⟩ := sound.beyond far
    cases pastEnd with
    | none =>
        refine ⟨true, _, ?_, refilled_far sound far true s.errno⟩
        simp [Disk.read, near, from_, offset, empty]
    | some e =>
        refine ⟨false, _, ?_, refilled_far sound far false e⟩
        simp [Disk.read, near, offset]

/-- A refill leaves what comes next as smooth as it was. -/
theorem Refilled.smooth {read : Bool} (refilled : Refilled s read t) (empty : s.file.available = 0)
    (wanted : 0 < n) (smooth : Smooth s n) (some_ : 0 < t.file.available) : Smooth t n := by
  obtain ⟨-, enough⟩ := smooth.resolve_left (by omega)
  have available := refilled.available
  have remaining := refilled.remaining
  have offset := refilled.offset
  rw [empty, Nat.sub_zero] at enough
  rcases Nat.lt_or_ge s.world.remaining s.file.bufsiz with less | full
  · left
    rcases enough with few | whole
    · omega
    · rw [Nat.mod_eq_of_lt less] at whole
      omega
  · refine .inr ⟨.inr (by rw [refilled.bufsiz]; omega), ?_⟩
    rw [refilled.bufsiz, remaining, available, Nat.min_eq_left full]
    rcases enough with few | whole
    · left
      omega
    · right
      rw [← Nat.mod_eq_sub_mod full]
      exact whole

/-- The stream behind the test of `available`, before `n` more bytes. -/
theorem ready_sound (sound : Sound s) (wanted : 0 < n) (smooth : Smooth s n) :
    ∃ read t, ready (regular pastEnd) s = some (read, t) ∧ Sound t ∧ t.world.data = s.world.data ∧
      nextByte t = nextByte s ∧
      (read = false → t.file.available = 0) ∧
      (t.file.available = 0 → t.world.data.drop (nextByte t).toNat = []) ∧
      (0 < t.file.available → Smooth t n) := by
  by_cases empty : s.file.available = 0
  · have place := (smooth.resolve_left (by omega)).1
    obtain ⟨read, t, filled, refilled⟩ := refill_sound pastEnd sound empty place
    have available := refilled.available
    refine ⟨read, t, by rw [ready, if_pos empty]; exact filled, refilled.sound, refilled.data,
      refilled.same, fun failed => ?_, fun none_ => ?_, refilled.smooth empty wanted smooth⟩
    · rw [available, refilled.failed failed, Nat.min_zero]
    · have some_ := sound.cursors.some_
      have ended : s.world.remaining = 0 := by omega
      rw [refilled.data, refilled.same, nextByte_empty empty]
      exact List.drop_eq_nil_of_le (Nat.sub_eq_zero_iff_le.mp ended)
  · exact ⟨true, s, by rw [ready, if_neg empty], sound, rfl, rfl, (by intro wrong; cases wrong),
      fun none_ => absurd none_ empty, fun _ => smooth⟩

/-- `s` gave these bytes when `n` were wanted: those of the file from the position on. -/
structure Gave (s : Stream Disk) (n : Nat) (bytes : List (BitVec 8)) (t : Stream Disk) : Prop where
  sound : Sound t
  rest : AtRest t
  data : t.world.data = s.world.data
  given : bytes = (s.world.data.drop (nextByte s).toNat).take n
  moved : nextByte t = nextByte s + BitVec.ofNat 64 bytes.length

variable {u : Stream Disk} {first second : List (BitVec 8)} {m : Nat}

theorem Gave.nothing (sound : Sound s) (rest : AtRest s) : Gave s 0 [] s :=
  ⟨sound, rest, rfl, rfl, (BitVec.add_zero _).symm⟩

theorem Gave.length_le (gave : Gave s n first t) : first.length ≤ n := by
  rw [gave.given, List.length_take]
  exact Nat.min_le_left _ _

/-- All the bytes that were wanted, and then more. -/
theorem Gave.trans (one : Gave s n first t) (all : first.length = n) (two : Gave t m second u) :
    Gave s (n + m) (first ++ second) u := by
  have place : n = 0 ∨ (nextByte s).toNat + n ≤ s.world.data.length := by
    have length := congrArg List.length one.given
    rw [List.length_take, List.length_drop] at length
    omega
  have fits := s.world.fits
  have moved : (nextByte t).toNat = (nextByte s).toNat + n := by
    have top := (nextByte s).isLt
    rw [one.moved, all, BitVec.toNat_add, BitVec.toNat_ofNat]
    omega
  refine ⟨two.sound, two.rest, two.data.trans one.data, ?_, ?_⟩
  · rw [List.take_add, List.drop_drop, ← one.given, ← moved, ← one.data, ← two.given]
  · rw [two.moved, one.moved, List.length_append, BitVec.ofNat_add, BitVec.add_assoc]

/-- The inner loop gives what is available. -/
theorem copied_gave (sound : Sound s) (some_ : 0 < s.file.available) (wanted : 0 < n) :
    Gave s (min n s.file.available) ((buffered s.file).take n) (copied s (min n s.file.available)) := by
  have length : ((buffered s.file).take n).length = min n s.file.available := by
    rw [List.length_take, buffered_length sound.cursors]
  refine ⟨sound.copied (Nat.min_le_right _ _), fun start => ?_, rfl, ?_, ?_⟩
  · have zero : s.file.readFrom + min n s.file.available = 0 := start
    omega
  · rw [buffered_data sound, List.take_take]
  · rw [length, nextByte_copied (Nat.min_le_right _ _)]

/-- The outer loop. -/
theorem readLoop_sound (sound : Sound s) (rest : AtRest s) {rounds len extra : Nat} (enough : len ≤ rounds)
    (smooth : Smooth s (len + extra)) :
    ∃ bytes t, readLoop (regular pastEnd) rounds s len = some (bytes, t) ∧ Gave s len bytes t ∧
      (bytes.length = len → Smooth t extra) := by
  induction rounds generalizing s len with
  | zero =>
      obtain rfl : len = 0 := by omega
      rw [Nat.zero_add] at smooth
      exact ⟨[], s, rfl, .nothing sound rest, fun _ => smooth⟩
  | succ rounds inductionHypothesis =>
      cases len with
      | zero =>
          rw [Nat.zero_add] at smooth
          exact ⟨[], s, by rw [readLoop], .nothing sound rest, fun _ => smooth⟩
      | succ len =>
          have unpushed := sound.unpushed
          obtain ⟨read, t, readied, sound', data, same, failed, ended, smooth'⟩ :=
            ready_sound pastEnd sound (by omega) smooth
          rw [readLoop, if_neg (by omega), readied]
          show ∃ bytes u, (if read = false then _ else if t.file.available = 0 then _ else _) =
            some (bytes, u) ∧ _
          have stops : t.file.available = 0 → ∀ eof, Gave s (len + 1) []
              { t with file := { t.file with eof := eof } } := by
            intro none_ eof
            refine ⟨⟨⟨sound'.cursors.some_, sound'.cursors.room, sound'.cursors.stop,
              sound'.cursors.start⟩, sound'.unpushed, sound'.unwritten, sound'.told, sound'.held,
              sound'.beyond⟩, fun _ => none_, data, ?_, ?_⟩
            · rw [← data, ← same, ended none_]
              rfl
            · show nextByte t = _
              rw [same]
              exact (BitVec.add_zero _).symm
          by_cases missed : read = false
          · exact ⟨[], t, by rw [if_pos missed], stops (failed missed) t.file.eof,
              (by intro wrong; cases wrong)⟩
          rw [if_neg missed]
          by_cases empty : t.file.available = 0
          · exact ⟨[], _, by rw [if_pos empty], stops empty true, (by intro wrong; cases wrong)⟩
          -- The bytes that are available, and the rest in the rounds that are left.
          have some_ : 0 < t.file.available := by omega
          have gave := copied_gave (n := len + 1) sound' some_ (by omega)
          have all : ((buffered t.file).take (len + 1)).length = min (len + 1) t.file.available := by
            rw [List.length_take, buffered_length sound'.cursors]
          have parts : min (len + 1) t.file.available + (len + 1 - t.file.available) = len + 1 := by omega
          have left : Smooth (copied t (min (len + 1) t.file.available))
              (len + 1 - t.file.available + extra) := by
            refine Smooth.copied ?_ (Nat.min_le_right _ _)
            rw [← Nat.add_assoc, parts]
            exact smooth' some_
          obtain ⟨bytes, u, looped, more, last⟩ :=
            inductionHypothesis gave.sound gave.rest (by omega) left
          have whole := gave.trans all more
          rw [parts] at whole
          rw [if_neg empty, copyBuffered_eq sound'.cursors]
          refine ⟨(buffered t.file).take (len + 1) ++ bytes, u, ?_, ?_, fun full => last ?_⟩
          · show (readLoop (regular pastEnd) rounds _ _).map _ = _
            rw [show ({ t with file := advance t.file (min (len + 1) t.file.available) } : Stream Disk) =
              copied t (min (len + 1) t.file.available) from rfl, looped]
            rfl
          · refine ⟨whole.sound, whole.rest, whole.data.trans data, ?_, ?_⟩
            · rw [← data, ← same]
              exact whole.given
            · rw [← same]
              exact whole.moved
          · rw [List.length_append, all] at full
            omega

/-! ## The calls -/

/-- Fewer bytes than were wanted: the file ends behind them. -/
theorem Gave.short (gave : Gave s n first t) (less : first.length < n) (longer : n ≤ m) :
    Gave s m first t := by
  refine ⟨gave.sound, gave.rest, gave.data, ?_, gave.moved⟩
  have given := gave.given
  rw [given, List.length_take] at less
  rw [List.take_of_length_le (by omega)] at given
  rw [List.take_of_length_le (by omega)]
  exact given

theorem freadLoop_sound (sound : Sound s) (rest : AtRest s) {size : Nat} (small : size < 2 ^ 31)
    (nmemb left : Nat) (smooth : Smooth s (size * left)) :
    ∃ ret bytes t, freadLoop (regular pastEnd) size nmemb left s = some (ret, bytes, t) ∧
      Gave s (size * left) bytes t := by
  induction left generalizing s with
  | zero => exact ⟨nmemb, [], s, rfl, .nothing sound rest⟩
  | succ left inductionHypothesis =>
      rw [Nat.mul_succ, Nat.add_comm (size * left)] at smooth ⊢
      obtain ⟨bytes, t, looped, gave, smooth'⟩ :=
        readLoop_sound pastEnd sound rest (Nat.le_refl size) smooth
      have few := gave.length_le
      rw [freadLoop, readBytes, looped]
      show ∃ ret all u, (if int bytes.length < 0 then _ else if int bytes.length < int size then _
        else _) = some (ret, all, u) ∧ _
      rw [int_small small, int_small (Nat.lt_of_le_of_lt few small), if_neg (by omega)]
      by_cases less : (bytes.length : Int) < size
      · exact ⟨_, bytes, t, by rw [if_pos less], gave.short (by omega) (Nat.le_add_right _ _)⟩
      · have all : bytes.length = size := by omega
        obtain ⟨ret, more, u, looped', gave'⟩ := inductionHypothesis gave.sound gave.rest (smooth' all)
        refine ⟨ret, bytes ++ more, u, ?_, gave.trans all gave'⟩
        rw [if_neg less, looped']
        rfl

theorem fgetc_sound (sound : Sound s) (rest : AtRest s) (smooth : Smooth s 1) :
    ∃ c t, fgetc (regular pastEnd) s = some (c, t) ∧
      Gave s 1 (if c = eof then [] else [BitVec.ofInt 8 c]) t := by
  obtain ⟨bytes, t, looped, gave, -⟩ :=
    @readLoop_sound pastEnd s sound rest 1 1 0 (Nat.le_refl 1) smooth
  unfold fgetc fread freadLoop readBytes
  rw [looped]
  have few := gave.length_le
  cases bytes with
  | nil =>
      have sound' := gave.sound
      exact ⟨eof, _, rfl, ⟨⟨⟨sound'.cursors.some_, sound'.cursors.room, sound'.cursors.stop,
        sound'.cursors.start⟩, sound'.unpushed, sound'.unwritten, sound'.told, sound'.held,
        sound'.beyond⟩, gave.rest, gave.data, gave.given, gave.moved⟩⟩
  | cons c more =>
      obtain rfl : more = [] := by
        rw [List.length_cons] at few
        exact List.length_eq_zero_iff.mp (by omega)
      refine ⟨c.toNat, t, rfl, ?_⟩
      have notEof : (c.toNat : Int) ≠ eof := by
        rw [eof]
        omega
      rw [if_neg notEof, BitVec.ofInt_natCast, BitVec.ofNat_toNat, BitVec.setWidth_eq]
      exact gave

/-- The stream behind `fseek`, with the descriptor at this position. -/
def sought (s : Stream Disk) (position : BitVec 64) (errno : Int) : Stream Disk :=
  { file := { s.file with
      offset := 0, readFrom := 0, available := 0, ungetc := -1, eof := false, written := 0 }
    errno := errno
    world := { s.world with position := position } }

theorem sought_sound (sound : Sound s) (position : BitVec 64) (errno : Int) :
    Sound (sought s position errno) ∧ AtRest (sought s position errno) ∧
      nextByte (sought s position errno) = position := by
  refine ⟨⟨⟨sound.cursors.some_, sound.cursors.room, Nat.zero_le _, .inl rfl⟩, Int.negSucc_lt_zero 0, rfl,
    .inl ⟨rfl, rfl⟩, fun some_ => absurd some_ (Nat.lt_irrefl 0), fun _ => ⟨rfl, rfl⟩⟩, fun _ => rfl,
    BitVec.sub_zero _⟩

/-- `fseek` from the beginning of the file. -/
theorem fseek_set (sound : Sound s) (offset : BitVec 64) :
    ∃ errno, (fseek (regular pastEnd) offset seekSet s).2 = sought s offset errno := by
  unfold fseek
  have notCur : ¬ (s.file.readFrom ≠ 0 ∧ seekSet = seekCur) := by simp [seekSet, seekCur]
  simp only [if_neg notCur, sound.unwritten, ne_eq, not_true_eq_false, if_false, regular, Disk.seek,
    if_true]
  split <;> exact ⟨_, rfl⟩

/-- `fseek` from the next byte. -/
theorem fseek_cur (sound : Sound s) (rest : AtRest s) (offset : BitVec 64) :
    ∃ errno, (fseek (regular pastEnd) offset seekCur s).2 = sought s (nextByte s + offset) errno := by
  by_cases start : s.file.readFrom = 0
  · have none_ := rest start
    rw [nextByte_empty none_]
    unfold fseek
    simp only [start, ne_eq, not_true_eq_false, false_and, if_false, sound.unwritten, regular, Disk.seek,
      if_neg (show ¬ seekCur = seekSet by decide), if_true]
    split <;> exact ⟨_, rfl⟩
  · have told := sound.told.resolve_left (fun none_ => start none_.1)
    have target : offset + BitVec.ofNat 64 s.file.readFrom + s.file.lastReadStart = nextByte s + offset := by
      rw [nextByte, ← told]
      generalize BitVec.ofNat 64 s.file.readFrom = a
      generalize BitVec.ofNat 64 s.file.available = b
      generalize s.file.lastReadStart = c
      bv_omega
    unfold fseek
    simp only [ne_eq, start, not_false_eq_true, true_and, if_true, sound.unwritten, not_true_eq_false,
      if_false, regular, Disk.seek, target]
    split <;> exact ⟨_, rfl⟩

/-- `ftell` of a stream that read something since the last `fseek`. -/
theorem ftell_read (sound : Sound s) (started : s.file.readFrom ≠ 0) :
    ftell (regular pastEnd) s = (nextByte s, s) := by
  have told := sound.told.resolve_left (fun none_ => started none_.1)
  have next : s.file.lastReadStart + BitVec.ofNat 64 s.file.readFrom = nextByte s := by
    rw [nextByte, ← told, BitVec.add_sub_cancel]
  simp only [ftell, sound.unwritten, ne_eq, not_true_eq_false, if_false, started, not_false_eq_true,
    true_or, if_true, next]

/-- `ftell` of a stream that read nothing since the last `fseek`: it tells where the last refill was,
or, where that was at 0, the position of the descriptor. -/
theorem ftell_unread (sound : Sound s) (start : s.file.readFrom = 0) :
    ∃ errno, ftell (regular pastEnd) s =
      if s.file.lastReadStart ≠ 0 then (s.file.lastReadStart, s)
      else (if s.world.position.toInt < 0 then -1 else s.world.position,
        sought s s.world.position errno) := by
  by_cases stale : s.file.lastReadStart = 0
  · have placed : (¬ s.file.lastReadStart = 0) = False := by simp [stale]
    unfold ftell
    simp only [sound.unwritten, ne_eq, not_true_eq_false, if_false, start, placed, or_false, regular,
      seek_here]
    split
    · exact ⟨_, rfl⟩
    · exact ⟨s.errno, rfl⟩
  · refine ⟨0, ?_⟩
    unfold ftell
    simp only [sound.unwritten, ne_eq, not_true_eq_false, if_false, start, stale, not_false_eq_true,
      or_true, if_true]
    rw [BitVec.add_zero]

/-! ## Sequences of calls -/

/-- A call on a stream that is open for reading. -/
inductive PositionOp
  | fread (size nmemb : Nat) (small : size < 2 ^ 31)
  | fgetc
  | fseekSet (offset : BitVec 64)
  | fseekCur (offset : BitVec 64)
  | ftell

/-- The stream behind a call. -/
def PositionOp.call (pastEnd : Option Int) (s : Stream Disk) : PositionOp → Option (Stream Disk)
  | .fread size nmemb _ => (Libc.fread (regular pastEnd) size nmemb s).map (·.2.2)
  | .fgetc => (Libc.fgetc (regular pastEnd) s).map (·.2)
  | .fseekSet offset => some (fseek (regular pastEnd) offset seekSet s).2
  | .fseekCur offset => some (fseek (regular pastEnd) offset seekCur s).2
  | .ftell => some (Libc.ftell (regular pastEnd) s).2

/-- The calls after which positions are told right: a read is smooth; and when nothing was read since the last
`fseek`, `ftell` finds the descriptor where the last refill was, or a refill at 0 and a position that is a
`long`. -/
def Straight (s : Stream Disk) : PositionOp → Prop
  | .fread size nmemb _ => Smooth s (size * nmemb)
  | .fgetc => Smooth s 1
  | .fseekSet _ | .fseekCur _ => True
  | .ftell =>
      s.file.readFrom = 0 → s.file.lastReadStart = s.world.position ∨
        s.file.lastReadStart = 0 ∧ 0 ≤ s.world.position.toInt

/-- What a call says about positions: a read gives the bytes of the file from the next one on and moves behind
them, `fseek` goes where it is told to, and `ftell` returns the position of the next byte. -/
def ToldTrue (pastEnd : Option Int) (s : Stream Disk) : PositionOp → Prop
  | .fread size nmemb _ =>
      ∃ ret bytes t, Libc.fread (regular pastEnd) size nmemb s = some (ret, bytes, t) ∧
        bytes = (s.world.data.drop (nextByte s).toNat).take (size * nmemb) ∧
        nextByte t = nextByte s + BitVec.ofNat 64 bytes.length
  | .fgetc =>
      ∃ c t, Libc.fgetc (regular pastEnd) s = some (c, t) ∧
        (if c = eof then [] else [BitVec.ofInt 8 c]) = (s.world.data.drop (nextByte s).toNat).take 1 ∧
        nextByte t = nextByte s + if c = eof then 0 else 1
  | .fseekSet offset => nextByte (fseek (regular pastEnd) offset seekSet s).2 = offset
  | .fseekCur offset =>
      nextByte (fseek (regular pastEnd) offset seekCur s).2 = nextByte s + offset
  | .ftell =>
      (Libc.ftell (regular pastEnd) s).1 = nextByte s ∧
        nextByte (Libc.ftell (regular pastEnd) s).2 = nextByte s

/-- A stream that was just opened. -/
theorem fopen_sound (fd : Int) (readJunk writeJunk : Nat → BitVec 8) (errno : Int) (disk : Disk) :
    Sound ⟨fopen fd readJunk writeJunk, errno, disk⟩ ∧
      AtRest ⟨fopen fd readJunk writeJunk, errno, disk⟩ :=
  ⟨⟨(fopen_freshReader fd readJunk writeJunk).cursors, Int.negSucc_lt_zero 0, rfl, .inl ⟨rfl, rfl⟩,
    fun some_ => absurd some_ (Nat.lt_irrefl 0), fun _ => ⟨rfl, rfl⟩⟩, fun _ => rfl⟩

theorem ftell_toldTrue (sound : Sound s) (rest : AtRest s) (straight : Straight s .ftell) :
    ToldTrue pastEnd s .ftell := by
  by_cases start : s.file.readFrom = 0
  · obtain ⟨errno, told⟩ := ftell_unread pastEnd sound start
    have next := nextByte_empty (rest start)
    show (ftell (regular pastEnd) s).1 = nextByte s ∧ nextByte (ftell (regular pastEnd) s).2 = nextByte s
    rw [told]
    have right := straight start
    by_cases stale : s.file.lastReadStart = 0
    · have positive : ¬ s.world.position.toInt < 0 := by
        rcases right with same | ⟨-, positive⟩
        · rw [← same, stale]
          decide
        · omega
      rw [if_neg (not_not.mpr stale), if_neg positive, next]
      exact ⟨rfl, (sought_sound sound _ errno).2.2⟩
    · rw [if_pos stale, next]
      exact ⟨right.resolve_right (fun both => stale both.1), rfl⟩
  · show (ftell (regular pastEnd) s).1 = nextByte s ∧ nextByte (ftell (regular pastEnd) s).2 = nextByte s
    rw [ftell_read pastEnd sound start]
    exact ⟨rfl, rfl⟩

theorem Straight.toldTrue (sound : Sound s) (rest : AtRest s) {op : PositionOp} (straight : Straight s op) :
    ToldTrue pastEnd s op := by
  cases op with
  | fread size nmemb small =>
      obtain ⟨ret, bytes, t, read, gave⟩ :=
        freadLoop_sound pastEnd sound rest small nmemb nmemb straight
      exact ⟨ret, bytes, t, read, gave.given, gave.moved⟩
  | fgetc =>
      obtain ⟨c, t, read, gave⟩ := fgetc_sound pastEnd sound rest straight
      refine ⟨c, t, read, gave.given, gave.moved.trans ?_⟩
      split <;> rfl
  | fseekSet offset =>
      obtain ⟨errno, moved⟩ := fseek_set pastEnd sound offset
      show nextByte (fseek (regular pastEnd) offset seekSet s).2 = offset
      rw [moved]
      exact (sought_sound sound offset errno).2.2
  | fseekCur offset =>
      obtain ⟨errno, moved⟩ := fseek_cur pastEnd sound rest offset
      show nextByte (fseek (regular pastEnd) offset seekCur s).2 = nextByte s + offset
      rw [moved]
      exact (sought_sound sound _ errno).2.2
  | ftell => exact ftell_toldTrue pastEnd sound rest straight

/-- The calls keep what the cursors say. -/
theorem Straight.kept (sound : Sound s) (rest : AtRest s) {op : PositionOp} (straight : Straight s op)
    (called : op.call pastEnd s = some t) : Sound t ∧ AtRest t := by
  cases op with
  | fread size nmemb small =>
      obtain ⟨ret, bytes, u, read, gave⟩ :=
        freadLoop_sound pastEnd sound rest small nmemb nmemb straight
      rw [PositionOp.call, Libc.fread, read] at called
      cases called
      exact ⟨gave.sound, gave.rest⟩
  | fgetc =>
      obtain ⟨c, u, read, gave⟩ := fgetc_sound pastEnd sound rest straight
      rw [PositionOp.call, read] at called
      cases called
      exact ⟨gave.sound, gave.rest⟩
  | fseekSet offset =>
      obtain ⟨errno, moved⟩ := fseek_set pastEnd sound offset
      rw [PositionOp.call, moved] at called
      cases called
      exact ⟨(sought_sound sound _ errno).1, (sought_sound sound _ errno).2.1⟩
  | fseekCur offset =>
      obtain ⟨errno, moved⟩ := fseek_cur pastEnd sound rest offset
      rw [PositionOp.call, moved] at called
      cases called
      exact ⟨(sought_sound sound _ errno).1, (sought_sound sound _ errno).2.1⟩
  | ftell =>
      rw [PositionOp.call] at called
      by_cases start : s.file.readFrom = 0
      · obtain ⟨errno, told⟩ := ftell_unread pastEnd sound start
        rw [told] at called
        split at called <;> cases called
        · exact ⟨sound, rest⟩
        · exact ⟨(sought_sound sound _ errno).1, (sought_sound sound _ errno).2.1⟩
      · rw [ftell_read pastEnd sound start] at called
        cases called
        exact ⟨sound, rest⟩

/-- In every run of straight calls on a stream of `fopen`, every straight call tells and moves the position
right. -/
theorem ftell_true {fd errno : Int} {readJunk writeJunk : Nat → BitVec 8} {disk : Disk}
    {ops : List PositionOp} {s : Stream Disk}
    (run : Run (PositionOp.call pastEnd) Straight ⟨fopen fd readJunk writeJunk, errno, disk⟩ ops s)
    (op : PositionOp) (straight : Straight s op) : ToldTrue pastEnd s op := by
  have kept : Sound s ∧ AtRest s := run.invariant
    (fun s op t straight called holds => Straight.kept pastEnd holds.1 holds.2 straight called)
    (fopen_sound fd readJunk writeJunk errno disk)
  exact straight.toldTrue pastEnd kept.1 kept.2

instance (s : Stream Disk) (n : Nat) : Decidable (Smooth s n) := inferInstanceAs (Decidable (_ ∨ _))

instance (s : Stream Disk) (op : PositionOp) : Decidable (Straight s op) :=
  match op with
  | .fread size nmemb _ => inferInstanceAs (Decidable (Smooth s (size * nmemb)))
  | .fgetc => inferInstanceAs (Decidable (Smooth s 1))
  | .fseekSet _ | .fseekCur _ => .isTrue trivial
  | .ftell => inferInstanceAs (Decidable (_ → _))

/-- A stream on a file of five bytes. -/
def fiveBytes : Stream Disk :=
  { file := fopen 3 (fun _ => 0) (fun _ => 0)
    errno := 0
    world := { data := [0x61, 0x62, 0x63, 0x64, 0x65], position := 0, fits := by decide } }

theorem ftell_true_example :
    ∃ s, Run.exec (PositionOp.call none) fiveBytes [.fgetc, .fseekCur 2, .fgetc] = some s ∧
      (ftell (regular none) s).1 = nextByte s ∧ nextByte s = 4 := by
  have moved : (Run.exec (fun s op => if decide (Straight s op) then op.call none s else none) fiveBytes
      [.fgetc, .fseekCur 2, .fgetc]).map nextByte = some 4 := by decide +kernel
  obtain ⟨s, ran, last⟩ := Option.map_eq_some_iff.mp moved
  have run : Run (PositionOp.call none) Straight fiveBytes [.fgetc, .fseekCur 2, .fgetc] s :=
    Run.of_checked (fun _ _ => of_decide_eq_true) ran
  have straight : (Run.exec (PositionOp.call none) fiveBytes [.fgetc, .fseekCur 2, .fgetc]).map
      (fun s => decide (Straight s .ftell)) = some true := by decide +kernel
  rw [run.executed, Option.map_some, Option.some.injEq] at straight
  exact ⟨s, run.executed, (ftell_true none run .ftell (of_decide_eq_true straight)).1, last⟩

/-- After a read that reaches the end of the file `ftell` counts the bytes of the buffer twice; after an
`fseek` it tells where the last refill was. -/
theorem ftell_lies :
    (Run.exec (PositionOp.call none) fiveBytes [.fread 1 6 (by decide)]).map
        (fun s => (nextByte s, (ftell (regular none) s).1)) = some (5, 10) ∧
      (Run.exec (PositionOp.call none) fiveBytes [.fseekSet 3, .fgetc, .fseekSet 0]).map
        (fun s => (nextByte s, (ftell (regular none) s).1)) = some (0, 3) := by
  constructor <;> decide +kernel

end Voxel.Proofs
