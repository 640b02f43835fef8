/-
Module: Voxel.Proofs.BufferedRead
Layer: Proofs
Purpose: Buffered reading loses and duplicates nothing. The system calls get a log of the bytes that `read`
  returned; what the caller got and what waits in the stream are these bytes, with the pushed-back ones
  at the places where they were pushed.
Trusted boundary: none
Main exports: returning, waiting, Cursors, Delivers, readLoop_delivers, ReadOp, ReadHolds, read_in_order
-/
import Voxel.Lib.Run
import Voxel.Lib.Pushback
import Voxel.Libc.Stdio
import Voxel.Proofs.BufferedWrite

namespace Voxel.Proofs

open Voxel.Lib Voxel.Libc

variable {World : Type}

/-- The system calls with a log of the bytes that `read` returned. -/
def returning (calls : SysCalls World) : SysCalls (World × List (BitVec 8)) where
  seek w fd offset whence :=
    let (position, world) := calls.seek w.1 fd offset whence
    (position, world, w.2)
  read w fd count :=
    match calls.read w.1 fd count with
    | (.error e, world) => (.error e, world, w.2)
    | (.ok bytes, world) => (.ok bytes, world, w.2 ++ bytes)
  write w fd bytes := (calls.write w.1 fd bytes, w.2)
  close w fd :=
    let (out, world) := calls.close w.1 fd
    (out, world, w.2)
  read_le w fd count bytes read := by
    apply calls.read_le w.1 fd count bytes
    split at read
    · cases read
    · next eq =>
        rw [eq]
        exact read

/-! ## The buffer -/

/-- The bytes of the read buffer that were not delivered yet. -/
def buffered (file : File) : List (BitVec 8) := (file.readBuf.drop file.readFrom).take file.available

/-- The next bytes of a stream, as far as it has them: the one that was pushed back, and those in the
buffer. -/
def waiting (file : File) : List (BitVec 8) :=
  (if 0 ≤ file.ungetc then [BitVec.ofInt 8 file.ungetc] else []) ++ buffered file

/-- The cursors of a stream. An error of `read` leaves `read_from` behind, but then no byte is available. -/
structure Cursors (file : File) : Prop where
  some_ : 1 ≤ file.bufsiz
  room : file.readBuf.length = file.bufsiz
  stop : file.offset ≤ file.bufsiz
  start : file.available = 0 ∨ file.readFrom + file.available = file.offset

/-- A stream from which nothing was read yet, with a buffer of any size from 1 on. -/
structure FreshReader (file : File) : Prop where
  some_ : 1 ≤ file.bufsiz
  room : file.readBuf.length = file.bufsiz
  offset : file.offset = 0
  available : file.available = 0
  readFrom : file.readFrom = 0
  ungetc : file.ungetc = -1

variable (calls : SysCalls World) {file : File}

theorem FreshReader.cursors (fresh : FreshReader file) : Cursors file :=
  ⟨fresh.some_, fresh.room, by rw [fresh.offset]; exact Nat.zero_le _, .inl fresh.available⟩

theorem FreshReader.waiting (fresh : FreshReader file) : waiting file = [] := by
  simp [Proofs.waiting, buffered, fresh.available, fresh.ungetc]

/-- The streams of `fopen` are such. -/
theorem fopen_freshReader (fd : Int) (readJunk writeJunk : Nat → BitVec 8) :
    FreshReader (fopen fd readJunk writeJunk) :=
  { some_ := by simp [fopen, bufSiz]
    room := by simp only [fopen, mallocBuf_length]
    offset := rfl
    available := rfl
    readFrom := rfl
    ungetc := rfl }

theorem buffered_length (cursors : Cursors file) : (buffered file).length = file.available := by
  have room := cursors.room
  have stop := cursors.stop
  rw [buffered, List.length_take, List.length_drop]
  rcases cursors.start with none_ | start <;> omega

/-- A stream whose next `n` bytes were delivered. -/
def advance (file : File) (n : Nat) : File :=
  { file with readFrom := file.readFrom + n, available := file.available - n }

theorem Cursors.advance (cursors : Cursors file) {n : Nat} (inside : n ≤ file.available) :
    Cursors (advance file n) := by
  refine ⟨cursors.some_, cursors.room, cursors.stop, ?_⟩
  show file.available - n = 0 ∨ file.readFrom + n + (file.available - n) = file.offset
  rcases cursors.start with none_ | start <;> omega

theorem buffered_advance (file : File) (n : Nat) : buffered (advance file n) = (buffered file).drop n := by
  show (file.readBuf.drop (file.readFrom + n)).take (file.available - n) = _
  rw [buffered, List.drop_take, List.drop_drop]

/-- The inner loop copies what is buffered, up to the bytes that are wanted. -/
theorem copyBuffered_eq (cursors : Cursors file) (len : Nat) :
    copyBuffered file len =
      some ((buffered file).take len, len - file.available, advance file (min len file.available)) := by
  induction len generalizing file with
  | zero => simp [copyBuffered, advance]
  | succ len inductionHypothesis =>
      have length := buffered_length cursors
      rw [copyBuffered]
      by_cases available : 0 < file.available
      · have start : file.readFrom + file.available = file.offset := cursors.start.resolve_left (by omega)
        have stop := cursors.stop
        have inside : file.readFrom < file.readBuf.length := by
          rw [cursors.room]
          omega
        have first : buffered file =
            file.readBuf[file.readFrom] :: buffered (Proofs.advance file 1) := by
          rw [buffered_advance, buffered, List.drop_eq_getElem_cons inside]
          cases available' : file.available with
          | zero => omega
          | succ n => rfl
        have next := inductionHypothesis (cursors.advance (n := 1) available)
        rw [if_pos ⟨by omega, available⟩, List.getElem?_eq_getElem inside]
        show (copyBuffered (Proofs.advance file 1) len).map _ = _
        rw [next, first, List.take_succ_cons]
        have left : len - (Proofs.advance file 1).available = len + 1 - file.available := by
          show len - (file.available - 1) = _
          omega
        have moved : Proofs.advance (Proofs.advance file 1) (min len (Proofs.advance file 1).available) =
            Proofs.advance file (min (len + 1) file.available) := by
          simp only [Proofs.advance, File.mk.injEq, true_and, and_true]
          omega
        rw [left, moved]
        rfl
      · have none_ : file.available = 0 := by omega
        have empty : buffered file = [] := List.length_eq_zero_iff.mp (length.trans none_)
        rw [if_neg (fun both => available both.2), empty, none_, Nat.min_zero]
        rfl

/-! ## One call of `read` -/

/-- `t` follows on `s` after these bytes were delivered: what waits in `s`, and what `read` returned in
between, are these bytes and what waits in `t`. -/
structure Delivers (s : Stream (World × List (BitVec 8))) (bytes : List (BitVec 8))
    (t : Stream (World × List (BitVec 8))) : Prop where
  cursors : Cursors t.file
  order : ∃ more, t.world.2 = s.world.2 ++ more ∧ waiting s.file ++ more = bytes ++ waiting t.file

variable {s t u : Stream (World × List (BitVec 8))} {first second : List (BitVec 8)}

theorem Delivers.none (cursors : Cursors s.file) : Delivers s [] s :=
  ⟨cursors, [], (List.append_nil _).symm, List.append_nil _⟩

theorem Delivers.trans (one : Delivers s first t) (two : Delivers t second u) :
    Delivers s (first ++ second) u := by
  obtain ⟨more, log, order⟩ := one.order
  obtain ⟨more', log', order'⟩ := two.order
  refine ⟨two.cursors, more ++ more', ?_, ?_⟩
  · rw [log', log, List.append_assoc]
  · rw [← List.append_assoc, order, List.append_assoc, order', List.append_assoc]

/-- What one call of `read` returns goes into the log. -/
theorem returning_read (calls : SysCalls World) (w : World × List (BitVec 8)) (fd : Int) (count : Nat) :
    (∃ e world, (returning calls).read w fd count = (.error e, world) ∧ world.2 = w.2) ∨
      ∃ bytes world, (returning calls).read w fd count = (.ok bytes, world) ∧
        world.2 = w.2 ++ bytes ∧ bytes.length ≤ count := by
  have bound := calls.read_le w.1 fd count
  cases reads : calls.read w.1 fd count with
  | mk result world =>
      rw [reads] at bound
      cases result with
      | error e => exact .inl ⟨e, (world, w.2), by simp only [returning, reads], rfl⟩
      | ok bytes =>
          exact .inr ⟨bytes, (world, w.2 ++ bytes), by simp only [returning, reads], rfl, bound bytes rfl⟩

/-- Asking for bytes when none is available. -/
theorem refill_spec (cursors : Cursors s.file) (empty : s.file.available = 0) :
    ∃ read t, refill (returning calls) s = some (read, t) ∧ Cursors t.file ∧
      t.file.ungetc = s.file.ungetc ∧
      (read = false → t.file.available = 0) ∧
      t.world.2 = s.world.2 ++ buffered t.file := by
  have some_ := cursors.some_
  have room := cursors.room
  have stop := cursors.stop
  have offset : (if s.file.offset = s.file.bufsiz then 0 else s.file.offset) ≤ s.file.bufsiz := by
    split <;> omega
  simp only [refill]
  generalize (if s.file.offset = s.file.bufsiz then 0 else s.file.offset) = offset' at offset ⊢
  rw [if_pos ⟨offset, room.ge⟩]
  rcases returning_read calls ((returning calls).seek s.world s.file.fd 0 seekCur).2 s.file.fd
      (s.file.bufsiz - offset') with ⟨e, world, reads, log⟩ | ⟨bytes, world, reads, log, few⟩
  · rw [reads]
    refine ⟨_, _, rfl, ⟨some_, room, offset, .inl empty⟩, rfl, fun _ => empty, ?_⟩
    have nothing : buffered { s.file with
        offset := offset'
        lastReadStart := ((returning calls).seek s.world s.file.fd 0 seekCur).1 } = [] := by
      rw [buffered, empty, List.take_zero]
    rw [nothing, List.append_nil]
    exact log
  · rw [reads]
    refine ⟨_, _, rfl, ⟨some_, ?_, ?_, .inr rfl⟩, rfl, (by intro wrong; cases wrong), ?_⟩
    · simp only [List.length_append, List.length_take, List.length_drop]
      omega
    · show offset' + bytes.length ≤ s.file.bufsiz
      omega
    · have front : (s.file.readBuf.take offset').length = offset' := by
        rw [List.length_take]
        omega
      refine log.trans (congrArg (s.world.2 ++ ·) ?_)
      simp only [buffered, List.append_assoc]
      rw [List.drop_left' front, List.take_left' rfl]

/-! ## The loops -/

theorem waiting_ready (none_ : s.file.ungetc < 0) : waiting s.file = buffered s.file := by
  rw [waiting, if_neg (by omega), List.nil_append]

/-- The stream behind the test of `available`. -/
theorem ready_spec (cursors : Cursors s.file) (none_ : s.file.ungetc < 0) :
    ∃ read t, ready (returning calls) s = some (read, t) ∧ t.file.ungetc < 0 ∧
      (read = false → t.file.available = 0) ∧ Delivers s [] t := by
  by_cases empty : s.file.available = 0
  · obtain ⟨read, t, refilled, cursors', ungetc, failed, log⟩ := refill_spec calls cursors empty
    refine ⟨read, t, by rw [ready, if_pos empty]; exact refilled, by omega, failed, cursors', _, log,
      ?_⟩
    have nothing : buffered s.file = [] :=
      List.length_eq_zero_iff.mp ((buffered_length cursors).trans empty)
    rw [waiting_ready none_, waiting_ready (by omega), nothing]
  · exact ⟨true, s, by rw [ready, if_neg empty], none_, (by intro wrong; cases wrong), .none cursors⟩

/-- The inner loop delivers what it copies. -/
theorem copied_delivers (cursors : Cursors s.file) (none_ : s.file.ungetc < 0) (len : Nat) :
    Delivers s ((buffered s.file).take len)
      { s with file := advance s.file (min len s.file.available) } := by
  refine ⟨cursors.advance (Nat.min_le_right _ _), [], (List.append_nil _).symm, ?_⟩
  have still : (advance s.file (min len s.file.available)).ungetc < 0 := none_
  show waiting s.file ++ [] =
    (buffered s.file).take len ++ waiting (advance s.file (min len s.file.available))
  have cut : (buffered s.file).take len = (buffered s.file).take (min len s.file.available) := by
    rw [← buffered_length cursors, List.take_eq_take_min]
  rw [List.append_nil, waiting, if_neg (by omega), waiting, if_neg (by omega), buffered_advance, cut,
    List.nil_append, List.nil_append, List.take_append_drop]

/-- The outer loop. -/
theorem readLoop_delivers (cursors : Cursors s.file) {rounds len : Nat} (enough : len ≤ rounds) :
    ∃ bytes t, readLoop (returning calls) rounds s len = some (bytes, t) ∧ bytes.length ≤ len ∧
      Delivers s bytes t := by
  induction rounds generalizing s len with
  | zero =>
      obtain rfl : len = 0 := by omega
      exact ⟨[], s, rfl, Nat.le_refl _, .none cursors⟩
  | succ rounds inductionHypothesis =>
      cases len with
      | zero => exact ⟨[], s, by rw [readLoop], Nat.le_refl _, .none cursors⟩
      | succ len =>
          rw [readLoop]
          by_cases pushed : 0 ≤ s.file.ungetc
          · -- The byte that was pushed back comes first.
            rw [if_pos pushed]
            have popped : Delivers s [BitVec.ofInt 8 s.file.ungetc]
                { s with file := { s.file with ungetc := -1 } } := by
              refine ⟨⟨cursors.some_, cursors.room, cursors.stop, cursors.start⟩, [],
                (List.append_nil _).symm, ?_⟩
              rw [List.append_nil, waiting, if_pos pushed]
              rfl
            obtain ⟨bytes, t, looped, few, rest⟩ :=
              @inductionHypothesis _ popped.cursors len (by omega)
            refine ⟨BitVec.ofInt 8 s.file.ungetc :: bytes, t, ?_, by simpa using few, popped.trans rest⟩
            rw [looped]
            rfl
          · rw [if_neg pushed]
            obtain ⟨read, t, readied, none_, failed, delivers⟩ :=
              ready_spec calls cursors (by omega)
            rw [readied]
            show ∃ bytes u, (if read = false then _ else if t.file.available = 0 then _ else _) =
              some (bytes, u) ∧ _
            by_cases missed : read = false
            · exact ⟨[], t, by rw [if_pos missed], Nat.zero_le _, delivers⟩
            rw [if_neg missed]
            by_cases empty : t.file.available = 0
            · refine ⟨[], _, by rw [if_pos empty], Nat.zero_le _, delivers.trans ?_⟩
              have still := delivers.cursors
              exact ⟨⟨still.some_, still.room, still.stop, still.start⟩, [], (List.append_nil _).symm,
                List.append_nil _⟩
            · -- The copy delivers at least one byte, so that a round is left for the rest.
              rw [if_neg empty, copyBuffered_eq delivers.cursors]
              have copied := copied_delivers delivers.cursors none_ (len + 1)
              obtain ⟨bytes, u, looped, few, rest⟩ :=
                @inductionHypothesis _ copied.cursors (len + 1 - t.file.available) (by omega)
              refine ⟨(buffered t.file).take (len + 1) ++ bytes, u, ?_, ?_,
                delivers.trans (copied.trans rest)⟩
              · show (readLoop (returning calls) rounds _ _).map _ = _
                rw [looped]
                rfl
              · rw [List.length_append, List.length_take, buffered_length delivers.cursors]
                omega

/-! ## The calls -/

theorem freadLoop_delivers (cursors : Cursors s.file) {size : Nat} (small : size < 2 ^ 31)
    (nmemb left : Nat) :
    ∃ ret bytes t, freadLoop (returning calls) size nmemb left s = some (ret, bytes, t) ∧
      Delivers s bytes t := by
  induction left generalizing s with
  | zero => exact ⟨nmemb, [], s, rfl, .none cursors⟩
  | succ left inductionHypothesis =>
      obtain ⟨bytes, t, looped, few, delivers⟩ :=
        readLoop_delivers calls cursors (Nat.le_refl size)
      obtain ⟨ret, more, u, looped', rest⟩ := inductionHypothesis delivers.cursors
      rw [freadLoop, readBytes, looped]
      show ∃ ret all u, (if int bytes.length < 0 then _ else if int bytes.length < int size then _
        else _) = some (ret, all, u) ∧ _
      rw [int_small small, int_small (Nat.lt_of_le_of_lt few small), if_neg (by omega)]
      by_cases short : (bytes.length : Int) < size
      · exact ⟨_, bytes, t, by rw [if_pos short], delivers⟩
      · refine ⟨ret, bytes ++ more, u, ?_, delivers.trans rest⟩
        rw [if_neg short, looped']
        rfl

/-- `fread` of one byte. -/
theorem fread_one (cursors : Cursors s.file) :
    ∃ ret bytes t, fread (returning calls) 1 1 s = some (ret, bytes, t) ∧ Delivers s bytes t ∧
      ((ret = 0 ∧ bytes = []) ∨ ret = 1 ∧ ∃ c, bytes = [c]) := by
  obtain ⟨bytes, t, looped, few, delivers⟩ :=
    readLoop_delivers calls cursors (Nat.le_refl 1)
  unfold fread freadLoop readBytes
  rw [looped]
  match bytes, few with
  | [], _ => exact ⟨0, [], t, rfl, delivers, .inl ⟨rfl, rfl⟩⟩
  | [c], _ => exact ⟨1, [c], t, rfl, delivers, .inr ⟨rfl, c, rfl⟩⟩
  | _ :: _ :: _, many => simp at many

/-- `fgetc` returns the byte that it delivers, or `EOF` without one. -/
theorem fgetc_delivers (cursors : Cursors s.file) :
    ∃ c t, fgetc (returning calls) s = some (c, t) ∧
      Delivers s (if c = eof then [] else [BitVec.ofInt 8 c]) t := by
  obtain ⟨ret, bytes, t, read, delivers, cases⟩ := fread_one calls cursors
  rw [fgetc, read]
  rcases cases with ⟨rfl, rfl⟩ | ⟨rfl, c, rfl⟩
  · have ended := delivers.cursors
    refine ⟨eof, _, rfl, @Delivers.trans _ _ _ _ [] [] delivers ⟨⟨ended.some_, ended.room, ended.stop,
      ended.start⟩, [], (List.append_nil _).symm, List.append_nil _⟩⟩
  · refine ⟨c.toNat, t, rfl, ?_⟩
    have notEof : (c.toNat : Int) ≠ eof := by
      rw [eof]
      omega
    rw [if_neg notEof, BitVec.ofInt_natCast, BitVec.ofNat_toNat, BitVec.setWidth_eq]
    exact delivers

/-! ## Sequences of calls -/

/-- A call on a stream that is read. A byte that is pushed back is a value from 0 to 255. -/
inductive ReadOp
  | fread (size nmemb : Nat) (small : size < 2 ^ 31)
  | fgetc
  | ungetc (c : BitVec 8)

/-- A stream, the bytes that were delivered, and the bytes that were pushed back, each with the number
of bytes that had been delivered then. -/
structure Reading (World : Type) where
  stream : Stream (World × List (BitVec 8))
  delivered : List (BitVec 8)
  pushes : List (Nat × BitVec 8)

/-- A call with its caller: `fread` delivers what it stores, `fgetc` what it returns. -/
def ReadOp.call (calls : SysCalls World) (r : Reading World) : ReadOp → Option (Reading World)
  | .fread size nmemb _ =>
      (Libc.fread (returning calls) size nmemb r.stream).map fun (_, bytes, s) =>
        { r with stream := s, delivered := r.delivered ++ bytes }
  | .fgetc =>
      (Libc.fgetc (returning calls) r.stream).map fun (c, s) =>
        { r with stream := s, delivered := r.delivered ++ if c = eof then [] else [BitVec.ofInt 8 c] }
  | .ungetc c =>
      some { r with
        stream := (Libc.ungetc c.toNat r.stream).2
        pushes := r.pushes ++ [(r.delivered.length, c)] }

/-- A byte is pushed back only while none is pending. -/
def PushesBack (r : Reading World) : ReadOp → Prop
  | .ungetc _ => r.stream.file.ungetc < 0
  | _ => True

/-- The invariant. -/
structure ReadHolds (r : Reading World) : Prop where
  cursors : Cursors r.stream.file
  order : r.delivered ++ waiting r.stream.file = withPushed r.stream.world.2 r.pushes
  fits : Fits r.stream.world.2 r.pushes

variable {r : Reading World} {bytes : List (BitVec 8)}

/-- Delivered bytes keep the invariant. -/
theorem ReadHolds.delivers (holds : ReadHolds r) (delivers : Delivers r.stream bytes t) :
    ReadHolds { r with stream := t, delivered := r.delivered ++ bytes } := by
  obtain ⟨more, log, order⟩ := delivers.order
  refine ⟨delivers.cursors, ?_, ?_⟩
  · show r.delivered ++ bytes ++ waiting t.file = withPushed t.world.2 r.pushes
    rw [log, withPushed_append holds.fits, ← holds.order, List.append_assoc, List.append_assoc, order]
  · show Fits t.world.2 r.pushes
    rw [log]
    exact holds.fits.append more

/-- A byte that is pushed back waits in front of the others. -/
theorem ReadHolds.pushes (holds : ReadHolds r) (none_ : r.stream.file.ungetc < 0) (c : BitVec 8) :
    ReadHolds { r with
      stream := (ungetc c.toNat r.stream).2
      pushes := r.pushes ++ [(r.delivered.length, c)] } := by
  have cursors := holds.cursors
  have order := holds.order
  have pushed : (ungetc c.toNat r.stream).2 =
      { r.stream with file := { r.stream.file with ungetc := c.toNat } } := by
    rw [ungetc, if_neg (by omega)]
  rw [pushed]
  refine ⟨⟨cursors.some_, cursors.room, cursors.stop, cursors.start⟩, ?_, ?_⟩
  · have next : waiting { r.stream.file with ungetc := c.toNat } = c :: waiting r.stream.file := by
      rw [waiting_ready none_, waiting, if_pos (Int.natCast_nonneg _), BitVec.ofInt_natCast,
        BitVec.ofNat_toNat, BitVec.setWidth_eq]
      rfl
    show r.delivered ++ waiting { r.stream.file with ungetc := c.toNat } = _
    rw [next]
    exact withPushed_push c order
  · refine holds.fits.push ?_ c
    rw [← order, List.length_append]
    omega

/-- An allowed call does not leave the read buffer, and keeps the invariant. -/
theorem ReadOp.call_holds (holds : ReadHolds r) {op : ReadOp} (allowed : PushesBack r op) :
    ∃ next, op.call calls r = some next ∧ ReadHolds next := by
  cases op with
  | fread size nmemb small =>
      obtain ⟨ret, bytes, t, read, delivers⟩ :=
        freadLoop_delivers calls holds.cursors small nmemb nmemb
      exact ⟨_, by rw [ReadOp.call, Libc.fread, read]; rfl, holds.delivers delivers⟩
  | fgetc =>
      obtain ⟨c, t, read, delivers⟩ := fgetc_delivers calls holds.cursors
      exact ⟨_, by rw [ReadOp.call, read]; rfl, holds.delivers delivers⟩
  | ungetc c => exact ⟨_, rfl, holds.pushes allowed c⟩

/-- Buffered reading loses and duplicates nothing: after any allowed calls on a new stream the delivered
bytes, and then those that wait in it, are the bytes that `read` returned, with each pushed-back byte at
the place where it was pushed; and the next allowed call does not leave the read buffer. -/
theorem read_in_order {start : Stream (World × List (BitVec 8))} (reader : FreshReader start.file)
    (fresh : start.world.2 = []) {ops : List ReadOp} {r : Reading World}
    (run : Run (ReadOp.call calls) PushesBack ⟨start, [], []⟩ ops r) :
    r.delivered ++ waiting r.stream.file = withPushed r.stream.world.2 r.pushes ∧
      ∀ op, PushesBack r op → ∃ next, op.call calls r = some next := by
  have first : ReadHolds (⟨start, [], []⟩ : Reading World) := by
    refine ⟨reader.cursors, ?_, trivial⟩
    show [] ++ waiting start.file = withPushed start.world.2 []
    rw [reader.waiting, fresh]
    rfl
  have holds : ReadHolds r := run.invariant
    (fun s op t allowed called holds => by
      obtain ⟨next, called', kept⟩ := ReadOp.call_holds calls holds allowed
      rw [called, Option.some.injEq] at called'
      rw [called']
      exact kept) first
  refine ⟨holds.order, fun op allowed => ?_⟩
  obtain ⟨next, called, -⟩ := ReadOp.call_holds calls holds allowed
  exact ⟨next, called⟩

/-- A device that has these bytes and gives at most three of them for one call. -/
def tape : SysCalls (List (BitVec 8)) where
  seek w _ _ _ := (0, w)
  read w _ count := (.ok (w.take (min 3 count)), w.drop (min 3 count))
  write w _ _ := w
  close w _ := (0, w)
  read_le := by
    intro w _ count bytes read
    cases read
    rw [List.length_take]
    omega

/-- A stream on this device, with a buffer of two bytes. -/
def tapeStream : Stream (List (BitVec 8) × List (BitVec 8)) :=
  { file := { fopen 3 (fun _ => 0) (fun _ => 0) with readBuf := [0, 0], bufsiz := 2, writeBuf := none }
    errno := 0
    world := ([0x61, 0x62, 0x63, 0x64], []) }

/-- Three calls on this stream. -/
def tapeOps : List ReadOp := [.fread 1 3 (by decide), .ungetc 0x78, .fgetc]

/-- `PushesBack`, as a test. -/
def pushesBack (r : Reading World) : ReadOp → Bool
  | .ungetc _ => decide (r.stream.file.ungetc < 0)
  | _ => true

theorem pushesBack_sound (r : Reading World) (op : ReadOp) (checked : pushesBack r op = true) :
    PushesBack r op := by
  cases op with
  | ungetc c => exact of_decide_eq_true (p := r.stream.file.ungetc < 0) checked
  | fread | fgetc => trivial

theorem read_in_order_example :
    ∃ r, Run.exec (ReadOp.call tape) ⟨tapeStream, [], []⟩ tapeOps = some r ∧
      r.delivered = [0x61, 0x62, 0x63, 0x78] ∧
      r.delivered ++ waiting r.stream.file = withPushed r.stream.world.2 r.pushes := by
  have delivered : (Run.exec (fun r op => if pushesBack r op then op.call tape r else none)
      ⟨tapeStream, [], []⟩ tapeOps).map (·.delivered) = some [0x61, 0x62, 0x63, 0x78] := by
    decide +kernel
  obtain ⟨r, ran, last⟩ := Option.map_eq_some_iff.mp delivered
  have run : Run (ReadOp.call tape) PushesBack ⟨tapeStream, [], []⟩ tapeOps r :=
    Run.of_checked pushesBack_sound ran
  have reader : FreshReader tapeStream.file := ⟨by decide, rfl, rfl, rfl, rfl, rfl⟩
  exact ⟨r, run.executed, last, (read_in_order tape reader rfl run).1⟩

end Voxel.Proofs
