/-
Module: Voxel.Proofs.DescriptorStreams
Layer: Proofs
Purpose: Streams of `fdopen` and of `fopen` on the same descriptor. Every call on a stream is answered
  with the system calls that it makes, what it returns and `errno`. The two streams differ in `wbufsiz`,
  which is 0 for `fdopen`: its buffer is never full for `_write_bytes`. They agree exactly in the runs
  in which no 8192 bytes without a newline are pending.
Trusted boundary: none
Main exports: SysCall, StreamOp, Request, answer, StaysBelow, KeepsRoom, Alike, writeLoop_alike,
  writeLoop_apart, answer_follows, answer_apart, fdopen_agrees_iff
-/
import Voxel.Lib.Transcript
import Voxel.Libc.Stdio
import Voxel.Proofs.BufferedWrite

namespace Voxel.Proofs

open Voxel.Lib Voxel.Libc

variable {World : Type}

/-! ## What a caller sees -/

/-- A system call with its data. -/
inductive SysCall
  | seek (fd : Int) (offset : BitVec 64) (whence : Nat)
  | read (fd : Int) (count : Nat)
  | write (fd : Int) (bytes : List (BitVec 8))
  | close (fd : Int)
  | openPath (path : CString) (flags mask : BitVec 32)
  deriving DecidableEq

/-- The system calls with a log of them. -/
def observing (calls : OpenCalls World) : OpenCalls (World × List SysCall) where
  seek w fd offset whence :=
    let (position, world) := calls.seek w.1 fd offset whence
    (position, world, w.2 ++ [.seek fd offset whence])
  read w fd count :=
    let (bytes, world) := calls.read w.1 fd count
    (bytes, world, w.2 ++ [.read fd count])
  write w fd bytes := (calls.write w.1 fd bytes, w.2 ++ [.write fd bytes])
  close w fd :=
    let (out, world) := calls.close w.1 fd
    (out, world, w.2 ++ [.close fd])
  openPath w path flags mask :=
    let (fd, world) := calls.openPath w.1 path flags mask
    (fd, world, w.2 ++ [.openPath path flags mask])
  read_le w := calls.read_le w.1

/-- A call on a stream, with the memory behind its pointers. -/
inductive StreamOp
  | fputc (c : Int)
  | fputs (str : CString)
  | fwrite (p : List (BitVec 8)) (size nmemb : Nat)
  | vfprintf (printed : List (BitVec 8))
  | fflush
  | fread (size nmemb : Nat)
  | fgetc
  | fgets (size : BitVec 32)
  | ungetc (c : Int)
  | fseek (offset : BitVec 64) (whence : Nat)
  | ftell
  | fgetpos
  | fsetpos (pos : BitVec 64)
  | rewind
  | feof
  | ferror
  | clearerr
  | fileno
  | setvbuf (buf : Option (List (BitVec 8))) (mode : Int) (size : Nat)
  | freopen (path : Option CString)

/-- What a call returns, with what it stores behind a pointer of its caller. -/
inductive Result
  | void
  | int (value : Int)
  | size (value : Nat) (stored : List (BitVec 8))
  | long (value : BitVec 64)
  | position (value : Int) (stored : Option (BitVec 64))
  | pointer (given : Bool) (stored : List (BitVec 8))
  deriving DecidableEq

/-- A call on a stream. -/
def StreamOp.call (calls : OpenCalls World) (s : Stream World) :
    StreamOp → Option (Result × Stream World)
  | .fputc c => (Libc.fputc calls.toSysCalls c s).map fun (r, s) => (.int r, s)
  | .fputs str => (Libc.fputs calls.toSysCalls str s).map fun (r, s) => (.int r, s)
  | .fwrite p size nmemb => (Libc.fwrite calls.toSysCalls p size nmemb s).map fun (r, s) => (.size r [], s)
  | .vfprintf printed => (Libc.vfprintf calls.toSysCalls printed s).map fun (r, s) => (.int r, s)
  | .fflush => some (.int (Libc.fflush calls.toSysCalls s).1, (Libc.fflush calls.toSysCalls s).2)
  | .fread size nmemb =>
      (Libc.fread calls.toSysCalls size nmemb s).map fun (r, stored, s) => (.size r stored, s)
  | .fgetc => (Libc.fgetc calls.toSysCalls s).map fun (r, s) => (.int r, s)
  | .fgets size =>
      (Libc.fgets calls.toSysCalls size s).map fun (given, stored, s) => (.pointer given stored, s)
  | .ungetc c => some (.int (Libc.ungetc c s).1, (Libc.ungetc c s).2)
  | .fseek offset whence =>
      some (.int (Libc.fseek calls.toSysCalls offset whence s).1,
        (Libc.fseek calls.toSysCalls offset whence s).2)
  | .ftell => some (.long (Libc.ftell calls.toSysCalls s).1, (Libc.ftell calls.toSysCalls s).2)
  | .fgetpos =>
      some (.position (Libc.fgetpos calls.toSysCalls s).1 (Libc.fgetpos calls.toSysCalls s).2.1,
        (Libc.fgetpos calls.toSysCalls s).2.2)
  | .fsetpos pos =>
      some (.int (Libc.fsetpos calls.toSysCalls pos s).1, (Libc.fsetpos calls.toSysCalls pos s).2)
  | .rewind => some (.void, Libc.rewind calls.toSysCalls s)
  | .feof => some (.int (Libc.feof s), s)
  | .ferror => some (.int (Libc.ferror s), s)
  | .clearerr => some (.void, Libc.clearerr s)
  | .fileno => some (.int (Libc.fileno s), s)
  | .setvbuf buf mode size => (Libc.setvbuf buf mode size s).map fun (r, s) => (.int r, s)
  | .freopen path => some (.pointer (Libc.freopen calls path s).1 [], (Libc.freopen calls path s).2)

/-- A call on a stream, or the last one. -/
inductive Request
  | use (op : StreamOp)
  | fclose

/-- What a call does for its caller. -/
structure Answer where
  calls : List SysCall
  result : Result
  errno : Int
  deriving DecidableEq

/-- A stream with an empty log. -/
def logged (s : Stream World) : Stream (World × List SysCall) :=
  { file := s.file, errno := s.errno, world := (s.world, []) }

/-- The stream behind a call, and the answer to its caller. -/
def answered (result : Result) (s : Stream (World × List SysCall)) : Answer × Stream World :=
  (⟨s.world.2, result, s.errno⟩, { file := s.file, errno := s.errno, world := s.world.1 })

/-- The answer to a request. A stream that was closed is freed: no request on it has an answer. -/
def answer (calls : OpenCalls World) :
    Option (Stream World) → Request → Option (Answer × Option (Stream World))
  | none, _ => none
  | some s, .use op =>
      (op.call (observing calls) (logged s)).map fun (result, s) =>
        ((answered result s).1, some (answered result s).2)
  | some s, .fclose =>
      let (out, s) := fclose (observing calls).toSysCalls (logged s)
      some ((answered (.int out) s).1, none)

/-! ## The two streams -/

/-- A stream with other bytes in its buffers whose write buffer is never full. -/
abbrev recast (readBuf writeBuf : List (BitVec 8)) (file : File) : File :=
  { file with readBuf := readBuf, writeBuf := some writeBuf, wbufsiz := 0 }

/-- The bytes of the other buffers that can still be used are those of this stream. -/
structure Recasts (file : File) (readBuf old writeBuf : List (BitVec 8)) : Prop where
  readLength : readBuf.length = file.readBuf.length
  readable : ∀ i, file.readFrom ≤ i → i < file.offset → readBuf[i]? = file.readBuf[i]?
  buffer : file.writeBuf = some old
  full : file.wbufsiz = bufSiz
  oldLength : old.length = bufSiz
  newLength : writeBuf.length = bufSiz
  pending : writeBuf.take file.written = old.take file.written
  room : file.written < bufSiz

/-- The same stream as `fopen` and as `fdopen` made it. -/
def Alike (s t : Stream World) : Prop :=
  ∃ readBuf old writeBuf, Recasts s.file readBuf old writeBuf ∧
    t = { s with file := recast readBuf writeBuf s.file }

variable {calls : SysCalls World} {s t : Stream World}

/-- Streams whose buffers came from `malloc`. -/
theorem fopen_alike (fd errno : Int) (readJunk writeJunk readJunk' writeJunk' : Nat → BitVec 8)
    (world : World) :
    Alike ⟨Libc.fopen fd readJunk writeJunk, errno, world⟩
      ⟨Libc.fdopen fd readJunk' writeJunk', errno, world⟩ := by
  refine ⟨mallocBuf readJunk', mallocBuf writeJunk, mallocBuf writeJunk', ?_, rfl⟩
  exact {
    readLength := by simp only [Libc.fopen, mallocBuf_length]
    readable := fun i _ inside => absurd inside (Nat.not_lt_zero i)
    buffer := rfl
    full := rfl
    oldLength := mallocBuf_length writeJunk
    newLength := mallocBuf_length writeJunk'
    pending := by
      show List.take 0 _ = List.take 0 _
      rw [List.take_zero, List.take_zero]
    room := by
      show 0 < bufSiz
      decide }

/-- Nothing is buffered. -/
theorem Recasts.discard {file file' : File} {readBuf old writeBuf : List (BitVec 8)}
    (recasts : Recasts file readBuf old writeBuf) (readBufs : file'.readBuf = file.readBuf)
    (nothing : file'.offset = 0) (writeBufs : file'.writeBuf = file.writeBuf)
    (sizes : file'.wbufsiz = file.wbufsiz)
    (written : file'.written = file.written ∨ file'.written = 0) : Recasts file' readBuf old writeBuf where
  readLength := by rw [readBufs, recasts.readLength]
  readable i _ inside := by
    rw [nothing] at inside
    exact absurd inside (Nat.not_lt_zero i)
  buffer := writeBufs.trans recasts.buffer
  full := sizes.trans recasts.full
  oldLength := recasts.oldLength
  newLength := recasts.newLength
  pending := by
    obtain same | none_ := written
    · rw [same, recasts.pending]
    · rw [none_, List.take_zero, List.take_zero]
  room := by
    have room := recasts.room
    omega

/-! ## Reading -/

/-- An entry of the list in the middle. -/
theorem getElem?_between {α : Type} {front middle back : List α} {i : Nat} (low : front.length ≤ i)
    (high : i < front.length + middle.length) :
    (front ++ middle ++ back)[i]? = middle[i - front.length]? := by
  rw [List.append_assoc, List.getElem?_append_right low, List.getElem?_append_left (by omega)]

/-- `read` stores the same bytes in both buffers. -/
theorem refill_alike (alike : Alike s t) : Follows (Labelled Alike) (refill calls s) (refill calls t) := by
  obtain ⟨readBuf, old, writeBuf, recasts, rfl⟩ := alike
  have length := recasts.readLength
  have below : (if s.file.offset = s.file.bufsiz then 0 else s.file.offset) ≤ s.file.offset := by
    split <;> omega
  rw [refill, refill]
  dsimp only
  generalize (if s.file.offset = s.file.bufsiz then 0 else s.file.offset) = offset' at below ⊢
  rw [length]
  apply Follows.ite
  · intro inside
    cases calls.read (calls.seek s.world s.file.fd 0 seekCur).2 s.file.fd (s.file.bufsiz - offset') with
    | mk result world =>
        cases result with
        | error e =>
            refine .of_some ⟨⟨readBuf, old, writeBuf, ?_, rfl⟩⟩
            exact { recasts with
              readable := fun i low high => recasts.readable i low (Nat.lt_of_lt_of_le high below) }
        | ok bytes =>
            refine .of_some ⟨⟨_, old, writeBuf, ?_, rfl⟩⟩
            refine { recasts with readLength := ?_, readable := fun i low high => ?_ }
            · simp only [List.length_append, List.length_take, List.length_drop, length]
            · -- What can be read are the bytes of this call.
              change offset' ≤ i at low
              change i < offset' + bytes.length at high
              have front : (s.file.readBuf.take offset').length = offset' :=
                List.length_take_of_le (Nat.le_trans inside.1 inside.2)
              have front' : (readBuf.take offset').length = offset' :=
                List.length_take_of_le (by omega)
              have new := @getElem?_between _ (readBuf.take offset') bytes
                (readBuf.drop (offset' + bytes.length)) i (by omega) (by omega)
              have old := @getElem?_between _ (s.file.readBuf.take offset') bytes
                (s.file.readBuf.drop (offset' + bytes.length)) i (by omega) (by omega)
              rw [front'] at new
              rw [front] at old
              exact new.trans old.symm
  · intro _
    exact .of_none

/-- The inner loop. -/
theorem copyBuffered_alike {file : File} {readBuf old writeBuf : List (BitVec 8)}
    (recasts : Recasts file readBuf old writeBuf) (len : Nat) :
    Follows (Labelled (Labelled fun f g => Recasts f readBuf old writeBuf ∧ g = recast readBuf writeBuf f))
      (copyBuffered file len) (copyBuffered (recast readBuf writeBuf file) len) := by
  induction len generalizing file with
  | zero => exact .of_some ⟨⟨⟨recasts, rfl⟩⟩⟩
  | succ len inductionHypothesis =>
      rw [copyBuffered, copyBuffered]
      apply Follows.ite
      · intro inside
        have same : (recast readBuf writeBuf file).readBuf[(recast readBuf writeBuf file).readFrom]? =
            file.readBuf[file.readFrom]? :=
          recasts.readable _ (Nat.le_refl _) inside.1
        rw [same]
        cases file.readBuf[file.readFrom]? with
        | none => exact .of_none
        | some c =>
            refine (inductionHypothesis ?_).map ?_
            · exact { recasts with
                readable := fun i low high => recasts.readable i (Nat.le_of_succ_le low) high }
            · rintro _ _ ⟨⟨related⟩⟩
              exact ⟨⟨related⟩⟩
      · intro _
        exact .of_some ⟨⟨⟨recasts, rfl⟩⟩⟩

theorem ready_alike (alike : Alike s t) : Follows (Labelled Alike) (ready calls s) (ready calls t) := by
  have available : t.file.available = s.file.available := by
    obtain ⟨_, _, _, _, rfl⟩ := alike
    rfl
  rw [ready, ready, available]
  apply Follows.ite
  · intro _
    exact refill_alike alike
  · intro _
    exact .of_some ⟨alike⟩

/-- The outer loop. -/
theorem readLoop_alike (alike : Alike s t) (rounds len : Nat) :
    Follows (Labelled Alike) (readLoop calls rounds s len) (readLoop calls rounds t len) := by
  induction rounds generalizing s t len with
  | zero =>
      cases len with
      | zero => exact .of_some ⟨alike⟩
      | succ len => exact .of_none
  | succ rounds inductionHypothesis =>
      cases len with
      | zero => exact .of_some ⟨alike⟩
      | succ len =>
          obtain ⟨readBuf, old, writeBuf, recasts, rfl⟩ := alike
          rw [readLoop, readLoop]
          apply Follows.ite
          · intro _
            refine (inductionHypothesis ⟨readBuf, old, writeBuf, ?_, rfl⟩ len).map ?_
            · exact { recasts with }
            · rintro _ _ ⟨alike⟩
              exact ⟨alike⟩
          · intro _
            refine (ready_alike ⟨readBuf, old, writeBuf, recasts, rfl⟩).bind ?_
            rintro ⟨read, s⟩ _ ⟨⟨readBuf, old, writeBuf, recasts, rfl⟩⟩
            apply Follows.ite
            · intro _
              exact .of_some ⟨⟨readBuf, old, writeBuf, recasts, rfl⟩⟩
            · intro _
              apply Follows.ite
              · intro _
                exact .of_some ⟨⟨readBuf, old, writeBuf, { recasts with }, rfl⟩⟩
              · intro _
                refine (copyBuffered_alike recasts (len + 1)).bind ?_
                rintro ⟨bytes, left, file⟩ _ ⟨⟨⟨recasts, rfl⟩⟩⟩
                refine (@inductionHypothesis { s with file := file } _
                  ⟨readBuf, old, writeBuf, recasts, rfl⟩ left).map ?_
                rintro _ _ ⟨alike⟩
                exact ⟨alike⟩

theorem freadLoop_alike (alike : Alike s t) (size nmemb left : Nat) :
    Follows (Labelled (Labelled Alike)) (freadLoop calls size nmemb left s)
      (freadLoop calls size nmemb left t) := by
  induction left generalizing s t with
  | zero => exact .of_some ⟨⟨alike⟩⟩
  | succ left inductionHypothesis =>
      rw [freadLoop, freadLoop]
      refine (readLoop_alike alike size size).bind ?_
      rintro _ _ ⟨alike⟩
      apply Follows.ite
      · intro _
        exact .of_some ⟨⟨alike⟩⟩
      · intro _
        apply Follows.ite
        · intro _
          exact .of_some ⟨⟨alike⟩⟩
        · intro _
          refine (inductionHypothesis alike).map ?_
          rintro _ _ ⟨⟨alike⟩⟩
          exact ⟨⟨alike⟩⟩

/-- The flag is set on both streams. -/
theorem Alike.setEof (alike : Alike s t) (eof : Bool) :
    Alike { s with file := { s.file with eof := eof } } { t with file := { t.file with eof := eof } } := by
  obtain ⟨readBuf, old, writeBuf, recasts, rfl⟩ := alike
  exact ⟨readBuf, old, writeBuf, { recasts with }, rfl⟩

theorem fgetc_alike (alike : Alike s t) : Follows (Labelled Alike) (fgetc calls s) (fgetc calls t) := by
  rw [fgetc, fgetc]
  refine (freadLoop_alike alike 1 1 1).bind ?_
  rintro ⟨r, stored, s⟩ _ ⟨⟨alike⟩⟩
  apply Follows.ite
  · intro _
    exact .of_some ⟨alike.setEof true⟩
  · intro _
    cases stored.head? with
    | none => exact .of_none
    | some c => exact .of_some ⟨alike⟩

theorem fgetsLoop_alike (alike : Alike s t) (rounds : Nat) (text : List (BitVec 8)) :
    Follows (Labelled (Labelled Alike)) (fgetsLoop calls rounds text s) (fgetsLoop calls rounds text t) := by
  induction rounds generalizing s t text with
  | zero => exact .of_some ⟨⟨alike⟩⟩
  | succ rounds inductionHypothesis =>
      rw [fgetsLoop, fgetsLoop]
      refine (fgetc_alike alike).bind ?_
      rintro _ _ ⟨alike⟩
      apply Follows.ite
      · intro _
        apply Follows.ite
        · intro _
          exact .of_some ⟨⟨alike⟩⟩
        · intro _
          apply Follows.ite
          · intro _
            exact .of_some ⟨⟨alike⟩⟩
          · intro _
            exact inductionHypothesis alike _
      · intro _
        apply Follows.ite
        · intro _
          exact .of_some ⟨⟨alike.setEof true⟩⟩
        · intro _
          exact .of_some ⟨⟨alike⟩⟩

/-! ## Flushing and positions -/

theorem fflush_alike (alike : Alike s t) : Labelled Alike (fflush calls s) (fflush calls t) := by
  obtain ⟨readBuf, old, writeBuf, recasts, rfl⟩ := alike
  have pending := recasts.pending
  unfold fflush
  rw [recasts.buffer]
  dsimp only
  by_cases written : s.file.written ≠ 0
  · rw [if_pos written, if_pos written, pending]
    exact ⟨readBuf, old, writeBuf,
      { recasts with
        pending := by
          show List.take 0 _ = List.take 0 _
          rw [List.take_zero, List.take_zero]
        room := by
          show 0 < bufSiz
          decide }, rfl⟩
  · rw [if_neg written, if_neg written]
    exact ⟨readBuf, old, writeBuf, recasts, rfl⟩

/-- The flush before a change of the position. -/
theorem flushed_alike (alike : Alike s t) :
    Alike (if s.file.written ≠ 0 then (fflush calls s).2 else s)
      (if t.file.written ≠ 0 then (fflush calls t).2 else t) := by
  have flush : Labelled Alike (fflush calls s) (fflush calls t) := fflush_alike alike
  have same : t.file.written = s.file.written := by
    obtain ⟨_, _, _, _, rfl⟩ := alike
    rfl
  rw [same]
  by_cases written : s.file.written ≠ 0
  · rw [if_pos written, if_pos written]
    generalize fflush calls s = first, fflush calls t = second at flush ⊢
    cases flush with
    | mk related => exact related
  · rw [if_neg written, if_neg written]
    exact alike

theorem fseek_alike (alike : Alike s t) (offset : BitVec 64) (whence : Nat) :
    Labelled Alike (fseek calls offset whence s) (fseek calls offset whence t) := by
  have flushed : Alike (if s.file.written ≠ 0 then (fflush calls s).2 else s)
    (if t.file.written ≠ 0 then (fflush calls t).2 else t) := flushed_alike alike
  obtain ⟨_, _, _, _, rfl⟩ := alike
  unfold fseek
  dsimp only at flushed ⊢
  generalize (if s.file.readFrom ≠ 0 ∧ whence = seekCur then
    (offset + BitVec.ofNat 64 s.file.readFrom + s.file.lastReadStart, seekSet) else (offset, whence)) = target
  generalize (if s.file.written ≠ 0 then (fflush calls s).2 else s) = s' at flushed ⊢
  obtain ⟨readBuf, old, writeBuf, recasts, same⟩ := flushed
  rw [same]
  dsimp only
  by_cases failed : ((calls.seek s'.world s'.file.fd target.1 target.2).1.setWidth 32).toInt < 0
  · rw [if_pos failed, if_pos failed]
    exact ⟨readBuf, old, writeBuf, recasts.discard rfl rfl rfl rfl (.inl rfl), rfl⟩
  · rw [if_neg failed, if_neg failed]
    exact ⟨readBuf, old, writeBuf, recasts.discard rfl rfl rfl rfl (.inl rfl), rfl⟩

theorem ftell_alike (alike : Alike s t) : Labelled Alike (ftell calls s) (ftell calls t) := by
  have flushed : Alike (if s.file.written ≠ 0 then (fflush calls s).2 else s)
    (if t.file.written ≠ 0 then (fflush calls t).2 else t) := flushed_alike alike
  unfold ftell
  dsimp only
  generalize (if s.file.written ≠ 0 then (fflush calls s).2 else s) = s' at flushed ⊢
  obtain ⟨readBuf, old, writeBuf, recasts, same⟩ := flushed
  rw [same]
  dsimp only
  by_cases known : s'.file.readFrom ≠ 0 ∨ s'.file.lastReadStart ≠ 0
  · rw [if_pos known, if_pos known]
    exact ⟨readBuf, old, writeBuf, recasts, rfl⟩
  · rw [if_neg known, if_neg known]
    by_cases failed : (calls.seek s'.world s'.file.fd 0 seekCur).1.toInt < 0
    · rw [if_pos failed, if_pos failed]
      exact ⟨readBuf, old, writeBuf, recasts.discard rfl rfl rfl rfl (.inl rfl), rfl⟩
    · rw [if_neg failed, if_neg failed]
      exact ⟨readBuf, old, writeBuf, recasts.discard rfl rfl rfl rfl (.inl rfl), rfl⟩

theorem fgetpos_alike (alike : Alike s t) :
    Labelled (Labelled Alike) (fgetpos calls s) (fgetpos calls t) := by
  have told : Labelled Alike (ftell calls s) (ftell calls t) := ftell_alike alike
  unfold fgetpos
  generalize ftell calls s = first, ftell calls t = second at told ⊢
  cases told with
  | @mk out _ _ related =>
      dsimp only
      by_cases failed : out = -1
      · rw [if_pos failed, if_pos failed]
        exact ⟨⟨related⟩⟩
      · rw [if_neg failed, if_neg failed]
        exact ⟨⟨related⟩⟩

theorem setvbuf_alike (alike : Alike s t) (buf : Option (List (BitVec 8))) (mode : Int) (size : Nat) :
    Follows (Labelled Alike) (setvbuf buf mode size s) (setvbuf buf mode size t) := by
  unfold setvbuf
  apply Follows.ite
  · intro _
    exact .of_some ⟨alike⟩
  · intro _
    cases buf with
    | none => exact .of_some ⟨alike⟩
    | some buf =>
        apply Follows.ite
        · intro _
          exact .of_none
        · intro _
          obtain ⟨readBuf, old, writeBuf, recasts, rfl⟩ := alike
          exact .of_some ⟨buf, old, writeBuf,
            { recasts with readLength := rfl, readable := fun _ _ _ => rfl }, rfl⟩

theorem freopen_alike {calls : OpenCalls World} (alike : Alike s t) (path : Option CString) :
    Labelled Alike (freopen calls path s) (freopen calls path t) := by
  cases path with
  | none => exact ⟨alike⟩
  | some path =>
      have flushed : Labelled Alike (fflush calls.toSysCalls s) (fflush calls.toSysCalls t) :=
        fflush_alike alike
      unfold freopen
      generalize fflush calls.toSysCalls s = first, fflush calls.toSysCalls t = second at flushed ⊢
      cases flushed with
      | @mk out s' t' related =>
          obtain ⟨readBuf, old, writeBuf, recasts, rfl⟩ := related
          dsimp only
          by_cases failed : (calls.openPath (calls.close s'.world s'.file.fd).2 (cstringAt path 0)
              (openRequest path).1 (openRequest path).2).1 < 0
          · rw [if_pos failed, if_pos failed]
            exact ⟨readBuf, old, writeBuf, recasts.discard rfl rfl rfl rfl (.inr rfl), rfl⟩
          · rw [if_neg failed, if_neg failed]
            exact ⟨readBuf, old, writeBuf, recasts.discard rfl rfl rfl rfl (.inr rfl), rfl⟩

/-! ## Writing -/

/-- Behind so many pending bytes these never fill the buffer, unless with a newline. -/
def StaysBelow : Nat → List (BitVec 8) → Prop
  | _, [] => True
  | pending, c :: bytes =>
      if c = newline then StaysBelow 0 bytes else pending + 1 < bufSiz ∧ StaysBelow (pending + 1) bytes

/-- One byte of `_write_bytes`. -/
def put (calls : SysCalls World) (s : Stream World) (c : BitVec 8) : Option (Stream World) :=
  (storeByte s c).map fun s =>
    if s.file.written = s.file.wbufsiz ∨ c = newline then (fflush calls s).2 else s

theorem writeLoop_cons (calls : SysCalls World) (s : Stream World) (c : BitVec 8) (bytes : List (BitVec 8)) :
    writeLoop calls s (c :: bytes) = (put calls s c).bind fun s => writeLoop calls s bytes := by
  rw [writeLoop, put]
  cases storeByte s c <;> rfl

theorem writeLoop_append (calls : SysCalls World) (s : Stream World) (first second : List (BitVec 8)) :
    writeLoop calls s (first ++ second) =
      (writeLoop calls s first).bind fun s => writeLoop calls s second := by
  induction first generalizing s with
  | nil => rfl
  | cons c first inductionHypothesis =>
      rw [List.cons_append, writeLoop_cons, writeLoop_cons]
      cases put calls s c with
      | none => rfl
      | some s => exact inductionHypothesis s

/-- The stream behind a byte that was stored and not handed over. -/
def stored (s : Stream World) (buf : List (BitVec 8)) (c : BitVec 8) : Stream World :=
  { s with
    file := { s.file with
      writeBuf := some (buf.set s.file.written c)
      written := s.file.written + 1 } }

theorem storeByte_stored {s : Stream World} {buf : List (BitVec 8)} (buffer : s.file.writeBuf = some buf)
    (room : s.file.written < buf.length) (c : BitVec 8) : storeByte s c = some (stored s buf c) := by
  rw [storeByte, buffer]
  exact if_pos room

/-- The same byte behind the same pending ones. -/
theorem take_set_agree {old new : List (BitVec 8)} {n : Nat} {c : BitVec 8} (inside : n < old.length)
    (inside' : n < new.length) (agree : new.take n = old.take n) :
    (new.set n c).take (n + 1) = (old.set n c).take (n + 1) := by
  rw [List.take_succ_eq_append_getElem (by rw [List.length_set]; exact inside'),
    List.take_succ_eq_append_getElem (by rw [List.length_set]; exact inside),
    List.take_set_of_le (Nat.le_refl _), List.take_set_of_le (Nat.le_refl _), List.getElem_set_self,
    List.getElem_set_self, agree]

/-- A byte that does not fill the buffer. -/
theorem put_alike (alike : Alike s t) {c : BitVec 8} (other : c ≠ newline)
    (below : s.file.written + 1 < bufSiz) :
    ∃ s' t', put calls s c = some s' ∧ put calls t c = some t' ∧ Alike s' t' ∧
      s'.file.written = s.file.written + 1 := by
  obtain ⟨readBuf, old, writeBuf, recasts, rfl⟩ := alike
  have room := recasts.room
  have inside : s.file.written < old.length := by rw [recasts.oldLength]; exact room
  have inside' : s.file.written < writeBuf.length := by rw [recasts.newLength]; exact room
  refine ⟨stored s old c, stored { s with file := recast readBuf writeBuf s.file } writeBuf c, ?_, ?_,
    ⟨readBuf, old.set s.file.written c, writeBuf.set s.file.written c, ?_, rfl⟩, rfl⟩
  · rw [put, storeByte_stored recasts.buffer inside]
    refine congrArg some (if_neg ?_)
    rintro (full | line)
    · rw [show (stored s old c).file.wbufsiz = bufSiz from recasts.full] at full
      exact Nat.ne_of_lt below full
    · exact other line
  · rw [put, @storeByte_stored _ { s with file := recast readBuf writeBuf s.file } _ rfl inside']
    refine congrArg some (if_neg ?_)
    rintro (full | line)
    · exact Nat.succ_ne_zero _ full
    · exact other line
  · exact { recasts with
      buffer := rfl
      oldLength := by rw [List.length_set]; exact recasts.oldLength
      newLength := by rw [List.length_set]; exact recasts.newLength
      pending := take_set_agree inside inside' recasts.pending
      room := below }

/-- A newline: both streams hand over what is pending. -/
theorem put_newline (alike : Alike s t) :
    ∃ s' t', put calls s newline = some s' ∧ put calls t newline = some t' ∧ Alike s' t' ∧
      s'.file.written = 0 := by
  obtain ⟨readBuf, old, writeBuf, recasts, rfl⟩ := alike
  have room := recasts.room
  have inside : s.file.written < old.length := by rw [recasts.oldLength]; exact room
  have inside' : s.file.written < writeBuf.length := by rw [recasts.newLength]; exact room
  have agree := @take_set_agree old writeBuf _ newline inside inside' recasts.pending
  refine ⟨(fflush calls (stored s old newline)).2,
    (fflush calls (stored { s with file := recast readBuf writeBuf s.file } writeBuf newline)).2, ?_, ?_,
    ⟨readBuf, old.set s.file.written newline, writeBuf.set s.file.written newline, ?_, ?_⟩, rfl⟩
  · rw [put, storeByte_stored recasts.buffer inside]
    exact congrArg some (if_pos (.inr rfl))
  · rw [put, @storeByte_stored _ { s with file := recast readBuf writeBuf s.file } _ rfl inside']
    exact congrArg some (if_pos (.inr rfl))
  · exact { recasts with
      buffer := rfl
      oldLength := by rw [List.length_set]; exact recasts.oldLength
      newLength := by rw [List.length_set]; exact recasts.newLength
      pending := by
        show List.take 0 _ = List.take 0 _
        rw [List.take_zero, List.take_zero]
      room := by
        show 0 < bufSiz
        decide }
  · show (⟨_, _, calls.write s.world s.file.fd ((writeBuf.set s.file.written newline).take
      (s.file.written + 1))⟩ : Stream World) = _
    rw [agree]
    rfl

/-- The byte that fills the buffer: only the stream of `fopen` hands it over. -/
theorem put_full {calls : OpenCalls World} {s t : Stream (World × List SysCall)} (alike : Alike s t)
    {c : BitVec 8} (other : c ≠ newline) (full : s.file.written + 1 = bufSiz) :
    ∃ s' t' bytes buf, put (observing calls).toSysCalls s c = some s' ∧
      put (observing calls).toSysCalls t c = some t' ∧
      s'.world.2 = t'.world.2 ++ [.write s.file.fd bytes] ∧
      t'.file.writeBuf = some buf ∧ buf.length ≤ t'.file.written := by
  obtain ⟨readBuf, old, writeBuf, recasts, rfl⟩ := alike
  have room := recasts.room
  have inside : s.file.written < old.length := by rw [recasts.oldLength]; exact room
  have inside' : s.file.written < writeBuf.length := by rw [recasts.newLength]; exact room
  refine ⟨(fflush (observing calls).toSysCalls (stored s old c)).2,
    stored { s with file := recast readBuf writeBuf s.file } writeBuf c,
    (old.set s.file.written c).take (s.file.written + 1), _, ?_, ?_, rfl, rfl, ?_⟩
  · rw [put, storeByte_stored recasts.buffer inside]
    exact congrArg some (if_pos (.inl (full.trans recasts.full.symm)))
  · rw [put, @storeByte_stored _ { s with file := recast readBuf writeBuf s.file } _ rfl inside']
    refine congrArg some (if_neg ?_)
    rintro (zero | line)
    · exact Nat.succ_ne_zero _ zero
    · exact other line
  · rw [List.length_set, recasts.newLength, ← full]
    exact Nat.le_refl _

/-- A loop that never fills the buffer. -/
theorem writeLoop_alike (alike : Alike s t) {bytes : List (BitVec 8)}
    (below : StaysBelow s.file.written bytes) :
    Follows Alike (writeLoop calls s bytes) (writeLoop calls t bytes) := by
  induction bytes generalizing s t with
  | nil => exact .of_some alike
  | cons c bytes inductionHypothesis =>
      rw [StaysBelow] at below
      rw [writeLoop_cons, writeLoop_cons]
      by_cases line : c = newline
      · rw [if_pos line] at below
        subst line
        obtain ⟨s', t', one, two, alike', written⟩ := @put_newline _ calls _ _ alike
        rw [one, two]
        exact inductionHypothesis alike' (by rw [written]; exact below)
      · rw [if_neg line] at below
        obtain ⟨s', t', one, two, alike', written⟩ := @put_alike _ calls _ _ alike _ line below.1
        rw [one, two]
        exact inductionHypothesis alike' (by rw [written]; exact below.2)

/-- A loop that fills it: the stream of `fdopen` misses a system call, or it stores behind its buffer. -/
theorem writeLoop_apart {calls : OpenCalls World} {s t s' t' : Stream (World × List SysCall)}
    (alike : Alike s t) {bytes : List (BitVec 8)} (fills : ¬StaysBelow s.file.written bytes)
    (ran : writeLoop (observing calls).toSysCalls s bytes = some s')
    (ran' : writeLoop (observing calls).toSysCalls t bytes = some t') : s'.world.2 ≠ t'.world.2 := by
  induction bytes generalizing s t with
  | nil => exact absurd trivial fills
  | cons c bytes inductionHypothesis =>
      rw [StaysBelow] at fills
      rw [writeLoop_cons] at ran ran'
      by_cases line : c = newline
      · rw [if_pos line] at fills
        subst line
        obtain ⟨u, v, one, two, alike', written⟩ :=
          @put_newline _ (observing calls).toSysCalls _ _ alike
        rw [one] at ran
        rw [two] at ran'
        exact inductionHypothesis alike' (by rw [written]; exact fills) ran ran'
      · rw [if_neg line] at fills
        by_cases below : s.file.written + 1 < bufSiz
        · obtain ⟨u, v, one, two, alike', written⟩ :=
            @put_alike _ (observing calls).toSysCalls _ _ alike _ line below
          rw [one] at ran
          rw [two] at ran'
          exact inductionHypothesis alike' (by rw [written]; exact fun rest => fills ⟨below, rest⟩) ran ran'
        · have room : s.file.written < bufSiz := by
            obtain ⟨_, _, _, recasts, rfl⟩ := alike
            exact recasts.room
          obtain ⟨u, v, handed, buf, one, two, log, buffer, noRoom⟩ :=
            @put_full _ calls _ _ alike _ line (by omega)
          rw [one] at ran
          rw [two] at ran'
          cases bytes with
          | nil =>
              cases ran
              cases ran'
              rw [log]
              exact fun same => by simpa using congrArg List.length same
          | cons d bytes =>
              -- There is no room for the next byte.
              change writeLoop _ v (d :: bytes) = some t' at ran'
              rw [writeLoop, storeByte, buffer] at ran'
              dsimp only at ran'
              rw [if_neg (by omega)] at ran'
              cases ran'

/-! ## What a call writes -/

/-- The bytes that `fwrite` stores, as long as an item has a positive size as an `int`. -/
def fwriteBytes (size : Nat) : Nat → List (BitVec 8) → List (BitVec 8)
  | 0, _ => []
  | left + 1, p => p.take size ++ if int size < 0 then [] else fwriteBytes size left (p.drop (int size).toNat)

/-- What `fwrite` returns, if the memory behind its pointer is large enough. -/
def fwriteResult (size nmemb : Nat) : Nat → List (BitVec 8) → Option Nat
  | 0, _ => some nmemb
  | left + 1, p =>
      if p.length < size then none
      else if int size < 0 then some sizeMax
      else fwriteResult size nmemb left (p.drop (int size).toNat)

/-- The bytes that a call stores in the write buffer. -/
def StreamOp.bytes : StreamOp → List (BitVec 8)
  | .fputc c => [BitVec.ofInt 8 c]
  | .fputs str => cstringAt str 0
  | .fwrite p size nmemb => fwriteBytes size nmemb p
  | .vfprintf printed => printed
  | _ => []

theorem put_buffered {s' : Stream World} {c : BitVec 8} (ran : put calls s c = some s') :
    s'.file.writeBuf ≠ none := by
  obtain ⟨u, stored, rfl⟩ := Option.map_eq_some_iff.mp ran
  have buffered : ∃ buf, u.file.writeBuf = some buf := by
    unfold storeByte at stored
    split at stored
    · cases stored
    · split at stored
      · cases stored
        exact ⟨_, rfl⟩
      · cases stored
  obtain ⟨buf, buffer⟩ := buffered
  split
  · unfold fflush
    rw [buffer]
    dsimp only
    split
    · exact fun none_ => Option.some_ne_none buf (buffer.symm.trans none_)
    · exact fun none_ => Option.some_ne_none buf (buffer.symm.trans none_)
  · exact fun none_ => Option.some_ne_none buf (buffer.symm.trans none_)

theorem writeLoop_buffered {s' : Stream World} {bytes : List (BitVec 8)}
    (buffered : s.file.writeBuf ≠ none) (ran : writeLoop calls s bytes = some s') :
    s'.file.writeBuf ≠ none := by
  induction bytes generalizing s with
  | nil =>
      cases ran
      exact buffered
  | cons c bytes inductionHypothesis =>
      rw [writeLoop_cons] at ran
      obtain ⟨u, one, rest⟩ := Option.bind_eq_some_iff.mp ran
      exact inductionHypothesis (put_buffered one) rest

theorem writeBytes_eq (buffered : s.file.writeBuf ≠ none) (bytes : List (BitVec 8)) :
    writeBytes calls s bytes = (writeLoop calls s bytes).map fun s => (bytes.length, s) := by
  rw [writeBytes, if_neg buffered]

theorem fputc_eq (buffered : s.file.writeBuf ≠ none) (c : Int) :
    fputc calls c s = (writeLoop calls s [BitVec.ofInt 8 c]).map fun s => (c, s) := by
  rw [fputc, writeBytes_eq buffered]
  cases writeLoop calls s [BitVec.ofInt 8 c] <;> rfl

theorem fputcEach_eq (buffered : s.file.writeBuf ≠ none) (chars : List (BitVec 8)) :
    fputcEach calls s chars = writeLoop calls s chars := by
  induction chars generalizing s with
  | nil => rfl
  | cons c chars inductionHypothesis =>
      have split := writeLoop_append calls s [c] chars
      rw [List.singleton_append] at split
      rw [fputcEach, fputc_eq buffered, BitVec.ofInt_toInt, split]
      cases ran : writeLoop calls s [c] with
      | none => rfl
      | some u => exact inductionHypothesis (writeLoop_buffered buffered ran)

theorem fwriteLoop_eq (buffered : s.file.writeBuf ≠ none) (size nmemb left : Nat) (p : List (BitVec 8)) :
    fwriteLoop calls size nmemb left p s =
      (fwriteResult size nmemb left p).bind fun r =>
        (writeLoop calls s (fwriteBytes size left p)).map fun s => (r, s) := by
  induction left generalizing s p with
  | zero => rfl
  | succ left inductionHypothesis =>
      rw [fwriteLoop, fwriteResult, fwriteBytes]
      by_cases short : p.length < size
      · rw [if_pos short, if_pos short]
        rfl
      · have taken : (p.take size).length = size := List.length_take_of_le (Nat.le_of_not_lt short)
        rw [if_neg short, if_neg short, writeBytes_eq buffered, taken, writeLoop_append]
        cases ran : writeLoop calls s (p.take size) with
        | none =>
            by_cases negative : int size < 0
            · rw [if_pos negative]
              rfl
            · rw [if_neg negative]
              cases fwriteResult size nmemb left (p.drop (int size).toNat) <;> rfl
        | some u =>
            show (if int size < 0 then some (sizeMax, u) else if int size < int size then _ else _) = _
            by_cases negative : int size < 0
            · rw [if_pos negative, if_pos negative, if_pos negative]
              rfl
            · rw [if_neg negative, if_neg negative, if_neg negative, if_neg (Int.lt_irrefl _)]
              exact inductionHypothesis (writeLoop_buffered buffered ran) _

/-- The calls that write. -/
def StreamOp.writes : StreamOp → Bool
  | .fputc _ | .fputs _ | .fwrite _ _ _ | .vfprintf _ => true
  | _ => false

/-- A call that writes is a loop over its bytes, with a result that depends on the arguments only. -/
theorem StreamOp.call_writes (op : StreamOp) (writes : op.writes = true) :
    ∃ result : Option Result, ∀ {World : Type} (calls : OpenCalls World) (s : Stream World),
      s.file.writeBuf ≠ none →
        op.call calls s = result.bind fun r =>
          (writeLoop calls.toSysCalls s op.bytes).map fun s => (r, s) := by
  cases op with
  | fputc c =>
      refine ⟨some (.int c), fun calls s buffered => ?_⟩
      rw [StreamOp.call, fputc_eq buffered, Option.map_map]
      rfl
  | fputs str =>
      refine ⟨some (.int 0), fun calls s buffered => ?_⟩
      rw [StreamOp.call, Libc.fputs, fputcEach_eq buffered, Option.map_map]
      rfl
  | fwrite p size nmemb =>
      refine ⟨(fwriteResult size nmemb nmemb p).map fun r => .size r [], fun calls s buffered => ?_⟩
      rw [StreamOp.call, Libc.fwrite, fwriteLoop_eq buffered]
      cases fwriteResult size nmemb nmemb p with
      | none => rfl
      | some r => exact Option.map_map _ _ _
  | vfprintf printed =>
      refine ⟨some (.int (int printed.length)), fun calls s buffered => ?_⟩
      rw [StreamOp.call, Libc.vfprintf, fputcEach_eq buffered, Option.map_map]
      rfl
  | _ => cases writes

/-- The other calls store nothing in the write buffer. -/
theorem StreamOp.bytes_of_reads (op : StreamOp) (reads : op.writes = false) : op.bytes = [] := by
  cases op with
  | fputc | fputs | fwrite | vfprintf => cases reads
  | _ => rfl

/-! ## Calls and requests -/

theorem Alike.buffered (alike : Alike s t) : s.file.writeBuf ≠ none ∧ t.file.writeBuf ≠ none := by
  obtain ⟨readBuf, old, writeBuf, recasts, rfl⟩ := alike
  rw [recasts.buffer]
  exact ⟨Option.some_ne_none _, Option.some_ne_none _⟩

/-- A call that never fills the buffer does the same on both streams. -/
theorem StreamOp.call_follows {calls : OpenCalls World} (op : StreamOp) (alike : Alike s t)
    (below : StaysBelow s.file.written op.bytes) :
    Follows (Labelled Alike) (op.call calls s) (op.call calls t) := by
  by_cases writes : op.writes = true
  · obtain ⟨result, eq⟩ := op.call_writes writes
    rw [eq calls s alike.buffered.1, eq calls t alike.buffered.2]
    cases result with
    | none => exact .of_none
    | some r => exact (writeLoop_alike alike below).map fun _ _ related => ⟨related⟩
  · cases op with
    | fputc | fputs | fwrite | vfprintf => exact absurd rfl writes
    | fflush => exact (fflush_alike alike).follows Result.int
    | fread size nmemb =>
        refine (freadLoop_alike alike size nmemb nmemb).map ?_
        rintro _ _ ⟨⟨related⟩⟩
        exact ⟨related⟩
    | fgetc =>
        refine (fgetc_alike alike).map ?_
        rintro _ _ ⟨related⟩
        exact ⟨related⟩
    | fgets size =>
        refine (fgetsLoop_alike alike _ []).map ?_
        rintro _ _ ⟨⟨related⟩⟩
        exact ⟨related⟩
    | ungetc c =>
        obtain ⟨readBuf, old, writeBuf, recasts, rfl⟩ := alike
        rw [StreamOp.call, StreamOp.call, Libc.ungetc, Libc.ungetc]
        dsimp only
        by_cases pending : 0 < s.file.ungetc
        · rw [if_pos pending, if_pos pending]
          exact .of_some ⟨readBuf, old, writeBuf, recasts, rfl⟩
        · rw [if_neg pending, if_neg pending]
          exact .of_some ⟨readBuf, old, writeBuf, { recasts with }, rfl⟩
    | fseek offset whence => exact (fseek_alike alike offset whence).follows Result.int
    | ftell => exact (ftell_alike alike).follows Result.long
    | fgetpos =>
        have got : Labelled (Labelled Alike) (Libc.fgetpos calls.toSysCalls s)
          (Libc.fgetpos calls.toSysCalls t) := fgetpos_alike alike
        rw [StreamOp.call, StreamOp.call]
        generalize Libc.fgetpos calls.toSysCalls s = first, Libc.fgetpos calls.toSysCalls t = second at got ⊢
        obtain ⟨⟨related⟩⟩ := got
        exact .of_some ⟨related⟩
    | fsetpos pos => exact (fseek_alike alike pos seekSet).follows Result.int
    | rewind => exact (fseek_alike alike 0 seekSet).follows fun _ => Result.void
    | feof =>
        obtain ⟨readBuf, old, writeBuf, recasts, rfl⟩ := alike
        exact .of_some ⟨readBuf, old, writeBuf, recasts, rfl⟩
    | ferror => exact .of_some ⟨alike⟩
    | clearerr => exact .of_some ⟨alike.setEof false⟩
    | fileno =>
        obtain ⟨readBuf, old, writeBuf, recasts, rfl⟩ := alike
        exact .of_some ⟨readBuf, old, writeBuf, recasts, rfl⟩
    | setvbuf buf mode size =>
        refine (setvbuf_alike alike buf mode size).map ?_
        rintro _ _ ⟨related⟩
        exact ⟨related⟩
    | freopen path => exact (freopen_alike alike path).follows fun given => Result.pointer given []

/-- Before the request no more bytes are pending than those with which its own ones never fill the buffer
without a newline. -/
def KeepsRoom : Option (Stream World) → Request → Prop
  | some s, .use op => StaysBelow s.file.written op.bytes
  | _, _ => True

/-- The two streams, or both closed. -/
inductive BothAlike : Option (Stream World) → Option (Stream World) → Prop where
  | closed : BothAlike none none
  | streams {s t : Stream World} (alike : Alike s t) : BothAlike (some s) (some t)

theorem Alike.logged (alike : Alike s t) : Alike (logged s) (logged t) := by
  obtain ⟨readBuf, old, writeBuf, recasts, rfl⟩ := alike
  exact ⟨readBuf, old, writeBuf, recasts, rfl⟩

/-- What `fclose` does behind its flush. -/
def closing (calls : OpenCalls World) (s : Stream (World × List SysCall)) : Answer :=
  let (out, world) := (observing calls).close s.world s.file.fd
  ⟨world.2, .int out, s.errno⟩

theorem answer_fclose (calls : OpenCalls World) (s : Stream World) :
    answer calls (some s) .fclose =
      some (closing calls (fflush (observing calls).toSysCalls (logged s)).2, none) := rfl

/-- A request with room has the same answer from both streams. -/
theorem answer_follows (calls : OpenCalls World) (s t : Option (Stream World)) (request : Request)
    (related : BothAlike s t) (room : KeepsRoom s request) :
    Follows (Labelled BothAlike) (answer calls s request) (answer calls t request) := by
  cases related with
  | closed => exact .of_none
  | @streams s t alike =>
      cases request with
      | use op =>
          refine (op.call_follows alike.logged room).map ?_
          rintro _ _ ⟨readBuf, old, writeBuf, recasts, rfl⟩
          exact ⟨.streams ⟨readBuf, old, writeBuf, recasts, rfl⟩⟩
      | fclose =>
          have flushed : Labelled Alike (fflush (observing calls).toSysCalls (logged s))
            (fflush (observing calls).toSysCalls (logged t)) := fflush_alike alike.logged
          rw [answer_fclose, answer_fclose]
          generalize fflush (observing calls).toSysCalls (logged s) = first,
            fflush (observing calls).toSysCalls (logged t) = second at flushed ⊢
          obtain ⟨_, _, _, recasts, rfl⟩ := flushed
          exact .of_some ⟨BothAlike.closed⟩

/-- A request without room has different answers. -/
theorem answer_apart (calls : OpenCalls World) (s t : Option (Stream World)) (request : Request)
    (given : Answer) (next : Option (Stream World)) (related : BothAlike s t)
    (noRoom : ¬KeepsRoom s request) (ran : answer calls s request = some (given, next))
    (next' : Option (Stream World)) : answer calls t request ≠ some (given, next') := by
  cases related with
  | closed => exact absurd trivial noRoom
  | @streams s t alike =>
      cases request with
      | fclose => exact absurd trivial noRoom
      | use op =>
          have writes : op.writes = true := by
            cases kind : op.writes with
            | true => rfl
            | false => exact absurd (by rw [KeepsRoom, op.bytes_of_reads kind]; trivial) noRoom
          obtain ⟨result, eq⟩ := op.call_writes writes
          intro ran'
          rw [answer, eq _ _ alike.logged.buffered.1] at ran
          rw [answer, eq _ _ alike.logged.buffered.2] at ran'
          cases result with
          | none => cases ran
          | some r =>
              rw [Option.bind_some, Option.map_map] at ran ran'
              obtain ⟨u, looped, same⟩ := Option.map_eq_some_iff.mp ran
              obtain ⟨v, looped', same'⟩ := Option.map_eq_some_iff.mp ran'
              cases same
              refine writeLoop_apart alike.logged noRoom looped looped' ?_
              exact (congrArg (fun answer => answer.1.calls) same').symm

/-! ## The stream of `fopen` -/

/-- The stream of `fopen` takes every byte. -/
theorem put_ready (alike : Alike s t) (c : BitVec 8) :
    ∃ s' t', put calls s c = some s' ∧ Alike s' t' := by
  by_cases line : c = newline
  · subst line
    obtain ⟨s', t', one, -, alike', -⟩ := @put_newline _ calls _ _ alike
    exact ⟨s', t', one, alike'⟩
  · by_cases below : s.file.written + 1 < bufSiz
    · obtain ⟨s', t', one, -, alike', -⟩ := @put_alike _ calls _ _ alike _ line below
      exact ⟨s', t', one, alike'⟩
    · obtain ⟨readBuf, old, writeBuf, recasts, rfl⟩ := alike
      have room := recasts.room
      have inside : s.file.written < old.length := by rw [recasts.oldLength]; exact room
      have full : s.file.written + 1 = s.file.wbufsiz := by
        rw [recasts.full]
        omega
      refine ⟨(fflush calls (stored s old c)).2, _, ?_, readBuf, old.set s.file.written c, writeBuf, ?_, rfl⟩
      · rw [put, storeByte_stored recasts.buffer inside]
        exact congrArg some (if_pos (.inl full))
      · exact { recasts with
          buffer := rfl
          oldLength := by rw [List.length_set]; exact recasts.oldLength
          pending := by
            show List.take 0 _ = List.take 0 _
            rw [List.take_zero, List.take_zero]
          room := by
            show 0 < bufSiz
            decide }

theorem writeLoop_ready (alike : Alike s t) (bytes : List (BitVec 8)) :
    ∃ s' t', writeLoop calls s bytes = some s' ∧ Alike s' t' := by
  induction bytes generalizing s t with
  | nil => exact ⟨s, t, rfl, alike⟩
  | cons c bytes inductionHypothesis =>
      obtain ⟨u, v, one, alike'⟩ := @put_ready _ calls _ _ alike c
      rw [writeLoop_cons, one]
      exact inductionHypothesis alike'

/-- The stream of `fdopen` has no place for the byte after those that fill the buffer. -/
theorem writeLoop_overruns {calls : OpenCalls World} {s t : Stream (World × List SysCall)}
    (alike : Alike s t) {bytes : List (BitVec 8)} (noLine : newline ∉ bytes) (c : BitVec 8)
    (fills : s.file.written + bytes.length = bufSiz) :
    writeLoop (observing calls).toSysCalls t (bytes ++ [c]) = none := by
  have room : s.file.written < bufSiz := by
    obtain ⟨_, _, _, recasts, rfl⟩ := alike
    exact recasts.room
  induction bytes generalizing s t with
  | nil =>
      rw [List.length_nil] at fills
      omega
  | cons b bytes inductionHypothesis =>
      rw [List.length_cons] at fills
      have other : b ≠ newline := fun line => noLine (line ▸ List.mem_cons_self)
      rw [List.cons_append, writeLoop_cons]
      by_cases below : s.file.written + 1 < bufSiz
      · obtain ⟨u, v, -, two, alike', written⟩ :=
          @put_alike _ (observing calls).toSysCalls _ _ alike _ other below
        rw [two]
        exact inductionHypothesis alike' (fun line => noLine (List.mem_cons_of_mem b line)) (by omega)
          (by omega)
      · obtain ⟨u, v, handed, buf, -, two, -, buffer, noRoom⟩ := @put_full _ calls _ _ alike _ other
          (by omega)
        rw [two, List.length_eq_zero_iff.mp (show bytes.length = 0 by omega)]
        show writeLoop _ v [c] = none
        rw [writeLoop, storeByte, buffer]
        dsimp only
        rw [if_neg (by omega)]
        rfl

/-! ## The result -/

/-- A stream of `fdopen` answers like one of `fopen` on the same descriptor exactly as long as no request
finds so many pending bytes that with its own ones 8192 are pending without a newline: then `fdopen` hands
nothing over, and it stores the next byte behind its buffer. The two streams come with whatever `malloc` left
in their buffers. -/
theorem fdopen_agrees_iff (calls : OpenCalls World) (fd errno : Int)
    (readJunk writeJunk readJunk' writeJunk' : Nat → BitVec 8) (world : World) (requests : List Request)
    {answers : List Answer}
    (ran : transcript (answer calls) (some ⟨fopen fd readJunk writeJunk, errno, world⟩) requests =
      some answers) :
    transcript (answer calls) (some ⟨fdopen fd readJunk' writeJunk', errno, world⟩) requests = some answers ↔
      Throughout (answer calls) KeepsRoom (some ⟨fopen fd readJunk writeJunk, errno, world⟩) requests :=
  transcript_agree_iff (answer_follows calls) (answer_apart calls)
    (.streams (fopen_alike fd errno readJunk writeJunk readJunk' writeJunk' world)) ran

/-- A device that has nothing to read, and no path to open. -/
def quiet : OpenCalls Unit where
  toSysCalls := mute
  openPath _ _ _ _ := (-2, ())

/-- The stream of `fopen` on descriptor 3. -/
def named : Stream Unit := ⟨fopen 3 (fun _ => 0) (fun _ => 0), 0, ()⟩

/-- The stream of `fdopen` on descriptor 3. -/
def wrapped : Stream Unit := ⟨fdopen 3 (fun _ => 0) (fun _ => 0), 0, ()⟩

theorem named_alike : Alike named wrapped := fopen_alike 3 0 _ _ _ _ ()

/-- What is printed to the stream of `fopen` and then flushed at the latest when it is closed. -/
theorem named_prints (printed : List (BitVec 8)) :
    ∃ answers, transcript (answer quiet) (some named) [.use (.vfprintf printed), .fclose] = some answers := by
  obtain ⟨s, t, looped, -⟩ :=
    @writeLoop_ready _ (observing quiet).toSysCalls _ _ named_alike.logged printed
  have called : StreamOp.call (observing quiet) (logged named) (.vfprintf printed) =
      some (.int (int printed.length), s) := by
    rw [StreamOp.call, Libc.vfprintf, fputcEach_eq named_alike.logged.buffered.1, looped]
    rfl
  rw [transcript, answer, called]
  exact ⟨_, rfl⟩

/-- `hi` and the end of the stream. -/
theorem fdopen_agrees_iff_example :
    ∃ answers, transcript (answer quiet) (some named) [.use (.vfprintf [0x68, 0x69]), .fclose] =
      some answers ∧
      transcript (answer quiet) (some wrapped) [.use (.vfprintf [0x68, 0x69]), .fclose] = some answers := by
  obtain ⟨answers, ran⟩ := named_prints [0x68, 0x69]
  refine ⟨answers, ran, (fdopen_agrees_iff quiet 3 0 _ _ _ _ () _ ran).mpr ⟨?_, fun _ next _ => ⟨?_, ?_⟩⟩⟩
  · show StaysBelow 0 [0x68, 0x69]
    simp [StaysBelow, newline, bufSiz]
  · cases next <;> trivial
  · exact fun _ _ _ => trivial

/-- The letter `a` 8193 times, without a newline. -/
def manyLetters : List (BitVec 8) := List.replicate bufSiz 0x61 ++ [0x61]

/-- 8193 letters are printed to the stream of `fopen`; `fdopen` has no place for the last one. -/
theorem fdopen_overruns :
    (∃ answers, transcript (answer quiet) (some named) [.use (.vfprintf manyLetters), .fclose] =
    some answers) ∧
      transcript (answer quiet) (some wrapped) [.use (.vfprintf manyLetters), .fclose] = none := by
  refine ⟨named_prints manyLetters, ?_⟩
  have noLine : newline ∉ List.replicate bufSiz (0x61 : BitVec 8) := fun line =>
    absurd (List.eq_of_mem_replicate line) (by decide)
  have stuck := @writeLoop_overruns _ quiet _ _ named_alike.logged _ noLine 0x61
    (by rw [List.length_replicate]; exact Nat.zero_add _)
  have called : StreamOp.call (observing quiet) (logged wrapped) (.vfprintf manyLetters) = none := by
    rw [StreamOp.call, Libc.vfprintf, fputcEach_eq named_alike.logged.buffered.2, manyLetters, stuck]
    rfl
  rw [transcript, answer, called]
  rfl

end Voxel.Proofs
