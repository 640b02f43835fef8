/-
Module: Voxel.Proofs.BufferedWrite
Layer: Proofs
Purpose: Buffered writing delivers every byte in order. The system calls get a log of the bytes that were
  handed to `syscall_write`; this log and the pending bytes of the buffer are what the caller wrote.
Trusted boundary: none
Main exports: handing, pending, WriteOp, WriteHolds, storeByte_holds, written_in_order
-/
import Mathlib.Data.List.Basic
import Voxel.Lib.Run
import Voxel.Libc.Stdio

namespace Voxel.Proofs

open Voxel.Lib Voxel.Libc

variable {World : Type}

/-! ## What the caller writes -/

/-- The system calls with a log of the bytes that were handed to `syscall_write`. -/
def handing (calls : SysCalls World) : SysCalls (World × List (BitVec 8)) where
  seek w fd offset whence :=
    let (position, world) := calls.seek w.1 fd offset whence
    (position, world, w.2)
  read w fd count :=
    let (bytes, world) := calls.read w.1 fd count
    (bytes, world, w.2)
  write w fd bytes := (calls.write w.1 fd bytes, w.2 ++ bytes)
  close w fd :=
    let (out, world) := calls.close w.1 fd
    (out, world, w.2)
  read_le w := calls.read_le w.1

/-- The bytes of the write buffer that were not handed over yet. -/
def pending (file : File) : List (BitVec 8) :=
  match file.writeBuf with
  | none => []
  | some buf => buf.take file.written

/-- A call on a stream; `fwrite` comes with the memory behind its pointer, which has room for its items. -/
inductive WriteOp
  | fputc (c : Int)
  | fputs (str : CString)
  | puts (str : CString)
  | fwrite (p : List (BitVec 8)) (size nmemb : Nat) (small : size < 2 ^ 31) (room : size * nmemb ≤ p.length)
  | vfprintf (printed : List (BitVec 8))
  | fflush

/-- What the caller writes with a call. -/
def WriteOp.bytes : WriteOp → List (BitVec 8)
  | .fputc c => [BitVec.ofInt 8 c]
  | .fputs str => cstringAt str 0
  | .puts str => cstringAt str 0 ++ [newline]
  | .fwrite p size nmemb _ _ => p.take (size * nmemb)
  | .vfprintf printed => printed
  | .fflush => []

/-- The stream behind a call. -/
def WriteOp.call (calls : SysCalls World) (s : Stream World) : WriteOp → Option (Stream World)
  | .fputc c => (Libc.fputc calls c s).map (·.2)
  | .fputs str => (Libc.fputs calls str s).map (·.2)
  | .puts str => (Libc.puts calls str s).map (·.2)
  | .fwrite p size nmemb _ _ => (Libc.fwrite calls p size nmemb s).map (·.2)
  | .vfprintf printed => (Libc.vfprintf calls printed s).map (·.2)
  | .fflush => some (Libc.fflush calls s).2

/-- A stream as `fopen` or `__stdio_init` leaves it. -/
def Created (file : File) : Prop :=
  (∃ fd readJunk writeJunk, file = fopen fd readJunk writeJunk) ∨
    ∃ fd writeJunk, file = stdioOut fd writeJunk

/-! ## The invariant -/

/-- The caller wrote `all` to the stream. -/
structure WriteHolds (s : Stream (World × List (BitVec 8))) (all : List (BitVec 8)) : Prop where
  buffer : ∃ buf, s.file.writeBuf = some buf ∧ buf.length = bufSiz
  size : s.file.wbufsiz = bufSiz
  room : s.file.written < bufSiz
  lines : newline ∉ pending s.file
  order : s.world.2 ++ pending s.file = all

variable (calls : SysCalls World) {s : Stream (World × List (BitVec 8))} {all : List (BitVec 8)}

theorem mallocBuf_length (junk : Nat → BitVec 8) : (mallocBuf junk).length = bufSiz := by
  simp [mallocBuf]

/-- A stream that was just created. -/
theorem Created.holds (created : Created s.file) (fresh : s.world.2 = []) : WriteHolds s [] := by
  have empty : pending s.file = [] := by
    rcases created with ⟨fd, r, w, file⟩ | ⟨fd, w, file⟩ <;>
      simp [pending, file, fopen, stdioOut]
  refine ⟨?_, ?_, ?_, by simp [empty], by simp [fresh, empty]⟩ <;>
    rcases created with ⟨fd, r, w, file⟩ | ⟨fd, w, file⟩ <;>
    simp [file, fopen, stdioOut, mallocBuf_length, bufSiz]

/-- What `fflush` does to a stream with a buffer: the pending bytes are handed over. -/
theorem fflush_spec {buf : List (BitVec 8)} (buffer : s.file.writeBuf = some buf) :
    (fflush (handing calls) s).2.file = { s.file with written := 0 } ∧
      (fflush (handing calls) s).2.world.2 = s.world.2 ++ pending s.file := by
  unfold fflush pending
  rw [buffer]
  by_cases written : s.file.written = 0
  · obtain ⟨file, errno, world⟩ := s
    cases file
    simp_all
  · simp [written, handing]

/-- Behind `fflush` nothing is pending. -/
theorem fflush_holds (bufferSize : ∃ buf, s.file.writeBuf = some buf ∧ buf.length = bufSiz)
    (size : s.file.wbufsiz = bufSiz) (order : s.world.2 ++ pending s.file = all) :
    WriteHolds (fflush (handing calls) s).2 all ∧ pending (fflush (handing calls) s).2.file = [] := by
  obtain ⟨buf, buffer, length⟩ := bufferSize
  obtain ⟨file, world⟩ := fflush_spec calls buffer
  have empty : pending (fflush (handing calls) s).2.file = [] := by
    rw [file, pending, buffer]
    rfl
  refine ⟨⟨⟨buf, by rw [file]; exact buffer, length⟩, by rw [file]; exact size, ?_, ?_, ?_⟩, empty⟩
  · rw [file]
    show 0 < bufSiz
    decide
  · rw [empty]
    exact List.not_mem_nil
  · rw [empty, world, List.append_nil]
    exact order

/-- A byte goes behind the pending ones. -/
theorem storePending_spec {buf : List (BitVec 8)} (buffer : s.file.writeBuf = some buf)
    (inside : s.file.written < buf.length) (c : BitVec 8) :
    ∃ t, storeByte s c = some t ∧ t.file.writeBuf = some (buf.set s.file.written c) ∧
      t.file.written = s.file.written + 1 ∧ t.file.wbufsiz = s.file.wbufsiz ∧ t.world = s.world ∧
      pending t.file = pending s.file ++ [c] := by
  refine ⟨{ s with
      file := { s.file with
        writeBuf := some (buf.set s.file.written c)
        written := s.file.written + 1 } }, by simp only [storeByte, buffer, if_pos inside], rfl, rfl, rfl,
    rfl, ?_⟩
  simp only [pending, buffer]
  rw [List.take_succ_eq_append_getElem (by rw [List.length_set]; exact inside),
    List.take_set_of_le (Nat.le_refl _), List.getElem_set_self]

/-- One byte of `_write_bytes`. -/
theorem storeByte_holds (holds : WriteHolds s all) (c : BitVec 8) :
    ∃ t, storeByte s c = some t ∧
      WriteHolds (if t.file.written = t.file.wbufsiz ∨ c = newline then (fflush (handing calls) t).2
        else t) (all ++ [c]) := by
  obtain ⟨buf, buffer, length⟩ := holds.buffer
  have room := holds.room
  have inside : s.file.written < buf.length := by rw [length]; exact room
  obtain ⟨t, stored, buffer', written, size, world, grown⟩ := storePending_spec buffer inside c
  have buffered : ∃ buf, t.file.writeBuf = some buf ∧ buf.length = bufSiz :=
    ⟨_, buffer', by rw [List.length_set]; exact length⟩
  have order : t.world.2 ++ pending t.file = all ++ [c] := by
    rw [world, grown, ← List.append_assoc, holds.order]
  refine ⟨t, stored, ?_⟩
  split
  · exact (fflush_holds calls buffered (size.trans holds.size) order).1
  · next stays =>
      rw [not_or] at stays
      refine ⟨buffered, size.trans holds.size, ?_, ?_, order⟩
      · have full : t.file.written ≠ bufSiz := fun full =>
          stays.1 (full.trans (size.trans holds.size).symm)
        omega
      · rw [grown, List.mem_append, List.mem_singleton]
        rintro (earlier | last)
        · exact holds.lines earlier
        · exact stays.2 last.symm

/-! ## The calls -/

theorem writeLoop_holds (holds : WriteHolds s all) (buf : List (BitVec 8)) :
    ∃ t, writeLoop (handing calls) s buf = some t ∧ WriteHolds t (all ++ buf) := by
  induction buf generalizing s all with
  | nil => exact ⟨s, rfl, by rw [List.append_nil]; exact holds⟩
  | cons c buf inductionHypothesis =>
      obtain ⟨t, stored, next⟩ := storeByte_holds calls holds c
      obtain ⟨u, looped, last⟩ := inductionHypothesis next
      rw [List.append_assoc, List.singleton_append] at last
      refine ⟨u, ?_, last⟩
      rw [writeLoop, stored]
      exact looped

theorem writeBytes_holds (holds : WriteHolds s all) (buf : List (BitVec 8)) :
    ∃ t, writeBytes (handing calls) s buf = some (buf.length, t) ∧ WriteHolds t (all ++ buf) := by
  obtain ⟨t, looped, next⟩ := writeLoop_holds calls holds buf
  obtain ⟨old, buffer, -⟩ := holds.buffer
  refine ⟨t, ?_, next⟩
  rw [writeBytes, if_neg (by simp [buffer]), looped]
  rfl

theorem fputc_holds (holds : WriteHolds s all) (c : Int) :
    ∃ t, fputc (handing calls) c s = some (c, t) ∧ WriteHolds t (all ++ [BitVec.ofInt 8 c]) := by
  obtain ⟨t, wrote, next⟩ := writeBytes_holds calls holds [BitVec.ofInt 8 c]
  exact ⟨t, by rw [fputc, wrote]; rfl, next⟩

theorem fputcEach_holds (holds : WriteHolds s all) (chars : List (BitVec 8)) :
    ∃ t, fputcEach (handing calls) s chars = some t ∧ WriteHolds t (all ++ chars) := by
  induction chars generalizing s all with
  | nil => exact ⟨s, rfl, by rw [List.append_nil]; exact holds⟩
  | cons c chars inductionHypothesis =>
      obtain ⟨t, put, next⟩ := fputc_holds calls holds c.toInt
      rw [BitVec.ofInt_toInt] at next
      obtain ⟨u, looped, last⟩ := inductionHypothesis next
      rw [List.append_assoc, List.singleton_append] at last
      exact ⟨u, by rw [fputcEach, put]; exact looped, last⟩

/-- A `size_t` below 2^31 is the same `int`. -/
theorem int_small {n : Nat} (small : n < 2 ^ 31) : int n = n := by
  have low : (BitVec.ofNat 32 n).toNat = n := by
    rw [BitVec.toNat_ofNat]
    omega
  rw [int, BitVec.toInt_eq_toNat_of_lt (by omega), low]

theorem fwriteLoop_holds {size nmemb left : Nat} {p : List (BitVec 8)} (holds : WriteHolds s all)
    (small : size < 2 ^ 31) (room : size * left ≤ p.length) :
    ∃ t, fwriteLoop (handing calls) size nmemb left p s = some (nmemb, t) ∧
      WriteHolds t (all ++ p.take (size * left)) := by
  induction left generalizing s all p with
  | zero => exact ⟨s, rfl, by simpa using holds⟩
  | succ left inductionHypothesis =>
      rw [Nat.mul_succ] at room ⊢
      obtain ⟨t, wrote, next⟩ := writeBytes_holds calls holds (p.take size)
      have taken : (p.take size).length = size := List.length_take_of_le (by omega)
      obtain ⟨u, looped, last⟩ := @inductionHypothesis _ _ (p.drop size) next
        (by rw [List.length_drop]; omega)
      refine ⟨u, ?_, ?_⟩
      · rw [fwriteLoop, if_neg (by omega), wrote, taken]
        show (if int size < 0 then _ else if int size < int size then _ else _) = _
        rw [int_small small, if_neg (by omega), if_neg (by omega)]
        exact looped
      · rw [List.append_assoc, ← List.take_add, Nat.add_comm] at last
        exact last

theorem fwrite_holds {size nmemb : Nat} {p : List (BitVec 8)} (holds : WriteHolds s all)
    (small : size < 2 ^ 31) (room : size * nmemb ≤ p.length) :
    ∃ t, fwrite (handing calls) p size nmemb s = some (nmemb, t) ∧
      WriteHolds t (all ++ p.take (size * nmemb)) :=
  fwriteLoop_holds calls holds small room

theorem cstringAt_length_le (str : CString) : (cstringAt str 0).length ≤ str.length := by
  unfold cstringAt
  exact (List.takeWhile_sublist _).length_le

/-- The characters up to the terminator are the beginning of the memory behind a pointer. -/
theorem take_cstringAt (str : CString) : str.take (cstringAt str 0).length = cstringAt str 0 := by
  unfold cstringAt
  rw [List.drop_zero]
  exact (List.prefix_iff_eq_take.mp (List.takeWhile_prefix _)).symm

theorem puts_holds (holds : WriteHolds s all) (str : CString) :
    ∃ t, puts (handing calls) str s = some (0, t) ∧
      WriteHolds t (all ++ (cstringAt str 0 ++ [newline])) := by
  obtain ⟨t, text, next⟩ := @fwrite_holds _ calls s all 1 (cstringAt str 0).length str holds (by decide)
    (by rw [Nat.one_mul]; exact cstringAt_length_le str)
  rw [Nat.one_mul, take_cstringAt] at next
  obtain ⟨u, line, last⟩ := @fwrite_holds _ calls t _ 1 1 [newline] next (by decide) (by decide)
  refine ⟨u, ?_, by rw [List.append_assoc] at last; exact last⟩
  rw [puts, text]
  show (fwrite (handing calls) [newline] 1 1 t).bind _ = _
  rw [line]
  rfl

/-- Every call adds what its caller writes. -/
theorem WriteOp.call_holds (holds : WriteHolds s all) (op : WriteOp) :
    ∃ t, op.call (handing calls) s = some t ∧ WriteHolds t (all ++ op.bytes) := by
  cases op with
  | fputc c =>
      obtain ⟨t, put, next⟩ := fputc_holds calls holds c
      exact ⟨t, by rw [WriteOp.call, put]; rfl, next⟩
  | fputs str =>
      obtain ⟨t, put, next⟩ := fputcEach_holds calls holds (cstringAt str 0)
      exact ⟨t, by rw [WriteOp.call, Libc.fputs, put]; rfl, next⟩
  | puts str =>
      obtain ⟨t, put, next⟩ := puts_holds calls holds str
      exact ⟨t, by rw [WriteOp.call, put]; rfl, next⟩
  | fwrite p size nmemb small room =>
      obtain ⟨t, wrote, next⟩ := fwrite_holds calls holds small room
      exact ⟨t, by rw [WriteOp.call, wrote]; rfl, next⟩
  | vfprintf printed =>
      obtain ⟨t, put, next⟩ := fputcEach_holds calls holds printed
      exact ⟨t, by rw [WriteOp.call, Libc.vfprintf, put]; rfl, next⟩
  | fflush =>
      refine ⟨_, rfl, ?_⟩
      rw [WriteOp.bytes, List.append_nil]
      exact (fflush_holds calls holds.buffer holds.size holds.order).1

/-! ## Sequences of calls -/

theorem writeRun_holds (holds : WriteHolds s all) (ops : List WriteOp) :
    ∃ t, Run.exec (WriteOp.call (handing calls)) s ops = some t ∧
      WriteHolds t (all ++ ops.flatMap WriteOp.bytes) := by
  induction ops generalizing s all with
  | nil => exact ⟨s, rfl, by simpa using holds⟩
  | cons op ops inductionHypothesis =>
      obtain ⟨t, called, next⟩ := WriteOp.call_holds calls holds op
      obtain ⟨u, ran, last⟩ := inductionHypothesis next
      rw [List.append_assoc, ← List.flatMap_cons] at last
      exact ⟨u, by rw [Run.exec, called]; exact ran, last⟩

/-- Closing hands over what is pending. -/
theorem fclose_holds (holds : WriteHolds s all) :
    pending (fclose (handing calls) s).2.file = [] ∧ (fclose (handing calls) s).2.world.2 = all := by
  have flushed := fflush_holds calls holds.buffer holds.size holds.order
  refine ⟨rfl, ?_⟩
  have order := flushed.1.order
  rw [flushed.2, List.append_nil] at order
  exact order

/-- Buffered writing delivers every byte in order: after any calls on a new stream the bytes that were handed
to `syscall_write` and then the pending ones are the bytes that the caller wrote; the buffer has room, no
pending byte is a newline, and behind `fflush` or `fclose` everything is handed over. -/
theorem written_in_order (start : Stream (World × List (BitVec 8))) (created : Created start.file)
    (fresh : start.world.2 = []) (ops : List WriteOp) :
    ∃ s, Run.exec (WriteOp.call (handing calls)) start ops = some s ∧
      s.world.2 ++ pending s.file = ops.flatMap WriteOp.bytes ∧
      s.file.written < bufSiz ∧ newline ∉ pending s.file ∧
      (pending (fflush (handing calls) s).2.file = [] ∧
        (fflush (handing calls) s).2.world.2 = ops.flatMap WriteOp.bytes) ∧
      pending (fclose (handing calls) s).2.file = [] ∧
      (fclose (handing calls) s).2.world.2 = ops.flatMap WriteOp.bytes := by
  obtain ⟨s, ran, holds⟩ := writeRun_holds calls (created.holds fresh) ops
  rw [List.nil_append] at holds
  have flushed := fflush_holds calls holds.buffer holds.size holds.order
  have order := flushed.1.order
  rw [flushed.2, List.append_nil] at order
  exact ⟨s, ran, holds.order, holds.room, holds.lines, ⟨flushed.2, order⟩, fclose_holds calls holds⟩

/-- A device that has nothing to read. -/
def mute : SysCalls Unit where
  seek _ _ _ _ := (0, ())
  read _ _ _ := (.ok [], ())
  write _ _ _ := ()
  close _ _ := (0, ())
  read_le := by
    intro _ _ count bytes read
    cases read
    exact Nat.zero_le count

/-- A stream on this device. -/
def muteStream : Stream (Unit × List (BitVec 8)) :=
  { file := fopen 3 (fun _ => 0) (fun _ => 0), errno := 0, world := ((), []) }

theorem written_in_order_example :
    ∃ s, Run.exec (WriteOp.call (handing mute)) muteStream [.fputc 0x41, .puts [0x42, 0x43]] = some s ∧
      s.world.2 ++ pending s.file = [0x41, 0x42, 0x43, 0x0A] := by
  obtain ⟨s, ran, order, -⟩ := written_in_order mute muteStream (.inl ⟨3, _, _, rfl⟩) rfl
    [.fputc 0x41, .puts [0x42, 0x43]]
  exact ⟨s, ran, order.trans (by decide)⟩

end Voxel.Proofs
