/-
Module: Voxel.Libc.OpenStreams
Layer: Libc
Purpose: The list of open streams of `libc/stdio.c`: the records of the streams with their links, `_head`, and
  the calls that put a record in front of the list or take one out of it. An access to a record that is
  not allocated has no result.
Trusted boundary: human-reviewed spec
Main exports: FileRecord, Stdio, Stdio.link, Stdio.unlink, Stdio.fopen, Stdio.fdopen, Stdio.freopen,
  Stdio.fclose, Stdio.stdioInit, Stdio.stdioFree
-/
import Mathlib.Logic.Function.Basic
import Voxel.Libc.Stdio

namespace Voxel.Libc

open Voxel.Lib

/-- `struct _FILE` with its links, without the name of the file. -/
structure FileRecord where
  file : File
  prev : Option Nat
  next : Option Nat

/-- The streams of a process: the records that are allocated, by address, and `_head`. -/
structure Stdio (World : Type) where
  records : Nat → Option FileRecord
  head : Option Nat
  errno : Int
  world : World

namespace Stdio

/-- The addresses of `_stdin`, `_stdout` and `_stderr`. -/
def stdinAt : Nat := 1

@[inherit_doc stdinAt] def stdoutAt : Nat := 2

@[inherit_doc stdinAt] def stderrAt : Nat := 3

/-- One of the three streams that are not in the list. -/
def IsStandard (stream : Nat) : Prop := stream = stdinAt ∨ stream = stdoutAt ∨ stream = stderrAt

instance (stream : Nat) : Decidable (IsStandard stream) :=
  inferInstanceAs (Decidable (stream = stdinAt ∨ stream = stdoutAt ∨ stream = stderrAt))

/-- `_stdin` after `__stdio_init`. -/
def stdioIn (readJunk : Nat → BitVec 8) : File where
  fd := 0
  readBuf := mallocBuf readJunk
  available := 0
  offset := 0
  readFrom := 0
  ungetc := -1
  eof := false
  bufsiz := bufSiz
  lastReadStart := 0
  writeBuf := none
  written := 0
  wbufsiz := bufSiz

variable {World : Type}

/-- The streams behind `__stdio_init`. -/
def stdioInit (junk : Nat → BitVec 8) (errno : Int) (world : World) : Stdio World where
  records stream :=
    if stream = stdinAt then some ⟨stdioIn junk, none, none⟩
    else if stream = stdoutAt then some ⟨stdioOut 1 junk, none, none⟩
    else if stream = stderrAt then some ⟨stdioOut 2 junk, none, none⟩
    else none
  head := none
  errno := errno
  world := world

/-! ## The list -/

/-- A change of a record. -/
def modify (stream : Nat) (change : FileRecord → FileRecord) (s : Stdio World) : Option (Stdio World) :=
  match s.records stream with
  | none => none
  | some r => some { s with records := Function.update s.records stream (some (change r)) }

/-- A change of the record behind a pointer, unless it is null. -/
def modifyIf (pointer : Option Nat) (change : FileRecord → FileRecord) (s : Stdio World) :
    Option (Stdio World) :=
  match pointer with
  | none => some s
  | some stream => s.modify stream change

/-- `stream->next = _head; if (_head) _head->prev = stream; _head = stream;`. -/
def link (stream : Nat) (s : Stdio World) : Option (Stdio World) := do
  let s ← s.modify stream fun r => { r with next := s.head }
  let s ← s.modifyIf s.head fun r => { r with prev := some stream }
  some { s with head := some stream }

/-- What `fclose` does with a record that is in the list. -/
def unlink (stream : Nat) (s : Stdio World) : Option (Stdio World) := do
  let r ← s.records stream
  let s ← s.modifyIf r.prev fun before => { before with next := r.next }
  let r ← s.records stream
  let s ← s.modifyIf r.next fun after => { after with prev := r.prev }
  let r ← s.records stream
  some { s with
    head := if s.head = some stream then r.next else s.head
    records := Function.update s.records stream none }

/-! ## The calls -/

/-- The stream of a record. -/
def stream (s : Stdio World) (r : FileRecord) : Stream World :=
  { file := r.file, errno := s.errno, world := s.world }

/-- The record of a stream behind a call. -/
def store (s : Stdio World) (at_ : Nat) (r : FileRecord) (t : Stream World) : Stdio World :=
  { s with
    records := Function.update s.records at_ (some { r with file := t.file })
    errno := t.errno
    world := t.world }

/-- A new record; `block` is what `malloc` returned. -/
def enter (s : Stdio World) (block : Nat) (file : File) : Option (Stdio World) :=
  link block { s with records := Function.update s.records block (some ⟨file, none, none⟩) }

/-- `fopen`; `block` is what `malloc` returned. -/
def fopen (calls : OpenCalls World) (path : CString) (block : Nat) (readJunk writeJunk : Nat → BitVec 8)
    (s : Stdio World) : Option (Option Nat × Stdio World) :=
  let (flags, mask) := openRequest path
  let (fd, world) := calls.openPath s.world (cstringAt path 0) flags mask
  if fd < 0 then some (none, { s with errno := -fd, world := world })
  else
    (enter { s with world := world } block (Libc.fopen fd readJunk writeJunk)).map fun s => (some block, s)

/-- `fdopen`; `block` is what `malloc` returned. -/
def fdopen (fd : Int) (block : Nat) (readJunk writeJunk : Nat → BitVec 8) (s : Stdio World) :
    Option (Option Nat × Stdio World) :=
  (enter s block (Libc.fdopen fd readJunk writeJunk)).map fun s => (some block, s)

/-- `freopen`: it links the record again, whether it opens the path or not. -/
def freopen (calls : OpenCalls World) (path : Option CString) (at_ : Nat) (s : Stdio World) :
    Option (Option Nat × Stdio World) := do
  let r ← s.records at_
  let (given, t) := Libc.freopen calls path (s.stream r)
  let s := s.store at_ r t
  (if path = none ∨ IsStandard at_ then some s else link at_ s).map fun s =>
    (if given then some at_ else none, s)

/-- `fclose`. -/
def fclose (calls : SysCalls World) (at_ : Nat) (s : Stdio World) : Option (Int × Stdio World) := do
  let r ← s.records at_
  let (out, t) := Libc.fclose calls (s.stream r)
  let s := s.store at_ r t
  (if IsStandard at_ then some s else unlink at_ s).map fun s => (out, s)

/-- `fflush`. -/
def fflush (calls : SysCalls World) (at_ : Nat) (s : Stdio World) : Option (Int × Stdio World) := do
  let r ← s.records at_
  let (out, t) := Libc.fflush calls (s.stream r)
  some (out, s.store at_ r t)

/-- The loop of `__stdio_free`, with the streams that it closes; `fuel` bounds its rounds. -/
def closeAll (calls : SysCalls World) : Nat → Stdio World → Option (List Nat × Stdio World)
  | 0, _ => none
  | fuel + 1, s =>
      match s.head with
      | none => some ([], s)
      | some first => do
          let (_, s) ← s.fclose calls first
          let (closed, s) ← closeAll calls fuel s
          some (first :: closed, s)

/-- `__stdio_free`. -/
def stdioFree (calls : SysCalls World) (fuel : Nat) (s : Stdio World) : Option (List Nat × Stdio World) := do
  let (_, s) ← s.fflush calls stdoutAt
  let (_, s) ← s.fflush calls stderrAt
  closeAll calls fuel s

end Stdio

end Voxel.Libc
