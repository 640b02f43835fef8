/-
Module: Voxel.Libc.Stdio
Layer: Libc
Purpose: The streams of `libc/stdio.c`: the read buffer with its three cursors and the byte that was
  pushed back, and the write buffer that is flushed when it is full and at every newline. The system
  calls on the descriptor are a parameter. An access outside a buffer has no result.
Trusted boundary: human-reviewed spec
Main exports: File, SysCalls, OpenCalls, Stream, fopen, fdopen, fflush, fputc, fputs, puts, fwrite,
  vfprintf, fclose, readBytes, fread, fgetc, fgets, ungetc, fseek, ftell, fgetpos, fsetpos, setvbuf,
  openRequest, freopen
-/
import Mathlib.Algebra.Group.Nat.Defs
import Voxel.Lib.CString

namespace Voxel.Libc

open Voxel.Lib

/-- `BUFSIZ`. -/
def bufSiz : Nat := 8192

/-- `EOF`. -/
def eof : Int := -1

/-- `SEEK_SET`. -/
def seekSet : Nat := 0

/-- `SEEK_CUR`. -/
def seekCur : Nat := 1

/-- `'\n'`. -/
def newline : BitVec 8 := 0x0A

/-- The conversion of a `size_t` to an `int`. -/
def int (n : Nat) : Int := (BitVec.ofNat 32 n).toInt

/-- `-1`, as a `size_t`. -/
def sizeMax : Nat := 2 ^ 64 - 1

/-! ## Streams -/

/-- `struct _FILE`, without the name of the file and the links of the list of open streams, which only
`fclose` and `freopen` read. -/
structure File where
  fd : Int
  readBuf : List (BitVec 8)
  available : Nat
  offset : Nat
  readFrom : Nat
  ungetc : Int
  eof : Bool
  bufsiz : Nat
  lastReadStart : BitVec 64
  writeBuf : Option (List (BitVec 8))
  written : Nat
  wbufsiz : Nat
  deriving Repr, DecidableEq

/-- The system calls of a process on its descriptors, as transitions of what lies behind them. `read` is the
function of the library: it fails with the value of `errno`, and never returns more than it is asked for. -/
structure SysCalls (World : Type) where
  seek : World → Int → BitVec 64 → Nat → BitVec 64 × World
  read : World → Int → Nat → Except Int (List (BitVec 8)) × World
  write : World → Int → List (BitVec 8) → World
  close : World → Int → Int × World
  read_le : ∀ world fd count bytes, (read world fd count).1 = .ok bytes → bytes.length ≤ count

/-- A stream of a process, `errno`, and what lies behind the system calls. -/
structure Stream (World : Type) where
  file : File
  errno : Int
  world : World

/-- The bytes of `malloc(BUFSIZ)`: whatever the memory has. -/
def mallocBuf (junk : Nat → BitVec 8) : List (BitVec 8) := (List.range bufSiz).map junk

/-- The stream that `fopen` returns for a descriptor. -/
def fopen (fd : Int) (readJunk writeJunk : Nat → BitVec 8) : File where
  fd := fd
  readBuf := mallocBuf readJunk
  available := 0
  offset := 0
  readFrom := 0
  ungetc := -1
  eof := false
  bufsiz := bufSiz
  lastReadStart := 0
  writeBuf := some (mallocBuf writeJunk)
  written := 0
  wbufsiz := bufSiz

/-- The stream that `fdopen` returns for a descriptor. -/
def fdopen (fd : Int) (readJunk writeJunk : Nat → BitVec 8) : File where
  fd := fd
  readBuf := mallocBuf readJunk
  available := 0
  offset := 0
  readFrom := 0
  ungetc := -1
  eof := false
  bufsiz := bufSiz
  lastReadStart := 0
  writeBuf := some (mallocBuf writeJunk)
  written := 0
  wbufsiz := 0

/-- `_stdout` (descriptor 1) and `_stderr` (descriptor 2) after `__stdio_init`; the null pointer
`read_buf` is a buffer without bytes. -/
def stdioOut (fd : Int) (writeJunk : Nat → BitVec 8) : File where
  fd := fd
  readBuf := []
  available := 0
  offset := 0
  readFrom := 0
  ungetc := -1
  eof := false
  bufsiz := bufSiz
  lastReadStart := 0
  writeBuf := some (mallocBuf writeJunk)
  written := 0
  wbufsiz := bufSiz

variable {World : Type} (calls : SysCalls World)

/-! ## Writing -/

/-- `fflush`. -/
def fflush (s : Stream World) : Int × Stream World :=
  match s.file.writeBuf with
  | none => (eof, s)
  | some buf =>
      if s.file.written ≠ 0 then
        (0, { s with
              file := { s.file with written := 0 }
              world := calls.write s.world s.file.fd (buf.take s.file.written) })
      else (0, s)

/-- `f->write_buf[f->written++] = c`. -/
def storeByte (s : Stream World) (c : BitVec 8) : Option (Stream World) :=
  match s.file.writeBuf with
  | none => none
  | some buf =>
      if s.file.written < buf.length then
        some { s with
          file := { s.file with
            writeBuf := some (buf.set s.file.written c)
            written := s.file.written + 1 } }
      else none

/-- The loop of `_write_bytes`. -/
def writeLoop (s : Stream World) : List (BitVec 8) → Option (Stream World)
  | [] => some s
  | c :: buf => do
      let s ← storeByte s c
      writeLoop (if s.file.written = s.file.wbufsiz ∨ c = newline then (fflush calls s).2 else s) buf

/-- `_write_bytes` of the bytes `buf`. -/
def writeBytes (s : Stream World) (buf : List (BitVec 8)) : Option (Nat × Stream World) :=
  if s.file.writeBuf = none then some (0, s)
  else (writeLoop calls s buf).map fun s => (buf.length, s)

/-- `fputc`. -/
def fputc (c : Int) (s : Stream World) : Option (Int × Stream World) := do
  let (_, s) ← writeBytes calls s [BitVec.ofInt 8 c]
  some (c, s)

/-- One `fputc` for each `char`, which becomes an `int` on the way. -/
def fputcEach (s : Stream World) : List (BitVec 8) → Option (Stream World)
  | [] => some s
  | c :: rest => do
      let (_, s) ← fputc calls c.toInt s
      fputcEach s rest

/-- `fputs`; `str` is the memory behind the pointer. -/
def fputs (str : CString) (s : Stream World) : Option (Int × Stream World) :=
  (fputcEach calls s (cstringAt str 0)).map fun s => (0, s)

/-- The loop of `fwrite`; `p` is the memory behind the pointer, `left` the number of items that are left. -/
def fwriteLoop (size nmemb : Nat) :
    Nat → List (BitVec 8) → Stream World → Option (Nat × Stream World)
  | 0, _, s => some (nmemb, s)
  | left + 1, p, s =>
      if p.length < size then none
      else do
        let (ret, s) ← writeBytes calls s (p.take size)
        let r := int ret
        if r < 0 then some (sizeMax, s)
        else if r < int size then some (nmemb - (left + 1), s)
        else fwriteLoop size nmemb left (p.drop r.toNat) s

/-- `fwrite`. -/
def fwrite (p : List (BitVec 8)) (size nmemb : Nat) (s : Stream World) : Option (Nat × Stream World) :=
  fwriteLoop calls size nmemb nmemb p s

/-- `puts`; the stream is `stdout`. -/
def puts (str : CString) (stdout : Stream World) : Option (Int × Stream World) := do
  let (_, stdout) ← fwrite calls str 1 (cstringAt str 0).length stdout
  let (_, stdout) ← fwrite calls [newline] 1 1 stdout
  some (0, stdout)

/-- `vfprintf`. `_printf` hands its callback one character after the other and reads nothing of the stream;
`printed` are these characters, for the format and the arguments of the call. -/
def vfprintf (printed : List (BitVec 8)) (s : Stream World) : Option (Int × Stream World) :=
  (fputcEach calls s printed).map fun s => (int printed.length, s)

/-- `fclose`, up to the list of open streams. -/
def fclose (s : Stream World) : Int × Stream World :=
  let (_, s) := fflush calls s
  let (out, world) := calls.close s.world s.file.fd
  (out, { s with file := { s.file with writeBuf := none }, world := world })

/-! ## Reading -/

/-- The part of `_read_bytes` that asks the descriptor for bytes. `false` says that `read` failed. The
bytes go to `read_buf[offset]` and behind it, as many as there is room for up to `bufsiz`. -/
def refill (s : Stream World) : Option (Bool × Stream World) :=
  let offset := if s.file.offset = s.file.bufsiz then 0 else s.file.offset
  let (start, world) := calls.seek s.world s.file.fd 0 seekCur
  let file := { s.file with offset := offset, lastReadStart := start }
  if file.offset ≤ file.bufsiz ∧ file.bufsiz ≤ file.readBuf.length then
    match calls.read world file.fd (file.bufsiz - file.offset) with
    | (.error e, world) => some (false, { file := file, errno := e, world := world })
    | (.ok bytes, world) =>
        some (true, { s with
          file := { file with
            readBuf := file.readBuf.take offset ++ bytes ++ file.readBuf.drop (offset + bytes.length)
            readFrom := offset
            available := bytes.length
            offset := offset + bytes.length }
          world := world })
  else none

/-- The stream behind the first test of `available` in `_read_bytes`; `false` says that `read` failed. -/
def ready (s : Stream World) : Option (Bool × Stream World) :=
  if s.file.available = 0 then refill calls s else some (true, s)

/-- The inner loop of `_read_bytes`: the bytes that it copies, how many are still wanted, and the stream. -/
def copyBuffered (file : File) : Nat → Option (List (BitVec 8) × Nat × File)
  | 0 => some ([], 0, file)
  | len + 1 =>
      if file.readFrom < file.offset ∧ 0 < file.available then
        match file.readBuf[file.readFrom]? with
        | none => none
        | some c =>
            (copyBuffered { file with
              readFrom := file.readFrom + 1
              available := file.available - 1 } len).map fun (bytes, left, file) =>
                (c :: bytes, left, file)
      else some ([], len + 1, file)

/-- The outer loop of `_read_bytes`: the bytes that it stores at `out`, and the stream. A round that
does not return stores a byte, or the loop never ends; so as many rounds as bytes are enough. -/
def readLoop : Nat → Stream World → Nat → Option (List (BitVec 8) × Stream World)
  | _, s, 0 => some ([], s)
  | 0, _, _ + 1 => none
  | rounds + 1, s, len + 1 =>
      if 0 ≤ s.file.ungetc then
        (readLoop rounds { s with file := { s.file with ungetc := -1 } } len).map fun (bytes, t) =>
          (BitVec.ofInt 8 s.file.ungetc :: bytes, t)
      else do
        let (read, s) ← ready calls s
        if read = false then some ([], s)
        else if s.file.available = 0 then some ([], { s with file := { s.file with eof := true } })
        else
          let (bytes, left, file) ← copyBuffered s.file (len + 1)
          (readLoop rounds { s with file := file } left).map fun (more, s) => (bytes ++ more, s)

/-- `_read_bytes`: what it stores at `out`, as many bytes as it returns, and the stream. -/
def readBytes (s : Stream World) (len : Nat) : Option (List (BitVec 8) × Stream World) :=
  readLoop calls len s len

/-- The loop of `fread`, with what it stores behind `ptr`; `left` is the number of items that are left. -/
def freadLoop (size nmemb : Nat) : Nat → Stream World → Option (Nat × List (BitVec 8) × Stream World)
  | 0, s => some (nmemb, [], s)
  | left + 1, s => do
      let (bytes, s) ← readBytes calls s size
      let r := int bytes.length
      if r < 0 then some (sizeMax, bytes, s)
      else if r < int size then some (nmemb - (left + 1), bytes, s)
      else (freadLoop size nmemb left s).map fun (ret, more, s) => (ret, bytes ++ more, s)

/-- `fread`: what it returns, what it stores behind `ptr`, and the stream. -/
def fread (size nmemb : Nat) (s : Stream World) : Option (Nat × List (BitVec 8) × Stream World) :=
  freadLoop calls size nmemb nmemb s

/-- `fgetc`; without a byte from `fread` the variable `c` would be read before it is set. -/
def fgetc (s : Stream World) : Option (Int × Stream World) := do
  let (r, stored, s) ← fread calls 1 1 s
  if int r ≤ 0 then some (eof, { s with file := { s.file with eof := true } })
  else
    let c ← stored.head?
    some (c.toNat, s)

/-- The loop of `fgets`: whether it returns `out` and not `NULL`, what is stored at `out`, and the
stream. The number of rounds is the number of decrements after which `size` is 0; `text` are the
characters so far. -/
def fgetsLoop : Nat → List (BitVec 8) → Stream World → Option (Bool × List (BitVec 8) × Stream World)
  | 0, text, s => some (true, text, s)
  | rounds + 1, text, s => do
      let (c, s) ← fgetc calls s
      if 0 < c then
        let text := text ++ [BitVec.ofInt 8 c]
        if rounds = 0 then some (true, text, s)
        else if c = newline.toInt then some (true, text ++ [nul], s)
        else fgetsLoop rounds text s
      else
        let stored := if text = [] then [] else text ++ [nul]
        if c = eof then some (decide (text ≠ []), stored, { s with file := { s.file with eof := true } })
        else some (false, stored, s)

/-- `fgets`; a `size` that is not positive wraps around on its way to 0. -/
def fgets (size : BitVec 32) (s : Stream World) : Option (Bool × List (BitVec 8) × Stream World) :=
  fgetsLoop calls (if size = 0 then 2 ^ 32 else size.toNat) [] s

/-- `ungetc`. -/
def ungetc (c : Int) (s : Stream World) : Int × Stream World :=
  if 0 < s.file.ungetc then (eof, s) else (c, { s with file := { s.file with ungetc := c } })

/-! ## Positions -/

/-- `fseek`. -/
def fseek (offset : BitVec 64) (whence : Nat) (s : Stream World) : Int × Stream World :=
  let (offset, whence) :=
    if s.file.readFrom ≠ 0 ∧ whence = seekCur then
      (offset + BitVec.ofNat 64 s.file.readFrom + s.file.lastReadStart, seekSet)
    else (offset, whence)
  let s := if s.file.written ≠ 0 then (fflush calls s).2 else s
  let file := { s.file with offset := 0, readFrom := 0, available := 0, ungetc := -1, eof := false }
  let (position, world) := calls.seek s.world file.fd offset whence
  let out := (position.setWidth 32).toInt
  if out < 0 then (-1, { file := file, errno := -out, world := world })
  else (0, { s with file := file, world := world })

/-- `ftell`. -/
def ftell (s : Stream World) : BitVec 64 × Stream World :=
  let s := if s.file.written ≠ 0 then (fflush calls s).2 else s
  if s.file.readFrom ≠ 0 ∨ s.file.lastReadStart ≠ 0 then
    (s.file.lastReadStart + BitVec.ofNat 64 s.file.readFrom, s)
  else
    let file := { s.file with offset := 0, readFrom := 0, available := 0, ungetc := -1, eof := false }
    let (out, world) := calls.seek s.world file.fd 0 seekCur
    if out.toInt < 0 then (-1, { file := file, errno := (-out).toInt, world := world })
    else (out, { s with file := file, world := world })

/-- `fgetpos`, with what it stores behind `pos`. -/
def fgetpos (s : Stream World) : Int × Option (BitVec 64) × Stream World :=
  let (out, s) := ftell calls s
  if out = -1 then (-1, none, s) else (0, some out, s)

/-- `fsetpos`. -/
def fsetpos (pos : BitVec 64) (s : Stream World) : Int × Stream World := fseek calls pos seekSet s

/-- `rewind`. -/
def rewind (s : Stream World) : Stream World := (fseek calls 0 seekSet s).2

/-! ## The state of a stream -/

/-- `feof`. -/
def feof (s : Stream World) : Int := if s.file.eof then 1 else 0

/-- `ferror`. -/
def ferror (_ : Stream World) : Int := 0

/-- `clearerr`. -/
def clearerr (s : Stream World) : Stream World := { s with file := { s.file with eof := false } }

/-- `fileno`. -/
def fileno (s : Stream World) : Int := s.file.fd

/-- `_IOLBF`. -/
def ioLbf : Int := 1

/-- `setvbuf`; `buf` is the memory behind the pointer. A `size` that is a negative `int` has no result: the
next `read` would get a count that wraps around. -/
def setvbuf (buf : Option (List (BitVec 8))) (mode : Int) (size : Nat) (s : Stream World) :
    Option (Int × Stream World) :=
  if mode ≠ ioLbf then some (-1, s)
  else
    match buf with
    | none => some (0, s)
    | some buf =>
        if int size < 0 then none
        else some (0, { s with file := { s.file with readBuf := buf, bufsiz := (int size).toNat } })

/-! ## Opening -/

/-- `O_WRONLY`. -/
def oWronly : BitVec 32 := 0x0001

/-- `O_RDWR`. -/
def oRdwr : BitVec 32 := 0x0002

/-- `O_APPEND`. -/
def oAppend : BitVec 32 := 0x0008

/-- `O_CREAT`. -/
def oCreat : BitVec 32 := 0x0200

/-- `O_TRUNC`. -/
def oTrunc : BitVec 32 := 0x0400

/-- One character in the loop of `fopen` and `freopen` over the flags and the mask. -/
def openChar (request : BitVec 32 × BitVec 32) (c : BitVec 8) : BitVec 32 × BitVec 32 :=
  let (flags, mask) := request
  if c = 0x61 then (flags ||| oWronly ||| oAppend ||| oCreat, mask)
  else if c = 0x77 then (flags ||| oWronly ||| oCreat ||| oTrunc, 0o666)
  else if c = 0x2B then ((flags ||| oRdwr) &&& ~~~oAppend, mask)
  else (flags, mask)

/-- The flags and the mask with which `fopen` and `freopen` open a path: their loop goes over `path`. -/
def openRequest (path : CString) : BitVec 32 × BitVec 32 := (cstringAt path 0).foldl openChar (0, 0o644)

/-- The system calls, with `syscall_open`. -/
structure OpenCalls (World : Type) extends SysCalls World where
  openPath : World → CString → BitVec 32 → BitVec 32 → Int × World

/-- `freopen`, up to the name and the list of open streams: whether it returns the stream and not `NULL`. -/
def freopen (calls : OpenCalls World) (path : Option CString) (s : Stream World) : Bool × Stream World :=
  match path with
  | none => (true, s)
  | some path =>
      let (_, s) := fflush calls.toSysCalls s
      let (_, world) := calls.close s.world s.file.fd
      let (flags, mask) := openRequest path
      let (fd, world) := calls.openPath world (cstringAt path 0) flags mask
      let file := { s.file with
        fd := fd, available := 0, readFrom := 0, offset := 0, ungetc := -1, eof := false, written := 0 }
      if fd < 0 then (false, { file := file, errno := -fd, world := world })
      else (true, { s with file := file, world := world })

end Voxel.Libc
