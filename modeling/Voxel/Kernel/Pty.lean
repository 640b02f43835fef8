/-
Module: Voxel.Kernel.Pty
Layer: Kernel
Purpose: The pseudo terminals of `kernel/sys/fs/dev/tty.c`: what is done with a byte on its way through one,
  and the callbacks that read and write both ends. `write_in` and `write_out` are the functions that
  `pty_new` stores, `pty_write_in` and `pty_write_out`. The window size, the process numbers and
  `canon_buf` are left out: nothing reads them.
Trusted boundary: human-reviewed spec
Main exports: Termios, Pty, ttyOutputProcessSlave, ttyInputProcess, writePtySlave, writePtyMaster,
  readPtySlave, readPtyMaster, ptyNew
-/
import Voxel.Kernel.RingBuffer

namespace Voxel.Kernel

/-! ## Settings -/

/-- `BRKINT`. -/
def brkint : BitVec 32 := 0o1

/-- `ICRNL`. -/
def icrnl : BitVec 32 := 0o2

/-- `IGNCR`. -/
def igncr : BitVec 32 := 0o10

/-- `INLCR`. -/
def inlcr : BitVec 32 := 0o40

/-- `ISTRIP`. -/
def istrip : BitVec 32 := 0o200

/-- `IUCLC`. -/
def iuclc : BitVec 32 := 0o400

/-- `OPOST`. -/
def opost : BitVec 32 := 0o1

/-- `OLCUC`. -/
def olcuc : BitVec 32 := 0o2

/-- `ONLCR`. -/
def onlcr : BitVec 32 := 0o4

/-- `ONLRET`. -/
def onlret : BitVec 32 := 0o40

/-- `ICANON`. -/
def icanon : BitVec 32 := 0o2

/-- `ECHO`. -/
def echo : BitVec 32 := 0o10

/-- `ECHO | ECHOE | ECHOK | ICANON | ISIG | IEXTEN`. -/
def defaultLflag : BitVec 32 := 0o10 ||| 0o20 ||| 0o40 ||| 0o2 ||| 0o1 ||| 0o1000

/-- `CREAD | CS8 | B38400`. -/
def defaultCflag : BitVec 32 := 0o200 ||| 0o60 ||| 0o17

/-- `VMIN`, an index into `cc`. -/
def vmin : Nat := 6

/-- `'\n'`. -/
def newline : BitVec 8 := 0x0A

/-- `'\r'`. -/
def carriageReturn : BitVec 8 := 0x0D

/-- `struct termios`; of `cc` only the element `VMIN` is read. -/
structure Termios where
  iflag : BitVec 32
  oflag : BitVec 32
  cflag : BitVec 32
  lflag : BitVec 32
  ccVmin : BitVec 8
  deriving Repr, DecidableEq

/-- `pty_t`: the number of the terminal, its settings, and the ring buffers `in` and `out`. -/
structure Pty where
  name : BitVec 64
  ios : Termios
  inBuffer : RingBuffer
  outBuffer : RingBuffer
  deriving Repr, DecidableEq

/-! ## Bytes on their way -/

/-- `pty_write_in`; what `ringbuffer_write` returns is dropped. -/
def ptyWriteIn (pty : Pty) (c : BitVec 8) : Option Pty :=
  (ringbufferWrite pty.inBuffer 1 [c]).map fun done => { pty with inBuffer := done.2 }

/-- `pty_write_out`. -/
def ptyWriteOut (pty : Pty) (c : BitVec 8) : Option Pty :=
  (ringbufferWrite pty.outBuffer 1 [c]).map fun done => { pty with outBuffer := done.2 }

/-- `tty_output_process_slave`. -/
def ttyOutputProcessSlave (pty : Pty) (c : BitVec 8) : Option Pty :=
  if pty.ios.oflag &&& opost = 0 then ptyWriteOut pty c
  else if c = newline ∧ pty.ios.oflag &&& onlcr ≠ 0 then
    (ptyWriteOut pty newline).bind fun pty => ptyWriteOut pty carriageReturn
  else if c = carriageReturn ∧ pty.ios.oflag &&& onlret ≠ 0 then some pty
  else
    let c := if pty.ios.oflag &&& olcuc ≠ 0 ∧ 0x61 ≤ c ∧ c ≤ 0x7A then c + 0x41 - 0x61 else c
    ptyWriteOut pty c

/-- `tty_output_process`. -/
def ttyOutputProcess (pty : Pty) (c : BitVec 8) : Option Pty := ttyOutputProcessSlave pty c

/-- `tty_input_process`. The test for `IGNCR` multiplies the flags where the others mask them. -/
def ttyInputProcess (pty : Pty) (c : BitVec 8) : Option Pty :=
  let c := if pty.ios.iflag &&& istrip ≠ 0 then c &&& 0x7F else c
  if pty.ios.iflag * igncr ≠ 0 ∧ c = carriageReturn then some pty
  else
    let c :=
      if pty.ios.iflag &&& inlcr ≠ 0 ∧ c = newline then carriageReturn
      else if pty.ios.iflag &&& icrnl ≠ 0 ∧ c = carriageReturn then newline
      else c
    let c := if pty.ios.iflag &&& iuclc ≠ 0 ∧ 0x41 ≤ c ∧ c ≤ 0x5A then c - 0x41 + 0x61 else c
    (if pty.ios.lflag &&& echo ≠ 0 then ttyOutputProcess pty c else some pty).bind fun pty =>
      ptyWriteIn pty c

/-- `for (ptr = buffer; processed < size; ++ptr, ++processed)`, over the bytes that are left. -/
def processBytes (process : Pty → BitVec 8 → Option Pty) :
    List (BitVec 8) → Nat → Pty → Option (Nat × Pty)
  | [], processed, pty => some (processed, pty)
  | c :: rest, processed, pty =>
      match process pty c with
      | none => none
      | some pty => processBytes process rest (processed + 1) pty

/-! ## The two ends -/

/-- `write_pty_master`, with the bytes of the caller's buffer. -/
def writePtyMaster (pty : Pty) (buffer : List (BitVec 8)) : Option (Nat × Pty) :=
  processBytes ttyInputProcess buffer 0 pty

/-- `write_pty_slave`. -/
def writePtySlave (pty : Pty) (buffer : List (BitVec 8)) : Option (Nat × Pty) :=
  processBytes ttyOutputProcessSlave buffer 0 pty

/-- `read_pty_master`, with what it leaves in the caller's buffer. -/
def readPtyMaster (pty : Pty) (size : BitVec 64) (buffer : List (BitVec 8)) :
    Option ((BitVec 64 × List (BitVec 8)) × Pty) :=
  (ringbufferRead pty.outBuffer size buffer).map fun done => (done.1, { pty with outBuffer := done.2 })

/-- `read_pty_slave`. The mode is looked up in `cflag`. -/
def readPtySlave (pty : Pty) (size : BitVec 64) (buffer : List (BitVec 8)) :
    Option ((BitVec 64 × List (BitVec 8)) × Pty) :=
  let asked :=
    if pty.ios.cflag &&& icanon ≠ 0 then size
    else if pty.ios.ccVmin = 0 then
      let readable := ringbufferReadable pty.inBuffer
      if size < readable then size else readable
    else if pty.ios.ccVmin.setWidth 64 < size then pty.ios.ccVmin.setWidth 64
    else size
  (ringbufferRead pty.inBuffer asked buffer).map fun done => (done.1, { pty with inBuffer := done.2 })

/-- The size of both ring buffers. -/
def ptyBufferSize : BitVec 64 := 4096

/-- `pty_new`, as far as the terminal itself goes: its two ring buffers and its settings. -/
def ptyNew (m : FrameMap) (junkIn junkOut : Nat → BitVec 8) (index : BitVec 32) : Option (Pty × FrameMap) :=
  (ringbufferAlloc m junkIn ptyBufferSize).bind fun input =>
    (ringbufferAlloc input.2 junkOut ptyBufferSize).map fun output =>
      ({ name := index.signExtend 64
         ios :=
          { iflag := icrnl ||| brkint
            oflag := onlcr ||| opost
            cflag := defaultCflag
            lflag := defaultLflag
            ccVmin := 1 }
         inBuffer := input.1
         outBuffer := output.1 }, output.2)

end Voxel.Kernel
