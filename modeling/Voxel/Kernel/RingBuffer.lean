/-
Module: Voxel.Kernel.RingBuffer
Layer: Kernel
Purpose: The ring buffer of `kernel/lib/ringbuffer.c`: an array of bytes behind a header, an index for the
  next read and one for the next write. A copy that leaves the array or the caller's buffer has no
  result.
Trusted boundary: human-reviewed spec
Main exports: RingBuffer, ringbufferAlloc, ringbufferAvail, ringbufferReadable, ringbufferWrite,
  ringbufferRead, RingOp, RingOp.call, ringRun
-/
import Mathlib.Data.List.Basic
import Voxel.Kernel.Alloc

namespace Voxel.Kernel

/-- `memcpy` of `n` elements between two arrays; `none` if it leaves one of them. -/
def memcpy {α : Type} (dest : List α) (destOffset : Nat) (src : List α) (srcOffset n : Nat) :
    Option (List α) :=
  if destOffset + n ≤ dest.length ∧ srcOffset + n ≤ src.length then
    some (dest.take destOffset ++ (src.drop srcOffset).take n ++ dest.drop (destOffset + n))
  else none

/-- `ringbuffer_t`. -/
structure RingBuffer where
  buffer : List (BitVec 8)
  ridx : BitVec 64
  widx : BitVec 64
  size : BitVec 64
  deriving Repr, DecidableEq

/-- `sizeof(ringbuffer_t)`. -/
def ringbufferHeader : Nat := 32

/-- `ringbuffer_alloc`: the array lies behind the header in one block of the heap, with whatever bytes the
block has. There is no array if there is no block. -/
def ringbufferAlloc (m : FrameMap) (junk : Nat → BitVec 8) (s : BitVec 64) :
    Option (RingBuffer × FrameMap) :=
  (malloc m (s.toNat + ringbufferHeader)).map fun block =>
    ({ buffer := (List.range s.toNat).map junk, size := s, ridx := 0, widx := 0 }, block.2)

/-- `ringbuffer_avail`. -/
def ringbufferAvail (buf : RingBuffer) : BitVec 64 :=
  if buf.ridx = buf.widx then buf.size - 1
  else if buf.widx < buf.ridx then buf.ridx - buf.widx - 1
  else (buf.size - buf.widx) + buf.ridx - 1

/-- `ringbuffer_readable`. -/
def ringbufferReadable (buf : RingBuffer) : BitVec 64 :=
  if buf.ridx = buf.widx then 0
  else if buf.widx < buf.ridx then (buf.size - buf.ridx) + buf.widx
  else buf.widx - buf.ridx

/-- `ringbuffer_write`, with the bytes of the caller's buffer. -/
def ringbufferWrite (buf : RingBuffer) (size : BitVec 64) (buffer : List (BitVec 8)) :
    Option (BitVec 64 × RingBuffer) := do
  let avail := ringbufferAvail buf
  let size := if avail < size then avail else size
  -- The first copy goes up to the end of the array; `copied` is how far it moves `buffer` on.
  let (array, widx, copied) ←
    if buf.size ≤ buf.widx + size then
      let writeToEnd := buf.size - buf.widx
      if writeToEnd ≠ 0 then
        (memcpy buf.buffer buf.widx.toNat buffer 0 writeToEnd.toNat).map fun array =>
          (array, (0 : BitVec 64), writeToEnd)
      else some (buf.buffer, 0, 0)
    else some (buf.buffer, buf.widx, 0)
  let toWrite := size - copied
  let array ← memcpy array widx.toNat buffer copied.toNat toWrite.toNat
  some (size, { buf with buffer := array, widx := widx + toWrite })

/-- `ringbuffer_read`, with what it leaves in the caller's buffer. -/
def ringbufferRead (buf : RingBuffer) (size : BitVec 64) (buffer : List (BitVec 8)) :
    Option ((BitVec 64 × List (BitVec 8)) × RingBuffer) := do
  let avail := ringbufferReadable buf
  let size := if avail < size then avail else size
  let (buffer, ridx, copied) ←
    if buf.size ≤ buf.ridx + size then
      let readToEnd := buf.size - buf.ridx
      if readToEnd ≠ 0 then
        (memcpy buffer 0 buf.buffer buf.ridx.toNat readToEnd.toNat).map fun buffer =>
          (buffer, (0 : BitVec 64), readToEnd)
      else some (buffer, 0, 0)
    else some (buffer, buf.ridx, 0)
  let toRead := size - copied
  let buffer ← memcpy buffer copied.toNat buf.buffer ridx.toNat toRead.toNat
  some ((size, buffer), { buf with ridx := ridx + toRead })

/-! ## Sequences of calls -/

/-- A call with the buffer of its caller, which has room for the bytes that the call names. -/
inductive RingOp
  | write (size : BitVec 64) (buffer : List (BitVec 8)) (room : size.toNat ≤ buffer.length)
  | read (size : BitVec 64) (buffer : List (BitVec 8)) (room : size.toNat ≤ buffer.length)

/-- One call: what it returns, what the caller's buffer holds then, and the ring buffer. -/
def RingOp.call (buf : RingBuffer) : RingOp → Option ((BitVec 64 × List (BitVec 8)) × RingBuffer)
  | .write size buffer _ => (ringbufferWrite buf size buffer).map fun r => ((r.1, buffer), r.2)
  | .read size buffer _ => ringbufferRead buf size buffer

/-- A sequence of calls: what each one leaves, and the ring buffer behind them. -/
def ringRun (buf : RingBuffer) : List RingOp → Option (List (BitVec 64 × List (BitVec 8)) × RingBuffer)
  | [] => some ([], buf)
  | op :: ops => do
      let (answer, buf) ← op.call buf
      let (answers, buf) ← ringRun buf ops
      some (answer :: answers, buf)

end Voxel.Kernel
