/-
Module: Voxel.Libc.Malloc
Layer: Libc
Purpose: The allocator of `libc/malloc.c`: a header with the size in front of every block, whole pages from
  `sbrk`, and no reuse. `sbrk` gives the bytes behind the old break, with arbitrary contents. An access to
  memory that is not mapped has no result.
Trusted boundary: human-reviewed spec
Main exports: ProcessHeap, ProcessHeap.Maps, syscallSbrk, requestSize, malloc, calloc, realloc, free
-/
import Voxel.Lib.ByteMemory

namespace Voxel.Libc

open Voxel.Lib

/-- The heap of a process: the addresses from its start to the break, which is one of 64 bits or their end. -/
structure ProcessHeap where
  start : Nat
  brk : Nat
  mem : ByteMemory

/-- The `n` bytes from an address on are mapped. -/
def ProcessHeap.Maps (h : ProcessHeap) (address : BitVec 64) (n : Nat) : Prop :=
  n = 0 ∨ (h.start ≤ address.toNat ∧ address.toNat + n ≤ h.brk)

instance (h : ProcessHeap) (address : BitVec 64) (n : Nat) : Decidable (h.Maps address n) :=
  inferInstanceAs (Decidable (_ ∨ _))

/-- `syscall_sbrk`: the old break, with `size` fresh bytes behind it. -/
def syscallSbrk (fresh : ByteMemory) (h : ProcessHeap) (size : BitVec 64) : BitVec 64 × ProcessHeap :=
  (BitVec.ofNat 64 h.brk,
    { h with
      brk := h.brk + size.toNat
      mem := fun a => if h.brk ≤ a.toNat ∧ a.toNat < h.brk + size.toNat then fresh a else h.mem a })

/-- The size that `malloc` asks for: with the header, and rounded up to whole pages. -/
def requestSize (size : BitVec 64) : BitVec 64 :=
  let size := size + 8
  if size % 0x1000 ≠ 0 then size - size % 0x1000 + 0x1000 else size

/-- `malloc`. -/
def malloc (fresh : ByteMemory) (h : ProcessHeap) (size : BitVec 64) : Option (BitVec 64 × ProcessHeap) :=
  let (ptr, h) := syscallSbrk fresh h (requestSize size)
  if h.Maps ptr 8 then some (ptr + 8, { h with mem := h.mem.store ptr 8 size }) else none

/-- `memset(ptr, 0, n)`. -/
def memsetZero (h : ProcessHeap) (ptr n : BitVec 64) : Option ProcessHeap :=
  if h.Maps ptr n.toNat then
    some { h with mem := fun a => if (a - ptr).toNat < n.toNat then 0 else h.mem a }
  else none

/-- `calloc`. -/
def calloc (fresh : ByteMemory) (h : ProcessHeap) (size nmemb : BitVec 64) :
    Option (BitVec 64 × ProcessHeap) :=
  match malloc fresh h (size * nmemb) with
  | none => none
  | some (ptr, h) =>
      if ptr = 0 then some (0, h)
      else (memsetZero h ptr (size * nmemb)).map fun h => (ptr, h)

/-- `memcpy(dest, src, n)`. -/
def memcpy (h : ProcessHeap) (dest src n : BitVec 64) : Option ProcessHeap :=
  if h.Maps src n.toNat ∧ h.Maps dest n.toNat then
    some { h with
      mem := fun a => if (a - dest).toNat < n.toNat then h.mem (src + (a - dest)) else h.mem a }
  else none

/-- `free`. -/
def free (h : ProcessHeap) (_ptr : BitVec 64) : ProcessHeap := h

/-- `realloc`. -/
def realloc (fresh : ByteMemory) (h : ProcessHeap) (ptr size : BitVec 64) :
    Option (BitVec 64 × ProcessHeap) :=
  if ptr = 0 then some (0, h)
  else if size = 0 then some (0, free h ptr)
  else if h.Maps (ptr - 8) 8 then
    let oldsize := h.mem.load (ptr - 8) 8
    match malloc fresh h size with
    | none => none
    | some (newptr, h) =>
        (memcpy h newptr ptr (if oldsize < size then oldsize else size)).map fun h => (newptr, free h ptr)
  else none

end Voxel.Libc
