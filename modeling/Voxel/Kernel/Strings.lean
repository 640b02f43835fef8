/-
Module: Voxel.Kernel.Strings
Layer: Kernel
Purpose: `strstr` and `memmove` of `kernel/lib/string.c`, with the `memcpy` that it calls. `strstr` gets
  what lies at its two pointers, up to the end of the memory; an access behind it has no result.
  `libc/string.c` has the same text of both functions.
Trusted boundary: human-reviewed spec
Main exports: strstrInner, strstr, memcpyBytes, moveDown, moveUp, memmove, Libc.strstr, Libc.memmove
-/
import Voxel.Lib.CString
import Voxel.Lib.RangeCopy

namespace Voxel.Kernel

open Voxel.Lib

/-! ## `strstr` -/

/-- How the inner loop ends: at the end of `b`, with `return 0`, or with `result = 0; break;`. -/
inductive StrstrRound where
  | found | ended | differs
  deriving Repr, DecidableEq

/-- The inner loop, on what lies at `result + i` and at `b + i`. -/
def strstrInner : List (BitVec 8) → List (BitVec 8) → Option StrstrRound
  | _, [] => none
  | [], c :: _ => if c = nul then some .found else none
  | r :: result, c :: b =>
      if c = nul then some .found
      else if r = nul then some .ended
      else if r ≠ c then some .differs
      else strstrInner result b

/-- `strstr`, on what lies at `current`: the offset of the character that the result points to; the inner
`none` is the null pointer. -/
def strstr : List (BitVec 8) → List (BitVec 8) → Option (Option Nat)
  | [], b => if strstrInner [] b = some .found then some (some 0) else none
  | c :: current, b =>
      match strstrInner (c :: current) b with
      | none => none
      | some .found => some (some 0)
      | some .ended => some none
      | some .differs => (strstr current b).map fun found => found.map (· + 1)

/-! ## `memmove` -/

/-- `memcpy`: `rep movsb` copies upwards. -/
def memcpyBytes (m : ByteMemory) (dst src n : BitVec 64) : ByteMemory := copyUp m dst src n.toNat

/-- `for (intptr_t i = n - 1; i >= 0; i--)`, from `i` on: the comparison is signed. -/
def moveDown (dst src : BitVec 64) : Nat → BitVec 64 → ByteMemory → Option ByteMemory
  | 0, _, _ => none
  | fuel + 1, i, m =>
      if i.slt 0 then some m else moveDown dst src fuel (i - 1) (copyByte m (dst + i) (src + i))

/-- `for (intptr_t i = 0; i < n; i++)`, from `i` on: the comparison with a `size_t` is unsigned. -/
def moveUp (dst src n : BitVec 64) : Nat → BitVec 64 → ByteMemory → Option ByteMemory
  | 0, _, _ => none
  | fuel + 1, i, m =>
      if i < n then moveUp dst src n fuel (i + 1) (copyByte m (dst + i) (src + i)) else some m

/-- `memmove`: the memory and the pointer that it returns. -/
def memmove (fuel : Nat) (m : ByteMemory) (dst src n : BitVec 64) : Option (ByteMemory × BitVec 64) :=
  if src = dst ∨ n = 0 then some (m, dst)
  else if src < dst ∧ dst - src < n then (moveDown dst src fuel (n - 1) m).map fun m => (m, dst)
  else if dst < src ∧ src - dst < n then (moveUp dst src n fuel 0 m).map fun m => (m, dst)
  else some (memcpyBytes m dst src n, dst)

end Voxel.Kernel

namespace Voxel.Libc

/-- `strstr` of the libc. -/
abbrev strstr := Kernel.strstr

/-- `memmove` of the libc. -/
abbrev memmove := Kernel.memmove

end Voxel.Libc
