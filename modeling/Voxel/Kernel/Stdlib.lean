/-
Module: Voxel.Kernel.Stdlib
Layer: Kernel
Purpose: `itoa` of `kernel/lib/stdlib.c` on the buffer of its caller, in every radix, with `memrev` and
  `strrev`. `none` is an access outside of the buffer or of the table of digits.
Trusted boundary: human-reviewed spec
Main exports: Stdlib.memrev, Stdlib.strrev, Stdlib.itoaDigits, Stdlib.itoa
-/
import Voxel.Kernel.IntStr
import Voxel.Kernel.Terminals

namespace Voxel.Kernel.Stdlib

open Voxel.Lib

/-- One round of `memrev`: two bytes change their places. -/
def memrevSwap (n : Nat) (buf : List (BitVec 8)) (i : Nat) : Option (List (BitVec 8)) := do
  let x ← buf[i]?
  let y ← buf[n - i - 1]?
  let buf ← storeField buf i y
  storeField buf (n - i - 1) x

/-- `memrev`. -/
def memrev (buf : List (BitVec 8)) (n : Nat) : Option (List (BitVec 8)) :=
  (List.range (n / 2)).foldlM (memrevSwap n) buf

/-- `strrev`. -/
def strrev (s : List (BitVec 8)) : Option (List (BitVec 8)) := (strlenField s).bind (memrev s)

/-- The loop of `itoa`, with the place behind the last digit. A number has at most 64 digits. -/
def itoaDigits (radix : Nat) : Nat → Nat → BitVec 64 → List (BitVec 8) → Option (List (BitVec 8) × Nat)
  | 0, _, _, _ => none
  | rounds + 1, p, target, buf =>
      (digitOf atoiAlphabet radix target).bind fun c =>
        (storeField buf p c).bind fun buf =>
          let target := target.sdiv (BitVec.ofNat 64 radix)
          if target = 0 then some (buf, p + 1) else itoaDigits radix rounds (p + 1) target buf

/-- `itoa`: the buffer afterwards and the place that the result points to; `none` is the null pointer. -/
def itoa (target : BitVec 64) (buf : List (BitVec 8)) (radix : BitVec 32) :
    Option (List (BitVec 8) × Option Nat) :=
  if radix < 2 ∨ 36 < radix then some (buf, none)
  else do
    let sign := target.slt 0
    let target := if sign then -target else target
    let (buf, p) ← itoaDigits radix.toNat 64 0 target buf
    let buf ← if sign then storeField buf p (chr '-') else some buf
    let p := if sign then p + 1 else p
    let buf ← storeField buf p nul
    let buf ← strrev buf
    return (buf, some p)

end Voxel.Kernel.Stdlib
