/-
Module: Voxel.Kernel.IntStr
Layer: Kernel
Purpose: `__int_str` of `kernel/lib/kprintf.c` on its arrays: `digit` of 32 bytes, the caller's buffer and the
  buffer `a` of 256 bytes. `none` is an access outside of one of them. Sums and products of the source that
  overflow a signed type wrap around.
Trusted boundary: human-reviewed spec
Main exports: intStrTable, countDigits, storeDigits, paddingCount, padField, intStr, intStrBuffer
-/
import Voxel.Kernel.Dirent
import Voxel.Lib.Format

namespace Voxel.Kernel

open Voxel.Lib

/-- `strlen` of an array; `none` if it has no terminator. -/
def strlenField (field : List (BitVec 8)) : Option Nat := field.idxOf? nul

/-- `digit`, and the base that the number is written in. -/
def intStrTable (base : Nat) : List (BitVec 8) × Nat :=
  let field := fun text : String => text.toList.map chr ++ List.replicate (32 - text.length) nul
  if base = 16 then (field "0123456789ABCDEF", 16)
  else if base = 17 then (field "0123456789abcdef", 16)
  else (field "0123456789", base)

/-- The sign that `__int_str` puts in front of a number. -/
def intStrSign (i : BitVec 64) (plusSign spaceSign : Bool) : List (BitVec 8) :=
  if i.slt 0 then [chr '-']
  else if plusSign then [chr '+']
  else if spaceSign then [chr ' ']
  else []

/-- The loop that moves `p` behind the digits; a number has fewer than 64 of them. -/
def countDigits (base : Nat) : Nat → BitVec 64 → Nat → Nat
  | 0, _, p => p
  | rounds + 1, shifter, p =>
      let shifter := shifter.sdiv (BitVec.ofNat 64 base)
      if shifter = 0 then p + 1 else countDigits base rounds shifter (p + 1)

/-- `digit[i % base]`; a negative number has a negative remainder. -/
def digitOf (digit : List (BitVec 8)) (base : Nat) (i : BitVec 64) : Option (BitVec 8) :=
  let remainder := i.srem (BitVec.ofNat 64 base)
  if remainder.slt 0 then none else digit[remainder.toNat]?

/-- The loop that stores the digits from behind. -/
def storeDigits (digit : List (BitVec 8)) (base : Nat) :
    Nat → Nat → BitVec 64 → List (BitVec 8) → Option (List (BitVec 8))
  | 0, _, _, _ => none
  | rounds + 1, p, i, b =>
      (digitOf digit base i).bind fun c =>
        (storeField b (p - 1) c).bind fun b =>
          let i := i.sdiv (BitVec.ofNat 64 base)
          if i = 0 then some b else storeDigits digit base rounds (p - 1) i b

/-- `padding`. -/
def paddingCount (paddingNo : BitVec 32) (length : Nat) : Nat :=
  let padding := paddingNo - BitVec.ofNat 32 length
  if padding.slt 0 then 0 else padding.toNat

/-- `while (padding--) field[strlen(field)] = c;`. -/
def padField (c : BitVec 8) : Nat → List (BitVec 8) → Option (List (BitVec 8))
  | 0, field => some field
  | padding + 1, field =>
      (strlenField field).bind fun length => (storeField field length c).bind (padField c padding)

/-- `sizeof(a)`, and the size of `int_str_buffer` of `kvprintf`. -/
def intStrBufferSize : Nat := 256

/-- `strcat` of the string in an array to the string in another one. -/
def strcatField (dst src : List (BitVec 8)) : Option (List (BitVec 8)) :=
  (strlenField dst).bind fun length =>
    (strlenField src).bind fun _ => strcpyFrom dst length (cstringAt src 0)

/-- `__int_str`: the buffer of the caller afterwards. -/
def intStr (i : BitVec 64) (b : List (BitVec 8)) (base : Nat) (plusSign spaceSign : Bool)
    (paddingNo : BitVec 32) (justify zeroPad : Bool) : Option (List (BitVec 8)) := do
  let (digit, base) := intStrTable base
  let sign := intStrSign i plusSign spaceSign
  -- the sign is one store at the start of the buffer
  let b ← sign.foldlM (fun b c => storeField b 0 c) b
  let i := if i.slt 0 then i * -1 else i
  let p := countDigits base 64 i sign.length
  let b ← storeField b p nul
  let b ← storeDigits digit base 64 p i b
  let length ← strlenField b
  let padding := paddingCount paddingNo length
  let c := if zeroPad then chr '0' else chr ' '
  if justify then padField c padding b
  else
    let a ← padField c padding (List.replicate intStrBufferSize nul)
    let a ← strcatField a b
    strcpyFrom b 0 (cstringAt a 0)

/-- A call of `kvprintf`, on `int_str_buffer` after its `memset`. -/
def intStrBuffer (i : BitVec 64) (base : Nat) (plusSign spaceSign : Bool) (paddingNo : BitVec 32)
    (justify zeroPad : Bool) : Option (List (BitVec 8)) :=
  intStr i (List.replicate intStrBufferSize nul) base plusSign spaceSign paddingNo justify zeroPad

end Voxel.Kernel
