/-
Module: Voxel.Libc.Strtok
Layer: Libc
Purpose: `strtok_r` of `libc/string.c` with the scans that it calls, on the memory of its string, and the
  calls of a program that splits a string. What lies at a pointer is the list of bytes up to the end of
  the memory; an access behind it has no result.
Trusted boundary: human-reviewed spec
Main exports: strchr, strspn, strcspn, strpbrk, Strtok, terminateToken, strtokR,
  strtokCalls
-/
import Voxel.Lib.CString

namespace Voxel.Libc

open Voxel.Lib

/-- `strchr`: the offset of the character that the result points to; the inner `none` is the null
pointer. -/
def strchr (chr : BitVec 8) : List (BitVec 8) → Option (Option Nat)
  | [] => none
  | c :: str =>
      if c = chr then some (some 0)
      else if c = nul then some none
      else (strchr chr str).map fun found => found.map (· + 1)

/-- The inner loop of `strcspn` and of `strspn`: whether it comes to the character `c` or to the
terminator. -/
def strspnInner (c : BitVec 8) : List (BitVec 8) → Option Bool
  | [] => none
  | d :: str2 => if d = nul then some false else if c = d then some true else strspnInner c str2

/-- `strcspn`. -/
def strcspn : List (BitVec 8) → List (BitVec 8) → Option Nat
  | [], _ => none
  | c :: str1, str2 =>
      if c = nul then some 0
      else (strspnInner c str2).bind fun found =>
        if found then some 0 else (strcspn str1 str2).map (· + 1)

/-- `strpbrk`; the inner `none` is the null pointer. -/
def strpbrk (str1 str2 : List (BitVec 8)) : Option (Option Nat) := do
  let n ← strcspn str1 str2
  let c ← str1[n]?
  return if c = nul then none else some n

/-- The loop of `strspn` for a single delimiter, which does not ask for the terminator. -/
def strspnSingle (d : BitVec 8) : List (BitVec 8) → Option Nat
  | [] => none
  | c :: str1 => if c = d then (strspnSingle d str1).map (· + 1) else some 0

/-- The loop of `strspn` for other delimiters. -/
def strspnLoop : List (BitVec 8) → List (BitVec 8) → Option Nat
  | [], _ => none
  | c :: str1, str2 =>
      if c = nul then some 0
      else (strspnInner c str2).bind fun found =>
        if found then (strspnLoop str1 str2).map (· + 1) else some 0

/-- `strspn`. -/
def strspn (str1 str2 : List (BitVec 8)) : Option Nat := do
  let first ← str2[0]?
  if first = nul then return 0
  let second ← str2[1]?
  if second = nul then strspnSingle first str1 else strspnLoop str1 str2

/-- The memory of the string and the pointer `*out`, as an offset; `none` is the null pointer. -/
structure Strtok where
  buf : List (BitVec 8)
  out : Option Nat
  deriving Repr, DecidableEq

/-- The second half of `strtok_r`: the next delimiter becomes a terminator, and `*out` points behind it; or
there is none, and `*out` points to the end of the string. -/
def terminateToken (delim : List (BitVec 8)) (token : Nat) (t : Strtok) : Option Strtok := do
  match ← strpbrk (t.buf.drop token) delim with
  | none =>
      let end_ ← strchr 0 (t.buf.drop token)
      return { t with out := end_.map (token + ·) }
  | some n =>
      if t.buf.length ≤ token + n then none
      else return ⟨t.buf.set (token + n) nul, some (token + n + 1)⟩

/-- `strtok_r`: the token that it returns, and the memory and the pointer afterwards. -/
def strtokR (delim : List (BitVec 8)) (str : Option Nat) (t : Strtok) :
    Option (Option Nat × Strtok) := do
  let str ← str <|> t.out
  let skipped ← strspn (t.buf.drop str) delim
  let str := str + skipped
  let c ← t.buf[str]?
  if c = nul then return (none, { t with out := some str })
  let token := str
  let t ← terminateToken delim token t
  return (some token, t)

/-- `strtok_r(str, delim, &out)`, and then `strtok_r(NULL, delim, &out)` until it returns the null
pointer: the tokens, each with the memory when it was returned, and what there is in the end. -/
def strtokCalls (delim : List (BitVec 8)) :
    Nat → Option Nat → Strtok → Option (List (Nat × List (BitVec 8)) × Strtok)
  | 0, _, _ => none
  | fuel + 1, str, t =>
      (strtokR delim str t).bind fun (token, t) =>
        match token with
        | none => some ([], t)
        | some token =>
            (strtokCalls delim fuel none t).map fun (tokens, last) => ((token, t.buf) :: tokens, last)

end Voxel.Libc
