/-
Module: Voxel.Libc.PrintfText
Layer: Libc
Purpose: The text of the conversions of `_printf` of `libc/stdio.c`, and the calls that put it into a
  buffer. The callback has no influence on `_printf`, so that a run is the characters that it hands
  over, in order, with the count that it keeps. The conversions of doubles have no text here.
Trusted boundary: human-reviewed spec
Main exports: Output, printDec, printHex, printString, directiveOutput, printf, vsnprintf, vsprintf
-/
import Voxel.Lib.Loop
import Voxel.Lib.TracedMemory
import Voxel.Libc.Printf

namespace Voxel.Libc

open Voxel.Lib

/-- The characters that the callback was called with, and the count that the function keeps. -/
structure Output where
  emitted : List (BitVec 8)
  written : BitVec 64
  deriving DecidableEq, Repr

namespace Output

/-- Nothing yet. -/
def start : Output := { emitted := [], written := 0 }

/-- `cb(user, c); ++written;`. -/
def put (o : Output) (c : BitVec 8) : Output := { emitted := o.emitted ++ [c], written := o.written + 1 }

/-- `written +=` the result of a function that was given the callback. -/
def append (o called : Output) : Output :=
  { emitted := o.emitted ++ called.emitted, written := o.written + called.written }

/-- `while (i < limit)` around a call of the callback, with a counter that goes up. -/
def padTo (o : Output) (c : BitVec 8) (i limit : Nat) : Output :=
  foldRange (fun _ o => o.put c) i (limit - i) o

/-- `while (i > limit)` around a call of the callback, with a counter that goes down. -/
def padDownTo (o : Output) (c : BitVec 8) (i limit : Int) : Output :=
  foldRange (fun _ o => o.put c) 0 (i - limit).toNat o

/-- The loop over the characters of an array. -/
def putAll (o : Output) (t : List (BitVec 8)) : Output := t.foldl put o

end Output

/-! ## Numbers -/

/-- The loop of `_print_dec` that counts the digits of a number. A number of 64 bits has 20 at most. -/
def decWidthLoop : Nat → BitVec 64 → Nat → Nat
  | 0, _, nwidth => nwidth
  | fuel + 1, val, nwidth => if 10 ≤ val then decWidthLoop fuel (val / 10) (nwidth + 1) else nwidth

/-- The digits that `_print_dec` prints. -/
def decWidth (value : BitVec 64) (precision : BitVec 32) : Nat :=
  let precision := if precision = -1 then 1 else precision
  let nwidth := if value = 0 then 0 else decWidthLoop 20 value 1
  if nwidth < (precision.signExtend 64).toNat then (precision.signExtend 64).toNat else nwidth

/-- The loop of `_print_dec` that fills `t` from behind; `t` is what it has filled. -/
def fillDigits (digit : BitVec 64 → BitVec 8) : Nat → BitVec 64 → List (BitVec 8) → List (BitVec 8)
  | 0, _, t => t
  | i + 1, value, t => fillDigits digit i (value / 10) (digit (value % 10) :: t)

/-- `_print_dec`. `t` has 100 bytes, and a width from 2^31 on can run the counter `printed` over. -/
def printDec (value : BitVec 64) (width : BitVec 32) (fzero align : Bool) (precision : BitVec 32) :
    Option Output :=
  let nwidth := decWidth value precision
  let pad := if fzero then chr '0' else chr ' '
  if 100 < nwidth ∨ 2 ^ 31 ≤ width.toNat then none
  else if align then
    -- `t[i - 1] = r = '0'`: the remainder is overwritten.
    some ((Output.start.padTo pad nwidth width.toNat).putAll
      (fillDigits (fun _ => chr '0') nwidth value []))
  else
    some ((Output.start.putAll (fillDigits (fun r => r.setWidth 8 + chr '0') nwidth value [])).padTo
      pad nwidth width.toNat)

/-- The loop of `_print_hex` that counts the digits of a number. `j` is `UINT64_MAX` at the latest after
15 steps. -/
def hexWidthLoop (value : BitVec 64) : Nat → BitVec 64 → Nat → Nat
  | 0, _, nwidth => nwidth
  | fuel + 1, j, nwidth =>
      if j < value ∧ j < -1 then hexWidthLoop value fuel (j * 0x10 + 0x0F) (nwidth + 1) else nwidth

/-- The digits that `_print_hex` prints. -/
def hexWidth (value : BitVec 64) : Nat := hexWidthLoop value 16 0x0F 1

/-- A character of the table of digits. -/
def hexChar (caps : Bool) (n : Nat) : BitVec 8 :=
  ((if caps then "0123456789ABCDEF" else "0123456789abcdef").toList.map chr).getD n nul

/-- The loop of `_print_hex` over the digits. -/
def hexDigits (caps : Bool) (value : BitVec 64) : Nat → Output → Output
  | 0, o => o
  | i + 1, o => hexDigits caps value i (o.put (hexChar caps ((value >>> (i * 4)) &&& 0x0F).toNat))

/-- `_print_hex`. -/
def printHex (value : BitVec 64) (width : BitVec 32) (fzero alt caps align : Bool) : Output :=
  let used : Int := hexWidth value + 2 * alt.toNat
  -- Only one of the three padding loops runs, so that `i` is the width in each of them.
  let o := if !fzero && align then Output.start.padDownTo (chr ' ') width.toInt used else .start
  let o := if alt then (o.put (chr '0')).put (if caps then chr 'X' else chr 'x') else o
  let o := if fzero && align then o.padDownTo (chr '0') width.toInt used else o
  let o := hexDigits caps value (hexWidth value) o
  if !align then o.padDownTo (chr ' ') width.toInt used else o

/-! ## Strings -/

/-- The loops of `%s`, with the precision that is left and without one. -/
def stringLoop (argw : Nat) : CString → Option Nat → Nat → Output → Nat × Output
  | [], _, count, o => (count, o)
  | c :: s, precision, count, o =>
      if precision = some 0 then (count, o)
      else if argw ≠ 0 ∧ count + 1 = argw then (count + 1, o.put c)
      else stringLoop argw s (precision.map (· - 1)) (count + 1) (o.put c)

/-- The string at a pointer. -/
def stringAt (strings : BitVec 64 → CString) (s : BitVec 64) : CString :=
  if s = 0 then "(null)".toList.map chr else strings s

/-- The precision, if it is not negative. -/
def Directive.limit (d : Directive) : Option Nat := if d.precision.msb then none else some d.precision.toNat

/-- The case of `s`. -/
def printString (d : Directive) (s : CString) : Output :=
  let (count, o) := stringLoop d.argw.toNat s d.limit 0 .start
  o.padTo (chr ' ') count d.argw.toNat

/-! ## Directives -/

/-- The argument of `x` and `u`. -/
def unsignedArgument (big : Nat) (word : BitVec 64) : BitVec 64 :=
  if big = 0 then (word.setWidth 32).setWidth 64 else word

/-- The argument of `d`. -/
def signedArgument (big : Nat) (word : BitVec 64) : BitVec 64 :=
  if big = 0 then (word.setWidth 32).signExtend 64 else word

/-- The sign that `d` prints. -/
def signText (asign : Nat) (v : BitVec 64) : List (BitVec 8) :=
  if v.msb then [chr '-']
  else if asign ≠ 0 then [if asign = 2 then chr ' ' else chr '+']
  else []

/-- The case of `d`. `-v` is taken without a look at its overflow. -/
def printSigned (d : Directive) (v : BitVec 64) : Option Output :=
  (printDec (if v.msb then -v else v) d.argw d.fzero d.align d.precision).map
    (Output.start.putAll (signText d.asign v)).append

/-- The conversions of doubles. -/
def isDoubleConversion (c : BitVec 8) : Bool := [chr 'G', chr 'F', chr 'g', chr 'f'].contains c

/-- The `switch` over a conversion. `strings` has the characters up to the terminator for every pointer. A
conversion that takes no argument does not look at it. -/
def directiveOutput (strings : BitVec 64 → CString) (d : Directive) (conversion : BitVec 8)
    (word : BitVec 64) :
    Option Output :=
  if conversion = chr 's' then some (printString d (stringAt strings word))
  else if conversion = chr 'c' then some (Output.start.put (word.setWidth 8))
  else if conversion = chr 'p' then
    some (printHex (unsignedArgument 2 word) d.argw d.fzero true false d.align)
  else if conversion = chr 'X' ∨ conversion = chr 'x' then
    some (printHex (unsignedArgument d.big word) d.argw d.fzero d.alt (conversion &&& 32 == 0) d.align)
  else if conversion = chr 'i' ∨ conversion = chr 'd' then printSigned d (signedArgument d.big word)
  else if conversion = chr 'u' then
    printDec (unsignedArgument d.big word) d.argw d.fzero d.align d.precision
  else if isDoubleConversion conversion then none
  -- `%` and every letter that is no conversion.
  else some (Output.start.put conversion)

/-- One turn of the loop of `_printf`. -/
def emitItem (strings : BitVec 64 → CString) (o : Output) : Item → Option Output
  | .char c => some (o.put c)
  | .directive d conversion argument =>
      (directiveOutput strings d conversion (argument.getD 0)).map o.append

/-- `_printf`. -/
def printf (strings : BitVec 64 → CString) (fmt : CString) (args : VaList) : Option Output :=
  (printfItems fmt args).bind fun items => items.foldlM (emitItem strings) .start

/-! ## Buffers -/

/-- `struct _printf_cb`. -/
structure PrintfCb where
  str : BitVec 64
  size : BitVec 64
  written : BitVec 64

/-- `_cb_u_sprintf`. -/
def cbUSprintf (state : PrintfCb × TracedMemory) (c : BitVec 8) : PrintfCb × TracedMemory :=
  let (data, m) := state
  ({ data with written := data.written + 1 }, m.put (data.str + data.written) c)

/-- `_cb_sprintf`. -/
def cbSprintf (state : PrintfCb × TracedMemory) (c : BitVec 8) : PrintfCb × TracedMemory :=
  let (data, m) := state
  if data.size > data.written + 1 then
    let m := m.put (data.str + data.written) c
    let data := { data with written := data.written + 1 }
    if data.written < data.size then (data, m.put (data.str + data.written) 0) else (data, m)
  else (data, m)

/-- `vsnprintf`. The strings and the format lie outside of the buffer. -/
def vsnprintf (strings : BitVec 64 → CString) (str size : BitVec 64) (fmt : CString) (args : VaList)
    (m : TracedMemory) : Option (BitVec 32 × TracedMemory) :=
  (printf strings fmt args).map fun o =>
    (o.written.setWidth 32, (cbSprintf (o.emitted.foldl cbSprintf (⟨str, size, 0⟩, m)) 0).2)

/-- `vsprintf`. -/
def vsprintf (strings : BitVec 64 → CString) (str : BitVec 64) (fmt : CString) (args : VaList)
    (m : TracedMemory) : Option (BitVec 32 × TracedMemory) :=
  (printf strings fmt args).map fun o =>
    (o.written.setWidth 32, (cbUSprintf (o.emitted.foldl cbUSprintf (⟨str, 0, 0⟩, m)) 0).2)

end Voxel.Libc
