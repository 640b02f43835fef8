/-
Module: Voxel.Kernel.Kprintf
Layer: Kernel
Purpose: `kvprintf` of `kernel/lib/kprintf.c`: the characters and the directives that it finds in a format, in
  order, with the argument that each directive takes, and the text of the conversions, what it hands over to
  the terminal and the number of characters that it counts. A read behind the terminator of the format and an
  access outside of one of the buffers of a number have no result. What `%n` stores is left out.
Trusted boundary: human-reviewed spec
Main exports: FormatSpec, kScanDirective, KItem, kvprintfLoop, kvprintfItems, KOutput, kIntStr,
  kUnsignedArgument, kSignedArgument, kDirectiveOutput, kvprintf
-/
import Mathlib.Data.List.Basic
import Voxel.Kernel.IntStr
import Voxel.Lib.Format

namespace Voxel.Kernel

open Voxel.Lib

/-- The local variables of `kvprintf` for one directive. -/
structure FormatSpec where
  length : BitVec 8
  lengthSpec : BitVec 32
  precSpec : BitVec 32
  leftJustify : Bool
  zeroPad : Bool
  spaceNoSign : Bool
  altForm : Bool
  plusSign : Bool
  deriving DecidableEq, Repr

/-- Their values at the `%`. -/
def FormatSpec.start : FormatSpec where
  length := 0
  lengthSpec := 0
  precSpec := 0
  leftJustify := false
  zeroPad := false
  spaceNoSign := false
  altForm := false
  plusSign := false

/-- The loop over the flags. -/
def kFlagsLoop (d : FormatSpec) : List (BitVec 8) → Option (FormatSpec × List (BitVec 8))
  | [] => none
  | c :: f =>
      if c = chr '-' then kFlagsLoop { d with leftJustify := true } f
      else if c = chr '+' then kFlagsLoop { d with plusSign := true } f
      else if c = chr '#' then kFlagsLoop { d with altForm := true } f
      else if c = chr ' ' then kFlagsLoop { d with spaceNoSign := true } f
      else if c = chr '0' then kFlagsLoop { d with zeroPad := true } f
      else some (d, c :: f)

/-- A number: digits, and an argument in their place if a `*` follows on them. -/
def kScanNumber (args : VaList) (f : List (BitVec 8)) : Option (BitVec 32 × VaList × List (BitVec 8)) := do
  let (number, f) ← digitsLoop 0 f
  match f with
  | [] => none
  | c :: f =>
      if c = chr '*' then some (args.word.1.setWidth 32, args.word.2, f) else some (number, args, c :: f)

/-- The width. -/
def kScanWidth (d : FormatSpec) (args : VaList) (f : List (BitVec 8)) :
    Option (FormatSpec × VaList × List (BitVec 8)) := do
  let (lengthSpec, args, f) ← kScanNumber args f
  some ({ d with lengthSpec := lengthSpec }, args, f)

/-- The precision. -/
def kScanPrecision (d : FormatSpec) (args : VaList) :
    List (BitVec 8) → Option (FormatSpec × VaList × List (BitVec 8))
  | [] => none
  | c :: f =>
      if c = chr '.' then do
        let (precSpec, args, f) ← kScanNumber args f
        some ({ d with precSpec := precSpec }, args, f)
      else some ({ d with precSpec := 6 }, args, c :: f)

/-- One of the letters of a length. -/
def isLengthChar (c : BitVec 8) : Bool :=
  [chr 'h', chr 'l', chr 'j', chr 'z', chr 't', chr 'L'].contains c

/-- The length: behind any of its letters an `h` makes it that of `hh`, and stays where it is; an `l` makes it
that of `ll`. -/
def kScanLength (d : FormatSpec) : List (BitVec 8) → Option (FormatSpec × List (BitVec 8))
  | [] => none
  | c :: f =>
      if isLengthChar c then
        match f with
        | [] => none
        | c' :: f =>
            if c' = chr 'h' then some ({ d with length := chr 'H' }, c' :: f)
            else if c' = chr 'l' then some ({ d with length := chr 'q' }, f)
            else some ({ d with length := c }, c' :: f)
      else some (d, c :: f)

/-- A directive up to its specifier, from behind the `%` on. -/
def kScanDirective (args : VaList) (f : List (BitVec 8)) :
    Option (FormatSpec × VaList × List (BitVec 8)) := do
  let (d, f) ← kFlagsLoop .start f
  let (d, args, f) ← kScanWidth d args f
  let (d, args, f) ← kScanPrecision d args f
  let (d, f) ← kScanLength d f
  some (d, args, f)

/-- The argument of a specifier, if it takes one. The numbers of a length `L` take none. -/
def kTakeArgument (d : FormatSpec) (specifier : BitVec 8) (args : VaList) : Option (BitVec 64) × VaList :=
  if [chr 'c', chr 's', chr 'p'].contains specifier then (some args.word.1, args.word.2)
  else if [chr 'X', chr 'x', chr 'u', chr 'o', chr 'd', chr 'i', chr 'n'].contains specifier ∧
      d.length ≠ chr 'L' then
    (some args.word.1, args.word.2)
  else (none, args)

/-- What `kvprintf` finds in a format: a character that it prints, or a directive. -/
inductive KItem
  | char (c : BitVec 8)
  | directive (d : FormatSpec) (specifier : BitVec 8) (argument : Option (BitVec 64))
  deriving DecidableEq

/-! ## The scanner stays in the string -/

theorem kFlagsLoop_length {d d' : FormatSpec} {f f' : List (BitVec 8)}
    (scanned : kFlagsLoop d f = some (d', f')) : f'.length ≤ f.length := by
  induction f generalizing d with
  | nil => cases scanned
  | cons c f inductionHypothesis =>
      rw [kFlagsLoop] at scanned
      repeat' split at scanned
      all_goals first
        | exact Nat.le_succ_of_le (inductionHypothesis scanned)
        | cases scanned
          exact Nat.le_refl _

theorem kScanNumber_length {number : BitVec 32} {args args' : VaList} {f f' : List (BitVec 8)}
    (scanned : kScanNumber args f = some (number, args', f')) : f'.length ≤ f.length := by
  obtain ⟨⟨digits, g⟩, looped, star⟩ := Option.bind_eq_some_iff.mp scanned
  have shorter := digitsLoop_length looped
  cases g with
  | nil => cases star
  | cons c g =>
      dsimp only at star
      split at star
      · cases star
        exact Nat.le_of_succ_le shorter
      · cases star
        exact shorter

theorem kScanWidth_length {d d' : FormatSpec} {args args' : VaList} {f f' : List (BitVec 8)}
    (scanned : kScanWidth d args f = some (d', args', f')) : f'.length ≤ f.length := by
  obtain ⟨⟨lengthSpec, args, g⟩, number, same⟩ := Option.bind_eq_some_iff.mp scanned
  cases same
  exact kScanNumber_length number

theorem kScanPrecision_length {d d' : FormatSpec} {args args' : VaList} {f f' : List (BitVec 8)}
    (scanned : kScanPrecision d args f = some (d', args', f')) : f'.length ≤ f.length := by
  cases f with
  | nil => cases scanned
  | cons c f =>
      rw [kScanPrecision] at scanned
      split at scanned
      · obtain ⟨⟨precSpec, args, g⟩, number, same⟩ := Option.bind_eq_some_iff.mp scanned
        cases same
        exact Nat.le_succ_of_le (kScanNumber_length number)
      · cases scanned
        exact Nat.le_refl _

theorem kScanLength_length {d d' : FormatSpec} {f f' : List (BitVec 8)}
    (scanned : kScanLength d f = some (d', f')) : f'.length ≤ f.length := by
  cases f with
  | nil => cases scanned
  | cons c f =>
      unfold kScanLength at scanned
      dsimp only at scanned
      split at scanned
      · cases f with
        | nil => cases scanned
        | cons c' f =>
            dsimp only at scanned
            split at scanned
            · cases scanned
              exact Nat.le_succ _
            · split at scanned
              · cases scanned
                exact Nat.le_add_right _ 2
              · cases scanned
                exact Nat.le_succ _
      · cases scanned
        exact Nat.le_refl _

theorem kScanDirective_length {d : FormatSpec} {args args' : VaList} {f f' : List (BitVec 8)}
    (scanned : kScanDirective args f = some (d, args', f')) : f'.length ≤ f.length := by
  obtain ⟨⟨d₁, f₁⟩, flags, scanned⟩ := Option.bind_eq_some_iff.mp scanned
  obtain ⟨⟨d₂, args₂, f₂⟩, width, scanned⟩ := Option.bind_eq_some_iff.mp scanned
  obtain ⟨⟨d₃, args₃, f₃⟩, precision, scanned⟩ := Option.bind_eq_some_iff.mp scanned
  obtain ⟨⟨d₄, f₄⟩, length, same⟩ := Option.bind_eq_some_iff.mp scanned
  cases same
  calc f'.length ≤ f₃.length := kScanLength_length length
    _ ≤ f₂.length := kScanPrecision_length precision
    _ ≤ f₁.length := kScanWidth_length width
    _ ≤ f.length := kFlagsLoop_length flags

/-! ## The loop -/

/-- The loop of `kvprintf`. -/
def kvprintfLoop (args : VaList) (f : List (BitVec 8)) : Option (List KItem) :=
  match f with
  | [] => none
  | c :: rest =>
      if c = nul then some []
      else if c ≠ chr '%' then (kvprintfLoop args rest).map (.char c :: ·)
      else
        match _scanned : kScanDirective args rest with
        | none => none
        | some (_, _, []) => none
        | some (d, args, specifier :: rest') =>
            (kvprintfLoop (kTakeArgument d specifier args).2 rest').map
              (.directive d specifier (kTakeArgument d specifier args).1 :: ·)
  termination_by f.length
  decreasing_by
    · exact Nat.lt_succ_self _
    · have shorter := kScanDirective_length _scanned
      rw [List.length_cons] at shorter ⊢
      omega

/-- What `kvprintf` finds in a format. -/
def kvprintfItems (format : CString) (args : VaList) : Option (List KItem) :=
  kvprintfLoop args (terminated format)

/-- What the terminal was given, and `chars`. -/
structure KOutput where
  emitted : List (BitVec 8)
  chars : BitVec 32
  deriving DecidableEq, Repr

namespace KOutput

/-- Nothing yet. -/
def start : KOutput := { emitted := [], chars := 0 }

/-- `terminal_putstring(text); chars += strlen(text);`. -/
def putString (o : KOutput) (text : CString) : KOutput :=
  { emitted := o.emitted ++ text, chars := o.chars + BitVec.ofNat 32 text.length }

/-- `terminal_putchar(c); ++chars;`. -/
def putChar (o : KOutput) (c : BitVec 8) : KOutput := o.putString [c]

end KOutput

/-! ## Numbers -/

/-- The string that `__int_str` leaves in `int_str_buffer` for a directive. -/
def kIntStr (d : FormatSpec) (i : BitVec 64) (base : Nat) : Option CString :=
  (intStrBuffer i base d.plusSign d.spaceNoSign d.lengthSpec d.leftJustify d.zeroPad).bind fun b =>
    (strlenField b).map fun _ => cstringAt b 0

/-- The lengths whose argument is taken with all its 64 bits. -/
def isLongLength (length : BitVec 8) : Bool :=
  [chr 'l', chr 'q', chr 'j', chr 'z', chr 't'].contains length

/-- `integer` in the case of `u`; `none` is the default case. -/
def kUnsignedArgument (length : BitVec 8) (word : BitVec 64) : Option (BitVec 64) :=
  if length = 0 then some ((word.setWidth 32).setWidth 64)
  else if length = chr 'H' then some ((word.setWidth 8).setWidth 64)
  else if length = chr 'h' then some ((word.setWidth 16).setWidth 64)
  else if isLongLength length then some word
  else none

/-- `integer` in the case of `d` and `i`. -/
def kSignedArgument (length : BitVec 8) (word : BitVec 64) : Option (BitVec 64) :=
  if length = 0 then some ((word.setWidth 32).signExtend 64)
  else if length = chr 'H' then some ((word.setWidth 8).signExtend 64)
  else if length = chr 'h' then some ((word.setWidth 16).signExtend 64)
  else if isLongLength length then some word
  else none

/-- A number, if the length is one that has a case. -/
def kNumber (d : FormatSpec) (integer : Option (BitVec 64)) (base : Nat) (o : KOutput) : Option KOutput :=
  match integer with
  | none => some o
  | some i => (kIntStr d i base).map o.putString

/-! ## Directives -/

/-- The `switch` over a specifier. `strings` has the characters up to the terminator for every pointer. A
specifier that takes no argument does not look at it. -/
def kDirectiveOutput (strings : BitVec 64 → CString) (d : FormatSpec) (specifier : BitVec 8)
    (word : BitVec 64) (o : KOutput) : Option KOutput :=
  if specifier = chr 'o' then
    let o := if d.altForm then o.putString [chr '0'] else o
    kNumber d (kUnsignedArgument d.length word) 8 o
  else if specifier = chr 'p' then kNumber d (kUnsignedArgument (chr 'z') word) 16 o
  else if specifier = chr 'X' ∨ specifier = chr 'x' then
    let o := if d.altForm then o.putString [chr '0', chr 'x'] else o
    kNumber d (kUnsignedArgument d.length word) (if specifier = chr 'X' then 16 else 17) o
  else if specifier = chr 'u' then kNumber d (kUnsignedArgument d.length word) 10 o
  else if specifier = chr 'd' ∨ specifier = chr 'i' then kNumber d (kSignedArgument d.length word) 10 o
  else if specifier = chr 'c' then some (o.putChar (word.setWidth 8))
  else if specifier = chr 's' then some (o.putString (strings word))
  else if specifier = chr 'e' ∨ specifier = chr 'E' then
    -- the exponent is always that of zero
    let exponent := { FormatSpec.start with lengthSpec := 2, zeroPad := true }
    kNumber exponent (some 0) 10 (o.putString [specifier, chr '+'])
  else some o

/-- One turn of the loop of `kvprintf`. -/
def kEmitItem (strings : BitVec 64 → CString) (o : KOutput) : KItem → Option KOutput
  | .char c => some (o.putChar c)
  | .directive d specifier argument => kDirectiveOutput strings d specifier (argument.getD 0) o

/-- `kvprintf`. -/
def kvprintf (strings : BitVec 64 → CString) (format : CString) (args : VaList) : Option KOutput :=
  (kvprintfItems format args).bind fun items => items.foldlM (kEmitItem strings) .start

end Voxel.Kernel
