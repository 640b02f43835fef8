/-
Module: Voxel.Libc.Printf
Layer: Libc
Purpose: `_printf` of `libc/stdio.c`, up to the text of its conversions: the characters and the
  directives that it finds in a format, in order, with the argument that each directive takes. A read
  behind the terminator of the format has no result.
Trusted boundary: human-reviewed spec
Main exports: Directive, flagsLoop, scanWidth, scanPrecision, scanLength, scanDirective, Item,
  printfLoop, printfItems
-/
import Mathlib.Data.List.Basic
import Voxel.Lib.Format

namespace Voxel.Libc

open Voxel.Lib

/-- The local variables of `_printf` for one directive. -/
structure Directive where
  argw : BitVec 32
  align : Bool
  fzero : Bool
  big : Nat
  alt : Bool
  asign : Nat
  precision : BitVec 32
  deriving DecidableEq, Repr

/-- Their values behind the `%`. -/
def Directive.start : Directive where
  argw := 0
  align := true
  fzero := false
  big := 0
  alt := false
  asign := 0
  precision := -1

/-- The loop over the flags. -/
def flagsLoop (d : Directive) (args : VaList) :
    List (BitVec 8) → Option (Directive × VaList × List (BitVec 8))
  | [] => none
  | c :: f =>
      if c = chr '-' then flagsLoop { d with align := false } args f
      else if c = chr '#' then flagsLoop { d with alt := true } args f
      else if c = chr '*' then flagsLoop { d with argw := args.word.1.setWidth 32 } args.word.2 f
      else if c = chr '0' then flagsLoop { d with fzero := true } args f
      else if c = chr '+' then flagsLoop { d with asign := 1 } args f
      else if c = chr ' ' then flagsLoop { d with asign := 2 } args f
      else some (d, args, c :: f)

/-- The width. -/
def scanWidth (d : Directive) (f : List (BitVec 8)) : Option (Directive × List (BitVec 8)) := do
  let (argw, f) ← digitsLoop d.argw f
  some ({ d with argw := argw }, f)

/-- The precision. -/
def scanPrecision (d : Directive) (args : VaList) :
    List (BitVec 8) → Option (Directive × VaList × List (BitVec 8))
  | [] => none
  | c :: f =>
      if c = chr '.' then
        match f with
        | [] => none
        | c :: f =>
            if c = chr '*' then
              some ({ d with precision := args.word.1.setWidth 32 }, args.word.2, f)
            else do
              let (precision, f) ← digitsLoop 0 (c :: f)
              some ({ d with precision := precision }, args, f)
      else some (d, args, c :: f)

/-- `l` and `ll`. -/
def scanLong (d : Directive) : List (BitVec 8) → Option (Directive × List (BitVec 8))
  | [] => none
  | c :: f =>
      if c = chr 'l' then
        match f with
        | [] => none
        | c :: f =>
            if c = chr 'l' then some ({ d with big := 2 }, f) else some ({ d with big := 1 }, c :: f)
      else some (d, c :: f)

/-- `j`, `z` or `t`, types with the size of a `long long`. -/
def scanSize (letter : BitVec 8) (d : Directive) : List (BitVec 8) → Option (Directive × List (BitVec 8))
  | [] => none
  | c :: f => if c = letter then some ({ d with big := 2 }, f) else some (d, c :: f)

/-- The length. -/
def scanLength (d : Directive) (f : List (BitVec 8)) : Option (Directive × List (BitVec 8)) := do
  let (d, f) ← scanLong d f
  let (d, f) ← scanSize (chr 'j') d f
  let (d, f) ← scanSize (chr 'z') d f
  scanSize (chr 't') d f

/-- A directive up to its conversion, from behind the `%` on. -/
def scanDirective (args : VaList) (f : List (BitVec 8)) :
    Option (Directive × VaList × List (BitVec 8)) := do
  let (d, args, f) ← flagsLoop .start args f
  let (d, f) ← scanWidth d f
  let (d, args, f) ← scanPrecision d args f
  let (d, f) ← scanLength d f
  some (d, args, f)

/-- The argument of a conversion, if it takes one. -/
def takeArgument (conversion : BitVec 8) (args : VaList) : Option (BitVec 64) × VaList :=
  if [chr 's', chr 'c', chr 'p', chr 'X', chr 'x', chr 'i', chr 'd', chr 'u'].contains conversion then
    (some args.word.1, args.word.2)
  else if [chr 'G', chr 'F', chr 'g', chr 'f'].contains conversion then (some args.double.1, args.double.2)
  else (none, args)

/-- What `_printf` finds in a format: a character that it hands to its callback, or a directive. -/
inductive Item
  | char (c : BitVec 8)
  | directive (d : Directive) (conversion : BitVec 8) (argument : Option (BitVec 64))
  deriving DecidableEq

/-! ## The scanner stays in the string -/

theorem flagsLoop_length {d d' : Directive} {args args' : VaList} {f f' : List (BitVec 8)}
    (scanned : flagsLoop d args f = some (d', args', f')) : f'.length ≤ f.length := by
  induction f generalizing d args with
  | nil => cases scanned
  | cons c f inductionHypothesis =>
      rw [flagsLoop] at scanned
      repeat' split at scanned
      all_goals first
        | exact Nat.le_succ_of_le (inductionHypothesis scanned)
        | cases scanned
          exact Nat.le_refl _

theorem scanWidth_length {d d' : Directive} {f f' : List (BitVec 8)}
    (scanned : scanWidth d f = some (d', f')) : f'.length ≤ f.length := by
  obtain ⟨⟨argw, g⟩, looped, same⟩ := Option.bind_eq_some_iff.mp scanned
  cases same
  exact digitsLoop_length looped

theorem scanPrecision_length {d d' : Directive} {args args' : VaList} {f f' : List (BitVec 8)}
    (scanned : scanPrecision d args f = some (d', args', f')) : f'.length ≤ f.length := by
  cases f with
  | nil => cases scanned
  | cons c f =>
      unfold scanPrecision at scanned
      dsimp only at scanned
      split at scanned
      · cases f with
        | nil => cases scanned
        | cons c f =>
            dsimp only at scanned
            split at scanned
            · cases scanned
              exact Nat.le_add_right _ 2
            · obtain ⟨⟨precision, g⟩, looped, same⟩ := Option.bind_eq_some_iff.mp scanned
              cases same
              exact Nat.le_succ_of_le (digitsLoop_length looped)
      · cases scanned
        exact Nat.le_refl _

theorem scanLong_length {d d' : Directive} {f f' : List (BitVec 8)}
    (scanned : scanLong d f = some (d', f')) : f'.length ≤ f.length := by
  cases f with
  | nil => cases scanned
  | cons c f =>
      unfold scanLong at scanned
      dsimp only at scanned
      split at scanned
      · cases f with
        | nil => cases scanned
        | cons c f =>
            dsimp only at scanned
            split at scanned
            · cases scanned
              exact Nat.le_add_right _ 2
            · cases scanned
              exact Nat.le_succ _
      · cases scanned
        exact Nat.le_refl _

theorem scanSize_length {letter : BitVec 8} {d d' : Directive} {f f' : List (BitVec 8)}
    (scanned : scanSize letter d f = some (d', f')) : f'.length ≤ f.length := by
  cases f with
  | nil => cases scanned
  | cons c f =>
      rw [scanSize] at scanned
      split at scanned
      · cases scanned
        exact Nat.le_succ _
      · cases scanned
        exact Nat.le_refl _

theorem scanLength_length {d d' : Directive} {f f' : List (BitVec 8)}
    (scanned : scanLength d f = some (d', f')) : f'.length ≤ f.length := by
  obtain ⟨⟨d₁, f₁⟩, long, scanned⟩ := Option.bind_eq_some_iff.mp scanned
  obtain ⟨⟨d₂, f₂⟩, max, scanned⟩ := Option.bind_eq_some_iff.mp scanned
  obtain ⟨⟨d₃, f₃⟩, size, scanned⟩ := Option.bind_eq_some_iff.mp scanned
  calc f'.length ≤ f₃.length := scanSize_length scanned
    _ ≤ f₂.length := scanSize_length size
    _ ≤ f₁.length := scanSize_length max
    _ ≤ f.length := scanLong_length long

theorem scanDirective_length {d : Directive} {args args' : VaList} {f f' : List (BitVec 8)}
    (scanned : scanDirective args f = some (d, args', f')) : f'.length ≤ f.length := by
  obtain ⟨⟨d₁, args₁, f₁⟩, flags, scanned⟩ := Option.bind_eq_some_iff.mp scanned
  obtain ⟨⟨d₂, f₂⟩, width, scanned⟩ := Option.bind_eq_some_iff.mp scanned
  obtain ⟨⟨d₃, args₃, f₃⟩, precision, scanned⟩ := Option.bind_eq_some_iff.mp scanned
  obtain ⟨⟨d₄, f₄⟩, length, same⟩ := Option.bind_eq_some_iff.mp scanned
  cases same
  calc f'.length ≤ f₃.length := scanLength_length length
    _ ≤ f₂.length := scanPrecision_length precision
    _ ≤ f₁.length := scanWidth_length width
    _ ≤ f.length := flagsLoop_length flags

/-! ## The loop -/

/-- The loop of `_printf`. At `%ls` it returns. -/
def printfLoop (args : VaList) (f : List (BitVec 8)) : Option (List Item) :=
  match f with
  | [] => none
  | c :: rest =>
      if c = nul then some []
      else if c ≠ chr '%' then (printfLoop args rest).map (.char c :: ·)
      else
        match _scanned : scanDirective args rest with
        | none => none
        | some (_, _, []) => none
        | some (d, args, conversion :: rest') =>
            if conversion = chr 's' ∧ d.big ≠ 0 then some []
            else
              (printfLoop (takeArgument conversion args).2 rest').map
                (.directive d conversion (takeArgument conversion args).1 :: ·)
  termination_by f.length
  decreasing_by
    · exact Nat.lt_succ_self _
    · have shorter := scanDirective_length _scanned
      rw [List.length_cons] at shorter ⊢
      omega

/-- What `_printf` finds in a format. -/
def printfItems (fmt : CString) (args : VaList) : Option (List Item) := printfLoop args (terminated fmt)

end Voxel.Libc
