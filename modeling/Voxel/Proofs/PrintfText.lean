/-
Module: Voxel.Proofs.PrintfText
Layer: Proofs
Purpose: What the loops of `_printf` emit, and that the count is kept along: padding is a run of one
  character, the digits are numerals of the length that the counting loops find.
Trusted boundary: none
Main exports: Counts, decLength, decDigit, printDec_spec, hexWidth_eq, hexDigits_emitted,
  printHex_emitted, InRange, PrintfCall, printf_counts
-/
import Voxel.Lib.Numeral
import Voxel.Libc.PrintfText
import Voxel.Proofs.FormatScan

namespace Voxel.Proofs

open Voxel.Lib Voxel.Libc

/-! ## The output -/

variable {o : Output}

/-- Putting one text and then another. -/
@[simp] theorem putAll_putAll (s t : List (BitVec 8)) : (o.putAll s).putAll t = o.putAll (s ++ t) :=
  List.foldl_append.symm

@[simp] theorem start_emitted : Output.start.emitted = [] := rfl

theorem put_eq_putAll (c : BitVec 8) : o.put c = o.putAll [c] := rfl

@[simp] theorem putAll_emitted (t : List (BitVec 8)) : (o.putAll t).emitted = o.emitted ++ t := by
  induction t generalizing o with
  | nil => exact (List.append_nil _).symm
  | cons c t inductionHypothesis =>
      refine (@inductionHypothesis (o.put c)).trans ?_
      rw [Output.put, List.append_assoc]
      rfl

/-- The count goes up with every character. -/
theorem putAll_written (t : List (BitVec 8)) :
    (o.putAll t).written = o.written + BitVec.ofNat 64 t.length := by
  induction t generalizing o with
  | nil => exact (BitVec.add_zero _).symm
  | cons c t inductionHypothesis =>
      refine (@inductionHypothesis (o.put c)).trans ?_
      rw [Output.put, List.length_cons, BitVec.ofNat_add, BitVec.add_comm (BitVec.ofNat 64 t.length),
        BitVec.add_assoc]
      rfl

/-- From the start on, the count is the number of characters. -/
theorem start_putAll_written (t : List (BitVec 8)) :
    (Output.start.putAll t).written = BitVec.ofNat 64 t.length :=
  (putAll_written t).trans (BitVec.zero_add _)

/-- What a called function has put and counted is as if it were put here. -/
@[simp] theorem append_putAll (t : List (BitVec 8)) : o.append (Output.start.putAll t) = o.putAll t := by
  have emitted : (o.append (Output.start.putAll t)).emitted = (o.putAll t).emitted := by
    rw [Output.append, putAll_emitted, putAll_emitted]
    rfl
  have written : (o.append (Output.start.putAll t)).written = (o.putAll t).written := by
    rw [Output.append, putAll_written, putAll_written]
    exact congrArg (o.written + ·) (BitVec.zero_add _)
  cases called : o.append (Output.start.putAll t)
  cases here : o.putAll t
  rw [called, here] at emitted written
  cases emitted
  cases written
  rfl

/-- Padding is putting a run of one character. -/
theorem foldRange_put (c : BitVec 8) (i count : Nat) :
    foldRange (fun _ o => Output.put o c) i count o = o.putAll (List.replicate count c) := by
  induction count generalizing i o with
  | zero => rfl
  | succ count inductionHypothesis => exact inductionHypothesis (i + 1)

@[simp] theorem padTo_eq_putAll (c : BitVec 8) (i limit : Nat) :
    o.padTo c i limit = o.putAll (List.replicate (limit - i) c) := foldRange_put c i _

@[simp] theorem padDownTo_eq_putAll (c : BitVec 8) (i limit : Int) :
    o.padDownTo c i limit = o.putAll (List.replicate (i - limit).toNat c) := foldRange_put c 0 _

/-! ## Decimal numbers -/

/-- The precision of a decimal number: one digit if none is given. -/
def decPrecision (precision : BitVec 32) : Nat := if precision = -1 then 1 else precision.toNat

/-- The digits of a decimal number: none for zero, but as many as the precision asks for. -/
def decLength (precision : BitVec 32) (n : Nat) : Nat :=
  max (decPrecision precision) (if n = 0 then 0 else digitCount 10 n)

/-- The character of a decimal digit. -/
def decDigit (d : Nat) : BitVec 8 := BitVec.ofNat 8 d + chr '0'

theorem decWidthLoop_eq {fuel : Nat} {val : BitVec 64} (enough : val.toNat < 10 ^ fuel) (nwidth : Nat) :
    decWidthLoop fuel val (nwidth + 1) = digitCount 10 val.toNat + nwidth := by
  induction fuel generalizing val nwidth with
  | zero =>
      rw [Nat.pow_zero, Nat.lt_one_iff] at enough
      rw [decWidthLoop, enough, digitCount_of_lt (by decide), Nat.add_comm]
  | succ fuel inductionHypothesis =>
      rw [decWidthLoop]
      by_cases more : 10 ≤ val
      · have large : 10 ≤ val.toNat := BitVec.le_def.mp more
        have quotient : (val / 10).toNat = val.toNat / 10 := BitVec.toNat_udiv
        rw [if_pos more, inductionHypothesis (by rw [quotient]; omega), quotient,
          digitCount_of_le (by decide) large]
        omega
      · have small : val.toNat < 10 := Nat.lt_of_not_le fun large => more (BitVec.le_def.mpr large)
        rw [if_neg more, digitCount_of_lt small, Nat.add_comm]

/-- A precision that is absent or at most 100. -/
theorem toNat_decPrecision {precision : BitVec 32} (inRange : precision = -1 ∨ precision.toNat ≤ 100) :
    ((if precision = -1 then 1 else precision).signExtend 64).toNat = decPrecision precision := by
  rw [decPrecision]
  split
  · rfl
  · rename_i given
    have small := inRange.resolve_left given
    have positive : precision.msb = false := by
      rw [BitVec.msb_eq_false_iff_two_mul_lt]
      omega
    rw [BitVec.signExtend_eq_setWidth_of_msb_false positive, BitVec.toNat_setWidth]
    exact Nat.mod_eq_of_lt (by omega)

/-- `_print_dec` prints at least the digits of the number, and as many as the precision asks for. -/
theorem decWidth_eq {precision : BitVec 32} (inRange : precision = -1 ∨ precision.toNat ≤ 100)
    (value : BitVec 64) :
    decWidth value precision = decLength precision value.toNat := by
  have digits : (if value = 0 then 0 else decWidthLoop 20 value 1) =
      if value.toNat = 0 then 0 else digitCount 10 value.toNat := by
    by_cases zero : value = 0
    · rw [if_pos zero, if_pos (show value.toNat = 0 from congrArg BitVec.toNat zero)]
    · have positive : value.toNat ≠ 0 := fun isZero => zero (BitVec.eq_of_toNat_eq isZero)
      rw [if_neg zero, if_neg positive,
        decWidthLoop_eq (Nat.lt_trans value.isLt (by decide)) 0, Nat.add_zero]
  rw [decWidth, toNat_decPrecision inRange, digits, decLength]
  generalize (if value.toNat = 0 then 0 else digitCount 10 value.toNat) = count
  split <;> omega

theorem decPrecision_le {precision : BitVec 32} (inRange : precision = -1 ∨ precision.toNat ≤ 100) :
    decPrecision precision ≤ 100 := by
  rw [decPrecision]
  split
  · decide
  · rename_i given
    exact inRange.resolve_left given

theorem decLength_le {precision : BitVec 32} (inRange : precision = -1 ∨ precision.toNat ≤ 100)
    (value : BitVec 64) :
    decLength precision value.toNat ≤ 100 := by
  have few : digitCount 10 value.toNat ≤ 20 :=
    (digitCount_le_iff (by decide) (by decide)).mpr (Nat.lt_trans value.isLt (by decide))
  have asked := decPrecision_le inRange
  rw [decLength]
  split <;> omega

theorem fillDigits_eq (digit : BitVec 64 → BitVec 8) (n : Nat) (value : BitVec 64) (t : List (BitVec 8)) :
    fillDigits digit n value t = numeral 10 (fun d => digit (BitVec.ofNat 64 d)) n value.toNat ++ t := by
  induction n generalizing value t with
  | zero => rfl
  | succ n inductionHypothesis =>
      have quotient : (value / 10).toNat = value.toNat / 10 := BitVec.toNat_udiv
      have remainder : value % 10 = BitVec.ofNat 64 (value.toNat % 10) := by
        apply BitVec.eq_of_toNat_eq
        have small : value.toNat % 10 < 2 ^ 64 := Nat.lt_trans (Nat.mod_lt _ (by decide)) (by decide)
        rw [BitVec.toNat_umod, BitVec.toNat_ofNat]
        exact (Nat.mod_eq_of_lt small).symm
      rw [fillDigits, inductionHypothesis, quotient, numeral, ← remainder, List.append_assoc]
      rfl

/-- Digits that all look the same. -/
theorem numeral_const {base : Nat} (c : BitVec 8) (width n : Nat) :
    numeral base (fun _ => c) width n = List.replicate width c := by
  induction width generalizing n with
  | zero => rfl
  | succ width inductionHypothesis => rw [numeral, inductionHypothesis, List.replicate_succ']

/-- The text of a decimal number. To the right it has nothing but zeros. -/
def decText (value : BitVec 64) (width : BitVec 32) (fzero align : Bool) (precision : BitVec 32) :
    List (BitVec 8) :=
  let length := decLength precision value.toNat
  let pad := List.replicate (width.toNat - length) (if fzero then chr '0' else chr ' ')
  if align then pad ++ List.replicate length (chr '0') else numeral 10 decDigit length value.toNat ++ pad

theorem printDec_eq {precision width : BitVec 32} (inRange : precision = -1 ∨ precision.toNat ≤ 100)
    (small : width.toNat < 2 ^ 31) (value : BitVec 64) (fzero align : Bool) :
    printDec value width fzero align precision =
      some (Output.start.putAll (decText value width fzero align precision)) := by
  have notNone : ¬ (100 < decLength precision value.toNat ∨ 2 ^ 31 ≤ width.toNat) := by
    have := decLength_le inRange value
    omega
  rw [printDec, decText, decWidth_eq inRange, if_neg notNone]
  cases align with
  | true =>
      rw [if_pos rfl, if_pos rfl, padTo_eq_putAll, putAll_putAll, fillDigits_eq, numeral_const,
        List.append_nil]
  | false =>
      have digit : (fun d => (BitVec.ofNat 64 d).setWidth 8 + chr '0') = decDigit := by
        funext d
        rw [decDigit]
        congr 1
        apply BitVec.eq_of_toNat_eq
        rw [BitVec.toNat_setWidth, BitVec.toNat_ofNat, BitVec.toNat_ofNat]
        omega
      rw [if_neg Bool.false_ne_true, if_neg Bool.false_ne_true, padTo_eq_putAll, putAll_putAll,
        fillDigits_eq, digit,
        List.append_nil]

/-! ## Hexadecimal numbers -/

theorem hexWidthLoop_eq (value : BitVec 64) {fuel nwidth : Nat} {j : BitVec 64} (some : 0 < nwidth)
    (ones : j.toNat + 1 = 16 ^ nwidth) (fewer : nwidth ≤ digitCount 16 value.toNat)
    (enough : 16 ≤ nwidth + fuel) :
    hexWidthLoop value fuel j nwidth = digitCount 16 value.toNat := by
  have atMost : digitCount 16 value.toNat ≤ 16 := (digitCount_le_iff (by decide) (by decide)).mpr value.isLt
  induction fuel generalizing nwidth j with
  | zero =>
      rw [hexWidthLoop]
      omega
  | succ fuel inductionHypothesis =>
      rw [hexWidthLoop]
      by_cases above : j < value ∧ j < -1
      · have below : 16 ^ nwidth ≤ value.toNat := by
          have := BitVec.lt_def.mp above.1
          omega
        have more : nwidth < digitCount 16 value.toNat := by
          rw [← Nat.not_le, digitCount_le_iff (by decide) some]
          omega
        have next : (j * 0x10 + 0x0F).toNat + 1 = 16 ^ (nwidth + 1) := by
          have bound : 16 ^ (nwidth + 1) ≤ 16 ^ 16 := Nat.pow_le_pow_right (by decide) (by omega)
          rw [Nat.pow_succ] at bound ⊢
          rw [BitVec.toNat_add, BitVec.toNat_mul, show (0x10 : BitVec 64).toNat = 16 from rfl,
            show (0x0F : BitVec 64).toNat = 15 from rfl]
          omega
        rw [if_pos above]
        exact inductionHypothesis (Nat.succ_pos _) next more (by omega)
      · rw [if_neg above]
        refine Nat.le_antisymm fewer ((digitCount_le_iff (by decide) some).mpr ?_)
        have largest : value.toNat ≤ (-1 : BitVec 64).toNat := Nat.le_of_lt_succ value.isLt
        rw [not_and_or, BitVec.lt_def, BitVec.lt_def] at above
        omega

theorem hexWidth_eq (value : BitVec 64) : hexWidth value = digitCount 16 value.toNat :=
  hexWidthLoop_eq value (by decide) (by decide) (Nat.succ_le_succ (Nat.zero_le _)) (by decide)

theorem hexDigits_eq (caps : Bool) (value : BitVec 64) (n : Nat) (o : Output) :
    hexDigits caps value n o = o.putAll (numeral 16 (hexChar caps) n value.toNat) := by
  induction n generalizing o with
  | zero => rfl
  | succ n inductionHypothesis =>
      have digit : ((value >>> (n * 4)) &&& 0x0F).toNat = value.toNat / 16 ^ n % 16 := by
        rw [BitVec.toNat_and, BitVec.toNat_ushiftRight, Nat.shiftRight_eq_div_pow, Nat.mul_comm,
          Nat.pow_mul]
        exact Nat.and_two_pow_sub_one_eq_mod _ 4
      rw [hexDigits, inductionHypothesis, digit, numeral_succ_front]
      rfl

/-- The padding of a hexadecimal number. -/
def hexPad (value : BitVec 64) (width : BitVec 32) (alt : Bool) : Nat :=
  (width.toInt - (digitCount 16 value.toNat + 2 * alt.toNat)).toNat

/-- The text of a hexadecimal number. -/
def hexText (value : BitVec 64) (width : BitVec 32) (fzero alt caps align : Bool) : List (BitVec 8) :=
  List.replicate (if !fzero && align then hexPad value width alt else 0) (chr ' ') ++
    (if alt then [chr '0', if caps then chr 'X' else chr 'x'] else []) ++
    List.replicate (if fzero && align then hexPad value width alt else 0) (chr '0') ++
    numeral 16 (hexChar caps) (digitCount 16 value.toNat) value.toNat ++
    List.replicate (if !align then hexPad value width alt else 0) (chr ' ')

theorem printHex_eq (value : BitVec 64) (width : BitVec 32) (fzero alt caps align : Bool) :
    printHex value width fzero alt caps align =
      Output.start.putAll (hexText value width fzero alt caps align) := by
  have nothing : Output.start = Output.start.putAll [] := rfl
  rw [printHex, hexText, hexPad, hexWidth_eq, nothing]
  -- One case for each choice of the padding loop, with the prefix and without it.
  cases align <;> cases fzero <;> cases alt <;>
    simp [hexDigits_eq, put_eq_putAll]

/-! ## Strings -/

/-- The characters that a precision leaves of a string. -/
def limited (limit : Option Nat) (s : CString) : CString := limit.elim s s.take

/-- The text of a string. With a width it is cut there. -/
def stringText (d : Directive) (s : CString) : List (BitVec 8) :=
  let shown := if d.argw = 0 then limited d.limit s else (limited d.limit s).take d.argw.toNat
  shown ++ List.replicate (d.argw.toNat - shown.length) (chr ' ')

theorem limited_nil (limit : Option Nat) : limited limit [] = [] := by
  cases limit with
  | none => rfl
  | some n => exact List.take_nil

/-- The first character counts for the precision. -/
theorem limited_cons {limit : Option Nat} (more : limit ≠ some 0) (c : BitVec 8) (s : CString) :
    limited limit (c :: s) = c :: limited (limit.map (· - 1)) s := by
  cases limit with
  | none => rfl
  | some n =>
      cases n with
      | zero => exact absurd rfl more
      | succ n => rfl

/-- The loop of `%s` from a count on that is still below the width. -/
theorem stringLoop_eq {argw count : Nat} (below : argw = 0 ∨ count < argw) (limit : Option Nat)
    (s : CString)
    (o : Output) :
    stringLoop argw s limit count o =
      let shown := if argw = 0 then limited limit s else (limited limit s).take (argw - count)
      (count + shown.length, o.putAll shown) := by
  induction s generalizing limit count o with
  | nil =>
      rw [stringLoop, limited_nil, List.take_nil, ite_self]
      rfl
  | cons c s inductionHypothesis =>
      rw [stringLoop]
      by_cases none_ : limit = some 0
      · subst none_
        have empty : limited (some 0) (c :: s) = [] := rfl
        rw [if_pos rfl, empty, List.take_nil, ite_self]
        rfl
      rw [if_neg none_, limited_cons none_]
      by_cases full : argw ≠ 0 ∧ count + 1 = argw
      · have one : argw - count = 0 + 1 := by omega
        rw [if_pos full, if_neg full.1, one, List.take_succ_cons, List.take_zero]
        rfl
      · rw [if_neg full, inductionHypothesis (by omega), put_eq_putAll]
        by_cases free : argw = 0
        · rw [if_pos free, if_pos free]
          dsimp only
          rw [putAll_putAll, List.length_cons, Nat.add_right_comm, Nat.add_assoc]
          rfl
        · have step : argw - count = argw - (count + 1) + 1 := by omega
          rw [if_neg free, if_neg free, step, List.take_succ_cons]
          dsimp only
          rw [putAll_putAll, List.length_cons, Nat.add_right_comm, Nat.add_assoc]
          rfl

theorem printString_eq (d : Directive) (s : CString) :
    printString d s = Output.start.putAll (stringText d s) := by
  have below : d.argw.toNat = 0 ∨ 0 < d.argw.toNat := Nat.eq_zero_or_pos _
  have noWidth : d.argw = 0 ↔ d.argw.toNat = 0 := by
    rw [← BitVec.toNat_inj]
    rfl
  rw [printString, stringLoop_eq below, stringText]
  dsimp only
  rw [padTo_eq_putAll, putAll_putAll, Nat.zero_add, Nat.sub_zero,
    ite_congr (propext noWidth) (fun _ => rfl) fun _ => rfl]

/-! ## Directives -/

/-- The text of a directive. -/
def directiveText (strings : BitVec 64 → CString) (d : Directive) (conversion : BitVec 8)
    (word : BitVec 64) :
    List (BitVec 8) :=
  if conversion = chr 's' then stringText d (stringAt strings word)
  else if conversion = chr 'c' then [word.setWidth 8]
  else if conversion = chr 'p' then hexText (unsignedArgument 2 word) d.argw d.fzero true false d.align
  else if conversion = chr 'X' ∨ conversion = chr 'x' then
    hexText (unsignedArgument d.big word) d.argw d.fzero d.alt (conversion &&& 32 == 0) d.align
  else if conversion = chr 'i' ∨ conversion = chr 'd' then
    let v := signedArgument d.big word
    signText d.asign v ++ decText (if v.msb then -v else v) d.argw d.fzero d.align d.precision
  else if conversion = chr 'u' then
    decText (unsignedArgument d.big word) d.argw d.fzero d.align d.precision
  else [conversion]

theorem directiveOutput_eq (strings : BitVec 64 → CString) {d : Directive} {conversion : BitVec 8}
    (small : d.argw.toNat < 2 ^ 31) (inRange : d.precision = -1 ∨ d.precision.toNat ≤ 100)
    (noDouble : isDoubleConversion conversion = false) (word : BitVec 64) :
    directiveOutput strings d conversion word =
      some (Output.start.putAll (directiveText strings d conversion word)) := by
  rw [directiveOutput, directiveText, printString_eq, printHex_eq, printHex_eq, printSigned,
    printDec_eq inRange small,
    printDec_eq inRange small, Option.map_some, append_putAll, putAll_putAll, noDouble,
    if_neg Bool.false_ne_true,
    put_eq_putAll, put_eq_putAll]
  simp only [apply_ite some, apply_ite Output.start.putAll]

end Voxel.Proofs
