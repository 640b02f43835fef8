/-
Module: Voxel.Proofs.PrintfNumbers
Layer: Proofs
Purpose: What the conversions of integers print. `_print_hex` lays a number out as it should for every
  value. The decimal conversions pad as if there were no sign, fill up with zeros behind the digits, and
  to the right print zeros for every digit; the inputs for which that does not show are known.
Trusted boundary: none
Main exports: hexDigit, PrintsHex, hex_prints, PrintsDecimal, DecimalRight, dec_prints_iff
-/
import Voxel.Proofs.PrintfRun

namespace Voxel.Proofs

open Voxel.Lib Voxel.Libc

/-! ## Hexadecimal numbers -/

/-- The character of a hexadecimal digit. -/
def hexDigit (caps : Bool) (d : Nat) : BitVec 8 :=
  if d < 10 then chr '0' + BitVec.ofNat 8 d
  else (if caps then chr 'A' else chr 'a') + BitVec.ofNat 8 (d - 10)

/-- A hexadecimal number in a field: spaces, the prefix, zeros, the digits without a leading zero,
spaces. -/
def PrintsHex (n width : Nat) (fzero alt caps align : Bool) (text : List (BitVec 8)) : Prop :=
  ∃ a z b digits,
    text = List.replicate a (chr ' ') ++
      (if alt then [chr '0', if caps then chr 'X' else chr 'x'] else []) ++
      List.replicate z (chr '0') ++ digits ++ List.replicate b (chr ' ') ∧
    digits.length = digitCount 16 n ∧ Denotes 16 (hexDigit caps) digits n ∧
    text.length = max width (digits.length + 2 * alt.toNat) ∧
    (a ≠ 0 → align = true ∧ fzero = false) ∧ (z ≠ 0 → align = true ∧ fzero = true) ∧ (b ≠ 0 → align = false)

/-- The table of the source has the digits. -/
theorem hexChar_eq (caps : Bool) : ∀ d < 16, hexChar caps d = hexDigit caps d := by
  cases caps <;> decide

/-- Numerals with digits that look the same. -/
theorem numeral_congr {base : Nat} {digit digit' : Nat → BitVec 8} (positive : 0 < base)
    (same : ∀ d < base, digit d = digit' d) (width n : Nat) :
    numeral base digit width n = numeral base digit' width n := by
  induction width generalizing n with
  | zero => rfl
  | succ width inductionHypothesis =>
      rw [numeral, numeral, inductionHypothesis, same _ (Nat.mod_lt n positive)]

theorem hexPad_eq {width : BitVec 32} (small : width.toNat < 2 ^ 31) (value : BitVec 64) (alt : Bool) :
    hexPad value width alt = width.toNat - (digitCount 16 value.toNat + 2 * alt.toNat) := by
  rw [hexPad, BitVec.toInt_eq_toNat_of_lt (by omega)]
  omega

theorem hexText_length {width : BitVec 32} (small : width.toNat < 2 ^ 31) (value : BitVec 64)
    (fzero alt caps align : Bool) :
    (hexText value width fzero alt caps align).length =
      max width.toNat (digitCount 16 value.toNat + 2 * alt.toNat) := by
  rw [hexText, hexPad_eq small]
  -- The padding loop that runs fills up to the width; the other two do not run.
  cases align <;> cases fzero <;> cases alt <;> simp <;> omega

theorem hexText_prints {width : BitVec 32} (small : width.toNat < 2 ^ 31) (value : BitVec 64)
    (fzero alt caps align : Bool) :
    PrintsHex value.toNat width.toNat fzero alt caps align (hexText value width fzero alt caps align) := by
  have digits : numeral 16 (hexChar caps) (digitCount 16 value.toNat) value.toNat =
      numeral 16 (hexDigit caps) (digitCount 16 value.toNat) value.toNat :=
    numeral_congr (by decide) (hexChar_eq caps) _ _
  refine ⟨_, _, _, _, rfl, numeral_length _ _, ?_, ?_, ?_, ?_, ?_⟩
  · rw [digits]
    exact numeral_denotes (by decide) (lt_pow_digitCount (by decide) _)
  · rw [numeral_length]
    exact hexText_length small value fzero alt caps align
  · cases align <;> cases fzero <;> simp
  · cases align <;> cases fzero <;> simp
  · cases align <;> simp

/-- `_print_hex` prints every number in every field, and returns the number of characters. -/
theorem hex_prints {width : BitVec 32} (small : width.toNat < 2 ^ 31) (value : BitVec 64)
    (fzero alt caps align : Bool) :
    PrintsHex value.toNat width.toNat fzero alt caps align
      (printHex value width fzero alt caps align).emitted ∧
      (printHex value width fzero alt caps align).written.toNat =
        max width.toNat (digitCount 16 value.toNat + 2 * alt.toNat) := by
  have few : digitCount 16 value.toNat ≤ 16 := (digitCount_le_iff (by decide) (by decide)).mpr value.isLt
  rw [printHex_eq, putAll_emitted, start_putAll_written, hexText_length small]
  refine ⟨hexText_prints small value fzero alt caps align, ?_⟩
  have prefixLength : alt.toNat ≤ 1 := Bool.toNat_le alt
  rw [BitVec.toNat_ofNat]
  exact Nat.mod_eq_of_lt (by omega)

/-- `0X000000FF` is 255 in a field of 10. -/
theorem hex_prints_example :
    (printHex 255 10 true true true true).emitted = "0X000000FF".toList.map chr ∧
    (printHex 255 10 true true true true).written.toNat = 10 := by
  refine ⟨by decide, (hex_prints
    (show (10 : BitVec 32).toNat < 2 ^ 31 by decide) 255 true true true true).2.trans ?_⟩
  have digits : digitCount 16 (255 : BitVec 64).toNat = 2 := by
    rw [digitCount_of_le (by decide) (by decide), digitCount_of_lt (by decide)]
  rw [digits]
  rfl

/-! ## Decimal numbers -/

/-- A decimal number in a field: spaces, the sign, zeros, the digits, spaces. With the `-` flag the
padding is to the right of the digits, without it to the left. -/
def PrintsDecimal (sign : List (BitVec 8)) (n precision width : Nat) (align : Bool)
    (text : List (BitVec 8)) : Prop :=
  ∃ a z b digits,
    text = List.replicate a (chr ' ') ++ sign ++ List.replicate z (chr '0') ++ digits ++
      List.replicate b (chr ' ') ∧
    digits.length = max precision (digitCount 10 n) ∧ Denotes 10 decDigit digits n ∧
    text.length = max width (sign.length + digits.length) ∧
    (align = true → b = 0) ∧ (align = false → a = 0 ∧ z = 0)

/-- What a decimal conversion gets right. With the `-` flag the padding has to be none, or spaces
without a sign. Without the flag the number has to be zero, with no padding or no sign. -/
def DecimalRight (sign : List (BitVec 8)) (n precision width : Nat) (align fzero : Bool) : Prop :=
  if align then n = 0 ∧ (width ≤ max precision (digitCount 10 n) ∨ sign = [])
  else width ≤ max precision (digitCount 10 n) ∨ sign = [] ∧ fzero = false

theorem decDigit_apart (d e : Nat) (small : d < 10) (small' : e < 10) (same : decDigit d = decDigit e) :
    d = e := by
  have table : ∀ d < 10, ∀ e < 10, decDigit d = decDigit e → d = e := by decide
  exact table d small e small' same

/-- Padding has no place with a sign: the width of the code leaves the sign out. -/
theorem noSign_of_length {sign width digits : Nat}
    (length : sign + (digits + (width - digits)) = max width (sign + digits))
    (padded : ¬ width ≤ digits) : sign = 0 := by
  omega

/-- Zeros behind the digits are no padding. -/
theorem replicate_ne_replicate {c e : BitVec 8} (apart : c ≠ e) {k l : Nat} (some : k ≠ 0)
    (same : List.replicate k c = List.replicate l e) : False := by
  have member : c ∈ List.replicate l e := by
    rw [← same]
    exact List.mem_replicate.mpr ⟨some, rfl⟩
  exact apart (List.eq_of_mem_replicate member)

/-- The digits that a decimal number has. -/
theorem decLength_eq {precision : BitVec 32} (atLeastOne : 1 ≤ decPrecision precision) (n : Nat) :
    decLength precision n = max (decPrecision precision) (digitCount 10 n) := by
  rw [decLength]
  split
  · rename_i zero
    rw [zero, digitCount_of_lt (by decide)]
    omega
  · rfl

section
variable {sign : List (BitVec 8)} {n precision width digits : Nat}

/-- With the `-` flag. -/
theorem printsDecimal_left_iff (count : max precision (digitCount 10 n) = digits) (fzero : Bool) :
    PrintsDecimal sign n precision width false
        (sign ++ (numeral 10 decDigit digits n ++
          List.replicate (width - digits) (if fzero then chr '0' else chr ' '))) ↔
      width ≤ digits ∨ sign = [] ∧ fzero = false := by
  have fits : n < 10 ^ digits := Nat.lt_of_lt_of_le (lt_pow_digitCount (by decide) n)
    (Nat.pow_le_pow_right (by decide) (count ▸ Nat.le_max_right _ _))
  have left : false = true → ∀ b : Nat, b = 0 := fun wrong => by cases wrong
  rw [PrintsDecimal, count]
  constructor
  · rintro ⟨a, z, b, text, same, textLength, -, length, -, atLeft⟩
    obtain ⟨rfl, rfl⟩ := atLeft rfl
    by_contra wrong
    obtain ⟨padded, wrong⟩ := not_or.mp wrong
    rw [List.length_append, List.length_append, numeral_length, List.length_replicate, textLength] at length
    have noSign := List.length_eq_zero_iff.mp (noSign_of_length length padded)
    -- The padding is zeros, where the decomposition has spaces.
    have zeros : fzero = true := Bool.eq_true_of_not_eq_false fun spaces => wrong ⟨noSign, spaces⟩
    rw [noSign, zeros] at same
    have sameText : numeral 10 decDigit digits n ++ List.replicate (width - digits) (chr '0') =
        text ++ List.replicate b (chr ' ') := same
    have pads := (List.append_inj sameText (by rw [numeral_length, textLength])).2
    exact replicate_ne_replicate (by decide) (by omega) pads
  · rintro (noPad | ⟨rfl, rfl⟩)
    · refine ⟨0, 0, 0, numeral 10 decDigit digits n, ?_, numeral_length _ _,
        numeral_denotes (by decide) fits, ?_,
        fun wrong => left wrong _, fun _ => ⟨rfl, rfl⟩⟩
      · rw [Nat.sub_eq_zero_of_le noPad]
        simp
      · rw [Nat.sub_eq_zero_of_le noPad]
        simp
        omega
    · refine ⟨0, 0, width - digits, numeral 10 decDigit digits n, ?_, numeral_length _ _,
        numeral_denotes (by decide) fits, ?_, fun wrong => left wrong _, fun _ => ⟨rfl, rfl⟩⟩
      · simp
      · simp
        omega

/-- Without the `-` flag. -/
theorem printsDecimal_right_iff (count : max precision (digitCount 10 n) = digits) (fzero : Bool) :
    PrintsDecimal sign n precision width true
        (sign ++ (List.replicate (width - digits) (if fzero then chr '0' else chr ' ') ++
          List.replicate digits (chr '0'))) ↔
      n = 0 ∧ (width ≤ digits ∨ sign = []) := by
  have right : true = false → ∀ a z : Nat, a = 0 ∧ z = 0 := fun wrong => by cases wrong
  rw [PrintsDecimal, count]
  constructor
  · rintro ⟨a, z, b, text, same, textLength, denotes, length, atRight, -⟩
    cases atRight rfl
    rw [List.length_append, List.length_append, List.length_replicate, List.length_replicate, textLength,
      Nat.add_comm (width - digits)] at length
    rw [List.replicate_zero, List.append_nil, ← List.append_assoc] at same
    have zeros := (List.append_inj' same (by rw [List.length_replicate, textLength])).2
    rw [← zeros] at denotes
    refine ⟨denotes.unique decDigit_apart (denotes_zeros (by decide) digits), ?_⟩
    by_cases padded : width ≤ digits
    · exact .inl padded
    · exact .inr (List.length_eq_zero_iff.mp (noSign_of_length length padded))
  · rintro ⟨rfl, noPad | rfl⟩
    · refine ⟨0, 0, 0, List.replicate digits (chr '0'), ?_, List.length_replicate,
        denotes_zeros (by decide) digits, ?_,
        fun _ => rfl, fun wrong => right wrong _ _⟩
      · rw [Nat.sub_eq_zero_of_le noPad]
        simp
      · rw [Nat.sub_eq_zero_of_le noPad]
        simp
        omega
    · refine ⟨if fzero then 0 else width - digits, if fzero then width - digits else 0, 0,
        List.replicate digits (chr '0'), ?_, List.length_replicate, denotes_zeros (by decide) digits, ?_,
        fun _ => rfl, fun wrong => right wrong _ _⟩
      · cases fzero <;> simp
      · simp
        omega

end

/-- What a decimal conversion puts behind the sign is right exactly for these inputs. -/
theorem decText_prints_iff {sign : List (BitVec 8)} {value : BitVec 64} {width precision : BitVec 32}
    {fzero align : Bool} (atLeastOne : 1 ≤ decPrecision precision) :
    PrintsDecimal sign value.toNat (decPrecision precision) width.toNat align
        (sign ++ decText value width fzero align precision) ↔
      DecimalRight sign value.toNat (decPrecision precision) width.toNat align fzero := by
  rw [DecimalRight, decText, decLength_eq atLeastOne]
  cases align with
  | false => exact printsDecimal_left_iff rfl fzero
  | true => exact printsDecimal_right_iff rfl fzero

/-! ## The conversions -/

/-- The value of the argument of a decimal conversion, which has the type that the length asks for. -/
def decimalValue (d : Directive) (conversion : BitVec 8) (word : BitVec 64) : Int :=
  if conversion = chr 'u' then (unsignedArgument d.big word).toNat else (signedArgument d.big word).toInt

/-- The sign of a value. `u` has none. -/
def decimalSign (d : Directive) (conversion : BitVec 8) (value : Int) : List (BitVec 8) :=
  if conversion = chr 'u' then []
  else if value < 0 then [chr '-']
  else if d.asign = 0 then []
  else [if d.asign = 2 then chr ' ' else chr '+']

/-- The sign and the absolute value of a signed argument. -/
theorem signed_eq (asign : Nat) (v : BitVec 64) :
    signText asign v = (if v.toInt < 0 then [chr '-'] else if asign = 0 then []
      else [if asign = 2 then chr ' ' else chr '+']) ∧
    (if v.msb then -v else v).toNat = v.toInt.natAbs := by
  rw [signText]
  cases negative : v.msb with
  | true =>
      have value := BitVec.toInt_eq_msb_cond v
      rw [if_pos negative] at value
      have some : 0 < v.toNat := by
        have := BitVec.msb_eq_true_iff_two_mul_ge.mp negative
        omega
      have := v.isLt
      rw [if_pos rfl, if_pos rfl, if_pos (by omega), BitVec.toNat_neg, Nat.mod_eq_of_lt (by omega)]
      exact ⟨rfl, by omega⟩
  | false =>
      have value := BitVec.toInt_eq_msb_cond v
      rw [negative, if_neg Bool.false_ne_true] at value
      rw [if_neg Bool.false_ne_true, if_neg Bool.false_ne_true, if_neg (show ¬ v.toInt < 0 by omega),
        ite_not]
      exact ⟨rfl, by omega⟩

/-- The text of a decimal conversion. -/
theorem directiveText_decimal (strings : BitVec 64 → CString) (d : Directive) {conversion : BitVec 8}
    (isDecimal : conversion = chr 'd' ∨ conversion = chr 'i' ∨ conversion = chr 'u') (word : BitVec 64) :
    ∃ value : BitVec 64, value.toNat = (decimalValue d conversion word).natAbs ∧
      directiveText strings d conversion word =
        decimalSign d conversion (decimalValue d conversion word) ++
          decText value d.argw d.fzero d.align d.precision := by
  have signed := signed_eq d.asign (signedArgument d.big word)
  rcases isDecimal with rfl | rfl | rfl
  · exact ⟨_, signed.2, congrArg (· ++ _) signed.1⟩
  · exact ⟨_, signed.2, congrArg (· ++ _) signed.1⟩
  · exact ⟨unsignedArgument d.big word, rfl, rfl⟩

/-- For every argument, every width below 2^31 and every precision in 1..99 or none, a decimal
conversion prints the number exactly if the padding does not show and, without the `-` flag, the number
is zero. -/
theorem dec_prints_iff (strings : BitVec 64 → CString) {d : Directive} {conversion : BitVec 8}
    (isDecimal : conversion = chr 'd' ∨ conversion = chr 'i' ∨ conversion = chr 'u')
    (small : d.argw.toNat < 2 ^ 31)
    (precision : d.precision = -1 ∨ 1 ≤ d.precision.toNat ∧ d.precision.toNat ≤ 99)
    (word : BitVec 64) :
    ∃ o, directiveOutput strings d conversion word = some o ∧
      let value := decimalValue d conversion word
      let sign := decimalSign d conversion value
      (PrintsDecimal sign value.natAbs (decPrecision d.precision) d.argw.toNat d.align o.emitted ↔
        DecimalRight sign value.natAbs (decPrecision d.precision) d.argw.toNat d.align d.fzero) := by
  have inRange : d.precision = -1 ∨ d.precision.toNat ≤ 100 := precision.imp_right fun range => by omega
  have atLeastOne : 1 ≤ decPrecision d.precision := by
    rw [decPrecision]
    split
    · exact Nat.le_refl 1
    · rename_i given
      exact (precision.resolve_left given).1
  have noDouble : isDoubleConversion conversion = false := by
    rcases isDecimal with rfl | rfl | rfl <;> decide
  obtain ⟨value, magnitude, text⟩ := directiveText_decimal strings d isDecimal word
  refine ⟨_, directiveOutput_eq strings small inRange noDouble word, ?_⟩
  dsimp only
  rw [putAll_emitted, start_emitted, List.nil_append, text, ← magnitude]
  exact decText_prints_iff atLeastOne

/-- `%-5d` prints 42 with three spaces behind it. -/
theorem dec_prints_iff_example :
    ∃ o, directiveOutput (fun _ => []) { Directive.start with align := false, argw := 5 } (chr 'd') 42 =
      some o ∧
      o.emitted = "42   ".toList.map chr ∧ PrintsDecimal [] 42 1 5 false o.emitted := by
  obtain ⟨o, printed, exactly⟩ :=
    @dec_prints_iff (fun _ => []) { Directive.start with align := false, argw := 5 }
    (chr 'd') (.inl rfl) (by decide) (.inl rfl) 42
  have known : (directiveOutput (fun _ => []) { Directive.start with align := false, argw := 5 }
    (chr 'd') 42).map
      Output.emitted = some ("42   ".toList.map chr) := by decide
  rw [printed] at known
  exact ⟨o, printed, Option.some.inj known, exactly.mpr (.inr ⟨rfl, rfl⟩)⟩

/-- `%d` prints 5 as 0. -/
theorem dec_prints_zero :
    directiveOutput (fun _ => []) Directive.start (chr 'd') 5 =
      some { emitted := [chr '0'], written := 1 } ∧
    decimalValue Directive.start (chr 'd') 5 = 5 ∧ ¬ PrintsDecimal [] 5 1 0 true [chr '0'] := by
  have count : max 1 (digitCount 10 5) = 1 := by
    rw [digitCount_of_lt (by decide)]
    rfl
  refine ⟨by decide, by decide, fun prints => ?_⟩
  cases ((@printsDecimal_right_iff [] 5 1 0 1 count false).mp prints).1

end Voxel.Proofs
