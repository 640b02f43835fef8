/-
Module: Voxel.Proofs.KprintfUnsigned
Layer: Proofs
Purpose: The unsigned conversions of `kvprintf` without width and flags. They go through a signed
  number, so that an argument with the top bit of 64 gets a minus sign; `hh` is scanned as the specifier
  `h`, which has no case.
Trusted boundary: none
Main exports: KOutput.before, UnsignedDirective, PrintsUnsigned, kUnsigned_prints_iff
-/
import Voxel.Kernel.Kprintf
import Voxel.Proofs.FormatScan
import Voxel.Proofs.IntStr
import Voxel.Proofs.PrintfNumbers

namespace Voxel.Proofs

open Voxel.Lib Voxel.Kernel

/-! ## Directives -/

/-- The length modifiers of a number. -/
inductive UnsignedLength
  | plain
  | hh
  | h
  | l
  | ll
  | j
  | z
  deriving DecidableEq

namespace UnsignedLength

/-- How a modifier is written. -/
def text : UnsignedLength → CString
  | plain => []
  | hh => [chr 'h', chr 'h']
  | h => [chr 'h']
  | l => [chr 'l']
  | ll => [chr 'l', chr 'l']
  | j => [chr 'j']
  | z => [chr 'z']

/-- The bits of the type that a modifier asks for. -/
def bits : UnsignedLength → Nat
  | plain => 32
  | hh => 8
  | h => 16
  | l | ll | j | z => 64

end UnsignedLength

/-- The unsigned conversions that take a length. -/
inductive UnsignedConversion
  | u
  | o
  | x
  | X
  deriving DecidableEq

namespace UnsignedConversion

/-- The letter of a conversion. -/
def letter : UnsignedConversion → BitVec 8
  | u => chr 'u'
  | o => chr 'o'
  | x => chr 'x'
  | X => chr 'X'

/-- The base of a conversion. -/
def base : UnsignedConversion → Nat
  | u => 10
  | o => 8
  | x | X => 16

end UnsignedConversion

/-- A directive for an unsigned number or for a pointer, without width and flags. -/
inductive UnsignedDirective
  | number (length : UnsignedLength) (conversion : UnsignedConversion)
  | pointer
  deriving DecidableEq

namespace UnsignedDirective

/-- How a directive is written. -/
def text : UnsignedDirective → CString
  | number length conversion => chr '%' :: (length.text ++ [conversion.letter])
  | pointer => [chr '%', chr 'p']

/-- The bits of the argument that count. -/
def bits : UnsignedDirective → Nat
  | number length _ => length.bits
  | pointer => 64

/-- The base of the digits. -/
def base : UnsignedDirective → Nat
  | number _ conversion => conversion.base
  | pointer => 16

/-- The digits above 9 are capitals, in the numbers that have them. -/
def caps : UnsignedDirective → Bool
  | number _ conversion => conversion ≠ .x
  | pointer => true

/-- The number that is printed for an argument. -/
def value (directive : UnsignedDirective) (word : BitVec 64) : Nat := word.toNat % 2 ^ directive.bits

/-- The modifier `hh`. -/
def isHh : UnsignedDirective → Bool
  | number length _ => length = .hh
  | pointer => false

end UnsignedDirective

/-! ## Output in front of output -/

/-- A text that was handed over before. -/
def KOutput.before (text : CString) (o : KOutput) : KOutput :=
  { emitted := text ++ o.emitted, chars := BitVec.ofNat 32 text.length + o.chars }

/-- A directive prints the digits of its argument and nothing else, takes one argument, and the rest of the
format follows, whatever it is. -/
def PrintsUnsigned (strings : BitVec 64 → CString) (directive : UnsignedDirective) (args : VaList) : Prop :=
  ∃ digits, digits.length = digitCount directive.base (directive.value args.word.1) ∧
    Denotes directive.base (hexDigit directive.caps) digits (directive.value args.word.1) ∧
    ∀ rest, kvprintf strings (directive.text ++ rest) args =
      (kvprintf strings rest args.word.2).map (KOutput.before digits)

variable {strings : BitVec 64 → CString}

theorem before_start (text : CString) : KOutput.before text .start = KOutput.start.putString text := by
  rw [KOutput.before, KOutput.putString, BitVec.add_comm]
  exact congrArg (KOutput.mk · _) (List.append_nil text)

theorem before_putString (text s : CString) (o : KOutput) :
    (KOutput.before text o).putString s = KOutput.before text (o.putString s) := by
  rw [KOutput.before, KOutput.putString, KOutput.putString, KOutput.before, List.append_assoc,
    BitVec.add_assoc]

theorem kNumber_before (text : CString) (d : FormatSpec) (integer : Option (BitVec 64)) (base : Nat)
    (o : KOutput) :
    kNumber d integer base (KOutput.before text o) =
      (kNumber d integer base o).map (KOutput.before text) := by
  cases integer with
  | none => rfl
  | some i =>
      rw [kNumber, kNumber, Option.map_map]
      exact congrArg (Option.map · _) (funext fun s => before_putString text s o)

/-- No directive looks at what was handed over before. -/
theorem kEmitItem_before (text : CString) (item : KItem) (o : KOutput) :
    kEmitItem strings (KOutput.before text o) item =
      (kEmitItem strings o item).map (KOutput.before text) := by
  cases item with
  | char c => exact congrArg some (before_putString text [c] o)
  | directive d specifier argument =>
      unfold kEmitItem kDirectiveOutput
      dsimp only
      repeat' split
      -- numbers, with a prefix or without; characters and strings; no output
      all_goals first
        | rw [before_putString, kNumber_before]
        | rw [kNumber_before]
        | rw [KOutput.putChar, before_putString]
          rfl
        | rw [before_putString]
          rfl
        | rfl

theorem foldlM_before (text : CString) (items : List KItem) (o : KOutput) :
    items.foldlM (kEmitItem strings) (KOutput.before text o) =
      (items.foldlM (kEmitItem strings) o).map (KOutput.before text) := by
  induction items generalizing o with
  | nil => rfl
  | cons item items inductionHypothesis =>
      rw [List.foldlM_cons, List.foldlM_cons, kEmitItem_before]
      cases kEmitItem strings o item with
      | none => rfl
      | some o => exact inductionHypothesis o

/-! ## Scanning -/

/-- The variables of `kvprintf` at the specifier. -/
def UnsignedLength.spec (length : UnsignedLength) : FormatSpec :=
  let letter :=
    match length with
    | .plain => 0
    | .hh => chr 'H'
    | .h => chr 'h'
    | .l => chr 'l'
    | .ll => chr 'q'
    | .j => chr 'j'
    | .z => chr 'z'
  { FormatSpec.start with length := letter, precSpec := 6 }

/-- The specifier of a number is its letter, behind every modifier but `hh`. -/
theorem kScanDirective_number {length : UnsignedLength} (other : length ≠ .hh)
    (conversion : UnsignedConversion) (args : VaList) (rest : List (BitVec 8)) :
    kScanDirective args (length.text ++ conversion.letter :: rest) =
      some (length.spec, args, conversion.letter :: rest) := by
  cases length <;> cases conversion <;> first | rfl | exact absurd rfl other

/-- `p` takes no modifier here. -/
theorem kScanDirective_pointer (args : VaList) (rest : List (BitVec 8)) :
    kScanDirective args (chr 'p' :: rest) =
      some ({ FormatSpec.start with precSpec := 6 }, args, chr 'p' :: rest) := rfl

/-- Behind `hh` the second `h` is the specifier. -/
theorem kScanDirective_hh (conversion : UnsignedConversion) (args : VaList) (rest : List (BitVec 8)) :
    kScanDirective args (UnsignedLength.hh.text ++ conversion.letter :: rest) =
      some (UnsignedLength.hh.spec, args, chr 'h' :: conversion.letter :: rest) := rfl

/-- A directive that takes an argument, at the start of a format. -/
theorem kvprintf_directive {args : VaList} {f : List (BitVec 8)} {rest : CString} {d : FormatSpec}
    {specifier : BitVec 8} {argument : Option (BitVec 64)} {args' : VaList} {text : CString}
    (scanned : kScanDirective args (terminated f) = some (d, args, specifier :: terminated rest))
    (taken : kTakeArgument d specifier args = (argument, args'))
    (printed : kDirectiveOutput strings d specifier (argument.getD 0) .start =
      some (KOutput.start.putString text)) :
    kvprintf strings (chr '%' :: f) args = (kvprintf strings rest args').map (KOutput.before text) := by
  have items : kvprintfItems (chr '%' :: f) args =
      (kvprintfItems rest args').map (.directive d specifier argument :: ·) := by
    have looped := kvprintfLoop_directive scanned
    rw [taken] at looped
    exact looped
  rw [kvprintf, items, kvprintf]
  cases kvprintfItems rest args' with
  | none => rfl
  | some items =>
      rw [Option.map_some, Option.bind_some, Option.bind_some, List.foldlM_cons]
      have emitted : kEmitItem strings .start (.directive d specifier argument) =
          some (KOutput.before text .start) := by
        rw [before_start]
        exact printed
      rw [emitted]
      exact foldlM_before text items .start

/-- A directive that cannot print its argument, at the start of a format. -/
theorem kvprintf_stuck {args : VaList} {f : List (BitVec 8)} {d : FormatSpec} {specifier : BitVec 8}
    {rest : List (BitVec 8)}
    (scanned : kScanDirective args (terminated f) = some (d, args, specifier :: rest))
    (stuck : kDirectiveOutput strings d specifier ((kTakeArgument d specifier args).1.getD 0) .start = none) :
    kvprintf strings (chr '%' :: f) args = none := by
  have looped := kvprintfLoop_directive scanned
  have items : kvprintfItems (chr '%' :: f) args =
      (kvprintfLoop (kTakeArgument d specifier args).2 rest).map
        (.directive d specifier (kTakeArgument d specifier args).1 :: ·) := looped
  rw [kvprintf, items]
  cases kvprintfLoop (kTakeArgument d specifier args).2 rest with
  | none => rfl
  | some items =>
      rw [Option.map_some, Option.bind_some, List.foldlM_cons,
        show kEmitItem strings .start (.directive d specifier _) = none from stuck]
      rfl

/-! ## Digits -/

/-- The base that is passed to `__int_str`. -/
def UnsignedDirective.passedBase : UnsignedDirective → Nat
  | .number _ .u => 10
  | .number _ .o => 8
  | .number _ .x => 17
  | .number _ .X => 16
  | .pointer => 16

theorem passedBase_spec (directive : UnsignedDirective) :
    directive.passedBase ∈ intStrBases ∧ digitBase directive.passedBase = directive.base ∧
      ∀ d < directive.base, digitChar directive.passedBase d = hexDigit directive.caps d := by
  cases directive with
  | number length conversion => cases length <;> cases conversion <;> exact ⟨by decide, rfl, by decide⟩
  | pointer => exact ⟨by decide, rfl, by decide⟩

/-- The argument as `__int_str` gets it. -/
def UnsignedDirective.passed (directive : UnsignedDirective) (word : BitVec 64) : BitVec 64 :=
  BitVec.ofNat 64 (directive.value word)

theorem hexDigit_not_special {caps : Bool} {d : Nat} (small : d < 16) :
    hexDigit caps d ∉ [chr '-', chr 'u', chr 'o', chr 'x', chr 'X'] := by
  have table : ∀ caps, ∀ d < 16, hexDigit caps d ∉ [chr '-', chr 'u', chr 'o', chr 'x', chr 'X'] := by decide
  exact table caps d small

theorem base_le (directive : UnsignedDirective) : 1 < directive.base ∧ directive.base ≤ 16 := by
  cases directive with
  | number length conversion => cases length <;> cases conversion <;> exact ⟨by decide, by decide⟩
  | pointer => exact ⟨by decide, by decide⟩

/-- Digits are neither a sign nor a letter of a directive. -/
theorem digits_not_special {directive : UnsignedDirective} {digits : CString} {n : Nat}
    (denotes : Denotes directive.base (hexDigit directive.caps) digits n) {c : BitVec 8}
    (member : c ∈ digits) :
    c ∉ [chr '-', chr 'u', chr 'o', chr 'x', chr 'X'] := by
  obtain ⟨ds, small, rfl, -⟩ := denotes
  obtain ⟨d, inside, rfl⟩ := List.mem_map.mp (List.mem_reverse.mp member)
  exact hexDigit_not_special (Nat.lt_of_lt_of_le (small d inside) (base_le directive).2)

/-- Without a width nothing is padded. -/
theorem paddingCount_zero {length : Nat} (short : length ≤ 65) : paddingCount 0 length = 0 := by
  have table : ∀ length ≤ 65, paddingCount 0 length = 0 := by decide
  exact table length short

/-- The string of a number without width and flags. -/
theorem kIntStr_plain {base : Nat} (allowed : base ∈ intStrBases) {i : BitVec 64}
    (above : i ≠ BitVec.intMin 64)
    (length : UnsignedLength) : kIntStr length.spec i base = some (naturalText i base false false) := by
  have short := naturalText_short allowed i false false
  have isText := naturalText_isCString allowed i false false
  have plain : paddedText i base false false 0 false false = naturalText i base false false := by
    rw [paddedText, if_neg Bool.false_ne_true, padText, paddingCount_zero short]
    rfl
  have size : intStrBufferSize = 256 := rfl
  have buffer : intStrBuffer i base false false 0 false false =
    some (filled (naturalText i base false false)) := by
    rw [intStrBuffer_fits allowed above (by rw [plain]; omega), plain]
  have spec : kIntStr length.spec i base = (intStrBuffer i base false false 0 false false).bind fun b =>
      (strlenField b).map fun _ => cstringAt b 0 := by
    cases length <;> rfl
  rw [spec, buffer, Option.bind_some, strlenField_filled isText (by omega), Option.map_some,
    cstringAt_filled isText]

theorem kIntStr_intMin {base : Nat} (allowed : base ∈ intStrBases) (length : UnsignedLength) :
    kIntStr length.spec (BitVec.intMin 64) base = none := by
  have spec : kIntStr length.spec (BitVec.intMin 64) base =
      (intStrBuffer (BitVec.intMin 64) base false false 0 false false).bind fun b =>
        (strlenField b).map fun _ => cstringAt b 0 := by
    cases length <;> rfl
  rw [spec, intStrBuffer_intMin allowed]
  rfl

/-- The variables of a directive at its specifier. -/
def UnsignedDirective.spec : UnsignedDirective → FormatSpec
  | number length _ => length.spec
  | pointer => UnsignedLength.plain.spec

/-- The specifier of a directive. -/
def UnsignedDirective.letter : UnsignedDirective → BitVec 8
  | number _ conversion => conversion.letter
  | pointer => chr 'p'

/-- A number is cut to the width of its modifier. -/
theorem kUnsignedArgument_eq (length : UnsignedLength) (word : BitVec 64) :
    kUnsignedArgument length.spec.length word = some (BitVec.ofNat 64 (word.toNat % 2 ^ length.bits)) := by
  have below := word.isLt
  cases length
  case plain | hh | h =>
    refine congrArg some (BitVec.eq_of_toNat_eq ?_)
    simp only [BitVec.toNat_setWidth, BitVec.toNat_ofNat, UnsignedLength.bits]
  all_goals
    refine congrArg some (BitVec.eq_of_toNat_eq ?_)
    rw [BitVec.toNat_ofNat, UnsignedLength.bits, Nat.mod_eq_of_lt below, Nat.mod_eq_of_lt below]

/-- A directive prints the number that `__int_str` gets. -/
theorem kDirectiveOutput_unsigned (directive : UnsignedDirective) (word : BitVec 64) :
    kDirectiveOutput strings directive.spec directive.letter word .start =
      (kIntStr directive.spec (directive.passed word) directive.passedBase).map KOutput.start.putString := by
  cases directive with
  | number length conversion =>
      have output : kDirectiveOutput strings length.spec conversion.letter word .start =
          kNumber length.spec (kUnsignedArgument length.spec.length word)
            (UnsignedDirective.number length conversion).passedBase .start := by
        cases conversion <;> rfl
      refine output.trans ?_
      rw [kUnsignedArgument_eq]
      rfl
  | pointer =>
      have output : kDirectiveOutput strings UnsignedLength.plain.spec (chr 'p') word .start =
          kNumber UnsignedLength.plain.spec
            (kUnsignedArgument UnsignedLength.z.spec.length word) 16 .start := rfl
      refine output.trans ?_
      rw [kUnsignedArgument_eq]
      rfl

/-- What a specifier takes. -/
theorem kTakeArgument_unsigned (directive : UnsignedDirective) (args : VaList) :
    kTakeArgument directive.spec directive.letter args = (some args.word.1, args.word.2) := by
  cases directive with
  | number length conversion => cases length <;> cases conversion <;> rfl
  | pointer => rfl

theorem kScanDirective_unsigned {directive : UnsignedDirective} (other : directive.isHh = false)
    (args : VaList) (rest : CString) :
    ∃ f, directive.text ++ rest = chr '%' :: f ∧
      kScanDirective args (terminated f) =
        some (directive.spec, args, directive.letter :: terminated rest) := by
  cases directive with
  | number length conversion =>
      refine ⟨length.text ++ conversion.letter :: rest, ?_, ?_⟩
      · rw [UnsignedDirective.text, List.cons_append, List.append_assoc, List.singleton_append]
      · have notHh : length ≠ .hh := fun same => by
          rw [same] at other
          cases other
        rw [terminated, List.append_assoc, List.cons_append]
        exact kScanDirective_number notHh conversion args (terminated rest)
  | pointer => exact ⟨chr 'p' :: rest, rfl, kScanDirective_pointer args (terminated rest)⟩

/-- The argument has the top bit only if all 64 bits count. -/
theorem passed_spec (directive : UnsignedDirective) (word : BitVec 64) :
    (directive.passed word).toNat = directive.value word ∧
      ((directive.passed word).msb = true ↔ directive.bits = 64 ∧ 2 ^ 63 ≤ word.toNat) := by
  have below := word.isLt
  have small : directive.value word < 2 ^ 64 := Nat.lt_of_le_of_lt (Nat.mod_le _ _) below
  have number : (directive.passed word).toNat = directive.value word := by
    rw [UnsignedDirective.passed, BitVec.toNat_ofNat, Nat.mod_eq_of_lt small]
  refine ⟨number, ?_⟩
  rw [BitVec.msb_eq_true_iff_two_mul_ge, number, UnsignedDirective.value]
  have cases_ : directive.bits = 64 ∨ directive.bits = 32 ∨ directive.bits = 16 ∨ directive.bits = 8 := by
    cases directive with
    | number length conversion => cases length <;> simp [UnsignedDirective.bits, UnsignedLength.bits]
    | pointer => exact .inl rfl
  rcases cases_ with bits | bits | bits | bits
  all_goals
    rw [bits]
    omega

theorem spec_plain (directive : UnsignedDirective) : ∃ length : UnsignedLength, directive.spec =
    length.spec := by
  cases directive with
  | number length conversion => exact ⟨length, rfl⟩
  | pointer => exact ⟨.plain, rfl⟩

/-! ## What is printed -/

/-- A directive prints its argument as a signed number. -/
theorem kvprintf_unsigned {directive : UnsignedDirective} (other : directive.isHh = false) (args : VaList)
    (above : directive.passed args.word.1 ≠ BitVec.intMin 64) (rest : CString) :
    kvprintf strings (directive.text ++ rest) args =
      (kvprintf strings rest args.word.2).map
        (KOutput.before (naturalText (directive.passed args.word.1) directive.passedBase false false)) := by
  obtain ⟨f, text, scanned⟩ := kScanDirective_unsigned other args rest
  obtain ⟨length, spec⟩ := spec_plain directive
  rw [text]
  refine kvprintf_directive scanned (kTakeArgument_unsigned directive args) ?_
  rw [Option.getD_some, kDirectiveOutput_unsigned, spec, kIntStr_plain (passedBase_spec directive).1 above]
  rfl

/-- The least number has no text. -/
theorem kvprintf_intMin {directive : UnsignedDirective} (other : directive.isHh = false) (args : VaList)
    (least : directive.passed args.word.1 = BitVec.intMin 64) (rest : CString) :
    kvprintf strings (directive.text ++ rest) args = none := by
  obtain ⟨f, text, scanned⟩ := kScanDirective_unsigned other args rest
  obtain ⟨length, spec⟩ := spec_plain directive
  rw [text]
  refine kvprintf_stuck scanned ?_
  rw [kTakeArgument_unsigned, Option.getD_some, kDirectiveOutput_unsigned, spec, least,
    kIntStr_intMin (passedBase_spec directive).1]
  rfl

/-- Behind `%hh` the letter of the conversion is printed as a character. -/
theorem kvprintf_hh (conversion : UnsignedConversion) (args : VaList) (rest : CString) :
    kvprintf strings ((UnsignedDirective.number .hh conversion).text ++ rest) args =
      (kvprintf strings (conversion.letter :: rest) args).map (KOutput.before []) := by
  have text : (UnsignedDirective.number .hh conversion).text ++ rest =
      chr '%' :: (UnsignedLength.hh.text ++ conversion.letter :: rest) := rfl
  rw [text]
  have taken : kTakeArgument UnsignedLength.hh.spec (chr 'h') args = (none, args) := rfl
  exact kvprintf_directive (kScanDirective_hh conversion args (terminated rest)) taken rfl

theorem kvprintf_nil (args : VaList) : kvprintf strings [] args = some .start := by
  rw [kvprintf, kvprintfItems, terminated, List.nil_append, kvprintfLoop, if_pos rfl]
  rfl

theorem kvprintf_char {c : BitVec 8} (notEnd : c ≠ nul) (other : c ≠ chr '%') (args : VaList)
    (rest : CString) :
    kvprintf strings (c :: rest) args = (kvprintf strings rest args).map (KOutput.before [c]) := by
  have items : kvprintfItems (c :: rest) args = (kvprintfItems rest args).map (.char c :: ·) :=
    kvprintfLoop_text args (terminated rest) notEnd other
  rw [kvprintf, items, kvprintf]
  cases kvprintfItems rest args with
  | none => rfl
  | some items =>
      rw [Option.map_some, Option.bind_some, Option.bind_some, List.foldlM_cons]
      have emitted : kEmitItem strings .start (.char c) = some (KOutput.before [c] .start) := by
        rw [before_start]
        rfl
      rw [emitted]
      exact foldlM_before [c] items .start

/-- The text that is printed for an argument without the top bit is its numeral. -/
theorem naturalText_positive {directive : UnsignedDirective} {word : BitVec 64}
    (positive : (directive.passed word).msb = false) :
    naturalText (directive.passed word) directive.passedBase false false =
      numeral directive.base (hexDigit directive.caps) (digitCount directive.base (directive.value word))
        (directive.value word) := by
  obtain ⟨-, base, chars⟩ := passedBase_spec directive
  have number := (passed_spec directive word).1
  have magnitude : (directive.passed word).toInt.natAbs = directive.value word := by
    rw [BitVec.toInt_eq_msb_cond, positive, if_neg Bool.false_ne_true, number]
    rfl
  have sign : intStrSign (directive.passed word) false false = [] := by
    rw [intStrSign, slt_zero_of_msb positive]
    rfl
  rw [naturalText, sign, List.nil_append, magnitude, base]
  exact numeral_congr (Nat.lt_of_succ_lt (base_le directive).1) chars _ _

/-- The text that is printed for an argument with the top bit begins with a minus sign. -/
theorem naturalText_negative {directive : UnsignedDirective} {word : BitVec 64}
    (negative : (directive.passed word).msb = true) :
    chr '-' ∈ naturalText (directive.passed word) directive.passedBase false false := by
  have sign : intStrSign (directive.passed word) false false = [chr '-'] := by
    have top : (directive.passed word).slt 0 = true := BitVec.slt_zero_eq_msb.trans negative
    rw [intStrSign, top]
    rfl
  rw [naturalText, sign]
  exact List.mem_cons_self

/-- Two outputs of an empty rest. -/
theorem before_start_inj {s t : CString} {o : Option KOutput}
    (first : o = (some KOutput.start).map (KOutput.before s))
    (second : o = (some KOutput.start).map (KOutput.before t)) : s = t := by
  have same := Option.some.inj (first.symm.trans second)
  rw [before_start, before_start] at same
  exact congrArg KOutput.emitted same

/-- A directive prints the digits of its argument if and only if its modifier is not `hh` and an
argument of 64 bits does not have the top bit. -/
theorem kUnsigned_prints_iff (strings : BitVec 64 → CString) (directive : UnsignedDirective) (args : VaList) :
    PrintsUnsigned strings directive args ↔
      directive.isHh = false ∧ (directive.bits = 64 → args.word.1.toNat < 2 ^ 63) := by
  obtain ⟨-, top⟩ := passed_spec directive args.word.1
  constructor
  · rintro ⟨digits, -, denotes, prints⟩
    have printed := prints []
    rw [kvprintf_nil] at printed
    have other : directive.isHh = false := by
      cases directive with
      | number length conversion =>
          by_cases hh : length = .hh
          · subst hh
            have letter : conversion.letter ≠ nul ∧ conversion.letter ≠ chr '%' ∧
                conversion.letter ∈ [chr '-', chr 'u', chr 'o', chr 'x', chr 'X'] := by
              cases conversion <;> decide
            rw [kvprintf_hh, kvprintf_char letter.1 letter.2.1, kvprintf_nil, Option.map_map] at printed
            have same : [conversion.letter] = digits :=
              congrArg KOutput.emitted (Option.some.inj printed) |>.trans (List.append_nil digits)
            subst same
            exact absurd letter.2.2 (digits_not_special denotes List.mem_cons_self)
          · exact decide_eq_false hh
      | pointer => rfl
    refine ⟨other, fun long => ?_⟩
    by_contra large
    have negative := top.mpr ⟨long, Nat.le_of_not_lt large⟩
    by_cases least : directive.passed args.word.1 = BitVec.intMin 64
    · rw [kvprintf_intMin other args least] at printed
      cases printed
    · rw [kvprintf_unsigned other args least, kvprintf_nil] at printed
      have same := before_start_inj rfl printed
      rw [← same] at denotes
      exact digits_not_special denotes (naturalText_negative negative) List.mem_cons_self
  · rintro ⟨other, small⟩
    have positive : (directive.passed args.word.1).msb = false := by
      rw [← Bool.not_eq_true, top]
      rintro ⟨long, large⟩
      exact absurd (small long) (Nat.not_lt.mpr large)
    have above : directive.passed args.word.1 ≠ BitVec.intMin 64 := by
      intro least
      rw [least] at positive
      cases positive
    have base := (base_le directive).1
    refine ⟨_, numeral_length _ _, numeral_denotes (Nat.lt_of_succ_lt base) (lt_pow_digitCount base _), ?_⟩
    intro rest
    rw [kvprintf_unsigned other args above, naturalText_positive positive]

/-- `%p` of an address of the kernel prints `-80000000`, which are not the digits of the address. -/
theorem kUnsigned_pointer :
    let args : VaList := { words := fun _ => 0xFFFFFFFF80000000, doubles := fun _ => 0 }
    (kvprintf (fun _ => []) UnsignedDirective.pointer.text args).map KOutput.emitted =
      some ("-80000000".toList.map chr) ∧
    ¬ PrintsUnsigned (fun _ => []) .pointer args := by
  intro args
  have printed := @kvprintf_unsigned (fun _ => []) .pointer rfl args (by decide) []
  rw [List.append_nil, kvprintf_nil] at printed
  have text : naturalText (UnsignedDirective.passed .pointer args.word.1) 16 false false =
      "-80000000".toList.map chr := by decide
  refine ⟨?_, ?_⟩
  · rw [printed]
    exact congrArg some ((List.append_nil _).trans text)
  · rintro ⟨digits, -, denotes, prints⟩
    have same := before_start_inj printed
      (by rw [← kvprintf_nil args.word.2, ← prints [], List.append_nil])
    rw [← same] at denotes
    exact digits_not_special denotes (naturalText_negative (by decide)) List.mem_cons_self

end Voxel.Proofs
