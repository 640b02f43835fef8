/-
Module: Voxel.Proofs.IntStr
Layer: Proofs
Purpose: What `__int_str` leaves in a buffer of zeros: the sign, the digits and the padding, as long as they
  and a terminator fit. The number must have an absolute value.
Trusted boundary: none
Main exports: filled, padField_filled, storeDigits_spec, naturalText, paddedText, intStrBuffer_fits,
  intStrBuffer_full
-/
import Voxel.Kernel.IntStr
import Voxel.Lib.Numeral

namespace Voxel.Proofs

open Voxel.Lib Voxel.Kernel

/-! ## Arrays with a text and zeros behind it -/

/-- An array of 256 bytes with a text at its start. -/
def filled (text : CString) : List (BitVec 8) :=
  text ++ List.replicate (intStrBufferSize - text.length) nul

variable {text : CString} {c : BitVec 8}

theorem filled_length (fits : text.length ≤ intStrBufferSize) : (filled text).length = intStrBufferSize := by
  rw [filled, List.length_append, List.length_replicate]
  omega

/-- Room behind the text is a zero and then more zeros. -/
theorem filled_room (room : text.length < intStrBufferSize) :
    filled text = text ++ nul :: List.replicate (intStrBufferSize - text.length - 1) nul := by
  obtain ⟨rest, restEq⟩ := Nat.exists_eq_add_of_lt room
  have count : intStrBufferSize - text.length = rest + 1 := by omega
  rw [filled, count, List.replicate_succ, Nat.add_sub_cancel]

/-- The first terminator ends a string. -/
theorem strlenField_terminated (isString : IsCString text) (rest : CString) :
    strlenField (text ++ nul :: rest) = some text.length := by
  rw [strlenField]
  induction text with
  | nil => simp [List.idxOf?_cons]
  | cons c text inductionHypothesis =>
      have other : (c == nul) = false := beq_eq_false_iff_ne.mpr isString.head_ne
      rw [List.cons_append, List.idxOf?_cons, other, inductionHypothesis isString.tail]
      rfl

theorem strlenField_filled (isString : IsCString text) (room : text.length < intStrBufferSize) :
    strlenField (filled text) = some text.length := by
  rw [filled_room room]
  exact strlenField_terminated isString _

theorem cstringAt_filled (isString : IsCString text) : cstringAt (filled text) 0 = text := by
  rw [cstringAt, List.drop_zero]
  by_cases room : text.length < intStrBufferSize
  · rw [filled_room room]
    exact takeWhile_isCString isString _
  · rw [filled, Nat.sub_eq_zero_of_le (Nat.le_of_not_lt room), List.replicate_zero, List.append_nil,
      List.takeWhile_eq_self_iff]
    exact fun c member => decide_eq_true fun isNul => isString (isNul ▸ member)

theorem storeField_filled (room : text.length < intStrBufferSize) :
    storeField (filled text) text.length c = some (filled (text ++ [c])) := by
  have inside : text.length < (filled text).length := by
    rw [filled_length (Nat.le_of_lt room)]
    exact room
  rw [storeField, if_pos inside, filled_room room, List.set_append_right _ _ (Nat.le_refl _), Nat.sub_self,
    List.set_cons_zero, filled, List.length_append, List.length_singleton, List.append_assoc,
    List.singleton_append, Nat.sub_sub]

/-- A text is copied behind the one that is there. -/
theorem strcpyFrom_filled {src : CString} (room : text.length + src.length < intStrBufferSize) :
    strcpyFrom (filled text) text.length src = some (filled (text ++ src)) := by
  have length : (filled text).length = intStrBufferSize := filled_length (by omega)
  have whole : (text ++ src).length < intStrBufferSize := by
    rw [List.length_append]
    exact room
  rw [strcpyFrom_eq (by rw [length]; omega), if_pos (by rw [length]; exact room), filled_room whole, filled,
    List.take_left, Nat.add_assoc, List.drop_append, List.drop_eq_nil_of_le (by omega), List.nil_append,
    List.drop_replicate, List.length_append]
  congr 4
  omega

/-- A longer text is copied over the one that is there. -/
theorem strcpyFrom_over {src : CString} (longer : text.length ≤ src.length)
    (room : src.length < intStrBufferSize) : strcpyFrom (filled text) 0 src = some (filled src) := by
  have length : (filled text).length = intStrBufferSize := filled_length (by omega)
  rw [strcpyFrom_eq (Nat.zero_le _), Nat.zero_add, if_pos (by rw [length]; exact room), List.take_zero,
    List.nil_append, filled_room room, filled, List.drop_append, List.drop_eq_nil_of_le (by omega),
    List.nil_append, List.drop_replicate]
  congr 4
  omega

/-! ## Padding -/

theorem isCString_snoc (isString : IsCString text) (notEnd : c ≠ nul) : IsCString (text ++ [c]) := by
  intro member
  rcases List.mem_append.mp member with inside | last
  · exact isString inside
  · exact notEnd (List.mem_singleton.mp last).symm

/-- Padding goes behind the text, as long as every `strlen` finds a terminator. -/
theorem padField_filled (isString : IsCString text) (notEnd : c ≠ nul) {padding : Nat}
    (fits : text.length + padding ≤ intStrBufferSize) :
    padField c padding (filled text) = some (filled (text ++ List.replicate padding c)) := by
  induction padding generalizing text with
  | zero => rw [padField, List.replicate_zero, List.append_nil]
  | succ padding inductionHypothesis =>
      rw [padField, strlenField_filled isString (by omega), Option.bind_some,
        storeField_filled (by omega), Option.bind_some,
        inductionHypothesis (isCString_snoc isString notEnd)
          (by rw [List.length_append, List.length_singleton]; omega),
        List.append_assoc, List.singleton_append, List.replicate_succ]

/-- Padding alone. -/
theorem padField_empty (notEnd : c ≠ nul) {padding : Nat} (fits : padding ≤ intStrBufferSize) :
    padField c padding (filled []) = some (filled (List.replicate padding c)) := by
  have padded := @padField_filled [] c List.not_mem_nil notEnd padding (by rw [List.length_nil]; omega)
  rw [List.nil_append] at padded
  exact padded

/-! ## Digits -/

variable {i : BitVec 64} {base : Nat}

/-- A division of a number that is not negative. -/
theorem sdiv_toNat (positive : i.msb = false) (small : base < 2 ^ 63) :
    (i.sdiv (BitVec.ofNat 64 base)).toNat = i.toNat / base ∧ (i.sdiv (BitVec.ofNat 64 base)).msb = false := by
  have baseValue : (BitVec.ofNat 64 base).toNat = base := by
    rw [BitVec.toNat_ofNat]
    omega
  have basePositive : (BitVec.ofNat 64 base).msb = false := by
    rw [BitVec.msb_eq_false_iff_two_mul_lt, baseValue]
    omega
  have quotient : (i.sdiv (BitVec.ofNat 64 base)).toNat = i.toNat / base := by
    rw [BitVec.sdiv_eq, positive, basePositive]
    exact (BitVec.toNat_udiv ..).trans (by rw [baseValue])
  refine ⟨quotient, ?_⟩
  rw [BitVec.msb_eq_false_iff_two_mul_lt] at positive ⊢
  have := Nat.div_le_self i.toNat base
  omega

/-- The remainder of a number that is not negative. -/
theorem srem_toNat (positive : i.msb = false) (small : base < 2 ^ 63) :
    (i.srem (BitVec.ofNat 64 base)).toNat = i.toNat % base ∧
      (i.srem (BitVec.ofNat 64 base)).msb = false := by
  have baseValue : (BitVec.ofNat 64 base).toNat = base := by
    rw [BitVec.toNat_ofNat]
    omega
  have basePositive : (BitVec.ofNat 64 base).msb = false := by
    rw [BitVec.msb_eq_false_iff_two_mul_lt, baseValue]
    omega
  have remainder : (i.srem (BitVec.ofNat 64 base)).toNat = i.toNat % base := by
    rw [BitVec.srem_eq, positive, basePositive]
    exact (BitVec.toNat_umod ..).trans (by rw [baseValue])
  refine ⟨remainder, ?_⟩
  rw [BitVec.msb_eq_false_iff_two_mul_lt] at positive ⊢
  have := Nat.mod_le i.toNat base
  omega

theorem slt_zero_of_msb (positive : i.msb = false) : i.slt 0 = false := by
  show i.slt 0#64 = false
  rw [BitVec.slt_zero_eq_msb, positive]

/-- The last digit is reached when nothing is left of the number. -/
theorem sdiv_eq_zero_iff (some_ : 0 < base) (small : base < 2 ^ 63) (positive : i.msb = false) :
    i.sdiv (BitVec.ofNat 64 base) = 0 ↔ i.toNat < base := by
  rw [← BitVec.toNat_inj, (sdiv_toNat positive small).1, ← Nat.div_eq_zero_iff_lt some_]
  rfl

/-- The digits that the first loop counts. -/
theorem countDigits_eq (base_gt : 1 < base) (small : base < 2 ^ 63) {rounds : Nat} (positive : i.msb = false)
    (enough : i.toNat < base ^ rounds) (some_ : 0 < rounds) (p : Nat) :
    countDigits base rounds i p = p + digitCount base i.toNat := by
  induction rounds generalizing i p with
  | zero => omega
  | succ rounds inductionHypothesis =>
      obtain ⟨quotient, stillPositive⟩ := sdiv_toNat positive small
      rw [countDigits]
      by_cases last : i.toNat < base
      · rw [if_pos ((sdiv_eq_zero_iff (by omega) small positive).mpr last), digitCount_of_lt last]
      · have more := mt (sdiv_eq_zero_iff (by omega) small positive).mp last
        have higher : i.toNat / base < base ^ rounds := by
          rw [Nat.div_lt_iff_lt_mul (by omega), ← Nat.pow_succ]
          exact enough
        have someRounds : 0 < rounds := by
          rcases Nat.eq_zero_or_pos rounds with rfl | some_
          · rw [Nat.zero_add, Nat.pow_one] at enough
            exact absurd enough last
          · exact some_
        rw [if_neg more, inductionHypothesis stillPositive (by rw [quotient]; exact higher) someRounds,
          quotient, digitCount_of_le base_gt (Nat.le_of_not_lt last)]
        omega

/-- The second loop stores the digits up to the place where the first one has begun. -/
theorem storeDigits_eq {digit : List (BitVec 8)} (base_gt : 1 < base) (table : base ≤ digit.length)
    (small : base < 2 ^ 63) {rounds n : Nat} (positive : i.msb = false)
    (count : n = digitCount base i.toNat) (enough : n ≤ rounds) (front back : List (BitVec 8))
    {middle : List (BitVec 8)} (length : middle.length = n) :
    storeDigits digit base rounds (front.length + n) i (front ++ middle ++ back) =
      some (front ++ numeral base (digit.getD · nul) n i.toNat ++ back) := by
  induction n generalizing i rounds middle back with
  | zero => rw [digitCount] at count; omega
  | succ n inductionHypothesis =>
      obtain ⟨rounds, rfl⟩ : ∃ more, rounds = more + 1 := ⟨rounds - 1, by omega⟩
      obtain ⟨quotient, stillPositive⟩ := sdiv_toNat positive small
      obtain ⟨remainder, remPositive⟩ := srem_toNat positive small
      have inTable : i.toNat % base < digit.length :=
        Nat.lt_of_lt_of_le (Nat.mod_lt _ (by omega)) table
      have found : digitOf digit base i = some (digit.getD (i.toNat % base) nul) := by
        rw [digitOf, slt_zero_of_msb remPositive, if_neg Bool.false_ne_true, remainder,
          List.getElem?_eq_getElem inTable, List.getD_eq_getElem _ _ inTable]
      obtain ⟨kept, last, rfl⟩ : ∃ kept last, middle = kept ++ [last] :=
        ⟨middle.dropLast, middle.getLast (by rintro rfl; cases length),
          (List.dropLast_append_getLast _).symm⟩
      rw [List.length_append, List.length_singleton] at length
      have keptLength : kept.length = n := by omega
      have place : front.length + (n + 1) - 1 = (front ++ kept).length := by
        rw [List.length_append]
        omega
      have stored : storeField (front ++ (kept ++ [last]) ++ back) (front.length + (n + 1) - 1)
          (digit.getD (i.toNat % base) nul) =
            some (front ++ kept ++ digit.getD (i.toNat % base) nul :: back) := by
        rw [← List.append_assoc, List.append_assoc _ [last], List.singleton_append, place, storeField,
          if_pos (by simp),
          List.set_append_right _ _ (Nat.le_refl _), Nat.sub_self, List.set_cons_zero]
      rw [storeDigits, found, Option.bind_some, stored, Option.bind_some, numeral]
      by_cases single : i.toNat < base
      · have none_ : n = 0 := by
          rw [digitCount_of_lt single] at count
          omega
        subst none_
        rw [List.length_eq_zero_iff.mp keptLength,
          if_pos ((sdiv_eq_zero_iff (by omega) small positive).mpr single)]
        simp [numeral]
      · have more := mt (sdiv_eq_zero_iff (by omega) small positive).mp single
        rw [digitCount_of_le base_gt (Nat.le_of_not_lt single)] at count
        have rest := @inductionHypothesis _ rounds stillPositive (by rw [quotient]; omega) (by omega)
          (digit.getD (i.toNat % base) nul :: back) kept keptLength
        rw [if_neg more, show front.length + (n + 1) - 1 = front.length + n by omega, rest, quotient]
        simp

/-! ## The text of a number -/

/-- The bases that `kvprintf` passes. -/
def intStrBases : List Nat := [8, 10, 16, 17]

/-- The base in which a number is written. -/
def digitBase (base : Nat) : Nat := (intStrTable base).2

/-- The character of a digit. -/
def digitChar (base d : Nat) : BitVec 8 := (intStrTable base).1.getD d nul

/-- The sign and the digits. -/
def naturalText (i : BitVec 64) (base : Nat) (plusSign spaceSign : Bool) : CString :=
  intStrSign i plusSign spaceSign ++
    numeral (digitBase base) (digitChar base) (digitCount (digitBase base) i.toInt.natAbs) i.toInt.natAbs

/-- The padding of a text. -/
def padText (length : Nat) (paddingNo : BitVec 32) (zeroPad : Bool) : CString :=
  List.replicate (paddingCount paddingNo length) (if zeroPad then chr '0' else chr ' ')

/-- The text with its padding. -/
def paddedText (i : BitVec 64) (base : Nat) (plusSign spaceSign : Bool) (paddingNo : BitVec 32)
    (justify zeroPad : Bool) : CString :=
  let text := naturalText i base plusSign spaceSign
  if justify then text ++ padText text.length paddingNo zeroPad
  else padText text.length paddingNo zeroPad ++ text

/-- What the table of a base has. -/
theorem intStrTable_spec (allowed : base ∈ intStrBases) :
    1 < digitBase base ∧ digitBase base ≤ 16 ∧ (intStrTable base).1.length = 32 ∧
      ∀ d < digitBase base, digitChar base d ∉ [nul, chr '-', chr '+', chr ' '] := by
  have table : ∀ base ∈ intStrBases, 1 < digitBase base ∧ digitBase base ≤ 16 ∧
      (intStrTable base).1.length = 32 ∧
      ∀ d < digitBase base, digitChar base d ∉ [nul, chr '-', chr '+', chr ' '] := by decide
  exact table base allowed

theorem numeral_mem {b : Nat} {digit : Nat → BitVec 8} (some_ : 0 < b) {width n : Nat}
    (member : c ∈ numeral b digit width n) : ∃ d < b, c = digit d := by
  induction width generalizing n with
  | zero => cases member
  | succ width inductionHypothesis =>
      rcases List.mem_append.mp member with front | last
      · exact inductionHypothesis front
      · exact ⟨_, Nat.mod_lt n some_, List.mem_singleton.mp last⟩

/-- The sign of a number that has an absolute value. -/
theorem magnitude_eq (above : i ≠ BitVec.intMin 64) :
    (if i.slt 0 then i * -1 else i).msb = false ∧
      (if i.slt 0 then i * -1 else i).toNat = i.toInt.natAbs := by
  have sign : i.slt 0 = i.msb := BitVec.slt_zero_eq_msb
  have cond := BitVec.toInt_eq_msb_cond i
  have least : i.toNat ≠ 2 ^ 63 := fun same => above (BitVec.eq_of_toNat_eq same)
  have below := i.isLt
  rw [sign]
  cases negative : i.msb with
  | false =>
      rw [negative, if_neg Bool.false_ne_true] at cond
      rw [if_neg Bool.false_ne_true]
      exact ⟨negative, by omega⟩
  | true =>
      have large := BitVec.msb_eq_true_iff_two_mul_ge.mp negative
      have value : (i * -1).toNat = 2 ^ 64 - i.toNat := by
        rw [show i * -1 = -i by rw [BitVec.mul_neg]; simp, BitVec.toNat_neg]
        omega
      rw [if_pos negative] at cond
      rw [if_pos rfl]
      exact ⟨BitVec.msb_eq_false_iff_two_mul_lt.mpr (by omega), by omega⟩

theorem intStrSign_mem {plusSign spaceSign : Bool} (member : c ∈ intStrSign i plusSign spaceSign) :
    c ∈ [chr '-', chr '+', chr ' '] := by
  unfold intStrSign at member
  repeat' split at member
  all_goals simp_all

theorem intStrSign_length (i : BitVec 64) (plusSign spaceSign : Bool) :
    (intStrSign i plusSign spaceSign).length ≤ 1 := by
  unfold intStrSign
  repeat' split
  all_goals decide

section

variable {plusSign spaceSign : Bool}

theorem digitCount_magnitude (allowed : base ∈ intStrBases) (i : BitVec 64) :
    digitCount (digitBase base) i.toInt.natAbs ≤ 64 ∧ i.toInt.natAbs < digitBase base ^ 64 := by
  obtain ⟨base_gt, -⟩ := intStrTable_spec allowed
  have bound : i.toInt.natAbs < 2 ^ 64 := by
    have := i.isLt
    have := BitVec.toInt_eq_toNat_cond i
    split at this <;> omega
  have fits : i.toInt.natAbs < digitBase base ^ 64 :=
    Nat.lt_of_lt_of_le bound (Nat.pow_le_pow_left base_gt 64)
  exact ⟨(digitCount_le_iff base_gt (by decide)).mpr fits, fits⟩

theorem naturalText_length (i : BitVec 64) (base : Nat) (plusSign spaceSign : Bool) :
    (naturalText i base plusSign spaceSign).length =
      (intStrSign i plusSign spaceSign).length + digitCount (digitBase base) i.toInt.natAbs := by
  rw [naturalText, List.length_append, numeral_length]

theorem naturalText_short (allowed : base ∈ intStrBases) (i : BitVec 64) (plusSign spaceSign : Bool) :
    (naturalText i base plusSign spaceSign).length ≤ 65 := by
  have sign := intStrSign_length i plusSign spaceSign
  have digits := (digitCount_magnitude allowed i).1
  rw [naturalText_length]
  omega

theorem naturalText_isCString (allowed : base ∈ intStrBases) (i : BitVec 64) (plusSign spaceSign : Bool) :
    IsCString (naturalText i base plusSign spaceSign) := by
  intro member
  rcases List.mem_append.mp member with inSign | inDigits
  · exact absurd (intStrSign_mem inSign) (by decide)
  · obtain ⟨base_gt, -, -, chars⟩ := intStrTable_spec allowed
    obtain ⟨d, small, isNul⟩ := numeral_mem (by omega) inDigits
    exact chars d small (isNul ▸ List.mem_cons_self)

/-- The sign is stored into the empty buffer. -/
theorem storeSign (i : BitVec 64) (plusSign spaceSign : Bool) :
    (intStrSign i plusSign spaceSign).foldlM (fun b c => storeField b 0 c) (filled []) =
      some (filled (intStrSign i plusSign spaceSign)) := by
  have length := intStrSign_length i plusSign spaceSign
  generalize intStrSign i plusSign spaceSign = sign at length
  match sign, length with
  | [], _ => rfl
  | [c], _ =>
      have stored : storeField (filled []) 0 c = some (filled [c]) := @storeField_filled [] c (by decide)
      rw [List.foldlM_cons, stored]
      rfl

/-- The terminator is there before it is stored. -/
theorem storeField_terminator {p : Nat} (behind : text.length ≤ p) (inside : p < intStrBufferSize) :
    storeField (filled text) p nul = some (filled text) := by
  have length : (filled text).length = intStrBufferSize := filled_length (by omega)
  rw [storeField, if_pos (by rw [length]; exact inside), filled, List.set_append_right _ _ behind,
    List.set_replicate_self]

/-- Up to the padding, `__int_str` leaves the sign and the digits. -/
theorem storeDigits_filled (allowed : base ∈ intStrBases) (above : i ≠ BitVec.intMin 64) :
    storeDigits (intStrTable base).1 (digitBase base) 64
        ((intStrSign i plusSign spaceSign).length + digitCount (digitBase base) i.toInt.natAbs)
        (if i.slt 0 then i * -1 else i) (filled (intStrSign i plusSign spaceSign)) =
      some (filled (naturalText i base plusSign spaceSign)) := by
  obtain ⟨base_gt, small, table, -⟩ := intStrTable_spec allowed
  obtain ⟨positive, magnitude⟩ := magnitude_eq above
  have few := (digitCount_magnitude allowed i).1
  have short := intStrSign_length i plusSign spaceSign
  have shape : filled (intStrSign i plusSign spaceSign) = intStrSign i plusSign spaceSign ++
      List.replicate (digitCount (digitBase base) i.toInt.natAbs) nul ++
      List.replicate (intStrBufferSize - (naturalText i base plusSign spaceSign).length) nul := by
    rw [filled, List.append_assoc, List.replicate_append_replicate, naturalText_length, intStrBufferSize]
    congr 2
    omega
  rw [shape, storeDigits_eq base_gt (by omega) (by omega) positive (by rw [magnitude]) few _ _
    List.length_replicate, magnitude]
  rfl

/-- After the digits only the padding is left to do. -/
theorem intStrBuffer_eq (allowed : base ∈ intStrBases) (above : i ≠ BitVec.intMin 64) (paddingNo : BitVec 32)
    (justify zeroPad : Bool) :
    intStrBuffer i base plusSign spaceSign paddingNo justify zeroPad =
      (let text := naturalText i base plusSign spaceSign
      let c := if zeroPad then chr '0' else chr ' '
      let padding := paddingCount paddingNo text.length
      if justify then padField c padding (filled text)
      else
        ((padField c padding (filled [])).bind fun a => strcatField a (filled text)).bind fun a =>
          strcpyFrom (filled text) 0 (cstringAt a 0)) := by
  obtain ⟨base_gt, small, -⟩ := intStrTable_spec allowed
  obtain ⟨positive, magnitude⟩ := magnitude_eq above
  obtain ⟨few, fits⟩ := digitCount_magnitude allowed i
  have short := intStrSign_length i plusSign spaceSign
  have length := naturalText_short allowed i plusSign spaceSign
  have counted : countDigits (digitBase base) 64 (if i.slt 0 then i * -1 else i)
      (intStrSign i plusSign spaceSign).length =
        (intStrSign i plusSign spaceSign).length + digitCount (digitBase base) i.toInt.natAbs := by
    rw [countDigits_eq base_gt (by omega) positive (by rw [magnitude]; exact fits) (by decide), magnitude]
  have table : intStrTable base = ((intStrTable base).1, digitBase base) := rfl
  have empty : List.replicate intStrBufferSize nul = filled [] := rfl
  unfold intStrBuffer intStr
  rw [table, empty]
  dsimp only
  rw [storeSign]
  simp only [Option.bind_eq_bind, Option.bind_some]
  rw [counted, storeField_terminator (Nat.le_add_right _ _) (by rw [intStrBufferSize]; omega),
    Option.bind_some, storeDigits_filled allowed above, Option.bind_some,
    strlenField_filled (naturalText_isCString allowed i _ _) (by rw [intStrBufferSize]; omega),
    Option.bind_some]
  cases justify with
  | true => rfl
  | false =>
      rw [if_neg Bool.false_ne_true, if_neg Bool.false_ne_true, Option.bind_assoc]

theorem padChar_notEnd (zeroPad : Bool) : (if zeroPad then chr '0' else chr ' ') ≠ nul := by
  cases zeroPad <;> decide

theorem padText_isCString (length : Nat) (paddingNo : BitVec 32) (zeroPad : Bool) :
    IsCString (padText length paddingNo zeroPad) := by
  intro member
  exact padChar_notEnd zeroPad (List.mem_replicate.mp member).2.symm

theorem paddedText_isCString (allowed : base ∈ intStrBases) (i : BitVec 64) (plusSign spaceSign : Bool)
    (paddingNo : BitVec 32) (justify zeroPad : Bool) :
    IsCString (paddedText i base plusSign spaceSign paddingNo justify zeroPad) := by
  have isText := naturalText_isCString allowed i plusSign spaceSign
  have isPadding := padText_isCString (naturalText i base plusSign spaceSign).length paddingNo zeroPad
  intro member
  unfold paddedText at member
  dsimp only at member
  split at member
  · exact (List.mem_append.mp member).elim isText isPadding
  · exact (List.mem_append.mp member).elim isPadding isText

theorem paddedText_length (i : BitVec 64) (base : Nat) (plusSign spaceSign : Bool) (paddingNo : BitVec 32)
    (justify zeroPad : Bool) :
    (paddedText i base plusSign spaceSign paddingNo justify zeroPad).length =
      (naturalText i base plusSign spaceSign).length +
        paddingCount paddingNo (naturalText i base plusSign spaceSign).length := by
  unfold paddedText padText
  dsimp only
  split
  · rw [List.length_append, List.length_replicate]
  · rw [List.length_append, List.length_replicate, Nat.add_comm]

/-- A text that fits with its terminator is what `__int_str` leaves. -/
theorem intStrBuffer_fits (allowed : base ∈ intStrBases) (above : i ≠ BitVec.intMin 64)
    {paddingNo : BitVec 32} {justify zeroPad : Bool}
    (fits : (paddedText i base plusSign spaceSign paddingNo justify zeroPad).length < intStrBufferSize) :
    intStrBuffer i base plusSign spaceSign paddingNo justify zeroPad =
      some (filled (paddedText i base plusSign spaceSign paddingNo justify zeroPad)) := by
  have isText := naturalText_isCString allowed i plusSign spaceSign
  have notEnd := padChar_notEnd zeroPad
  have room := fits
  rw [paddedText_length] at room
  rw [intStrBuffer_eq allowed above]
  dsimp only
  cases justify with
  | true =>
      rw [if_pos rfl, padField_filled isText notEnd (by omega)]
      rfl
  | false =>
      have isPadding := padText_isCString (naturalText i base plusSign spaceSign).length paddingNo zeroPad
      have length : (padText (naturalText i base plusSign spaceSign).length paddingNo zeroPad).length =
          paddingCount paddingNo (naturalText i base plusSign spaceSign).length := List.length_replicate
      have joined := @strcpyFrom_filled (padText (naturalText i base plusSign spaceSign).length paddingNo
        zeroPad) (naturalText i base plusSign spaceSign) (by omega)
      have whole := paddedText_isCString allowed i plusSign spaceSign paddingNo false zeroPad
      rw [paddedText, if_neg Bool.false_ne_true] at whole fits ⊢
      rw [if_neg Bool.false_ne_true, padField_empty notEnd (by omega), ← padText, Option.bind_some,
        strcatField,
        strlenField_filled isPadding (by omega), Option.bind_some, strlenField_filled isText (by omega),
        Option.bind_some, cstringAt_filled isText, joined, Option.bind_some, cstringAt_filled whole,
        strcpyFrom_over (by rw [List.length_append]; omega) fits]

end

/-- The least number has no absolute value: its remainders are negative, and no digit is found for them. -/
theorem intStrBuffer_intMin (allowed : base ∈ intStrBases) (plusSign spaceSign : Bool) (paddingNo : BitVec 32)
    (justify zeroPad : Bool) :
    intStrBuffer (BitVec.intMin 64) base plusSign spaceSign paddingNo justify zeroPad = none := by
  have digits : ∀ base ∈ intStrBases,
      (storeField (filled [chr '-']) (countDigits (digitBase base) 64 (BitVec.intMin 64) 1) nul).bind
        (storeDigits (intStrTable base).1 (digitBase base) 64
          (countDigits (digitBase base) 64 (BitVec.intMin 64) 1) (BitVec.intMin 64)) =
          none := by decide +kernel
  have table : intStrTable base = ((intStrTable base).1, digitBase base) := rfl
  have empty : List.replicate intStrBufferSize nul = filled [] := rfl
  have sign : intStrSign (BitVec.intMin 64) plusSign spaceSign = [chr '-'] := rfl
  have least : (if (BitVec.intMin 64).slt 0 then BitVec.intMin 64 * -1 else BitVec.intMin 64) =
      BitVec.intMin 64 := by decide
  unfold intStrBuffer intStr
  rw [table, empty]
  dsimp only
  rw [storeSign, sign, least]
  simp only [Option.bind_eq_bind, Option.bind_some, List.length_singleton]
  rw [← Option.bind_assoc, digits base allowed]
  rfl

end Voxel.Proofs
