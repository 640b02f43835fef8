/-
Module: Voxel.Proofs.IntStrPadding
Layer: Proofs
Purpose: What the padding of `__int_str` does to the number. Zeros are put where spaces would be: in
  front of the sign, or behind the digits.
Trusted boundary: none
Main exports: KeepsValue, PaddingHarmless, intStr_keeps_value_iff
-/
import Voxel.Proofs.IntStr

namespace Voxel.Proofs

open Voxel.Lib Voxel.Kernel

/-! ## Texts of numbers -/

/-- An optional sign and digits that denote a number. -/
def DenotesInt (base : Nat) (text : CString) (i : Int) : Prop :=
  ∃ sign digits n, text = sign ++ digits ∧ sign ∈ [[], [chr '+'], [chr '-']] ∧ digits ≠ [] ∧
    Denotes base (digitChar base) digits n ∧ i = if sign = [chr '-'] then -(n : Int) else n

/-- A text without its spaces. -/
def withoutSpaces (text : CString) : CString := text.filter (· ≠ chr ' ')

/-- The length of the sign and the digits of a number. -/
def naturalLength (i : BitVec 64) (base : Nat) (plusSign spaceSign : Bool) : Nat :=
  (intStrSign i plusSign spaceSign).length + digitCount base i.toInt.natAbs

/-- The string has the length that the width asks for, and denotes the number. -/
def KeepsValue (i : BitVec 64) (base : Nat) (plusSign spaceSign : Bool) (width : Nat)
    (justify zeroPad : Bool) : Prop :=
  ∃ b, intStrBuffer i base plusSign spaceSign (BitVec.ofNat 32 width) justify zeroPad = some b ∧
    (cstringAt b 0).length = max width (naturalLength i base plusSign spaceSign) ∧
    DenotesInt base (withoutSpaces (cstringAt b 0)) i.toInt

/-- The padding is spaces, or nothing; or it is zeros in front of a number without `+` and `-`, or behind the
digit of zero. -/
def PaddingHarmless (i : BitVec 64) (base : Nat) (plusSign spaceSign : Bool) (width : Nat)
    (justify zeroPad : Bool) : Prop :=
  zeroPad = false ∨ width ≤ naturalLength i base plusSign spaceSign ∨
    if justify then i = 0 else i.msb = false ∧ plusSign = false

/-- The bases that are written with their own digits. -/
def ownBases : List Nat := [8, 10, 16]

variable {i : BitVec 64} {base : Nat} {plusSign spaceSign : Bool}

theorem ownBases_spec (own : base ∈ ownBases) : base ∈ intStrBases ∧ digitBase base = base ∧ 1 < base ∧
    digitChar base 0 = chr '0' ∧ (∀ d < base, ∀ e < base, digitChar base d = digitChar base e → d = e) ∧
    ∀ d < base, digitChar base d ∉ [nul, chr '-', chr '+', chr ' '] := by
  have table : ∀ base ∈ ownBases, base ∈ intStrBases ∧ digitBase base = base ∧ 1 < base ∧
    digitChar base 0 = chr '0' ∧ (∀ d < base, ∀ e < base, digitChar base d = digitChar base e → d = e) ∧
    ∀ d < base, digitChar base d ∉ [nul, chr '-', chr '+', chr ' '] := by decide
  exact table base own

/-- Digits are no signs and no spaces. -/
theorem denotes_plain (own : base ∈ ownBases) {digits : CString} {n : Nat}
    (denotes : Denotes base (digitChar base) digits n) {c : BitVec 8} (member : c ∈ digits) :
    c ∉ [nul, chr '-', chr '+', chr ' '] := by
  obtain ⟨ds, small, rfl, -⟩ := denotes
  obtain ⟨d, inside, rfl⟩ := List.mem_map.mp (List.mem_reverse.mp member)
  exact (ownBases_spec own).2.2.2.2.2 d (small d inside)

/-- The digits of the absolute value. -/
def ownDigits (base : Nat) (i : BitVec 64) : CString :=
  numeral base (digitChar base) (digitCount base i.toInt.natAbs) i.toInt.natAbs

theorem ownDigits_denotes (own : base ∈ ownBases) (i : BitVec 64) :
    Denotes base (digitChar base) (ownDigits base i) i.toInt.natAbs := by
  have base_gt := (ownBases_spec own).2.2.1
  exact numeral_denotes (Nat.lt_of_succ_lt base_gt) (lt_pow_digitCount base_gt _)

theorem ownDigits_ne_nil (base : Nat) (i : BitVec 64) : ownDigits base i ≠ [] := by
  intro empty
  have length := congrArg List.length empty
  rw [ownDigits, numeral_length, digitCount] at length
  cases length

theorem naturalText_own (own : base ∈ ownBases) (i : BitVec 64) (plusSign spaceSign : Bool) :
    naturalText i base plusSign spaceSign = intStrSign i plusSign spaceSign ++ ownDigits base i := by
  rw [naturalText, (ownBases_spec own).2.1]
  rfl

theorem naturalText_own_length (own : base ∈ ownBases) (i : BitVec 64) (plusSign spaceSign : Bool) :
    (naturalText i base plusSign spaceSign).length = naturalLength i base plusSign spaceSign := by
  rw [naturalText_length, (ownBases_spec own).2.1]
  rfl

/-- The sign without the space that stands for one. -/
def signChars (i : BitVec 64) (plusSign : Bool) : CString :=
  if i.msb then [chr '-'] else if plusSign then [chr '+'] else []

theorem withoutSpaces_append (s t : CString) : withoutSpaces (s ++ t) = withoutSpaces s ++ withoutSpaces t :=
  List.filter_append _ _

theorem withoutSpaces_sign (i : BitVec 64) (plusSign spaceSign : Bool) :
    withoutSpaces (intStrSign i plusSign spaceSign) = signChars i plusSign := by
  have top : i.slt 0 = i.msb := BitVec.slt_zero_eq_msb
  rw [intStrSign, signChars, top]
  cases i.msb <;> cases plusSign <;> cases spaceSign <;> rfl

theorem withoutSpaces_digits (own : base ∈ ownBases) {digits : CString} {n : Nat}
    (denotes : Denotes base (digitChar base) digits n) : withoutSpaces digits = digits := by
  refine List.filter_eq_self.mpr fun c member => decide_eq_true ?_
  rintro rfl
  exact denotes_plain own denotes member (by decide)

/-- The sign and the digits denote the number. -/
theorem denotesInt_natural {digits : CString} (some_ : digits ≠ [])
    (denotes : Denotes base (digitChar base) digits i.toInt.natAbs) (plusSign : Bool) :
    DenotesInt base (signChars i plusSign ++ digits) i.toInt := by
  refine ⟨signChars i plusSign, digits, i.toInt.natAbs, rfl, ?_, some_, denotes, ?_⟩
  · unfold signChars
    cases i.msb <;> cases plusSign <;> decide
  · have cond := BitVec.toInt_eq_msb_cond i
    have below := i.isLt
    rw [signChars]
    cases negative : i.msb with
    | true =>
        rw [if_pos negative] at cond
        rw [if_pos rfl, if_pos rfl]
        omega
    | false =>
        rw [negative, if_neg Bool.false_ne_true] at cond
        rw [if_neg Bool.false_ne_true, if_neg (by cases plusSign <;> decide)]
        omega

theorem head_mem {c : BitVec 8} {s t : CString} (same : s = c :: t) : c ∈ s := same ▸ List.mem_cons_self

/-- A sign is told apart from digits. -/
theorem signs_split (own : base ∈ ownBases) {sign sign' digits digits' : CString} {n n' : Nat}
    (isSign : sign ∈ [[], [chr '+'], [chr '-']]) (isSign' : sign' ∈ [[], [chr '+'], [chr '-']])
    (denotes : Denotes base (digitChar base) digits n) (denotes' : Denotes base (digitChar base) digits' n')
    (same : sign ++ digits = sign' ++ digits') : digits = digits' := by
  have noSign : ∀ c ∈ [chr '+', chr '-'], c ∉ digits ∧ c ∉ digits' := by
    intro c member
    have special : c ∈ [nul, chr '-', chr '+', chr ' '] := by
      rcases List.mem_pair.mp member with rfl | rfl <;> decide
    exact ⟨fun inside => denotes_plain own denotes inside special,
      fun inside => denotes_plain own denotes' inside special⟩
  have plus := noSign (chr '+') (by decide)
  have minus := noSign (chr '-') (by decide)
  simp only [List.mem_cons, List.not_mem_nil, or_false] at isSign isSign'
  rcases isSign with rfl | rfl | rfl <;> rcases isSign' with rfl | rfl | rfl
  · exact same
  · exact absurd (head_mem same) plus.1
  · exact absurd (head_mem same) minus.1
  · exact absurd (head_mem same.symm) plus.2
  · exact (List.cons.inj same).2
  · exact absurd (List.cons.inj same).1 (by decide)
  · exact absurd (head_mem same.symm) minus.2
  · exact absurd (List.cons.inj same).1 (by decide)
  · exact (List.cons.inj same).2

/-! ## Padding -/

/-- The padding of a small width. -/
theorem paddingCount_small {width length : Nat} (small : width ≤ 200) (short : length ≤ 65) :
    paddingCount (BitVec.ofNat 32 width) length = width - length := by
  have difference : (BitVec.ofNat 32 width - BitVec.ofNat 32 length).toNat =
      (2 ^ 32 - length + width) % 2 ^ 32 := by
    rw [BitVec.toNat_sub, BitVec.toNat_ofNat, BitVec.toNat_ofNat,
      Nat.mod_eq_of_lt (show length < 2 ^ 32 by omega), Nat.mod_eq_of_lt (show width < 2 ^ 32 by omega)]
  have sign : (BitVec.ofNat 32 width - BitVec.ofNat 32 length).slt 0 =
      decide (2 ^ (32 - 1) ≤ (BitVec.ofNat 32 width - BitVec.ofNat 32 length).toNat) :=
    BitVec.slt_zero_eq_msb.trans (BitVec.msb_eq_decide _)
  unfold paddingCount
  dsimp only
  rw [sign, difference]
  rcases Nat.lt_or_ge width length with less | more
  · rw [decide_eq_true (by omega), if_pos rfl]
    omega
  · rw [decide_eq_false (by omega), if_neg Bool.false_ne_true]
    omega

theorem withoutSpaces_zeros (k : Nat) :
    withoutSpaces (List.replicate k (chr '0')) = List.replicate k (chr '0') := by
  refine List.filter_eq_self.mpr fun c member => decide_eq_true ?_
  rw [(List.mem_replicate.mp member).2]
  decide

theorem withoutSpaces_spaces (k : Nat) : withoutSpaces (List.replicate k (chr ' ')) = [] := by
  refine List.filter_eq_nil_iff.mpr fun c member => ?_
  rw [(List.mem_replicate.mp member).2]
  decide

/-- Zeros behind the digits are right for the number zero alone. -/
theorem denotesInt_behind_iff (own : base ∈ ownBases) {k : Nat} (some_ : 0 < k) (plusSign : Bool) :
    DenotesInt base (signChars i plusSign ++ ownDigits base i ++ List.replicate k (chr '0')) i.toInt ↔
      i = 0 := by
  obtain ⟨-, -, base_gt, zero, apart, -⟩ := ownBases_spec own
  have positive := Nat.lt_of_succ_lt base_gt
  have longer := (ownDigits_denotes own i).trailingZeros positive k
  rw [zero] at longer
  rw [List.append_assoc]
  constructor
  · rintro ⟨sign, digits, n, same, isSign, -, denotes, value⟩
    have isOwn : signChars i plusSign ∈ [[], [chr '+'], [chr '-']] := by
      unfold signChars
      cases i.msb <;> cases plusSign <;> decide
    have equal := signs_split own isOwn isSign longer denotes same
    rw [← equal] at denotes
    have number := denotes.unique (fun d e small small' => apart d small e small') longer
    have magnitude : i.toInt.natAbs = n := by
      rw [value]
      split <;> omega
    have power : base ^ 1 ≤ base ^ k := Nat.pow_le_pow_right positive some_
    rw [Nat.pow_one] at power
    have none_ : i.toInt.natAbs = 0 := by
      by_contra nonzero
      have grows := Nat.mul_le_mul_right i.toInt.natAbs (Nat.le_trans base_gt power)
      omega
    apply BitVec.eq_of_toInt_eq
    rw [Int.natAbs_eq_zero.mp none_]
    rfl
  · rintro rfl
    refine denotesInt_natural ?_ longer plusSign
    exact List.append_ne_nil_of_left_ne_nil (ownDigits_ne_nil base 0) _

/-- Zeros in front are right without a sign alone. -/
theorem denotesInt_front_iff (own : base ∈ ownBases) {k : Nat} (some_ : 0 < k) (plusSign : Bool) :
    DenotesInt base (List.replicate k (chr '0') ++ (signChars i plusSign ++ ownDigits base i)) i.toInt ↔
      i.msb = false ∧ plusSign = false := by
  obtain ⟨-, -, base_gt, zero, -⟩ := ownBases_spec own
  have longer := (ownDigits_denotes own i).leadingZeros (Nat.lt_of_succ_lt base_gt) k
  rw [zero] at longer
  constructor
  · rintro ⟨sign, digits, n, same, isSign, -, denotes, -⟩
    obtain ⟨more, rfl⟩ := Nat.exists_eq_add_of_lt some_
    have noSign : sign = [] := by
      rw [Nat.zero_add, List.replicate_succ] at same
      simp only [List.mem_cons, List.not_mem_nil, or_false] at isSign
      rcases isSign with rfl | rfl | rfl
      · rfl
      · exact absurd (List.cons.inj same).1 (by decide)
      · exact absurd (List.cons.inj same).1 (by decide)
    rw [noSign, List.nil_append] at same
    have member : ∀ c ∈ signChars i plusSign, c ∉ [nul, chr '-', chr '+', chr ' '] := by
      intro c inside
      refine denotes_plain own denotes (same ▸ ?_)
      exact List.mem_append_right _ (List.mem_append_left _ inside)
    unfold signChars at member
    cases negative : i.msb with
    | true =>
        rw [negative] at member
        exact absurd (member (chr '-') List.mem_cons_self) (by decide)
    | false =>
        rw [negative] at member
        cases plusSign with
        | true => exact absurd (member (chr '+') List.mem_cons_self) (by decide)
        | false => exact ⟨rfl, rfl⟩
  · rintro ⟨positive, rfl⟩
    have noSign : signChars i false = [] := by
      rw [signChars, positive]
      rfl
    have whole := denotesInt_natural
      (List.append_ne_nil_of_right_ne_nil (List.replicate k (chr '0')) (ownDigits_ne_nil base i)) longer false
    rw [noSign] at whole ⊢
    exact whole

/-- What is left of the text without its spaces. -/
theorem paddedText_withoutSpaces (own : base ∈ ownBases) (i : BitVec 64) (plusSign spaceSign : Bool)
    (paddingNo : BitVec 32) (justify zeroPad : Bool) :
    withoutSpaces (paddedText i base plusSign spaceSign paddingNo justify zeroPad) =
      (let zeros := if zeroPad then List.replicate
          (paddingCount paddingNo (naturalText i base plusSign spaceSign).length) (chr '0') else []
      if justify then signChars i plusSign ++ ownDigits base i ++ zeros
      else zeros ++ (signChars i plusSign ++ ownDigits base i)) := by
  have natural : withoutSpaces (naturalText i base plusSign spaceSign) =
      signChars i plusSign ++ ownDigits base i := by
    rw [naturalText_own own, withoutSpaces_append, withoutSpaces_sign,
      withoutSpaces_digits own (ownDigits_denotes own i)]
  have padding : withoutSpaces (padText (naturalText i base plusSign spaceSign).length paddingNo zeroPad) =
      if zeroPad then List.replicate
        (paddingCount paddingNo (naturalText i base plusSign spaceSign).length) (chr '0') else [] := by
    unfold padText
    cases zeroPad with
    | true => exact withoutSpaces_zeros _
    | false => exact withoutSpaces_spaces _
  unfold paddedText
  dsimp only
  cases justify with
  | true => rw [if_pos rfl, if_pos rfl, withoutSpaces_append, natural, padding]
  | false =>
      rw [if_neg Bool.false_ne_true, if_neg Bool.false_ne_true, withoutSpaces_append, natural, padding]

/-- Up to a width of 200, the string has the right length, and it denotes the number exactly if the
padding does no harm. -/
theorem intStr_keeps_value_iff (above : i ≠ BitVec.intMin 64) (own : base ∈ ownBases) {width : Nat}
    (small : width ≤ 200) (plusSign spaceSign justify zeroPad : Bool) :
    KeepsValue i base plusSign spaceSign width justify zeroPad ↔
      PaddingHarmless i base plusSign spaceSign width justify zeroPad := by
  have allowed := (ownBases_spec own).1
  have short := naturalText_short allowed i plusSign spaceSign
  have length := naturalText_own_length own i plusSign spaceSign
  have count := paddingCount_small small short
  have size : intStrBufferSize = 256 := rfl
  have whole := paddedText_isCString allowed i plusSign spaceSign (BitVec.ofNat 32 width) justify zeroPad
  have padded := paddedText_length i base plusSign spaceSign (BitVec.ofNat 32 width) justify zeroPad
  rw [count, length] at padded
  rw [length] at short
  have buffer := @intStrBuffer_fits _ _ plusSign spaceSign allowed above
    (BitVec.ofNat 32 width) justify zeroPad
    (by omega)
  have keeps : KeepsValue i base plusSign spaceSign width justify zeroPad ↔
      DenotesInt base (withoutSpaces
        (paddedText i base plusSign spaceSign (BitVec.ofNat 32 width) justify zeroPad)) i.toInt := by
    unfold KeepsValue
    rw [buffer]
    constructor
    · rintro ⟨b, same, -, denotes⟩
      cases same
      rw [cstringAt_filled whole] at denotes
      exact denotes
    · intro denotes
      refine ⟨_, rfl, ?_, ?_⟩
      · rw [cstringAt_filled whole, padded]
        omega
      · rw [cstringAt_filled whole]
        exact denotes
  rw [keeps, paddedText_withoutSpaces own, count, length, PaddingHarmless]
  have harmless := @denotesInt_natural i base _ (ownDigits_ne_nil base i) (ownDigits_denotes own i) plusSign
  cases zeroPad with
  | false =>
      refine iff_of_true ?_ (.inl rfl)
      simpa only [Bool.false_eq_true, if_false, List.append_nil, List.nil_append, ite_self] using harmless
  | true =>
      rw [or_iff_right (by decide)]
      by_cases fits : width ≤ naturalLength i base plusSign spaceSign
      · refine iff_of_true ?_ (.inl fits)
        rw [Nat.sub_eq_zero_of_le fits]
        simpa only [if_true, List.replicate_zero, List.append_nil, List.nil_append, ite_self] using harmless
      · rw [or_iff_right fits, if_pos rfl]
        cases justify with
        | true => exact denotesInt_behind_iff own (by omega) plusSign
        | false => exact denotesInt_front_iff own (by omega) plusSign

/-- `%-5d` of -42 with spaces behind it. -/
theorem intStr_keeps_value_iff_example : KeepsValue (-42) 10 false false 5 true false :=
  (@intStr_keeps_value_iff (-42) 10 (by decide) (by decide) 5 (by decide) false false true false).mpr
    (.inl rfl)

/-- `%05d` of -42 is `00-42`. -/
theorem intStr_zeros_before_sign :
    (intStrBuffer (-42) 10 false false 5 false true).map (cstringAt · 0) = some ("00-42".toList.map chr) ∧
      ¬ KeepsValue (-42) 10 false false 5 false true := by
  have text : (intStrBuffer (-42) 10 false false 5 false true).map (cstringAt · 0) =
      some ("00-42".toList.map chr) := by decide +kernel
  refine ⟨text, ?_⟩
  rintro ⟨b, left, -, denotes⟩
  have left' : intStrBuffer (-42) 10 false false 5 false true = some b := left
  rw [left'] at text
  have shape : withoutSpaces (cstringAt b 0) =
      List.replicate 2 (chr '0') ++ (signChars (-42) false ++ ownDigits 10 (-42)) := by
    rw [show cstringAt b 0 = "00-42".toList.map chr from Option.some.inj text]
    decide
  rw [shape] at denotes
  have positive := ((denotesInt_front_iff (by decide) (by decide) false).mp denotes).1
  exact absurd positive (by decide)

end Voxel.Proofs
