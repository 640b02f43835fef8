/-
Module: Voxel.Proofs.ItoaAtoi
Layer: Proofs
Purpose: `itoa` and `atoi` in every radix. The digits are stored from the last one on and then turned around,
  so the buffer has the numeral of the number; `atoi` adds its digits up to the same number.
Trusted boundary: none
Main exports: memrev_reverse, itoaDigits_eq, atoiLoop_numeral, itoaText, itoa_text, itoa_atoi
-/
import Voxel.Kernel.Stdlib
import Voxel.Proofs.IntStr

namespace Voxel.Proofs

open Voxel.Lib Voxel.Kernel

/-! ## memrev -/

/-- Two bytes with others between them change their places. -/
theorem memrevSwap_ends (front middle back : List (BitVec 8)) (a b : BitVec 8) {n : Nat}
    (length : n = 2 * front.length + middle.length + 2) :
    Stdlib.memrevSwap n (front ++ (a :: middle ++ [b]) ++ back) front.length =
      some (front ++ [b] ++ middle ++ (a :: back)) := by
  have second : n - front.length - 1 = (front ++ a :: middle).length := by
    rw [List.length_append, List.length_cons]
    omega
  have swapped : (front ++ (b :: middle ++ [b]) ++ back).set (n - front.length - 1) a =
      front ++ [b] ++ middle ++ (a :: back) := by
    have place : n - front.length - 1 = (front ++ b :: middle).length := by
      rw [second, List.length_append, List.length_append, List.length_cons, List.length_cons]
    have shape : front ++ (b :: middle ++ [b]) ++ back = (front ++ b :: middle) ++ b :: back := by simp
    rw [place, shape, List.set_append_right _ _ (Nat.le_refl _), Nat.sub_self, List.set_cons_zero]
    simp
  have readFirst : (front ++ (a :: middle ++ [b]) ++ back)[front.length]? = some a := by simp
  have readSecond : (front ++ (a :: middle ++ [b]) ++ back)[n - front.length - 1]? = some b := by
    have shape : front ++ (a :: middle ++ [b]) ++ back = (front ++ a :: middle) ++ b :: back := by simp
    rw [second, shape, List.getElem?_append_right (Nat.le_refl _), Nat.sub_self, List.getElem?_cons_zero]
  have storeFirst : storeField (front ++ (a :: middle ++ [b]) ++ back) front.length b =
      some (front ++ (b :: middle ++ [b]) ++ back) := by
    rw [storeField, if_pos (by simp)]
    simp
  have storeSecond : storeField (front ++ (b :: middle ++ [b]) ++ back) (n - front.length - 1) a =
      some (front ++ [b] ++ middle ++ (a :: back)) := by
    rw [storeField, if_pos (by rw [second]; simp), swapped]
  unfold Stdlib.memrevSwap
  rw [readFirst, readSecond]
  show (storeField _ _ b).bind _ = _
  rw [storeFirst]
  exact storeSecond

/-- The rounds from the ends of `middle` to its middle turn it around. -/
theorem memrevSwap_rounds (middle front back : List (BitVec 8)) {n : Nat}
    (length : n = 2 * front.length + middle.length) :
    (List.range' front.length (middle.length / 2)).foldlM (Stdlib.memrevSwap n) (front ++ middle ++ back) =
      some (front ++ middle.reverse ++ back) := by
  induction middle using List.bidirectionalRec generalizing front back with
  | nil => rfl
  | singleton x =>
      have none_ : [x].length / 2 = 0 := by rw [List.length_singleton]
      rw [none_]
      rfl
  | cons_append a middle b inductionHypothesis =>
      have half : (a :: (middle ++ [b])).length / 2 = middle.length / 2 + 1 := by
        rw [List.length_cons, List.length_append, List.length_singleton]
        omega
      rw [List.length_cons, List.length_append, List.length_singleton] at length
      have rest := inductionHypothesis (front ++ [b]) (a :: back)
        (by rw [List.length_append, List.length_singleton]; omega)
      rw [List.length_append, List.length_singleton] at rest
      have first := memrevSwap_ends front middle back a b (n := n) (by omega)
      rw [List.cons_append] at first
      rw [half, List.range'_succ, List.foldlM_cons, first]
      show (List.range' (front.length + 1) _).foldlM _ _ = _
      rw [rest]
      simp

/-- `strrev` turns the string in a buffer around. -/
theorem strrev_eq {text : CString} (isString : IsCString text) (rest : CString) :
    Stdlib.strrev (text ++ nul :: rest) = some (text.reverse ++ nul :: rest) := by
  have rounds := memrevSwap_rounds text [] (nul :: rest) (n := text.length) (by simp)
  rw [List.length_nil, List.nil_append, List.nil_append] at rounds
  rw [Stdlib.strrev, strlenField_terminated isString, Option.bind_some, Stdlib.memrev,
    List.range_eq_range']
  exact rounds

/-! ## The digits -/

variable {i : BitVec 64} {radix : Nat}

/-- The character of a digit. -/
def alphabetDigit (d : Nat) : BitVec 8 := atoiAlphabet.getD d nul

/-- What `atoi` takes a digit for. -/
theorem alphabetDigit_spec {d : Nat} (small : d < 36) :
    atoiAlphabet[d]? = some (alphabetDigit d) ∧ alphabetDigit d ≠ nul ∧ alphabetDigit d ≠ 0x2D ∧
      atoiSkipped.contains (alphabetDigit d) = false ∧
      atoiAlphabet.idxOf? (toupper (alphabetDigit d)) = some d := by
  have table : ∀ d < 36, atoiAlphabet[d]? = some (alphabetDigit d) ∧ alphabetDigit d ≠ nul ∧
      alphabetDigit d ≠ 0x2D ∧ atoiSkipped.contains (alphabetDigit d) = false ∧
      atoiAlphabet.idxOf? (toupper (alphabetDigit d)) = some d := by decide
  exact table d small

/-- The digit that a round of `itoa` finds. -/
theorem digitOf_alphabet (low : 0 < radix) (high : radix ≤ 36) (positive : i.msb = false) :
    digitOf atoiAlphabet radix i = some (alphabetDigit (i.toNat % radix)) := by
  obtain ⟨remainder, remPositive⟩ := @srem_toNat i radix positive (by omega)
  have isDigit : i.toNat % radix < 36 := Nat.lt_of_lt_of_le (Nat.mod_lt _ low) high
  rw [digitOf, slt_zero_of_msb remPositive, if_neg Bool.false_ne_true, remainder]
  exact (alphabetDigit_spec isDigit).1

/-- The loop of `itoa` stores the digits, the last one first. -/
theorem itoaDigits_eq (low : 1 < radix) (high : radix ≤ 36) {rounds n : Nat} (positive : i.msb = false)
    (count : n = digitCount radix i.toNat) (enough : n ≤ rounds) (front back : List (BitVec 8))
    {middle : List (BitVec 8)} (length : middle.length = n) :
    Stdlib.itoaDigits radix rounds front.length i (front ++ middle ++ back) =
      some (front ++ (numeral radix alphabetDigit n i.toNat).reverse ++ back, front.length + n) := by
  induction n generalizing i rounds front middle with
  | zero => rw [digitCount] at count; omega
  | succ n inductionHypothesis =>
      obtain ⟨rounds, rfl⟩ : ∃ more, rounds = more + 1 := ⟨rounds - 1, by omega⟩
      obtain ⟨quotient, stillPositive⟩ := @sdiv_toNat i radix positive (by omega)
      obtain ⟨first, kept, rfl⟩ := List.exists_cons_of_length_eq_add_one length
      rw [List.length_cons] at length
      have stored : storeField (front ++ first :: kept ++ back) front.length
          (alphabetDigit (i.toNat % radix)) =
            some (front ++ [alphabetDigit (i.toNat % radix)] ++ kept ++ back) := by
        rw [storeField, if_pos (by simp)]
        simp
      rw [Stdlib.itoaDigits, digitOf_alphabet (by omega) high positive, Option.bind_some, stored,
        Option.bind_some, numeral, List.reverse_append, List.reverse_singleton]
      have isLast := @sdiv_eq_zero_iff i radix (by omega) (by omega) positive
      by_cases single : i.toNat < radix
      · have none_ : n = 0 := by
          rw [digitCount_of_lt single] at count
          omega
        subst none_
        rw [List.length_eq_zero_iff.mp (Nat.succ_inj.mp length), if_pos (isLast.mpr single)]
        simp [numeral]
      · rw [digitCount_of_le low (Nat.le_of_not_lt single)] at count
        have rest := @inductionHypothesis _ rounds stillPositive (by rw [quotient]; omega) (by omega)
          (front ++ [alphabetDigit (i.toNat % radix)]) kept (by omega)
        rw [List.length_append, List.length_singleton, quotient] at rest
        rw [if_neg (mt isLast.mp single), rest, Nat.add_assoc, Nat.add_comm 1 n]
        simp

/-! ## atoi -/

/-- `atoi` adds a digit to the number that it has. -/
theorem atoiLoop_digit {d : Nat} (small : d < radix) (high : radix ≤ 36) (rest : CString) (sign : Bool)
    (res : BitVec 64) :
    atoiLoop radix (alphabetDigit d :: rest) sign res =
      atoiLoop radix rest sign (res * BitVec.ofNat 64 radix + BitVec.ofNat 64 d) := by
  obtain ⟨-, -, notMinus, notSkipped, position⟩ := alphabetDigit_spec (Nat.lt_of_lt_of_le small high)
  rw [atoiLoop, if_neg notMinus, notSkipped, position]
  dsimp only
  rw [if_neg (by decide), if_neg (Nat.not_le_of_lt small)]

/-- `atoi` reads a numeral. -/
theorem atoiLoop_numeral (low : 0 < radix) (high : radix ≤ 36) {width n : Nat} (fits : n < radix ^ width)
    (rest : CString) (sign : Bool) :
    atoiLoop radix (numeral radix alphabetDigit width n ++ rest) sign 0 =
      atoiLoop radix rest sign (BitVec.ofNat 64 n) := by
  induction width generalizing n rest with
  | zero =>
      rw [Nat.pow_zero, Nat.lt_one_iff] at fits
      rw [fits]
      rfl
  | succ width inductionHypothesis =>
      have higher : n / radix < radix ^ width := by
        rw [Nat.div_lt_iff_lt_mul low, ← Nat.pow_succ]
        exact fits
      rw [numeral, List.append_assoc, List.singleton_append, inductionHypothesis higher,
        atoiLoop_digit (Nat.mod_lt n low) high, ← BitVec.ofNat_mul, ← BitVec.ofNat_add,
        Nat.div_add_mod']

/-! ## itoa -/

/-- The digits of a number. -/
def digitsOf (radix : Nat) (target : BitVec 64) : CString :=
  numeral radix alphabetDigit (digitCount radix target.toInt.natAbs) target.toInt.natAbs

/-- The text of a number. -/
def itoaText (radix : Nat) (target : BitVec 64) : CString :=
  (if target.slt 0 then [chr '-'] else []) ++ digitsOf radix target

@[simp] theorem digitsOf_length (radix : Nat) (target : BitVec 64) :
    (digitsOf radix target).length = digitCount radix target.toInt.natAbs :=
  numeral_length _ _

/-- Digits of the radix, and in front of them at most a `-`. -/
def IsNumber (radix : Nat) (text : CString) : Prop :=
  ∃ digits : CString, digits ≠ [] ∧ (∀ c ∈ digits, ∃ d < radix, atoiAlphabet[d]? = some c) ∧
    (text = digits ∨ text = chr '-' :: digits)

section Text

variable {target : BitVec 64} (low : 1 < radix) (high : radix ≤ 36)

include low high

theorem itoaText_isNumber : IsNumber radix (itoaText radix target) := by
  refine ⟨digitsOf radix target, ?_, ?_, ?_⟩
  · intro empty
    have count := congrArg List.length empty
    rw [digitsOf_length, digitCount] at count
    exact absurd count (Nat.succ_ne_zero _)
  · intro c member
    obtain ⟨d, small, rfl⟩ := numeral_mem (Nat.lt_of_succ_lt low) member
    exact ⟨d, small, (alphabetDigit_spec (Nat.lt_of_lt_of_le small high)).1⟩
  · unfold itoaText
    split
    · exact .inr rfl
    · exact .inl rfl

theorem digitsOf_isCString : IsCString (digitsOf radix target) := by
  intro member
  obtain ⟨d, small, isNul⟩ := numeral_mem (Nat.lt_of_succ_lt low) member
  exact (alphabetDigit_spec (Nat.lt_of_lt_of_le small high)).2.1 isNul.symm

theorem itoaText_isCString : IsCString (itoaText radix target) := by
  intro member
  unfold itoaText at member
  rcases List.mem_append.mp member with sign | digits
  · split at sign
    · exact absurd (List.mem_singleton.mp sign) (by decide)
    · cases sign
  · exact digitsOf_isCString low high digits

omit high in
/-- A number that has an absolute value has at most 63 digits. -/
theorem digitCount_natAbs (above : target ≠ BitVec.intMin 64) :
    digitCount radix target.toInt.natAbs ≤ 63 ∧ target.toInt.natAbs < radix ^ 63 := by
  have least := BitVec.le_toInt target
  have most := BitVec.toInt_lt (x := target)
  have notLeast : target.toInt ≠ -2 ^ 63 := fun same => above (BitVec.eq_of_toInt_eq same)
  have fits : target.toInt.natAbs < radix ^ 63 := calc
    target.toInt.natAbs < 2 ^ 63 := by omega
    _ ≤ radix ^ 63 := Nat.pow_le_pow_left low 63
  exact ⟨(digitCount_le_iff low (by decide)).mpr fits, fits⟩

omit high in
theorem itoaText_length (above : target ≠ BitVec.intMin 64) : (itoaText radix target).length ≤ 64 := by
  have digits := (digitCount_natAbs low above).1
  unfold itoaText
  rw [List.length_append, digitsOf_length]
  split
  · rw [List.length_singleton]
    omega
  · rw [List.length_nil]
    omega

omit low high in
theorem slt_zero_iff : target.slt 0 = true ↔ target.toInt < 0 := by
  show target.slt 0#64 = true ↔ _
  rw [BitVec.slt_iff_toInt_lt, BitVec.toInt_zero]

/-- `atoi` takes the text back. -/
theorem atoi_itoaText : atoi (itoaText radix target) radix = target := by
  have fits := lt_pow_digitCount low target.toInt.natAbs
  have digits := fun sign => atoiLoop_numeral (Nat.lt_of_succ_lt low) high fits [] sign
  simp only [List.append_nil] at digits
  rw [atoi, if_neg (by omega), itoaText, digitsOf]
  by_cases negative : target.slt 0 = true
  · have below := slt_zero_iff.mp negative
    have minus : atoiLoop radix ([chr '-'] ++ numeral radix alphabetDigit
        (digitCount radix target.toInt.natAbs) target.toInt.natAbs) false 0 =
          atoiLoop radix (numeral radix alphabetDigit
            (digitCount radix target.toInt.natAbs) target.toInt.natAbs) true 0 := rfl
    have value : -(target.toInt.natAbs : Int) = target.toInt := by omega
    rw [if_pos negative, minus, digits, atoiLoop, if_pos rfl, ← BitVec.ofInt_natCast, ← BitVec.ofInt_neg,
      value, BitVec.ofInt_toInt]
  · have notBelow := mt slt_zero_iff.mpr negative
    have value : (target.toInt.natAbs : Int) = target.toInt := by omega
    rw [if_neg negative, List.nil_append, digits, atoiLoop, if_neg Bool.false_ne_true,
      ← BitVec.ofInt_natCast, value, BitVec.ofInt_toInt]

omit low high in
/-- The number that the digits are made of. -/
theorem itoa_magnitude (above : target ≠ BitVec.intMin 64) :
    (if target.slt 0 then -target else target).msb = false ∧
      (if target.slt 0 then -target else target).toNat = target.toInt.natAbs := by
  have product : target * -1 = -target := by
    rw [BitVec.mul_neg]
    exact congrArg _ (BitVec.mul_one target)
  have magnitude := magnitude_eq above
  rw [product] at magnitude
  exact magnitude

omit low high in
theorem storeField_place (front back : List (BitVec 8)) (x c : BitVec 8) :
    storeField (front ++ x :: back) front.length c = some (front ++ c :: back) := by
  rw [storeField, if_pos (by simp), List.set_append_right _ _ (Nat.le_refl _), Nat.sub_self,
    List.set_cons_zero]

/-- The digits, as the loop leaves them at the start of a buffer. -/
theorem itoaDigits_digitsOf (above : target ≠ BitVec.intMin 64) {middle : List (BitVec 8)}
    (length : middle.length = (digitsOf radix target).length) (back : List (BitVec 8)) :
    Stdlib.itoaDigits radix 64 0 (if target.slt 0 then -target else target) (middle ++ back) =
      some ((digitsOf radix target).reverse ++ back, (digitsOf radix target).reverse.length) := by
  obtain ⟨positive, value⟩ := itoa_magnitude above
  have count := (digitCount_natAbs low above).1
  rw [digitsOf_length] at length
  have stored := @itoaDigits_eq _ _ low high 64 _ positive (by rw [value]) (by omega) [] back _ length
  rw [List.length_nil, List.nil_append, List.nil_append, value, Nat.zero_add] at stored
  rw [stored, List.length_reverse, digitsOf_length, digitsOf]

end Text

theorem isCString_reverse {text : CString} (isString : IsCString text) : IsCString text.reverse :=
  fun member => isString (List.mem_reverse.mp member)

/-- `itoa` leaves the text and a terminator in the buffer, and what was behind them. -/
theorem itoa_text {radix : BitVec 32} {target : BitVec 64} (low : 2 ≤ radix) (high : radix ≤ 36)
    (above : target ≠ BitVec.intMin 64) {buf : List (BitVec 8)}
    (room : (itoaText radix.toNat target).length < buf.length) :
    Stdlib.itoa target buf radix =
      some (itoaText radix.toNat target ++ nul :: buf.drop ((itoaText radix.toNat target).length + 1),
        some (itoaText radix.toNat target).length) := by
  have lowNat : 1 < radix.toNat := low
  have highNat : radix.toNat ≤ 36 := high
  have inRange : ¬(radix < 2 ∨ 36 < radix) := by
    rintro (below | beyond)
    · exact absurd lowNat (Nat.not_lt.mpr (Nat.le_of_lt_succ below))
    · exact absurd highNat (Nat.not_le.mpr beyond)
  have isString := @itoaText_isCString _ target lowNat highNat
  have enough : (digitsOf radix.toNat target).length ≤ buf.length := by
    rw [itoaText, List.length_append] at room
    omega
  obtain ⟨middle, back, rfl, middleLength⟩ : ∃ middle back, buf = middle ++ back ∧
      middle.length = (digitsOf radix.toNat target).length :=
    ⟨_, _, (List.take_append_drop (digitsOf radix.toNat target).length buf).symm,
      List.length_take_of_le enough⟩
  have stored := itoaDigits_digitsOf lowNat highNat above middleLength back
  rw [Stdlib.itoa, if_neg inRange]
  show (Stdlib.itoaDigits ..).bind _ = _
  rw [stored, Option.bind_some]
  unfold itoaText at isString room ⊢
  rw [List.length_append, List.length_append, middleLength] at room
  dsimp only
  by_cases negative : target.slt 0 = true
  · rw [if_pos negative] at isString room ⊢
    rw [List.length_singleton] at room
    obtain ⟨s, z, rest, rfl⟩ : ∃ s z rest, back = s :: z :: rest := by
      match back with
      | s :: z :: rest => exact ⟨s, z, rest, rfl⟩
      | [_] => rw [List.length_singleton] at room; omega
      | [] => rw [List.length_nil] at room; omega
    have place : (digitsOf radix.toNat target).reverse.length + 1 =
        ((digitsOf radix.toNat target).reverse ++ [chr '-']).length := by
      rw [List.length_append, List.length_singleton]
    have turned := strrev_eq (isCString_reverse isString) rest
    rw [List.reverse_append, List.reverse_singleton] at turned
    rw [if_pos negative, if_pos negative, storeField_place]
    show (storeField _ _ nul).bind _ = _
    rw [List.append_cons, place, storeField_place, Option.bind_some, turned]
    have behind : (middle ++ s :: z :: rest).drop (middle.length + 1 + 1) = rest := by
      rw [List.append_cons, List.append_cons]
      exact List.drop_left' (by simp)
    simp [← middleLength, behind]
  · rw [if_neg negative, List.nil_append] at isString
    rw [if_neg negative, List.length_nil] at room
    obtain ⟨z, rest, rfl⟩ : ∃ z rest, back = z :: rest := by
      match back with
      | z :: rest => exact ⟨z, rest, rfl⟩
      | [] => rw [List.length_nil] at room; omega
    have turned := strrev_eq (isCString_reverse isString) rest
    rw [if_neg negative, if_neg negative, if_neg negative]
    show (storeField _ _ nul).bind _ = _
    rw [storeField_place, Option.bind_some, turned]
    simp [← middleLength]

/-- In every radix `atoi` takes back the number that `itoa` has written, if the buffer has room for it; 65
bytes are always enough. -/
theorem itoa_atoi {radix : BitVec 32} {target : BitVec 64} (low : 2 ≤ radix) (high : radix ≤ 36)
    (above : target ≠ BitVec.intMin 64) :
    ∃ text, IsNumber radix.toNat text ∧ text.length ≤ 64 ∧
      ∀ buf, text.length < buf.length →
        ∃ rest, Stdlib.itoa target buf radix = some (text ++ nul :: rest, some text.length) ∧
          atoi (cstringAt (text ++ nul :: rest) 0) radix.toNat = target := by
  refine ⟨itoaText radix.toNat target, itoaText_isNumber low high, itoaText_length low above, ?_⟩
  intro buf room
  refine ⟨_, itoa_text low high above room, ?_⟩
  have isString := @itoaText_isCString radix.toNat target low high
  rw [cstringAt, List.drop_zero, takeWhile_isCString isString]
  exact atoi_itoaText low high

theorem itoa_atoi_hex : ∃ text, IsNumber 16 text ∧ text.length ≤ 64 ∧
    ∀ buf, text.length < buf.length →
      ∃ rest, Stdlib.itoa (-255) buf 16 = some (text ++ nul :: rest, some text.length) ∧
        atoi (cstringAt (text ++ nul :: rest) 0) 16 = -255 :=
  @itoa_atoi 16 (-255) (by decide) (by decide) (by decide)

end Voxel.Proofs
