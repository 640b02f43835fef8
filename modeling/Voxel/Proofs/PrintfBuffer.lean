/-
Module: Voxel.Proofs.PrintfBuffer
Layer: Proofs
Purpose: What `vsnprintf` leaves in its buffer, beside the text that `vsprintf` stores. Every character
  that has room is stored with a terminator behind it, so that a buffer of two bytes or more holds as
  much of the text as fits; into a buffer of one byte nothing is stored. The length goes through an
  `int`.
Trusted boundary: none
Main exports: itemLength, textLength, Filled, Spilled, Truncates, vsnprintf_truncates_iff
-/
import Voxel.Proofs.PrintfRun
import Voxel.Proofs.PrintfNumbers

namespace Voxel.Proofs

open Voxel.Lib Voxel.Libc
open Voxel.Lib.TracedMemory

/-! ## The length of a text -/

/-- The characters of a directive, from its width, its precision and its argument. -/
def directiveLength (strings : BitVec 64 → CString) (d : Directive) (conversion : BitVec 8)
    (word : BitVec 64) : Nat :=
  if conversion = chr 's' then
    if d.argw = 0 then (limited d.limit (stringAt strings word)).length else d.argw.toNat
  else if conversion = chr 'p' then max d.argw.toNat (digitCount 16 word.toNat + 2)
  else if conversion = chr 'X' ∨ conversion = chr 'x' then
    max d.argw.toNat (digitCount 16 (unsignedArgument d.big word).toNat + 2 * d.alt.toNat)
  else if conversion = chr 'd' ∨ conversion = chr 'i' ∨ conversion = chr 'u' then
    let value := decimalValue d conversion word
    (decimalSign d conversion value).length + max d.argw.toNat (decLength d.precision value.natAbs)
  else 1

/-- The characters of what `_printf` finds in a format. -/
def itemLength (strings : BitVec 64 → CString) : Item → Nat
  | .char _ => 1
  | .directive d conversion argument => directiveLength strings d conversion (argument.getD 0)

/-- The characters of a run of `_printf`. -/
def textLength (strings : BitVec 64 → CString) (items : List Item) : Nat :=
  (items.map (itemLength strings)).sum

variable {strings : BitVec 64 → CString}

theorem stringText_length (d : Directive) (s : CString) :
    (stringText d s).length = if d.argw = 0 then (limited d.limit s).length else d.argw.toNat := by
  rw [stringText]
  by_cases free : d.argw = 0
  · rw [if_pos free, if_pos free, free]
    simp
  · rw [if_neg free, if_neg free]
    simp

theorem decText_length (value : BitVec 64) (width precision : BitVec 32) (fzero align : Bool) :
    (decText value width fzero align precision).length =
    max width.toNat (decLength precision value.toNat) := by
  rw [decText]
  cases align <;> simp <;> omega

theorem directiveText_length {d : Directive} {conversion : BitVec 8} (small : d.argw.toNat < 2 ^ 31)
    (word : BitVec 64) :
    (directiveText strings d conversion word).length = directiveLength strings d conversion word := by
  by_cases isDecimal : conversion = chr 'd' ∨ conversion = chr 'i' ∨ conversion = chr 'u'
  · obtain ⟨value, magnitude, text⟩ := directiveText_decimal strings d isDecimal word
    rw [text, List.length_append, decText_length, magnitude, directiveLength, if_pos isDecimal]
    rcases isDecimal with rfl | rfl | rfl <;> rfl
  · obtain ⟨notD, notI, notU⟩ : conversion ≠ chr 'd' ∧ conversion ≠ chr 'i' ∧ conversion ≠ chr 'u' := by
      simpa only [not_or] using isDecimal
    rw [directiveText, directiveLength, if_neg isDecimal, if_neg (not_or.mpr ⟨notI, notD⟩), if_neg notU]
    simp only [apply_ite List.length, stringText_length, hexText_length small]
    split
    · rfl
    split
    · rename_i isChar
      rw [isChar, if_neg (by decide), if_neg (by decide)]
      rfl
    · rfl

theorem itemText_length {item : Item} (inRange : InRange item) :
    (itemText strings item).length = itemLength strings item := by
  cases item with
  | char c => rfl
  | directive d conversion argument => exact directiveText_length inRange.1 _

theorem text_length {items : List Item} (inRange : ∀ item ∈ items, InRange item) :
    (items.flatMap (itemText strings)).length = textLength strings items := by
  rw [List.length_flatMap, textLength, List.map_congr_left fun item member => itemText_length
    (inRange item member)]

/-! ## The bounded buffer -/

/-- What lies in a buffer after a text was put into it. -/
structure Filled (str size : BitVec 64) (first : TracedMemory) (text : List (BitVec 8))
    (state : PrintfCb × TracedMemory) : Prop where
  buffer : state.1.str = str
  room : state.1.size = size
  written : state.1.written.toNat = min text.length (size.toNat - 1)
  inside : ∀ a, state.2.stored a → (a - str).toNat < size.toNat
  chars : ∀ i < state.1.written.toNat, state.2.mem (str + BitVec.ofNat 64 i) = charAt text i
  terminated : state.1.written ≠ 0 → state.2.mem (str + state.1.written) = nul
  unused : state.1.written = 0 → state.2 = first

variable {str size : BitVec 64} {first : TracedMemory} {text : List (BitVec 8)}
    {state : PrintfCb × TracedMemory}

theorem Filled.start (none : ∀ a, ¬ first.stored a) : Filled str size first [] (⟨str, size, 0⟩, first) where
  buffer := rfl
  room := rfl
  written := (Nat.zero_min _).symm
  inside a isStored := absurd isStored (none a)
  chars i below := absurd below (Nat.not_lt_zero i)
  terminated some := absurd rfl some
  unused _ := rfl

/-- One more character is stored with a terminator behind it, or there is no room for both. -/
theorem Filled.step (filled : Filled str size first text state) (some : size ≠ 0) (c : BitVec 8) :
    Filled str size first (text ++ [c]) (cbSprintf state c) := by
  obtain ⟨⟨str', size', written⟩, m⟩ := state
  obtain ⟨rfl, rfl, writtenEq, inside, chars, terminated, unused⟩ := filled
  dsimp only at *
  have positive : 0 < size'.toNat := Nat.pos_of_ne_zero fun zero => some (BitVec.eq_of_toNat_eq zero)
  have bound := size'.isLt
  have length : (text ++ [c]).length = text.length + 1 := List.length_append
  have next : (written + 1).toNat = written.toNat + 1 := by
    rw [BitVec.toNat_add, show (1 : BitVec 64).toNat = 1 from rfl]
    exact Nat.mod_eq_of_lt (by omega)
  have place : str' + written = str' + BitVec.ofNat 64 written.toNat := by
    rw [BitVec.ofNat_toNat, BitVec.setWidth_eq]
  have placeNext : str' + (written + 1) = str' + BitVec.ofNat 64 (written.toNat + 1) := by
    rw [← next, BitVec.ofNat_toNat, BitVec.setWidth_eq]
  rw [cbSprintf]
  dsimp only
  by_cases room : size' > written + 1
  · have below : written.toNat + 1 < size'.toNat := next ▸ BitVec.lt_def.mp room
    have all : written.toNat = text.length := by omega
    rw [if_pos room, if_pos room]
    refine ⟨rfl, rfl, ?_, ?_, ?_, ?_, ?_⟩
    · rw [next, length]
      omega
    · rintro a ((before | rfl) | rfl)
      · exact inside a before
      · rw [place, distance_offset _ (by omega)]
        omega
      · rw [placeNext, distance_offset _ (by omega)]
        exact below
    · intro i less
      rw [next] at less
      rw [mem_put_of_ne _ _ (by rw [placeNext]; exact offset_ne _ (by omega) (by omega) (by omega))]
      rcases Nat.lt_succ_iff_lt_or_eq.mp less with earlier | rfl
      · rw [mem_put_of_ne _ _ (by rw [place]; exact offset_ne _ (by omega) (by omega) (by omega)),
          chars i earlier,
          charAt_append_left (by omega)]
      · rw [← place, mem_put_self, charAt_append_right (Nat.le_of_eq all.symm), all, Nat.sub_self]
        rfl
    · exact fun _ => mem_put_self ..
    · intro zero
      rw [show written + 1 = 0 from zero] at next
      cases next
  · have full : size'.toNat ≤ written.toNat + 1 := next ▸ Nat.not_lt.mp fun less => room
      (BitVec.lt_def.mpr less)
    rw [if_neg room]
    refine ⟨rfl, rfl, ?_, inside, fun i below => ?_, terminated, unused⟩
    · rw [length, writtenEq]
      omega
    · have earlier : i < written.toNat := below
      rw [chars i earlier, charAt_append_left (by omega)]

theorem Filled.run (filled : Filled str size first text state) (some : size ≠ 0) (more : List (BitVec 8)) :
    Filled str size first (text ++ more) (more.foldl cbSprintf state) := by
  induction more generalizing text state with
  | nil => exact (List.append_nil text).symm ▸ filled
  | cons c more inductionHypothesis =>
      rw [List.append_cons]
      exact inductionHypothesis (filled.step some c)

/-! ## The unbounded buffer -/

/-- What `vsprintf` has stored of a text. -/
structure Spilled (str : BitVec 64) (text : List (BitVec 8)) (state : PrintfCb × TracedMemory) : Prop where
  buffer : state.1.str = str
  written : state.1.written = BitVec.ofNat 64 text.length
  chars : ∀ i < text.length, state.2.mem (str + BitVec.ofNat 64 i) = charAt text i

/-- One more character is stored behind the others. -/
theorem Spilled.step (spilled : Spilled str text state) (short : text.length < 2 ^ 64) (c : BitVec 8) :
    Spilled str (text ++ [c]) (cbUSprintf state c) := by
  obtain ⟨⟨str', size', written⟩, m⟩ := state
  obtain ⟨rfl, written, chars⟩ := spilled
  dsimp only at written chars
  rw [cbUSprintf]
  dsimp only
  refine ⟨rfl, ?_, fun i below => ?_⟩
  · rw [List.length_append, BitVec.ofNat_add, written]
    rfl
  · rw [List.length_append, List.length_singleton] at below
    dsimp only
    rw [written]
    rcases Nat.lt_succ_iff_lt_or_eq.mp below with earlier | rfl
    · rw [mem_put_of_ne _ _ (offset_ne _ (by omega) short (Nat.ne_of_lt earlier)), chars i earlier,
        charAt_append_left earlier]
    · rw [mem_put_self, charAt_append_right (Nat.le_refl _), Nat.sub_self]
      rfl

theorem Spilled.run (spilled : Spilled str text state) {more : List (BitVec 8)}
    (short : text.length + more.length ≤ 2 ^ 64) :
    Spilled str (text ++ more) (more.foldl cbUSprintf state) := by
  induction more generalizing text state with
  | nil => exact (List.append_nil text).symm ▸ spilled
  | cons c more inductionHypothesis =>
      rw [List.length_cons] at short
      rw [List.append_cons]
      refine inductionHypothesis (spilled.step (by omega) c) ?_
      rw [List.length_append, List.length_singleton]
      omega

/-! ## The calls -/

/-- The stores of a call lie in the buffer, which begins with as much of the text as leaves room for a
terminator and with the terminator, and the result is the length of the text. -/
structure Truncates (str size : BitVec 64) (text : List (BitVec 8)) (result : BitVec 32)
    (m : TracedMemory) : Prop where
  inside : ∀ a, m.stored a → (a - str).toNat < size.toNat
  chars : ∀ i < min text.length (size.toNat - 1), m.mem (str + BitVec.ofNat 64 i) = charAt text i
  terminated : m.mem (str + BitVec.ofNat 64 (min text.length (size.toNat - 1))) = nul
  counts : result.toInt = text.length

/-- A length that is returned through an `int`. -/
theorem int_length_iff (n : Nat) : ((BitVec.ofNat 64 n).setWidth 32).toInt = n ↔ n < 2 ^ 31 := by
  have same : (BitVec.ofNat 64 n).setWidth 32 = BitVec.ofNat 32 n := by
    apply BitVec.eq_of_toNat_eq
    rw [BitVec.toNat_setWidth, BitVec.toNat_ofNat, BitVec.toNat_ofNat, Nat.mod_mod_of_dvd _ (by decide)]
  rw [same]
  constructor
  · intro equal
    have below := (BitVec.ofNat 32 n).toInt_lt
    omega
  · intro small
    have value : (BitVec.ofNat 32 n).toNat = n := by
      rw [BitVec.toNat_ofNat]
      exact Nat.mod_eq_of_lt (by omega)
    rw [BitVec.toInt_eq_toNat_of_lt (by omega), value]

/-- The buffer behind a text and the character zero holds what fits of the text with a terminator,
except that one byte is not enough. -/
theorem filled_truncates_iff {mem : ByteMemory}
    (filled : Filled str size (start mem) (text ++ [0]) state) (some : size ≠ 0)
    (result : BitVec 32) :
    Truncates str size text result state.2 ↔ (size ≠ 1 ∨ mem str = nul) ∧ result.toInt = text.length := by
  have length : (text ++ [(0 : BitVec 8)]).length = text.length + 1 := List.length_append
  have written := filled.written
  have positive : 0 < size.toNat := Nat.pos_of_ne_zero fun zero => some (BitVec.eq_of_toNat_eq zero)
  rw [length] at written
  have ofWritten : BitVec.ofNat 64 state.1.written.toNat = state.1.written := by
    rw [BitVec.ofNat_toNat, BitVec.setWidth_eq]
  have chars : ∀ i < min text.length (size.toNat - 1), state.2.mem (str + BitVec.ofNat 64 i) =
    charAt text i := by
    intro i below
    rw [filled.chars i (by omega), charAt_append_left (by omega)]
  have terminated : state.2.mem (str + BitVec.ofNat 64 (min text.length (size.toNat - 1))) = nul ↔
      size ≠ 1 ∨ mem str = nul := by
    by_cases one : size = 1
    · -- Nothing is stored, so that the byte is what it was.
      have none : state.1.written = 0 := BitVec.eq_of_toNat_eq (by rw [written, one]; exact Nat.min_zero _)
      have place : min text.length (size.toNat - 1) = 0 := by
        rw [one]
        exact Nat.min_zero _
      rw [filled.unused none, place, or_iff_right (not_not.mpr one), BitVec.add_zero]
      rfl
    · have more : size.toNat ≠ 1 := fun isOne => one (BitVec.eq_of_toNat_eq isOne)
      refine iff_of_true ?_ (.inl one)
      by_cases fits : text.length < size.toNat - 1
      · rw [Nat.min_eq_left (Nat.le_of_lt fits), filled.chars _ (by omega),
          charAt_append_right (Nat.le_refl _),
          Nat.sub_self]
        rfl
      · rw [show min text.length (size.toNat - 1) = state.1.written.toNat by omega, ofWritten]
        refine filled.terminated fun none => ?_
        rw [none] at written
        have zero : (0 : BitVec 64).toNat = 0 := rfl
        omega
  exact ⟨fun truncates => ⟨terminated.mp truncates.terminated, truncates.counts⟩,
    fun right => ⟨filled.inside, chars, terminated.mpr right.1, right.2⟩⟩

/-- `vsprintf` stores the text and a terminator. -/
theorem vsprintf_stores {fmt : CString} {args : VaList} {o : Output}
    (printed : printf strings fmt args = some o)
    (short : o.emitted.length < 2 ^ 64) (str : BitVec 64) (mem : ByteMemory) :
    ∃ result m, vsprintf strings str fmt args (start mem) = some (result, m) ∧
      ∀ i ≤ o.emitted.length, m.mem (str + BitVec.ofNat 64 i) = charAt o.emitted i := by
  have spilled : Spilled str [] (⟨str, 0, 0⟩, start mem) :=
    ⟨rfl, rfl, fun i below => absurd below (Nat.not_lt_zero i)⟩
  have fits : ([] : List (BitVec 8)).length + o.emitted.length ≤ 2 ^ 64 := by
    rw [List.length_nil, Nat.zero_add]
    exact Nat.le_of_lt short
  have ended : Spilled str (o.emitted ++ [0])
    (cbUSprintf (o.emitted.foldl cbUSprintf (⟨str, 0, 0⟩, start mem)) 0) :=
    (spilled.run fits).step short 0
  rw [vsprintf, printed]
  refine ⟨_, _, rfl, fun i atMost => ?_⟩
  rw [ended.chars i (by rw [List.length_append]; exact Nat.lt_succ_of_le atMost)]
  rcases Nat.lt_or_eq_of_le atMost with below | rfl
  · exact charAt_append_left below
  · rw [charAt_append_right (Nat.le_refl _), Nat.sub_self, charAt_end]
    rfl

/-- For every format, every arguments and every size but 0, `vsnprintf` leaves what fits of the text of
`vsprintf` exactly if there is room for a character or a terminator lies there already, and the length
is an `int`. -/
theorem vsnprintf_truncates_iff (strings : BitVec 64 → CString) {fmt : CString} {args : VaList}
    (call : PrintfCall fmt args) (hasSize : size ≠ 0) (str : BitVec 64) (mem : ByteMemory) :
    ∃ items text, printfItems fmt args = some items ∧
      (∀ str' mem', text.length < 2 ^ 64 → ∃ result m,
        vsprintf strings str' fmt args (start mem') = some (result, m) ∧
        ∀ i ≤ text.length, m.mem (str' + BitVec.ofNat 64 i) = charAt text i) ∧
      ∃ result m, vsnprintf strings str size fmt args (start mem) = some (result, m) ∧
        (Truncates str size text result m ↔ (size ≠ 1 ∨ mem str = nul) ∧
          textLength strings items < 2 ^ 31) := by
  obtain ⟨items, found, printed⟩ := printf_eq strings call
  have emitted : (Output.start.putAll (items.flatMap (itemText strings))).emitted =
      items.flatMap (itemText strings) := putAll_emitted _
  have length := @text_length strings items (call.inRange items found)
  refine ⟨items, items.flatMap (itemText strings), found, fun str' mem' short => ?_, ?_⟩
  · have stores := vsprintf_stores printed (emitted.symm ▸ short) str' mem'
    rwa [emitted] at stores
  · have filled : Filled str size (start mem) (items.flatMap (itemText strings))
        ((items.flatMap (itemText strings)).foldl cbSprintf (⟨str, size, 0⟩, start mem)) :=
      (Filled.start fun a => stored_start).run hasSize _
    rw [vsnprintf, printed]
    refine ⟨_, _, rfl, ?_⟩
    rw [emitted]
    refine (filled_truncates_iff (filled.step hasSize 0) hasSize _).trans ?_
    rw [start_putAll_written, length, int_length_iff]

/-- `snprintf(str, 4, "%5ld", 0)` stores three of the five characters and returns 5. -/
theorem vsnprintf_truncates_iff_example : ∃ text result m,
    vsnprintf (fun _ => []) 0x1000 4 numberFormat zeroArgs (start fun _ => 0x41) = some (result, m) ∧
    Truncates 0x1000 4 text result m ∧ result = 5 := by
  obtain ⟨items, text, found, -, result, m, ran, exactly⟩ :=
    @vsnprintf_truncates_iff 4 (fun _ => []) _ _ numberFormat_call (by decide) 0x1000 fun _ => 0x41
  cases numberFormat_items.symm.trans found
  refine ⟨text, result, m, ran, exactly.mpr ⟨.inl (by decide), by decide⟩, ?_⟩
  rw [vsnprintf, numberFormat_printed] at ran
  cases ran
  rfl

/-- With a size of 1 nothing is stored: the byte of the buffer stays what it was. -/
theorem vsnprintf_one_byte : ∃ result m,
    vsnprintf (fun _ => []) 0x1000 1 numberFormat zeroArgs (start fun _ => 0x41) = some (result, m) ∧
    m.mem 0x1000 = 0x41 ∧ ∀ text, ¬ Truncates 0x1000 1 text result m := by
  rw [vsnprintf, numberFormat_printed]
  refine ⟨_, _, rfl, rfl, fun text truncates => ?_⟩
  have terminated := truncates.terminated
  rw [show min text.length ((1 : BitVec 64).toNat - 1) = 0 from Nat.min_zero _] at terminated
  exact absurd terminated (by decide)

end Voxel.Proofs
