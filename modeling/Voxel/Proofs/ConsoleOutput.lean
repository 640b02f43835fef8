/-
Module: Voxel.Proofs.ConsoleOutput
Layer: Proofs
Purpose: Which bytes the console prints safely. Pixels and scrolling stay inside of the buffers on every
  screen of at least one cell, and a cursor that is on the screen stays there; a glyph row lies inside of
  the table of the font exactly for the bytes below 0x80, of which the signed `char` is not negative.
Trusted boundary: none
Main exports: LfbAccess.Inside, PrintsSafely, Printable, lfbGlyph_inside_iff, printSafe_iff,
  console_safe_iff
-/
import Mathlib.Tactic.Ring
import Mathlib.Tactic.Linarith
import Voxel.Kernel.LfbTerminal

namespace Voxel.Proofs

open Voxel.Kernel

variable {t : LfbTerminal} {c : BitVec 8}

/-! ## The property -/

/-- A glyph row lies in the table of 256 glyphs, and a pixel or a range of bytes in the buffers of
`lfb_width * lfb_height * 4` bytes. -/
def LfbAccess.Inside (t : LfbTerminal) : LfbAccess → Prop
  | .glyph offset => 0 ≤ offset ∧ offset < 256 * t.characterSize.toNat
  | .pixel offset => 4 * offset + 4 ≤ t.width * t.height * 4
  | .readMembuffer start count => start + count ≤ t.width * t.height * 4
  | .writeMembuffer start count => start + count ≤ t.width * t.height * 4
  | .writeFramebuffer start count => start + count ≤ t.width * t.height * 4

/-- Printing a byte makes accesses inside only, and leaves the cursor on the screen. -/
structure PrintSafe (t : LfbTerminal) (c : BitVec 8) : Prop where
  row : (lfbTerminalPutchar t c).1.row < t.rows
  column : (lfbTerminalPutchar t c).1.column < t.columns
  accesses : ∀ a ∈ (lfbTerminalPutchar t c).2, LfbAccess.Inside t a

/-- All bytes of a stream are printed safely, one after the other. -/
def PrintsSafely : LfbTerminal → List (BitVec 8) → Prop
  | _, [] => True
  | t, c :: bytes => PrintSafe t c ∧ PrintsSafely (lfbTerminalPutchar t c).1 bytes

/-- A newline, or a byte below 0x80 while the glyphs of the font are not empty. -/
def Printable (characterSize c : BitVec 8) : Prop := c = 0x0A ∨ (c.toNat < 128 ∧ characterSize ≠ 0)

/-- A screen of at least one cell, of a size that the mode info can hold. -/
structure HasCell (t : LfbTerminal) : Prop where
  columns : t.columns = t.width / 8
  rows : t.rows = t.height / 16
  wide : 8 ≤ t.width
  high : 16 ≤ t.height
  narrow : t.width < 2 ^ 16
  low : t.height < 2 ^ 16

/-! ## Pixels and scrolling -/

/-- A pixel that is stored lies in the buffers, wherever the cursor is. -/
theorem lfbSetPixel_inside {x y : Nat} {a : LfbAccess} (stored : a ∈ lfbSetPixel t x y) :
    LfbAccess.Inside t a := by
  unfold lfbSetPixel at stored
  split at stored
  · cases stored
  · rename_i within
    obtain ⟨left, above⟩ := not_or.mp within
    rw [List.mem_singleton.mp stored]
    have area : x + y * t.width + 1 ≤ t.width * t.height := by
      calc x + y * t.width + 1 ≤ t.width + y * t.width := by omega
        _ = (y + 1) * t.width := by ring
        _ ≤ t.height * t.width := Nat.mul_le_mul_right _ (by omega)
        _ = t.width * t.height := Nat.mul_comm _ _
    have small : (x + y * t.width) % 2 ^ 32 ≤ x + y * t.width := Nat.mod_le _ _
    show 4 * ((x + y * t.width) % 2 ^ 32) + 4 ≤ t.width * t.height * 4
    omega

/-- Scrolling moves and clears whole rows of the off-screen buffer, and copies all of it to the screen. -/
theorem lfbNewline_inside (cell : HasCell t) {a : LfbAccess} (accessed : a ∈ (lfbNewline t).2) :
    LfbAccess.Inside t a := by
  unfold lfbNewline at accessed
  dsimp only at accessed
  split at accessed
  · have rowLength : t.width * 16 * 4 % 2 ^ 32 = t.width * 64 := by
      have := cell.narrow
      omega
    obtain ⟨rows, rowsEq⟩ : ∃ rows, t.rows = rows + 1 := by
      have := cell.rows
      have := cell.high
      exact ⟨t.rows - 1, by omega⟩
    have fits : t.width * 64 * (rows + 1) ≤ t.width * t.height * 4 := by
      have cells : 16 * (rows + 1) ≤ t.height := by
        have := cell.rows
        omega
      calc t.width * 64 * (rows + 1) = t.width * (16 * (rows + 1)) * 4 := by ring
        _ ≤ t.width * t.height * 4 := Nat.mul_le_mul_right 4 (Nat.mul_le_mul_left _ cells)
    rw [Nat.mul_add, Nat.mul_one] at fits
    rw [rowLength, rowsEq, Nat.add_sub_cancel] at accessed
    simp only [List.mem_cons, List.not_mem_nil, or_false] at accessed
    rcases accessed with rfl | rfl | rfl | rfl | rfl <;> unfold LfbAccess.Inside <;> omega
  · cases accessed

/-! ## Glyphs -/

theorem glyph_mem {j : Nat} (row : j < 16) :
    .glyph (c.toInt * t.characterSize.toNat + j) ∈ lfbGlyph t c :=
  List.mem_flatMap.mpr ⟨j, List.mem_range.mpr row,
    List.mem_flatMap.mpr ⟨0, List.mem_range.mpr (by decide), List.mem_cons_self⟩⟩

/-- The 16 rows of a glyph lie in the table exactly for a character that is not negative, in a font whose
glyphs are not empty. -/
theorem lfbGlyph_inside_iff :
    (∀ a ∈ lfbGlyph t c, LfbAccess.Inside t a) ↔ c.toNat < 128 ∧ t.characterSize ≠ 0 := by
  have signed := BitVec.toInt_eq_toNat_cond c
  constructor
  · intro inside
    obtain ⟨first, -⟩ := inside _ (glyph_mem (j := 0) (by decide))
    obtain ⟨-, last⟩ := inside _ (glyph_mem (j := 15) (by decide))
    have some_ : 0 < t.characterSize.toNat := by
      by_contra empty
      have zero : t.characterSize.toNat = 0 := by omega
      rw [zero] at last
      omega
    refine ⟨?_, fun zero => ?_⟩
    · by_contra high
      rw [if_neg (by omega)] at signed
      have negative : c.toInt ≤ -1 := by
        have := c.isLt
        omega
      have product : c.toInt * t.characterSize.toNat ≤ -1 * t.characterSize.toNat :=
        Int.mul_le_mul_of_nonneg_right negative (by omega)
      omega
    · rw [zero] at some_
      cases some_
  · rintro ⟨low, notEmpty⟩ a accessed
    rw [if_pos (by omega)] at signed
    have some_ : 0 < t.characterSize.toNat := Nat.pos_of_ne_zero fun zero =>
      notEmpty (BitVec.eq_of_toNat_eq zero)
    obtain ⟨j, row, inRow⟩ := List.mem_flatMap.mp accessed
    obtain ⟨i, -, inPixel⟩ := List.mem_flatMap.mp inRow
    rcases List.mem_cons.mp inPixel with rfl | stored
    · have rows := List.mem_range.mp row
      have product : c.toInt * t.characterSize.toNat ≤ 127 * t.characterSize.toNat :=
        Int.mul_le_mul_of_nonneg_right (by omega) (by omega)
      have start : 0 ≤ c.toInt * (t.characterSize.toNat : Int) := Int.mul_nonneg (by omega) (by omega)
      unfold LfbAccess.Inside
      omega
    · exact lfbSetPixel_inside stored

/-! ## Bytes -/

/-- A screen keeps its size, and the cursor is in a column of it after every byte. It is in a row exactly if
it was. -/
theorem lfbNewline_cursor (cell : HasCell t) :
    HasCell (lfbNewline t).1 ∧ (lfbNewline t).1.rows = t.rows ∧ (lfbNewline t).1.column < t.columns ∧
      (lfbNewline t).1.characterSize = t.characterSize ∧
      ((lfbNewline t).1.row < t.rows ↔ t.row < t.rows) := by
  have some_ : 0 < t.columns := by
    have := cell.wide
    have := cell.columns
    omega
  unfold lfbNewline
  dsimp only
  split
  · exact ⟨⟨cell.columns, cell.rows, cell.wide, cell.high, cell.narrow, cell.low⟩, rfl, some_, rfl, Iff.rfl⟩
  · refine ⟨⟨cell.columns, cell.rows, cell.wide, cell.high, cell.narrow, cell.low⟩, rfl, some_, rfl, ?_⟩
    dsimp only
    omega

theorem lfbTerminalPutchar_cursor (cell : HasCell t) (c : BitVec 8) :
    HasCell (lfbTerminalPutchar t c).1 ∧ (lfbTerminalPutchar t c).1.rows = t.rows ∧
      (lfbTerminalPutchar t c).1.column < t.columns ∧
      (lfbTerminalPutchar t c).1.characterSize = t.characterSize ∧
      ((lfbTerminalPutchar t c).1.row < t.rows ↔ t.row < t.rows) := by
  unfold lfbTerminalPutchar
  dsimp only
  have moved : HasCell { t with column := t.column + 1 } :=
    ⟨cell.columns, cell.rows, cell.wide, cell.high, cell.narrow, cell.low⟩
  split
  · exact lfbNewline_cursor cell
  · split
    · exact lfbNewline_cursor moved
    · rename_i before
      exact ⟨moved, rfl, Nat.lt_of_not_le before, rfl, Iff.rfl⟩

/-- A byte is printed safely exactly if it is printable and the cursor is in a row of the screen. -/
theorem printSafe_iff (cell : HasCell t) :
    PrintSafe t c ↔ t.row < t.rows ∧ Printable t.characterSize c := by
  obtain ⟨-, -, column, -, row⟩ := lfbTerminalPutchar_cursor cell c
  have accesses : (∀ a ∈ (lfbTerminalPutchar t c).2, LfbAccess.Inside t a) ↔ Printable t.characterSize c := by
    unfold lfbTerminalPutchar Printable
    dsimp only
    split
    · rename_i isNewline
      exact ⟨fun _ => .inl isNewline, fun _ a accessed => lfbNewline_inside cell accessed⟩
    · rename_i notNewline
      rw [or_iff_right notNewline, ← lfbGlyph_inside_iff]
      split
      · have moved : HasCell { t with column := t.column + 1 } :=
          ⟨cell.columns, cell.rows, cell.wide, cell.high, cell.narrow, cell.low⟩
        constructor
        · exact fun inside a accessed => inside a (List.mem_append_left _ accessed)
        · intro inside a accessed
          rcases List.mem_append.mp accessed with glyph | scrolled
          · exact inside a glyph
          · exact lfbNewline_inside moved scrolled
      · exact Iff.rfl
  exact ⟨fun safe => ⟨row.mp safe.row, accesses.mp safe.accesses⟩,
    fun both => ⟨row.mpr both.1, column, accesses.mpr both.2⟩⟩

/-! ## Streams -/

/-- A stream is printed safely exactly if all of its bytes are printable and, unless it is empty, the cursor
starts in a row of the screen. -/
theorem printsSafely_iff (cell : HasCell t) (bytes : List (BitVec 8)) :
    PrintsSafely t bytes ↔
      (bytes ≠ [] → t.row < t.rows) ∧ ∀ c ∈ bytes, Printable t.characterSize c := by
  induction bytes generalizing t with
  | nil => exact ⟨fun _ => ⟨fun some_ => absurd rfl some_, fun _ member => by cases member⟩, fun _ => trivial⟩
  | cons c bytes inductionHypothesis =>
      obtain ⟨next, rows, -, size, row⟩ := lfbTerminalPutchar_cursor cell c
      rw [PrintsSafely, printSafe_iff cell, inductionHypothesis next, rows, size, row,
        List.forall_mem_cons]
      constructor
      · rintro ⟨⟨inside, printable⟩, -, later⟩
        exact ⟨fun _ => inside, printable, later⟩
      · rintro ⟨inside, printable, later⟩
        have inRow := inside (List.cons_ne_nil _ _)
        exact ⟨⟨inRow, printable⟩, fun _ => inRow, later⟩

/-- On every screen of at least one cell: every byte of a stream leaves the cursor on the screen, and all
glyph rows, pixels and moved bytes lie inside of the font and of the buffers, exactly if every byte is a
newline or below 0x80 in a font with glyphs, and the cursor starts in a row of the screen. -/
theorem console_safe_iff {xRes yRes : BitVec 16} (characterSize : BitVec 8) (column row : Nat)
    (bytes : List (BitVec 8)) (wide : 8 ≤ xRes.toNat) (high : 16 ≤ yRes.toNat) :
    PrintsSafely (lfbTerminalInit xRes yRes characterSize column row) bytes ↔
      (bytes ≠ [] → row < yRes.toNat / 16) ∧ ∀ c ∈ bytes, Printable characterSize c :=
  printsSafely_iff ⟨rfl, rfl, wide, high, xRes.isLt, yRes.isLt⟩ bytes

/-- A letter and a newline on a screen of 640 by 480 pixels. -/
theorem console_safe_iff_letter :
    PrintsSafely (lfbTerminalInit 640 480 16 0 0) [0x61, 0x0A] ↔
      (([0x61, 0x0A] : List (BitVec 8)) ≠ [] → 0 < (480 : BitVec 16).toNat / 16) ∧
        ∀ c ∈ ([0x61, 0x0A] : List (BitVec 8)), Printable 16 c :=
  console_safe_iff 16 0 0 _ (by decide) (by decide)

/-- The byte 0x80 is the character -128: its first row is read 2048 bytes before the table. -/
theorem console_reads_before_font :
    ¬PrintsSafely (lfbTerminalInit 640 480 16 0 0) [0x80] := by
  rintro ⟨safe, -⟩
  have first := (lfbGlyph_inside_iff (t := lfbTerminalInit 640 480 16 0 0) (c := 0x80)).mp safe.accesses
  exact absurd first.1 (by decide)

end Voxel.Proofs
