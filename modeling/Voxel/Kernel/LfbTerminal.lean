/-
Module: Voxel.Kernel.LfbTerminal
Layer: Kernel
Purpose: The console of `kernel/video/lfb_terminal.c` on the framebuffer of `kernel/video/lfb.c`, as the
  accesses that it makes: the glyph rows that it reads, the pixels that it stores, and the byte ranges of
  the off-screen buffer and of the screen that scrolling moves. The mode info of the boot loader holds the
  size of the screen in 16 bits each. `terminal.putchar` is `lfb_terminal_putchar` from `kmain` on.
Trusted boundary: human-reviewed spec
Main exports: LfbTerminal, LfbAccess, lfbTerminalInit, lfbSetPixel, lfbTerminalPutchar
-/
import Mathlib.Algebra.Group.Nat.Defs

namespace Voxel.Kernel

/-- `lfb_width` and `lfb_height`, `lfb_terminal.columns` and `.rows`, `terminal_column` and `terminal_row`,
and `font->header.character_size`. -/
structure LfbTerminal where
  width : Nat
  height : Nat
  columns : Nat
  rows : Nat
  column : Nat
  row : Nat
  characterSize : BitVec 8
  deriving Repr, DecidableEq

/-- An access: to a byte of `font->buffer`, to a pixel of the screen and of the off-screen buffer, or to
`count` bytes of one of these from an offset on. -/
inductive LfbAccess where
  | glyph (offset : Int)
  | pixel (offset : Nat)
  | readMembuffer (start count : Nat)
  | writeMembuffer (start count : Nat)
  | writeFramebuffer (start count : Nat)
  deriving Repr, DecidableEq

/-- `lfb_terminal_init`, with the size of the screen from `vbe_info_t`. -/
def lfbTerminalInit (xRes yRes : BitVec 16) (characterSize : BitVec 8) (column row : Nat) : LfbTerminal where
  width := xRes.toNat
  height := yRes.toNat
  columns := xRes.toNat / 8
  rows := yRes.toNat / 16
  column := column
  row := row
  characterSize := characterSize

/-- `lfb_set_pixel`: the offset is a `uint32_t`. -/
def lfbSetPixel (t : LfbTerminal) (x y : Nat) : List LfbAccess :=
  if t.width ≤ x ∨ t.height ≤ y then [] else [.pixel ((x + y * t.width) % 2 ^ 32)]

/-- `lfb_terminal_putchar('\n')`: on the last row the screen moves up by one row. -/
def lfbNewline (t : LfbTerminal) : LfbTerminal × List LfbAccess :=
  let t := { t with column := 0 }
  if t.rows ≤ t.row + 1 then
    let rowLength := t.width * 16 * 4 % 2 ^ 32
    (t, [.readMembuffer rowLength (rowLength * (t.rows - 1)),
      .writeMembuffer 0 (rowLength * (t.rows - 1)),
      .writeMembuffer (rowLength * (t.rows - 1)) rowLength,
      .readMembuffer 0 (t.width * t.height * 4),
      .writeFramebuffer 0 (t.width * t.height * 4)])
  else ({ t with row := t.row + 1 }, [])

/-- The pixel `i` of the glyph row `j`: `nx` and `ny` are `uint32_t`. -/
def lfbGlyphPixel (t : LfbTerminal) (face : Int) (j i : Nat) : List LfbAccess :=
  .glyph (face + j) :: lfbSetPixel t ((t.column * 8 + i) % 2 ^ 32) ((t.row * 16 + j) % 2 ^ 32)

/-- The loops over the 16 rows and 8 columns of a glyph. `ch` is a signed `char`. -/
def lfbGlyph (t : LfbTerminal) (ch : BitVec 8) : List LfbAccess :=
  (List.range 16).flatMap fun j =>
    (List.range 8).flatMap fun i => lfbGlyphPixel t (ch.toInt * t.characterSize.toNat) j i

/-- `lfb_terminal_putchar`. -/
def lfbTerminalPutchar (t : LfbTerminal) (ch : BitVec 8) : LfbTerminal × List LfbAccess :=
  if ch = 0x0A then lfbNewline t
  else
    let next := { t with column := t.column + 1 }
    if next.columns ≤ next.column then ((lfbNewline next).1, lfbGlyph t ch ++ (lfbNewline next).2)
    else (next, lfbGlyph t ch)

end Voxel.Kernel
