/-
Module: Voxel.Kernel.UserStack
Layer: Kernel
Purpose: The initial user stack that `elf_exec` of `kernel/lib/elf.c` builds: the strings of the two vectors,
  the auxiliary values, the two vectors of pointers and `argc`, pushed one after the other. The stores are
  kept in a log. The pointers on the kernel stack are lists.
Trusted boundary: human-reviewed spec
Main exports: UserStack, UserStack.push, UserStack.pushStr, UserStack.pushStrings, UserStack.pushWords,
  NewStack, elfStack
-/
import Voxel.Lib.ByteMemory
import Voxel.Lib.CString

namespace Voxel.Kernel

open Voxel.Lib

/-- The first address behind the user stack. -/
def userstackTop : BitVec 64 := 0x800000000000

/-- The bytes that are mapped for it. -/
def userstackSize : Nat := 512 * 0x400

/-- `userstack`, the memory of the new process, and the stores with their sizes, in order. -/
structure UserStack where
  userstack : BitVec 64
  memory : ByteMemory
  stores : List (BitVec 64 × Nat)

namespace UserStack

/-- `while (userstack & (size - 1)) --userstack;`. Fewer rounds than `size` are enough. -/
def alignDown (size : Nat) : Nat → BitVec 64 → BitVec 64
  | 0, p => p
  | rounds + 1, p => if p &&& BitVec.ofNat 64 (size - 1) ≠ 0 then alignDown size rounds (p - 1) else p

/-- `USERSTACK_PUSH` of a type with this size. -/
def push (size : Nat) (value : BitVec 64) (s : UserStack) : UserStack :=
  let p := alignDown size size (s.userstack - BitVec.ofNat 64 size)
  { userstack := p
    memory := s.memory.store p size value
    stores := s.stores ++ [(p, size)] }

/-- The characters of a string with the indices below a number, the last one first. -/
def pushChars (str : CString) : Nat → UserStack → UserStack
  | 0, s => s
  | l + 1, s => pushChars str l (push 1 ((charAt str l).setWidth 64) s)

/-- How many characters `USERSTACK_PUSHSTR` pushes: its counter is an `int`. -/
def pushCount (str : CString) : Nat :=
  if (BitVec.ofNat 32 str.length).toInt < 0 then 0 else (BitVec.ofNat 32 str.length).toInt.toNat + 1

/-- `USERSTACK_PUSHSTR`. -/
def pushStr (str : CString) (s : UserStack) : UserStack := pushChars str (pushCount str) s

/-- The strings of a vector, with the pointers to them. -/
def pushStrings : List CString → UserStack → List (BitVec 64) × UserStack
  | [], s => ([], s)
  | str :: rest, s =>
      let s := pushStr str s
      let (pointers, t) := pushStrings rest s
      (s.userstack :: pointers, t)

/-- Words, one after the other. -/
def pushWords (words : List (BitVec 64)) (s : UserStack) : UserStack :=
  words.foldl (fun s word => push 8 word s) s

end UserStack

/-- What `elf_exec` hands to `enter_userspace`. -/
structure NewStack where
  argc : BitVec 32
  argv : BitVec 64
  envp : BitVec 64
  stack : UserStack

/-- The part of `elf_exec` that builds the stack. -/
def elfStack (argv envp : List CString) (uid : BitVec 32) (s : UserStack) : NewStack :=
  let (argvPtrs, s) := UserStack.pushStrings argv s
  let (envpPtrs, s) := UserStack.pushStrings envp s
  let s := UserStack.pushWords [0, uid.setWidth 64, 11, uid.setWidth 64, 12, 0] s
  let s := UserStack.push 8 0 s
  let s := UserStack.pushWords envpPtrs.reverse s
  let userEnvp := s.userstack
  let s := UserStack.push 8 0 s
  let s := UserStack.pushWords argvPtrs.reverse s
  let userArgv := s.userstack
  let argc := BitVec.ofNat 32 argv.length
  { argc := argc
    argv := userArgv
    envp := userEnvp
    stack := UserStack.push 8 (argc.signExtend 64) s }

end Voxel.Kernel
