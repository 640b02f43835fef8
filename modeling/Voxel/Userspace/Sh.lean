/-
Module: Voxel.Userspace.Sh
Layer: Userspace
Purpose: The shell of `userspace/sh.c` on the bytes that arrive on standard input. `command` and `tokens` are
  arrays of 1024 bytes and 512 pointers with any contents at first; an access outside of them, or behind
  the memory of a string, has no result. `fread` returns no byte while there is no more input, and the
  loop of `readline` goes on.
Trusted boundary: human-reviewed spec
Main exports: store, strlen, stringAt, ReadLine, readline, cutLast, storeTokens, argvOf, ShState, ShRound,
  findCommand, execFound, runTokens, runCommand, shRound, shStep
-/
import Voxel.Kernel.Strings
import Voxel.Lib.Format
import Voxel.Libc.Stdio
import Voxel.Libc.Strtok

namespace Voxel.Userspace

open Voxel.Lib

/-- `array[index] = value;`. -/
def store {α : Type} (array : List α) (index : Nat) (value : α) : Option (List α) :=
  if index < array.length then some (array.set index value) else none

/-- `strlen` on the memory of a string. -/
def strlen (memory : List (BitVec 8)) : Option Nat := memory.idxOf? nul

/-- The string at a place of the memory. -/
def stringAt (memory : List (BitVec 8)) (start : Nat) : Option CString :=
  (strlen (memory.drop start)).map fun len => (memory.drop start).take len

/-! ## Reading a line -/

/-- `readline` waits for more input, or it has filled the buffer and left the rest of the input. -/
inductive ReadLine where
  | waits
  | line (buf input : List (BitVec 8))
  deriving Repr, DecidableEq

/-- The loop of `readline`, with `read` bytes in the buffer, and what follows it. -/
def readlineLoop (size : Nat) : Nat → List (BitVec 8) → List (BitVec 8) → Option ReadLine
  | read, buf, [] =>
      if read < size - 1 then some .waits else (store buf read nul).map fun buf => .line buf []
  | read, buf, c :: input =>
      if read < size - 1 then
        (store buf read c).bind fun buf =>
          if c = Libc.newline then (store buf (read + 1) nul).map fun buf => .line buf input
          else readlineLoop size (read + 1) buf input
      else (store buf read nul).map fun buf => .line buf (c :: input)

/-- `readline`. -/
def readline (buf input : List (BitVec 8)) (size : Nat) : Option ReadLine := readlineLoop size 0 buf input

/-- `command[strlen(command) - 1] = 0;`: the index is a `size_t`. -/
def cutLast (command : List (BitVec 8)) : Option (List (BitVec 8)) :=
  (strlen command).bind fun len => store command ((len + 2 ^ 64 - 1) % 2 ^ 64) nul

/-! ## The vector -/

/-- What the loop over the tokens does with `tokens` and `i`. -/
def storeTokens : Nat → List Nat → List (Option Nat) → Option (Nat × List (Option Nat))
  | i, [], tokens => some (i, tokens)
  | i, p :: rest, tokens =>
      if i < 511 then (store tokens i (some p)).bind (storeTokens (i + 1) rest)
      else storeTokens (i + 1) rest tokens

/-- The strings that `execv` finds through the vector, up to the null pointer. -/
def argvOf (command : List (BitVec 8)) : List (Option Nat) → Option (List CString)
  | [] => none
  | none :: _ => some []
  | some p :: tokens =>
      (stringAt command p).bind fun word => (argvOf command tokens).map fun words => word :: words

/-! ## A round -/

/-- The arrays and the bytes that have not been read yet. -/
structure ShState where
  command : List (BitVec 8)
  tokens : List (Option Nat)
  input : List (BitVec 8)
  deriving Repr, DecidableEq

/-- How a round of the loop ends: it waits for input, it goes on with the next one, it leaves the loop, or a
child calls `execv` while the shell waits for it. -/
inductive ShRound where
  | waits
  | again (next : ShState)
  | leaves
  | execs (path : CString) (argv : List CString) (next : ShState)
  deriving Repr, DecidableEq

def exitName : CString := "exit".toList.map chr

def binDirectory : CString := "/bin/".toList.map chr

/-- What `command_ptr` points to in the end, or the inner `none` if the command is not found. `access` is true
where the system call is not 0, and `snprintf` fills at most 1024 bytes. -/
def findCommand (access : CString → Bool) (command : List (BitVec 8)) (token : CString) :
    Option (Option CString) :=
  if access token then
    (Libc.strstr (terminated token) (terminated [chr '/'])).map fun
      | some _ => none
      | none =>
          let command := (binDirectory ++ token).take 1023
          if access command then none else some command
  else (stringAt command 0).map some

/-- The child calls `execv(command_ptr, tokens)`, if the command is found. -/
def execFound (s : ShState) : Option CString → Option ShRound
  | none => some (.again s)
  | some path => (argvOf s.command s.tokens).map fun argv => .execs path argv s

/-- The round from `if (!tokens[0] || ...)` on. -/
def runTokens (access : CString → Bool) (s : ShState) : Option ShRound :=
  s.tokens[0]?.bind fun
    | none => some (.again s)
    | some first =>
        (stringAt s.command first).bind fun token =>
          if token.length < 1 then some (.again s)
          else if token = exitName then some .leaves
          else (findCommand access s.command token).bind (execFound s)

/-- The round once the line is in `command`. -/
def runCommand (access : CString → Bool) (fuel : Nat) (s : ShState) : Option ShRound := do
  let command ← cutLast s.command
  let (found, last) ← Libc.strtokCalls (terminated [chr ' ']) fuel (some 0) ⟨command, none⟩
  let (i, tokens) ← storeTokens 0 (found.map Prod.fst) s.tokens
  let tokens ← store tokens i none
  runTokens access { s with command := last.buf, tokens := tokens }

/-- A round of the loop. -/
def shRound (access : CString → Bool) (fuel : Nat) (s : ShState) : Option ShRound :=
  (readline s.command s.input 1024).bind fun
    | .waits => some .waits
    | .line command input => runCommand access fuel { s with command := command, input := input }

/-- The state of the next round, if the shell goes on. -/
def ShRound.next? : ShRound → Option ShState
  | .again next | .execs _ _ next => some next
  | .waits | .leaves => none

/-- The shell goes on after a round. -/
def shStep (fuel : Nat) (s : ShState) (access : CString → Bool) : Option ShState :=
  (shRound access fuel s).bind ShRound.next?

end Voxel.Userspace
