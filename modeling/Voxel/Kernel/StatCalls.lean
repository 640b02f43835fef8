/-
Module: Voxel.Kernel.StatCalls
Layer: Kernel
Purpose: `sys_stat`, `sys_statf`, `sys_lstat` and `sys_readdir` of `kernel/sys/syscall.c` with the bytes
  that they store behind the pointer of their caller, and the `readdir` callbacks of
  `kernel/sys/fs/dev/tty.c` and `kernel/sys/fs/ramdiskfs.c`. The state has the word of the stack that
  `_stat` takes for its variable `flags`, and physical memory, where `malloc` takes a free frame for a
  `struct dirent`. The memory of the caller is apart from the structures of the kernel; the result of
  `validate_ptr` is not looked at. With `sys_uname` these are the calls that store something behind a pointer
  of their caller.
Trusted boundary: human-reviewed spec
Main exports: PtyEntry, readdirPty, readdirRamdisk, NodeFields, StatState, StatState.sysStat,
  StatState.sysStatf, StatState.sysLstat, StatState.sysReaddir, InfoCall.run, sysUname, PointerCall,
  PointerCall.ptr, PointerCall.run
-/
import Voxel.Kernel.Dirent
import Voxel.Kernel.OpenFiles
import Voxel.Kernel.Ramdisk
import Voxel.Lib.ByteMemory

namespace Voxel.Kernel

open Voxel.Lib

/-! ## The terminals in /dev/pts -/

/-- An entry of `pty_map`, with `name` of the terminal that `pty` points to. -/
structure PtyEntry where
  index : Int
  name : Int
  deriving Repr, DecidableEq

/-- The loop of `itoa` in base ten. An `int64_t` has at most 19 digits, so 20 rounds are enough. -/
def itoaLoop : Nat → Nat → CString
  | 0, _ => []
  | rounds + 1, target =>
      BitVec.ofNat 8 (0x30 + target % 10) :: if target / 10 = 0 then [] else itoaLoop rounds (target / 10)

/-- `itoa` in base ten: the digits and the sign, and `strrev`. -/
def itoa (target : Int) : CString :=
  (itoaLoop 20 target.natAbs ++ if target < 0 then [0x2D] else []).reverse

/-- `readdir_pty`. All its records are cleared first; `itoa` stores like `strcpy`. -/
def readdirPty (ptyMap : List PtyEntry) (index : Nat) : Option (Option Dirent) :=
  if index = 0 then Tmpfs.ownRecord Tmpfs.dot
  else if index = 1 then Tmpfs.ownRecord Tmpfs.dotDot
  else
    match ptyMap[index - 2]? with
    | none => some none
    | some pty =>
        (strcpy (List.replicate nodeNameSize 0) (itoa pty.name)).map fun field =>
          some { ino := BitVec.ofInt 32 pty.name, name := field }

/-! ## The ramdisk -/

/-- `ramdiskfs_readdir`. `junk` has the bytes of `name` that `malloc` leaves. -/
def readdirRamdisk (image : RamdiskMemory) (node : RamdiskNode) (index : Nat) (junk : List (BitVec 8)) :
    Option (Option Dirent) :=
  match ramdiskfsReaddir image node index with
  | none => some none
  | some name => (strcpy junk name).map fun field => some { ino := 0, name := field }

/-! ## State -/

/-- The callback `readdir` of a node that is not one of tmpfs. -/
inductive ReaddirCallback
  | pty
  | ramdisk (image : RamdiskMemory) (node : RamdiskNode)

/-- Further fields of the nodes of other file systems. -/
structure NodeFields (Foreign : Type) where
  device : Foreign → BitVec 64
  inode : Foreign → BitVec 32
  nlink : Foreign → BitVec 32
  readdir : Foreign → Option ReaddirCallback

/-- What the calls find: the files and descriptors, `pty_map`, and the word of the kernel's stack that is
`flags` in `_stat`. -/
structure StatState (Foreign : Type) where
  files : OpenFiles Foreign
  fields : NodeFields Foreign
  ptyMap : List PtyEntry
  stack : BitVec 32

namespace StatState

variable {Foreign : Type} (s : StatState Foreign)

/-! ## _stat -/

/-- `device`. -/
def nodeDevice : Device Foreign → BitVec 64
  | .tmpfs entry => entry.address
  | .foreign node => s.fields.device node

/-- `inode`, which is zero for all nodes of tmpfs. -/
def nodeInode : Device Foreign → BitVec 32
  | .tmpfs _ => 0
  | .foreign node => s.fields.inode node

/-- `nlink`. -/
def nodeNlink : Device Foreign → BitVec 32
  | .tmpfs _ => 1
  | .foreign node => s.fields.nlink node

/-- The stores of `_stat`. `st_blocks` and the padding are not among them. -/
def statFields (node : OpenNode Foreign) : List ByteMemory.Field :=
  let st := OpenFiles.statNode s.stack node
  [ ⟨0, 4, (((s.nodeDevice node.device &&& 0xFFFF0) >>> 8).setWidth 16).setWidth 64⟩,
    ⟨4, 4, (s.nodeInode node.device).setWidth 64⟩,
    ⟨8, 4, st.stMode.setWidth 64⟩,
    ⟨12, 2, (s.nodeNlink node.device).setWidth 64⟩,
    ⟨16, 4, st.stUid.setWidth 64⟩,
    ⟨20, 4, st.stGid.setWidth 64⟩,
    ⟨24, 4, st.stRdev.setWidth 64⟩,
    ⟨32, 8, st.stSize⟩,
    ⟨40, 8, st.stAtim⟩,
    ⟨48, 8, st.stMtim⟩,
    ⟨56, 8, st.stCtim⟩,
    ⟨64, 8, st.stBlksize⟩ ]

/-- `_stat`: the result and the memory of the caller. -/
def statCall (node : Option (OpenNode Foreign)) (st : BitVec 64) (memory : ByteMemory) :
    BitVec 64 × ByteMemory :=
  match node with
  | none => (BitVec.ofInt 64 negNoent, memory)
  | some node => (0, memory.storeFields st (s.statFields node))

/-- `sys_stat`. -/
def sysStat (p : Nat) (fd ptr : BitVec 64) (memory : ByteMemory) : BitVec 64 × ByteMemory :=
  match s.files.getProcessFd p fd with
  | none => (negBadf, memory)
  | some node => if ptr = 0 then (negFault, memory) else s.statCall (some node) ptr memory

/-- `sys_statf`; the path `none` is a null pointer. The outer `none` is an access outside the path. -/
def sysStatf (path : Option CString) (ptr : BitVec 64) (memory : ByteMemory) :
    Option (BitVec 64 × ByteMemory) :=
  match path with
  | none => some (negFault, memory)
  | some path =>
      if ptr = 0 then some (negFault, memory)
      else (s.files.kopen path 0).map fun node => s.statCall node ptr memory

/-- `sys_lstat`, which opens the path in the same way. -/
def sysLstat (path : Option CString) (ptr : BitVec 64) (memory : ByteMemory) :
    Option (BitVec 64 × ByteMemory) :=
  s.sysStatf path ptr memory

/-! ## sys_readdir -/

/-- `sizeof(struct dirent)`. -/
def sizeofDirent : Nat := 260

/-- The bytes of `name` in a new block for a `struct dirent`. -/
def leftName (block : HeapBlock) : List (BitVec 8) :=
  (List.range nodeNameSize).map fun i => s.files.tmpfs.phys (block.first * blockSize + allocInfo + 4 + i)

/-- A callback that makes a record takes a block for it first. `record` is what it returns for the bytes that
`name` has in this block; without a free frame it can only return a null pointer. -/
def withDirent (record : List (BitVec 8) → Option (Option Dirent)) : Option (Option Dirent) :=
  match malloc s.files.tmpfs.frames sizeofDirent with
  | some (block, _) => record (s.leftName block)
  | none => if record (List.replicate nodeNameSize 0) = some none then some none else none

/-- The `readdir` callback of a node, for what `malloc` leaves. -/
def readdirCallback (node : OpenNode Foreign) (index : Nat) (junk : List (BitVec 8)) :
    Option (Option Dirent) :=
  match node.device with
  | .tmpfs (.dir d) => s.files.tmpfs.readdirRecord d index junk
  | .tmpfs (.file _) => some none
  | .foreign node =>
      match s.fields.readdir node with
      | none => some none
      | some .pty => readdirPty s.ptyMap index
      | some (.ramdisk image node) => readdirRamdisk image node index junk

/-- `readdir_fs`. -/
def readdirFs (node : OpenNode Foreign) (index : Nat) : Option (Option Dirent) :=
  if node.flags &&& 0x07 = fsDirectory then s.withDirent (s.readdirCallback node index) else some none

end StatState

/-- The bytes of a record. -/
def Dirent.bytes (record : Dirent) : List (BitVec 8) :=
  ((List.range 4).map fun k => readByte (record.ino.setWidth 64) k) ++ record.name

/-- `memcpy` of bytes to an address. -/
def storeBytes (memory : ByteMemory) (ptr : BitVec 64) (bytes : List (BitVec 8)) : ByteMemory :=
  fun a => (bytes[(a - ptr).toNat]?).getD (memory a)

/-- `sys_readdir`. -/
def StatState.sysReaddir {Foreign : Type} (s : StatState Foreign) (p : Nat) (fd index ptr : BitVec 64)
    (memory : ByteMemory) : Option (BitVec 64 × ByteMemory) :=
  match s.files.getProcessFd p fd with
  | none => some (negBadf, memory)
  | some node =>
      if ptr = 0 then some (negFault, memory)
      else
        (s.readdirFs node index.toNat).map fun dirent =>
          match dirent with
          | none => (0, memory)
          | some dirent => (1, storeBytes memory ptr dirent.bytes)

/-! ## Calls -/

/-- The calls that report on files. -/
inductive InfoCall
  | stat (fd ptr : BitVec 64)
  | statf (path : Option CString) (ptr : BitVec 64)
  | lstat (path : Option CString) (ptr : BitVec 64)
  | readdir (fd index ptr : BitVec 64)

/-- The result of a call of a process, and the memory of the process after it. -/
def InfoCall.run {Foreign : Type} (s : StatState Foreign) (p : Nat) (memory : ByteMemory) :
    InfoCall → Option (BitVec 64 × ByteMemory)
  | .stat fd ptr => some (s.sysStat p fd ptr memory)
  | .statf path ptr => s.sysStatf path ptr memory
  | .lstat path ptr => s.sysLstat path ptr memory
  | .readdir fd index ptr => s.sysReaddir p fd index ptr memory

/-! ## sys_uname -/

/-- The size of a field of the structure that `sys_uname` fills. -/
def unameField : Nat := 256

/-- The strings of `sys_uname`, in the order of its fields. -/
def unameStrings : List CString :=
  ["voxel", "localhost", "\"Unsought Origin\"", "Voxel 1.0.0-dev", "x86_64"].map fun text =>
    text.toList.map fun c => BitVec.ofNat 8 c.toNat

/-- `strcpy` of one string to its field. -/
def storeUnameField (name : BitVec 64) (memory : ByteMemory) (i : Nat) (text : CString) : ByteMemory :=
  storeBytes memory (name + BitVec.ofNat 64 (i * unameField)) (text ++ [nul])

/-- `sys_uname`: the result and the memory of the caller. -/
def sysUname (name : BitVec 64) (memory : ByteMemory) : BitVec 64 × ByteMemory :=
  if name = 0 then (negFault, memory)
  else
    (0, unameStrings.zipIdx.foldl (fun memory field => storeUnameField name memory field.2 field.1) memory)

/-! ## Calls -/

/-- The calls that deliver something behind a pointer. -/
inductive PointerCall
  | uname (name : BitVec 64)
  | info (call : InfoCall)

/-- The pointer behind which a call of the stat family stores. -/
def InfoCall.ptr : InfoCall → BitVec 64
  | .stat _ ptr | .statf _ ptr | .lstat _ ptr | .readdir _ _ ptr => ptr

/-- The pointer behind which a call stores. -/
def PointerCall.ptr : PointerCall → BitVec 64
  | .uname name => name
  | .info call => call.ptr

/-- The result of a call of a process, and memory after it. -/
def PointerCall.run {Foreign : Type} (s : StatState Foreign) (p : Nat) (memory : ByteMemory) :
    PointerCall → Option (BitVec 64 × ByteMemory)
  | .uname name => some (sysUname name memory)
  | .info call => call.run s p memory

end Voxel.Kernel
