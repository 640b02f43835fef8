/-
Module: Voxel.Kernel.Process
Layer: Kernel
Purpose: The scheduler of `kernel/sys/process.c`. Processes are records at addresses of the kernel
  heap; the ready queue and the delete queue are threaded through the `queue_node` inside each record,
  so a node keeps its `next` pointer when it leaves a queue. `free` does not scribble over a block:
  the record of a deleted process stays readable until the allocator hands its address to a new one.
Trusted boundary: human-reviewed spec
Main exports: Process, Sched, makeProcessReady, nextReadyProcess, processDelete, switchNext,
  switchTask, processExit, sysExit, fork, SchedOp, schedStep
-/
import Mathlib.Logic.Function.Basic
import Voxel.Kernel.Tree

namespace Voxel.Kernel

/-- `struct process_queue`: the node embedded in every process. A null `process` is 0. -/
structure ProcessQueue where
  process : Nat
  next : Option Nat
deriving Repr, Inhabited, DecidableEq

/-- The `PROC_FLAG_*` bits that the scheduler reads or writes. -/
structure ProcFlags where
  isTasklet : Bool
  finished : Bool
  started : Bool
  running : Bool
  hasWaiters : Bool
deriving Repr, Inhabited, DecidableEq

/-- The flags of a record cleared by `memset`. -/
def ProcFlags.clear : ProcFlags := ⟨false, false, false, false, false⟩

/-- `process_t`, with the fields the scheduler uses. -/
structure Process where
  pid : Int
  flags : ProcFlags
  status : BitVec 32
  treeEntry : Option Nat
  queueNode : ProcessQueue
deriving Repr, Inhabited, DecidableEq

/-- The scheduler's globals and the memory it works on. `allocated` marks the addresses at which a
`process_t` is live, and `waitFrame` holds the local `proc` of a process that is inside the loop of
`sys_waitpid`. Tree nodes are named in the order of their creation. -/
structure Sched where
  procs : Nat → Process
  allocated : Nat → Bool
  waitFrame : Nat → Option Nat
  processQueue : Option Nat
  processQueueEnd : Option Nat
  deleteQueue : Option Nat
  currentProcess : Nat
  kernelIdleTask : Nat
  processTree : Tree
  treeNodes : Nat
  currentPid : Int

namespace Sched

/-- The `next` pointers of all queue nodes. -/
def next (σ : Sched) (p : Nat) : Option Nat := (σ.procs p).queueNode.next

/-- `process->flags & PROC_FLAG_FINISHED`. -/
def finished (σ : Sched) (p : Nat) : Bool := (σ.procs p).flags.finished

/-- Overwrite the record at `p`. -/
def modify (σ : Sched) (p : Nat) (change : Process → Process) : Sched :=
  { σ with procs := Function.update σ.procs p (change (σ.procs p)) }

end Sched

namespace Sched

@[simp] theorem modify_procs_self (σ : Sched) (p : Nat) (change : Process → Process) :
    (σ.modify p change).procs p = change (σ.procs p) := by
  simp [modify]

theorem modify_procs_of_ne (σ : Sched) {p q : Nat} (different : q ≠ p)
    (change : Process → Process) : (σ.modify p change).procs q = σ.procs q := by
  simp [modify, different]

/-- A field that the change keeps is kept in every record. -/
theorem modify_field {α : Type} (field : Process → α) (σ : Sched) (p : Nat)
    {change : Process → Process} (kept : field (change (σ.procs p)) = field (σ.procs p)) (q : Nat) :
    field ((σ.modify p change).procs q) = field (σ.procs q) := by
  by_cases same : q = p
  · subst same
    rw [modify_procs_self, kept]
  · rw [modify_procs_of_ne σ same]

theorem modify_finished (σ : Sched) (p : Nat) {change : Process → Process}
    (kept : (change (σ.procs p)).flags.finished = (σ.procs p).flags.finished) :
    (σ.modify p change).finished = σ.finished :=
  funext (modify_field (fun process => process.flags.finished) σ p kept)

theorem modify_next (σ : Sched) (p : Nat) {change : Process → Process}
    (kept : (change (σ.procs p)).queueNode.next = (σ.procs p).queueNode.next) :
    (σ.modify p change).next = σ.next :=
  funext (modify_field (fun process => process.queueNode.next) σ p kept)

end Sched

/-- `p->queue_node.next = next`. -/
def Process.setNext (next : Option Nat) (p : Process) : Process :=
  { p with queueNode := { p.queueNode with next := next } }

/-- `make_process_ready`: the node is linked behind the last one. Its own `next` is not touched. -/
def makeProcessReady (σ : Sched) (process : Nat) : Sched :=
  match σ.processQueueEnd with
  | some last =>
      { σ.modify last (Process.setNext (some process)) with processQueueEnd := some process }
  | none => { σ with processQueue := some process, processQueueEnd := some process }

/-- `next_ready_process`: unlink the first node, or return the idle task. -/
def nextReadyProcess (σ : Sched) : Nat × Sched :=
  match σ.processQueue with
  | none => (σ.kernelIdleTask, σ)
  | some node =>
      let next := (σ.procs node).queueNode.process
      let rest := (σ.procs node).queueNode.next
      let unlinked :=
        { σ with
          processQueue := rest
          processQueueEnd := if rest = none then none else σ.processQueueEnd }
      if σ.finished next then (next, unlinked)
      else
        (next, unlinked.modify next fun p => { p with flags := { p.flags with running := true } })

/-- `process_delete`: the tree entry goes with everything below it, and the record is freed. The
frames of the kernel stack and of the address space are not part of this state. -/
def processDelete (σ : Sched) (process : Nat) : Option Sched :=
  if process = 0 then some σ
  else
    match (σ.procs process).treeEntry with
    | none => some σ
    | some entry =>
        match treeDestroyAndMerge entry σ.processTree with
        | none => none
        | some tree =>
            some
              { σ with
                processTree := tree
                allocated := Function.update σ.allocated process false }

/-- The first loop of `switch_next`. -/
def drainDeleteQueue : Nat → Sched → Option Sched
  | 0, _ => none
  | fuel + 1, σ =>
      match σ.deleteQueue with
      | none => some σ
      | some node =>
          let next := (σ.procs node).queueNode.next
          match processDelete σ (σ.procs node).queueNode.process with
          | none => none
          | some deleted => drainDeleteQueue fuel { deleted with deleteQueue := next }

/-- The second loop of `switch_next`: finished processes are skipped. -/
def pickReady : Nat → Sched → Option Sched
  | 0, _ => none
  | fuel + 1, σ =>
      let picked := { (nextReadyProcess σ).2 with currentProcess := (nextReadyProcess σ).1 }
      if picked.finished picked.currentProcess then pickReady fuel picked else some picked

/-- `switch_next`, up to the jump into the chosen process. -/
def switchNext (fuel : Nat) (σ : Sched) : Option Sched :=
  match drainDeleteQueue fuel σ with
  | none => none
  | some drained =>
      match pickReady fuel drained with
      | none => none
      | some picked =>
          some (picked.modify picked.currentProcess fun p =>
            { p with flags := { p.flags with started := true } })

/-- `switch_task`: the running process is put back on the ready queue when `reschedule` is set. -/
def switchTask (fuel : Nat) (reschedule : Bool) (σ : Sched) : Option Sched :=
  if (σ.procs σ.currentProcess).flags.running = false ∨ σ.currentProcess = σ.kernelIdleTask then
    switchNext fuel σ
  else if reschedule then switchNext fuel (makeProcessReady σ σ.currentProcess)
  else switchNext fuel σ

/-- `process_exit`: without a waiter the process puts itself on the delete queue. -/
def processExit (fuel : Nat) (rval : BitVec 32) (σ : Sched) : Option Sched :=
  let current := σ.currentProcess
  let marked := σ.modify current fun p => { p with status := rval }
  let queued :=
    if (marked.procs current).flags.hasWaiters then marked
    else
      { marked.modify current (Process.setNext marked.deleteQueue) with
        deleteQueue := some current }
  switchNext fuel
    (queued.modify current fun p => { p with flags := { p.flags with finished := true } })

/-- The value `sys_exit` hands to `process_exit`. -/
def exitStatus (code : BitVec 64) : BitVec 32 := ((code &&& 0xFF#64) <<< 8).setWidth 32

/-- `sys_exit`. -/
def sysExit (fuel : Nat) (code : BitVec 64) (σ : Sched) : Option Sched :=
  processExit fuel (exitStatus code) σ

/-- `spawn_process` at the address `malloc` returned: a cleared record with the next pid, inserted
below the tree entry of the parent. -/
def spawnProcess (σ : Sched) (parent addr : Nat) : Sched :=
  { σ with
    currentPid := σ.currentPid + 1
    treeNodes := σ.treeNodes + 1
    allocated := Function.update σ.allocated addr true
    procs := Function.update σ.procs addr
      { pid := σ.currentPid + 1
        flags := ProcFlags.clear
        status := 0
        treeEntry := some σ.treeNodes
        queueNode := { process := addr, next := none } }
    processTree :=
      match (σ.procs parent).treeEntry with
      | none => σ.processTree
      | some entry => treeInsertValue entry σ.treeNodes addr σ.processTree }

/-- `fork`: `addr` is any address at which no process is live. -/
def fork (σ : Sched) (addr : Nat) : Option Sched :=
  if addr = 0 ∨ σ.allocated addr then none
  else
    let tasklet := (σ.procs σ.currentProcess).flags.isTasklet
    let spawned := spawnProcess σ σ.currentProcess addr
    let flagged := spawned.modify addr fun p =>
      { p with flags := { p.flags with isTasklet := p.flags.isTasklet || tasklet } }
    some (makeProcessReady flagged addr)

/-- `get_process`: the tree node whose process has this pid. -/
def getProcess (σ : Sched) (pid : Int) : Option Nat :=
  (treeFind (fun p => p ≠ 0 ∧ (σ.procs p).pid = pid) σ.processTree).map Tree.value

/-- What a step of the scheduler reports: the exit of a process with its code, or a value returned
by `sys_waitpid`. -/
inductive SchedEvent where
  | exited (pid : Int) (code : BitVec 64)
  | returned (caller : Nat) (pid : Int) (value : BitVec 64)
  | silent
deriving Repr, DecidableEq

/-- The loop of `sys_waitpid` from its test on, with the local `proc` of the caller. The status is an
`int` and is widened to the `long` of the result. -/
def waitLoop (fuel : Nat) (σ : Sched) (proc : Nat) : Option (Sched × SchedEvent) :=
  if σ.finished proc then
    let ret := (σ.procs proc).status.signExtend 64
    match processDelete σ proc with
    | none => none
    | some deleted =>
        some
          ({ deleted with
              waitFrame := Function.update deleted.waitFrame σ.currentProcess none },
            .returned σ.currentProcess (σ.procs proc).pid ret)
  else
    let flagged := σ.modify proc fun p => { p with flags := { p.flags with hasWaiters := true } }
    (switchTask fuel true flagged).map fun switched => (switched, .silent)

/-- `sys_waitpid` up to its first switch. -/
def sysWaitpid (fuel : Nat) (pid : Int) (σ : Sched) : Option (Sched × SchedEvent) :=
  match getProcess σ pid with
  | none => some (σ, .returned σ.currentProcess pid 0)
  | some proc =>
      waitLoop fuel
        { σ with waitFrame := Function.update σ.waitFrame σ.currentProcess (some proc) } proc

/-- The steps of the system, each on behalf of the running process. -/
inductive SchedOp where
  | fork (addr : Nat)
  | tick
  | exit (code : BitVec 64)
  | waitpid (pid : Int)
  | waitAgain
deriving Repr, DecidableEq

/-- One step. A process inside the wait loop was resumed by `switch_task` and can only test again,
with interrupts off; the idle task makes no system calls. -/
def schedStep (fuel : Nat) (σ : Sched) (op : SchedOp) : Option (Sched × SchedEvent) :=
  match σ.waitFrame σ.currentProcess, op with
  | some proc, .waitAgain => waitLoop fuel σ proc
  | some _, _ => none
  | none, .waitAgain => none
  | none, .tick => (switchTask fuel true σ).map fun switched => (switched, .silent)
  | none, .fork addr =>
      if σ.currentProcess = σ.kernelIdleTask then none
      else (fork σ addr).map fun forked => (forked, .silent)
  | none, .exit code =>
      if σ.currentProcess = σ.kernelIdleTask then none
      else (sysExit fuel code σ).map fun switched =>
        (switched, .exited (σ.procs σ.currentProcess).pid code)
  | none, .waitpid pid =>
      if σ.currentProcess = σ.kernelIdleTask then none else sysWaitpid fuel pid σ

/-- The record of `spawn_init`: the root of the tree, already running. -/
def spawnInit (addr : Nat) : Process :=
  { pid := 1
    flags := { ProcFlags.clear with started := true, running := true }
    status := 0
    treeEntry := some 0
    queueNode := { process := addr, next := none } }

/-- The record of `spawn_idle`, which is neither in the tree nor ever queued. -/
def spawnIdle : Process :=
  { pid := -1
    flags := { ProcFlags.clear with isTasklet := true, started := true, running := true }
    status := 0
    treeEntry := none
    queueNode := { process := 0, next := none } }

/-- The scheduler after `multitasking_init`: `init` runs and nothing is queued. -/
def multitaskingInit (init idle : Nat) : Sched :=
  { procs := Function.update (fun p => if p = init then spawnInit init else default) idle spawnIdle
    allocated := fun p => p = init ∨ p = idle
    waitFrame := fun _ => none
    processQueue := none
    processQueueEnd := none
    deleteQueue := none
    currentProcess := init
    kernelIdleTask := idle
    processTree := .node 0 init []
    treeNodes := 1
    currentPid := 1 }

end Voxel.Kernel
