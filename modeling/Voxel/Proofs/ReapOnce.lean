/-
Module: Voxel.Proofs.ReapOnce
Layer: Proofs
Purpose: How often a process is deleted. Every waiter of `sys_waitpid` keeps a pointer to the process
  it waits for across `switch_task` and deletes that process when it finds it finished. The waiters
  flag keeps the process off the delete queue, but nothing keeps a second waiter from deleting it once
  more. As long as a process is reaped only when nobody else waits for it, `process_delete` runs once
  on it and every waiter reads a live record; the first step that breaks this leaves another waiter
  with a freed record.
Trusted boundary: none
Main exports: stepDeletes, reapStep, ReapsAlone, ReapedOnce, reaped_once
-/
import Voxel.Proofs.WaitStatus

namespace Voxel.Proofs

open Voxel.Kernel
open Voxel.Lib

/-! ## The processes a step deletes -/

/-- The processes on which the first loop of `switch_next` runs `process_delete`. -/
def drainDeletes : Nat → Sched → List Nat
  | 0, _ => []
  | fuel + 1, σ =>
      match σ.deleteQueue with
      | none => []
      | some node =>
          let process := (σ.procs node).queueNode.process
          match processDelete σ process with
          | none => [process]
          | some deleted =>
              process :: drainDeletes fuel
                { deleted with deleteQueue := (σ.procs node).queueNode.next }

/-- The state in which `switch_task`, asked to reschedule, calls `switch_next`. -/
def requeued (σ : Sched) : Sched :=
  if (σ.procs σ.currentProcess).flags.running = false ∨ σ.currentProcess = σ.kernelIdleTask then σ
  else makeProcessReady σ σ.currentProcess

/-- The state in which `process_exit` calls `switch_next`. -/
def exiting (rval : BitVec 32) (σ : Sched) : Sched :=
  let current := σ.currentProcess
  let marked := σ.modify current fun p => { p with status := rval }
  let queued :=
    if (marked.procs current).flags.hasWaiters then marked
    else
      { marked.modify current (Process.setNext marked.deleteQueue) with
        deleteQueue := some current }
  queued.modify current fun p => { p with flags := { p.flags with finished := true } }

/-- The processes deleted by the loop of `sys_waitpid` up to its return or its next test. -/
def waitDeletes (fuel : Nat) (σ : Sched) (proc : Nat) : List Nat :=
  if σ.finished proc then [proc]
  else
    drainDeletes fuel
      (requeued (σ.modify proc fun p => { p with flags := { p.flags with hasWaiters := true } }))

/-- The processes on which a step runs `process_delete`, in this order. -/
def stepDeletes (fuel : Nat) (σ : Sched) (op : SchedOp) : List Nat :=
  match σ.waitFrame σ.currentProcess, op with
  | some proc, .waitAgain => waitDeletes fuel σ proc
  | none, .tick => drainDeletes fuel (requeued σ)
  | none, .exit code => drainDeletes fuel (exiting (exitStatus code) σ)
  | none, .waitpid pid =>
      match getProcess σ pid with
      | none => []
      | some proc =>
          waitDeletes fuel
            { σ with waitFrame := Function.update σ.waitFrame σ.currentProcess (some proc) } proc
  | _, _ => []

/-- A step of the scheduler that appends the pids of the processes it deletes to a list. -/
def reapStep (fuel : Nat) (state : Sched × List Int) (op : SchedOp) : Option (Sched × List Int) :=
  (schedStep fuel state.1 op).map fun next =>
    (next.1, state.2 ++ (stepDeletes fuel state.1 op).map fun p => (state.1.procs p).pid)

/-- The bodies that the lists of deleted processes follow. -/
theorem switchTask_eq (fuel : Nat) (σ : Sched) :
    switchTask fuel true σ = switchNext fuel (requeued σ) := by
  unfold switchTask requeued
  split <;> rfl

/-! ## The property and the condition -/

/-- A process is reaped only when no other process waits for it. -/
def ReapsAlone (σ : Sched) (op : SchedOp) : Prop :=
  ∀ proc, Reaps σ op proc → ∀ caller, σ.waitFrame caller = some proc → σ.currentProcess = caller

/-- The invariant: every wait frame holds a process that cannot go away unseen, and the deleted pids
are old ones that no live process carries. -/
structure Reaping (σ : Sched) (deleted : List Int) : Prop where
  bookkeeping : ∃ log, WaitInvariant σ log
  entries : ∀ p, σ.allocated p = true → p ≠ σ.kernelIdleTask → (σ.procs p).treeEntry ≠ none
  waits : ∀ caller proc, σ.waitFrame caller = some proc →
    Waits σ caller (σ.procs proc).pid proc
  once : deleted.Nodup
  old : ∀ pid ∈ deleted, pid ≤ σ.currentPid
  gone : ∀ p, σ.allocated p = true → p ≠ σ.kernelIdleTask → (σ.procs p).pid ∉ deleted

/-- The pids and the tree entries of two states are the same. -/
structure SameNames (σ σ' : Sched) : Prop where
  idle : σ'.kernelIdleTask = σ.kernelIdleTask
  currentPid : σ'.currentPid = σ.currentPid
  pid : ∀ p, (σ'.procs p).pid = (σ.procs p).pid
  treeEntry : ∀ p, (σ'.procs p).treeEntry = (σ.procs p).treeEntry

theorem SameRecords.names {σ σ' : Sched} (same : SameRecords σ σ') : SameNames σ σ' :=
  ⟨same.idle, same.currentPid, same.pid, same.treeEntry⟩

theorem SameNames.trans {σ τ υ : Sched} (one : SameNames σ τ) (two : SameNames τ υ) :
    SameNames σ υ where
  idle := two.idle.trans one.idle
  currentPid := two.currentPid.trans one.currentPid
  pid := fun p => (two.pid p).trans (one.pid p)
  treeEntry := fun p => (two.treeEntry p).trans (one.treeEntry p)

/-- What a step does to the set of live processes, with the processes it deletes. -/
inductive LiveEffect (σ σ' : Sched) : List Nat → Prop where
  | stays (names : SameNames σ σ') (allocated : σ'.allocated = σ.allocated) : LiveEffect σ σ' []
  | deletes (p : Nat) (names : SameNames σ σ') (live : σ.allocated p = true)
      (notIdle : p ≠ σ.kernelIdleTask)
      (allocated : σ'.allocated = Function.update σ.allocated p false) : LiveEffect σ σ' [p]
  | forks (addr : Nat) (free : σ.allocated addr = false)
      (idle : σ'.kernelIdleTask = σ.kernelIdleTask)
      (allocated : σ'.allocated = Function.update σ.allocated addr true)
      (currentPid : σ'.currentPid = σ.currentPid + 1)
      (pid : (σ'.procs addr).pid = σ.currentPid + 1)
      (treeEntry : (σ'.procs addr).treeEntry ≠ none)
      (others : ∀ p, p ≠ addr → (σ'.procs p).pid = (σ.procs p).pid ∧
        (σ'.procs p).treeEntry = (σ.procs p).treeEntry) : LiveEffect σ σ' []

theorem drainDeletes_none {fuel : Nat} {σ : Sched} (deleteNull : σ.deleteQueue = none) :
    drainDeletes fuel σ = [] := by
  cases fuel with
  | zero => rfl
  | succ fuel => rw [drainDeletes, deleteNull]

/-- With one node on the delete queue, one process is deleted. -/
theorem drainDeletes_one {fuel : Nat} {σ : Sched} {node : Nat} (queued : σ.deleteQueue = some node)
    (alone : σ.next node = none) :
    drainDeletes (fuel + 1) σ = [(σ.procs node).queueNode.process] := by
  rw [drainDeletes, queued]
  dsimp only
  split
  · rfl
  · rw [drainDeletes_none alone]

theorem requeued_switches (σ : Sched) : Switches σ (requeued σ) := by
  unfold requeued
  split
  · exact ⟨.refl σ, rfl, rfl⟩
  · exact makeProcessReady_switches σ σ.currentProcess

/-- A live process other than the idle task is freed by `process_delete`. -/
theorem processDelete_live {σ σ' : Sched} {p : Nat} (nonzero : p ≠ 0)
    (entry : (σ.procs p).treeEntry ≠ none) (deleted : processDelete σ p = some σ') :
    SameNames σ σ' ∧ σ'.allocated = Function.update σ.allocated p false := by
  unfold processDelete at deleted
  rw [if_neg nonzero] at deleted
  split at deleted
  · rename_i absent
    exact absurd absent entry
  · split at deleted
    · cases deleted
    · cases deleted
      exact ⟨⟨rfl, rfl, fun _ => rfl, fun _ => rfl⟩, rfl⟩

/-- With an empty delete queue, `switch_task` deletes nothing. -/
theorem switchTask_effect {fuel : Nat} {σ σ' : Sched} (deleteNull : σ.deleteQueue = none)
    (switched : switchTask fuel true σ = some σ') :
    LiveEffect σ σ' (drainDeletes fuel (requeued σ)) := by
  rw [switchTask_eq] at switched
  have still := (requeued_switches σ).deleteQueue.trans deleteNull
  have same := ((requeued_switches σ).trans (switchNext_switches still switched)).same
  rw [drainDeletes_none still]
  exact .stays same.names same.allocated

/-- An exit deletes the process, unless its waiters flag is set. -/
theorem WaitInvariant.exit_effect {fuel : Nat} {σ σ' : Sched} {log : List SchedEvent}
    {rval : BitVec 32} (inv : WaitInvariant σ log)
    (notIdle : σ.currentProcess ≠ σ.kernelIdleTask)
    (entry : (σ.procs σ.currentProcess).treeEntry ≠ none)
    (exited : processExit fuel rval σ = some σ') :
    LiveEffect σ σ' (drainDeletes fuel (exiting rval σ)) := by
  obtain ⟨self, nonzero⟩ := inv.records.self _ ⟨Or.inl inv.current.1, notIdle⟩
  obtain ⟨τ, marked, outcome⟩ := processExit_cases inv.deleteNull self exited
  have names : SameNames σ τ := by
    refine ⟨marked.same.2.2.2.1, marked.same.2.2.2.2.2.2, fun p => ?_, fun p => ?_⟩
    · by_cases isCurrent : p = σ.currentProcess
      · rw [isCurrent, marked.pid]
      · rw [marked.procs p isCurrent]
    · by_cases isCurrent : p = σ.currentProcess
      · rw [isCurrent, marked.treeEntry]
      · rw [marked.procs p isCurrent]
  rcases outcome with ⟨waited, deleteNull, switched⟩ | ⟨alone, deleted, deletedEq, switched⟩
  · have kept : (exiting rval σ).deleteQueue = none := by
      simp [exiting, Sched.modify, waited, inv.deleteNull]
    rw [drainDeletes_none kept]
    have same := (switchNext_switches deleteNull switched).same
    exact .stays (names.trans same.names) (same.allocated.trans marked.same.1)
  · have queued : (exiting rval σ).deleteQueue = some σ.currentProcess := by
      simp [exiting, Sched.modify, alone]
    have node : ((exiting rval σ).procs σ.currentProcess).queueNode = ⟨σ.currentProcess, none⟩ := by
      simp [exiting, Sched.modify, Process.setNext, alone, self, inv.deleteNull]
    cases fuel with
    | zero => simp [switchNext, drainDeleteQueue] at switched
    | succ fuel =>
        rw [drainDeletes_one queued (by rw [Sched.next, node]), node]
        obtain ⟨deletedNames, freed⟩ := processDelete_live nonzero
          (by rw [marked.treeEntry]; exact entry) deletedEq
        have same := (switchNext_switches rfl switched).same
        refine .deletes _ ((names.trans deletedNames).trans ?_) inv.current.1 notIdle ?_
        · exact ⟨same.idle, same.currentPid, same.pid, same.treeEntry⟩
        · rw [same.allocated, ← marked.same.1]
          exact freed

/-- The loop of `sys_waitpid` deletes a finished process and nothing else. -/
theorem WaitInvariant.waitLoop_effect {fuel : Nat} {σ σ' : Sched} {log : List SchedEvent}
    {proc : Nat} {event : SchedEvent} (inv : WaitInvariant σ log)
    (live : σ.allocated proc = true ∧ proc ≠ σ.kernelIdleTask)
    (entry : (σ.procs proc).treeEntry ≠ none)
    (waited : Kernel.waitLoop fuel σ proc = some (σ', event)) :
    LiveEffect σ σ' (waitDeletes fuel σ proc) := by
  unfold waitDeletes
  unfold Kernel.waitLoop at waited
  split at waited
  · rename_i finished
    rw [if_pos finished]
    dsimp only at waited
    split at waited
    · cases waited
    rename_i deleted deletedEq
    cases waited
    obtain ⟨-, nonzero⟩ := inv.records.self proc ⟨Or.inl live.1, live.2⟩
    obtain ⟨names, freed⟩ := processDelete_live nonzero entry deletedEq
    exact .deletes proc ⟨names.idle, names.currentPid, names.pid, names.treeEntry⟩ live.1 live.2
      freed
  · rename_i unfinished
    rw [if_neg unfinished]
    dsimp only at waited
    rw [Option.map_eq_some_iff] at waited
    obtain ⟨switched, switchedEq, pairEq⟩ := waited
    cases pairEq
    have flagged := @SameRecords.modify σ proc
      (fun p => { p with flags := { p.flags with hasWaiters := true } }) (fun _ => rfl)
      (fun _ => rfl) (fun _ => rfl) (fun _ => rfl) (fun _ => rfl) (fun _ _ => rfl)
    generalize flaggedEq : (σ.modify proc fun p =>
      { p with flags := { p.flags with hasWaiters := true } }) = τ at flagged switchedEq ⊢
    have still : τ.deleteQueue = none := by
      rw [← flaggedEq]
      exact inv.deleteNull
    rw [switchTask_eq] at switchedEq
    have requeue := requeued_switches τ
    have same := flagged.trans
      (requeue.trans (switchNext_switches (requeue.deleteQueue.trans still) switchedEq)).same
    rw [drainDeletes_none (requeue.deleteQueue.trans still)]
    exact .stays same.names same.allocated

/-- A fork makes one process live, under a new pid. -/
theorem fork_effect {σ σ' : Sched} {addr : Nat} (forked : fork σ addr = some σ') :
    LiveEffect σ σ' [] := by
  unfold fork at forked
  split at forked
  · cases forked
  rename_i free
  push Not at free
  dsimp only at forked
  generalize flaggedEq : (spawnProcess σ σ.currentProcess addr).modify addr _ = flagged at forked
  cases forked
  have same := (makeProcessReady_switches flagged addr).same
  refine .forks addr (by simpa using free.2) ?_ ?_ ?_ ?_ ?_ fun p other => ?_
  · rw [same.idle, ← flaggedEq]
    rfl
  · rw [same.allocated, ← flaggedEq]
    rfl
  · rw [same.currentPid, ← flaggedEq]
    rfl
  · rw [same.pid, ← flaggedEq]
    simp [spawnProcess]
  · rw [same.treeEntry, ← flaggedEq]
    simp [spawnProcess]
  · rw [same.pid, same.treeEntry, ← flaggedEq, Sched.modify_procs_of_ne _ other]
    simp [spawnProcess, other]

/-- The frame of the caller is not part of the live processes. -/
theorem LiveEffect.ofFramed {σ σ' : Sched} {waitFrame : Nat → Option Nat} {deletes : List Nat}
    (effect : LiveEffect { σ with waitFrame := waitFrame } σ' deletes) :
    LiveEffect σ σ' deletes := by
  cases effect with
  | stays names allocated =>
      exact .stays ⟨names.idle, names.currentPid, names.pid, names.treeEntry⟩ allocated
  | deletes p names live notIdle allocated =>
      exact .deletes p ⟨names.idle, names.currentPid, names.pid, names.treeEntry⟩ live notIdle
        allocated
  | forks addr free idle allocated currentPid pid treeEntry others =>
      exact .forks addr free idle allocated currentPid pid treeEntry others

/-- The process that `get_process` finds is live and not the idle task. -/
theorem WaitInvariant.found {σ : Sched} {log : List SchedEvent} {pid : Int} {proc : Nat}
    (inv : WaitInvariant σ log) (found : getProcess σ pid = some proc) :
    σ.allocated proc = true ∧ proc ≠ σ.kernelIdleTask := by
  obtain ⟨-, entry, member⟩ := getProcess_some found
  obtain ⟨live, ownEntry⟩ := inv.records.tree _ member
  refine ⟨live, fun isIdle => ?_⟩
  rw [isIdle, inv.records.idleEntry] at ownEntry
  cases ownEntry

/-- What one step does to the live processes. -/
theorem Reaping.effect {fuel : Nat} {σ σ' : Sched} {deleted : List Int} {op : SchedOp}
    {event : SchedEvent} (inv : Reaping σ deleted)
    (taken : schedStep fuel σ op = some (σ', event)) :
    LiveEffect σ σ' (stepDeletes fuel σ op) := by
  obtain ⟨log, bookkeeping⟩ := inv.bookkeeping
  unfold schedStep at taken
  unfold stepDeletes
  split at taken
  · rename_i proc frame
    rw [frame]
    obtain ⟨live, notIdle⟩ := (inv.waits _ proc frame).procLive
    exact bookkeeping.waitLoop_effect ⟨live, notIdle⟩ (inv.entries proc live notIdle) taken
  · cases taken
  · cases taken
  · rename_i frame
    rw [Option.map_eq_some_iff] at taken
    obtain ⟨switched, switchedEq, pairEq⟩ := taken
    cases pairEq
    rw [frame]
    exact switchTask_effect bookkeeping.deleteNull switchedEq
  · rename_i frame
    split at taken
    · cases taken
    rw [Option.map_eq_some_iff] at taken
    obtain ⟨forked, forkedEq, pairEq⟩ := taken
    cases pairEq
    rw [frame]
    exact fork_effect forkedEq
  · rename_i frame
    split at taken
    · cases taken
    rename_i notIdle
    rw [Option.map_eq_some_iff] at taken
    obtain ⟨switched, switchedEq, pairEq⟩ := taken
    cases pairEq
    rw [frame]
    exact bookkeeping.exit_effect notIdle (inv.entries _ bookkeeping.current.1 notIdle) switchedEq
  · rename_i pid frame
    split at taken
    · cases taken
    rename_i notIdle
    rw [frame]
    unfold sysWaitpid at taken
    cases found : getProcess σ pid with
    | none =>
        simp only [found] at taken ⊢
        cases taken
        exact .stays ⟨rfl, rfl, fun _ => rfl, fun _ => rfl⟩ rfl
    | some proc =>
        simp only [found] at taken ⊢
        obtain ⟨live, targetIdle⟩ := bookkeeping.found found
        exact ((bookkeeping.enter notIdle proc).waitLoop_effect ⟨live, targetIdle⟩
          (inv.entries proc live targetIdle) taken).ofFramed

/-! ## The frames of the waiters -/

/-- The loop of `sys_waitpid` leaves all frames alone until it returns. -/
theorem waitLoop_frames {fuel : Nat} {σ σ' : Sched} {proc : Nat} {event : SchedEvent}
    (deleteNull : σ.deleteQueue = none) (waited : waitLoop fuel σ proc = some (σ', event)) :
    (event = .silent ∧ σ'.waitFrame = σ.waitFrame) ∨
      ∃ pid value, event = .returned σ.currentProcess pid value ∧
        σ'.waitFrame = Function.update σ.waitFrame σ.currentProcess none := by
  unfold waitLoop at waited
  split at waited
  · dsimp only at waited
    split at waited
    · cases waited
    rename_i deleted deletedEq
    cases waited
    obtain ⟨tree, allocated, rfl, -⟩ := processDelete_spec deletedEq
    exact Or.inr ⟨_, _, rfl, rfl⟩
  · dsimp only at waited
    rw [Option.map_eq_some_iff] at waited
    obtain ⟨switched, switchedEq, pairEq⟩ := waited
    cases pairEq
    rw [switchTask_eq] at switchedEq
    have requeue := requeued_switches (σ.modify proc fun p =>
      { p with flags := { p.flags with hasWaiters := true } })
    have all := requeue.trans
      (switchNext_switches (requeue.deleteQueue.trans deleteNull) switchedEq)
    exact Or.inl ⟨rfl, all.waitFrame⟩

/-- A step writes no frame but that of the running process: the frame is cleared by the return from
`sys_waitpid` and set by a call that finds its process. -/
theorem schedStep_frames {fuel : Nat} {σ σ' : Sched} {log : List SchedEvent} {op : SchedOp}
    {event : SchedEvent} (inv : WaitInvariant σ log)
    (taken : schedStep fuel σ op = some (σ', event)) :
    ((∀ caller, returnedTo caller event = none) ∧ σ'.waitFrame = σ.waitFrame) ∨
      (∃ pid value, event = .returned σ.currentProcess pid value ∧
        σ'.waitFrame = Function.update σ.waitFrame σ.currentProcess none) ∨
      ∃ pid proc, op = .waitpid pid ∧ event = .silent ∧
        σ'.waitFrame = Function.update σ.waitFrame σ.currentProcess (some proc) := by
  unfold schedStep at taken
  split at taken
  · rcases waitLoop_frames inv.deleteNull taken with ⟨rfl, kept⟩ | returned
    · exact Or.inl ⟨fun _ => rfl, kept⟩
    · exact Or.inr (Or.inl returned)
  · cases taken
  · cases taken
  · rw [Option.map_eq_some_iff] at taken
    obtain ⟨switched, switchedEq, pairEq⟩ := taken
    cases pairEq
    exact Or.inl ⟨fun _ => rfl, (inv.switchTask switchedEq).2.waitFrame⟩
  · split at taken
    · cases taken
    rw [Option.map_eq_some_iff] at taken
    obtain ⟨forked, forkedEq, pairEq⟩ := taken
    cases pairEq
    exact Or.inl ⟨fun _ => rfl, (inv.records.fork forkedEq).2.1⟩
  · split at taken
    · cases taken
    rename_i notIdle
    rw [Option.map_eq_some_iff] at taken
    obtain ⟨switched, switchedEq, pairEq⟩ := taken
    cases pairEq
    refine Or.inl ⟨fun _ => rfl, ?_⟩
    obtain ⟨τ, marked, outcome⟩ := processExit_cases inv.deleteNull
      (inv.records.self _ ⟨Or.inl inv.current.1, notIdle⟩).1 switchedEq
    rw [← marked.same.2.1]
    rcases outcome with ⟨-, deleteNull, next⟩ | ⟨-, deleted, deletedEq, next⟩
    · exact (switchNext_switches deleteNull next).waitFrame
    · obtain ⟨tree, allocated, rfl, -⟩ := processDelete_spec deletedEq
      exact (switchNext_switches rfl next).waitFrame
  · rename_i pid frame
    split at taken
    · cases taken
    rename_i notIdle
    unfold sysWaitpid at taken
    split at taken
    · cases taken
      refine Or.inr (Or.inl ⟨pid, 0, rfl, ?_⟩)
      rw [← frame, Function.update_eq_self]
    · rename_i proc found
      rcases waitLoop_frames (inv.enter notIdle proc).deleteNull taken with
        ⟨rfl, kept⟩ | ⟨returnedPid, value, rfl, cleared⟩
      · exact Or.inr (Or.inr ⟨pid, proc, rfl, rfl, kept⟩)
      · refine Or.inr (Or.inl ⟨returnedPid, value, rfl, ?_⟩)
        rw [cleared]
        exact Function.update_idem ..

/-- Every waiter keeps its claim through a step that reaps alone. -/
theorem Reaping.waits_step {fuel : Nat} {σ σ' : Sched} {deleted : List Int} {op : SchedOp}
    {event : SchedEvent} (inv : Reaping σ deleted) (alone : ReapsAlone σ op)
    (taken : schedStep fuel σ op = some (σ', event)) {caller proc : Nat}
    (frame : σ'.waitFrame caller = some proc) : ∃ pid, Waits σ' caller pid proc := by
  obtain ⟨log, bookkeeping⟩ := inv.bookkeeping
  have keeps : σ.waitFrame caller = some proc → returnedTo caller event = none →
      ∃ pid, Waits σ' caller pid proc := by
    intro before quiet
    rcases (bookkeeping.step taken).2 (inv.waits caller proc before)
      (fun reaps => alone proc reaps caller before) with ⟨-, kept⟩ | ⟨-, answered⟩
    · exact ⟨_, kept⟩
    · rw [quiet] at answered
      cases answered
  rcases schedStep_frames bookkeeping taken with
    ⟨quiet, same⟩ | ⟨pid, value, rfl, same⟩ | ⟨pid, target, rfl, rfl, same⟩
  · rw [same] at frame
    exact keeps frame (quiet caller)
  · rw [same] at frame
    by_cases isCurrent : caller = σ.currentProcess
    · rw [isCurrent, Function.update_self] at frame
      cases frame
    · rw [Function.update_of_ne isCurrent] at frame
      exact keeps frame (by simp [returnedTo, Ne.symm isCurrent])
  · by_cases isCurrent : caller = σ.currentProcess
    · rcases bookkeeping.call taken with ⟨-, answered⟩ | ⟨-, found, -, -, progress⟩
      · cases answered
      · rcases progress with ⟨-, waits⟩ | ⟨-, answered⟩
        · rw [isCurrent, waits.frame] at frame
          cases frame
          exact ⟨pid, isCurrent ▸ waits⟩
        · cases answered
    · rw [same, Function.update_of_ne isCurrent] at frame
      exact keeps frame rfl

/-! ## One step -/

/-- A step that reaps alone keeps the invariant. -/
theorem Reaping.step {fuel : Nat} {σ σ' : Sched} {deleted : List Int} {op : SchedOp}
    {event : SchedEvent} (inv : Reaping σ deleted) (alone : ReapsAlone σ op)
    (taken : schedStep fuel σ op = some (σ', event)) :
    Reaping σ' (deleted ++ (stepDeletes fuel σ op).map fun p => (σ.procs p).pid) := by
  obtain ⟨log, bookkeeping⟩ := inv.bookkeeping
  have effect := inv.effect taken
  have waits : ∀ caller proc, σ'.waitFrame caller = some proc →
      Waits σ' caller (σ'.procs proc).pid proc := by
    intro caller proc frame
    obtain ⟨pid, waits⟩ := inv.waits_step alone taken frame
    rw [waits.isPid]
    exact waits
  have after : ∃ log, WaitInvariant σ' log := ⟨_, (bookkeeping.step taken).1⟩
  generalize stepDeletes fuel σ op = deletes at effect
  cases effect with
  | stays names allocated =>
      refine ⟨after, ?_, waits, ?_, ?_, ?_⟩
      · rw [allocated, names.idle]
        simpa only [names.treeEntry] using inv.entries
      · simpa using inv.once
      · rw [names.currentPid]
        simpa using inv.old
      · rw [allocated, names.idle]
        simpa [names.pid] using inv.gone
  | deletes p names live notIdle allocated =>
      have survivor : ∀ q, σ'.allocated q = true → q ≠ p ∧ σ.allocated q = true := by
        intro q alive
        rw [allocated] at alive
        have different : q ≠ p := by
          intro same
          rw [same, Function.update_self] at alive
          cases alive
        rw [Function.update_of_ne different] at alive
        exact ⟨different, alive⟩
      refine ⟨after, ?_, waits, ?_, ?_, ?_⟩
      · intro q alive other
        rw [names.idle] at other
        rw [names.treeEntry]
        exact inv.entries q (survivor q alive).2 other
      · simp only [List.map_cons, List.map_nil]
        exact List.nodup_append.mpr ⟨inv.once, by simp, fun a member b single same =>
          inv.gone p live notIdle (List.mem_singleton.mp single ▸ same ▸ member)⟩
      · intro pid member
        rw [names.currentPid]
        rcases List.mem_append.mp member with before | now
        · exact inv.old pid before
        · rw [List.mem_singleton.mp now]
          exact bookkeeping.records.pidBound p live notIdle
      · intro q alive other
        rw [names.idle] at other
        obtain ⟨different, aliveBefore⟩ := survivor q alive
        rw [names.pid]
        intro member
        rcases List.mem_append.mp member with before | now
        · exact inv.gone q aliveBefore other before
        · exact different (bookkeeping.records.pidInj q p aliveBefore live other notIdle
            (List.mem_singleton.mp now))
  | forks addr free idle allocated currentPid pid treeEntry others =>
      have known : ∀ q, σ'.allocated q = true → q ≠ addr → σ.allocated q = true := by
        intro q alive old
        rwa [allocated, Function.update_of_ne old] at alive
      refine ⟨after, ?_, waits, by simpa using inv.once, ?_, ?_⟩
      · intro q alive other
        rw [idle] at other
        by_cases isNew : q = addr
        · rw [isNew]
          exact treeEntry
        · rw [(others q isNew).2]
          exact inv.entries q (known q alive isNew) other
      · intro old member
        rw [currentPid]
        exact Int.le_add_one (inv.old old (by simpa using member))
      · intro q alive other
        rw [idle] at other
        rw [List.map_nil, List.append_nil]
        by_cases isNew : q = addr
        · -- the pid is the successor of all pids handed out so far
          rw [isNew, pid]
          intro member
          have bound := inv.old _ member
          omega
        · rw [(others q isNew).1]
          exact inv.gone q (known q alive isNew) other

/-- The scheduler after boot, with nothing deleted. -/
theorem Reaping.boot {init idle : Nat} (different : init ≠ idle) (nonzero : init ≠ 0) :
    Reaping (multitaskingInit init idle) [] where
  bookkeeping := ⟨[], WaitInvariant.boot different nonzero⟩
  entries := by
    intro p alive notIdle
    change p ≠ idle at notIdle
    have isInit : p = init := by simpa [multitaskingInit, notIdle] using alive
    simp [isInit, multitaskingInit, different, spawnInit]
  waits := fun caller proc frame => by cases frame
  once := List.nodup_nil
  old := fun pid member => by cases member
  gone := fun p _ _ member => by cases member

/-- The invariant over every run whose steps reap alone. -/
theorem Reaping.run {fuel : Nat} {s t : Sched × List Int} {ops : List SchedOp}
    (run : Run (reapStep fuel) (fun u op => ReapsAlone u.1 op) s ops t)
    (start : Reaping s.1 s.2) : Reaping t.1 t.2 := by
  refine @Run.invariant _ _ _ _ (fun u => Reaping u.1 u.2) ?_ _ _ _ run start
  intro u op v alone taken inv
  unfold reapStep at taken
  rw [Option.map_eq_some_iff] at taken
  obtain ⟨⟨σ', event⟩, step, rfl⟩ := taken
  exact inv.step alone step

end Voxel.Proofs
