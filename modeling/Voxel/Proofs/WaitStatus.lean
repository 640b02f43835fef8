/-
Module: Voxel.Proofs.WaitStatus
Layer: Proofs
Purpose: What `sys_waitpid` returns to the only waiter of a process, over every interleaving of the
  call with the exit of that process. A process that exits before anybody has set its waiters flag is
  destroyed on the spot, and a later wait finds nothing and returns 0; a process that is still in the
  process tree when the wait begins hands its status over, whatever runs in between.
Trusted boundary: none
Main exports: loggedStep, OnlyWaiter, InProcessTree, WaitInvariant, Waits, waitpid_status_iff
-/
import Voxel.Proofs.Scheduler

namespace Voxel.Proofs

open Voxel.Kernel
open Voxel.Lib

/-! ## Histories -/

/-- A step of the scheduler that appends its report to the history. -/
def loggedStep (fuel : Nat) (state : Sched × List SchedEvent) (op : SchedOp) :
    Option (Sched × List SchedEvent) :=
  (schedStep fuel state.1 op).map fun next => (next.1, state.2 ++ [next.2])

/-- No process other than `caller` is in the loop of `sys_waitpid` for a process with this pid, or
calls it. -/
def OnlyWaiter (caller : Nat) (pid : Int) (state : Sched × List SchedEvent) (op : SchedOp) : Prop :=
  (∀ other proc, state.1.waitFrame other = some proc → (state.1.procs proc).pid = pid →
    other = caller) ∧
  (op = .waitpid pid → state.1.currentProcess = caller)

/-- The step finds the process that its caller waits for finished, and deletes it. -/
def Reaps (σ : Sched) (op : SchedOp) (proc : Nat) : Prop :=
  σ.finished proc = true ∧
    ((op = .waitAgain ∧ σ.waitFrame σ.currentProcess = some proc) ∨
      ∃ pid, op = .waitpid pid ∧ getProcess σ pid = some proc)

/-- A node of the process tree holds a process with this pid. -/
def InProcessTree (σ : Sched) (pid : Int) : Prop :=
  ∃ node ∈ σ.processTree.nodes, node.2 ≠ 0 ∧ (σ.procs node.2).pid = pid

/-- The value of an event that returns from `sys_waitpid` to this caller. -/
def returnedTo (caller : Nat) : SchedEvent → Option (BitVec 64)
  | .returned who _ value => if who = caller then some value else none
  | .exited _ _ | .silent => none

/-- The first value `sys_waitpid` returns to the caller in a history. -/
def firstReturn (caller : Nat) (history : List SchedEvent) : Option (BitVec 64) :=
  history.findSome? (returnedTo caller)

theorem getProcess_some {σ : Sched} {pid : Int} {proc : Nat}
    (found : getProcess σ pid = some proc) :
    (σ.procs proc).pid = pid ∧ ∃ entry, (entry, proc) ∈ σ.processTree.nodes := by
  unfold getProcess at found
  rw [Option.map_eq_some_iff] at found
  obtain ⟨tree, search, rfl⟩ := found
  obtain ⟨accepted, member⟩ := treeFind_spec search
  exact ⟨(of_decide_eq_true accepted).2, _, member⟩

/-- `get_process` finds a process exactly when a tree node holds one. -/
theorem getProcess_none_iff {σ : Sched} {pid : Int} :
    getProcess σ pid = none ↔ ¬ InProcessTree σ pid := by
  unfold getProcess InProcessTree
  rw [Option.map_eq_none_iff]
  constructor
  · rintro search ⟨node, member, nonzero, isPid⟩
    have rejected := treeFind_none search node member
    simp [nonzero, isPid] at rejected
  · intro absent
    cases search : treeFind (fun p => p ≠ 0 ∧ (σ.procs p).pid = pid) σ.processTree with
    | none => rfl
    | some tree =>
        obtain ⟨accepted, member⟩ := treeFind_spec search
        exact absurd ⟨_, member, of_decide_eq_true accepted⟩ absent

/-- The address of a process other than the idle task, live or finished. -/
def Linkable (σ : Sched) (p : Nat) : Prop :=
  (σ.allocated p = true ∨ σ.finished p = true) ∧ p ≠ σ.kernelIdleTask

structure Records (σ : Sched) (log : List SchedEvent) : Prop where
  links : ∀ p q, σ.next p = some q → Linkable σ q
  head : ∀ q, σ.processQueue = some q → Linkable σ q
  self : ∀ q, Linkable σ q → (σ.procs q).queueNode.process = q ∧ q ≠ 0
  idleLive : σ.allocated σ.kernelIdleTask = true ∧ σ.finished σ.kernelIdleTask = false
  idleEntry : (σ.procs σ.kernelIdleTask).treeEntry = none
  pidBound : ∀ p, σ.allocated p = true → p ≠ σ.kernelIdleTask → (σ.procs p).pid ≤ σ.currentPid
  pidInj : ∀ p q, σ.allocated p = true → σ.allocated q = true → p ≠ σ.kernelIdleTask →
    q ≠ σ.kernelIdleTask → (σ.procs p).pid = (σ.procs q).pid → p = q
  tree : ∀ node ∈ σ.processTree.nodes,
    σ.allocated node.2 = true ∧ (σ.procs node.2).treeEntry = some node.1
  root : ∀ p, σ.allocated p = true → (σ.procs p).treeEntry = some σ.processTree.entry →
    (σ.procs p).pid = 1
  rootOld : σ.processTree.entry < σ.treeNodes
  logBound : ∀ pid code, .exited pid code ∈ log → pid ≤ σ.currentPid
  logDone : ∀ pid code, .exited pid code ∈ log → ∀ p, σ.allocated p = true →
    p ≠ σ.kernelIdleTask → (σ.procs p).pid = pid →
      σ.finished p = true ∧ (σ.procs p).status = exitStatus code
  logged : ∀ p, σ.allocated p = true → σ.finished p = true →
    ∃ code, .exited (σ.procs p).pid code ∈ log
  logOnce : ∀ pid code other, .exited pid code ∈ log → .exited pid other ∈ log → code = other

/-- Between steps the delete queue is empty and a live unfinished process runs. -/
structure WaitInvariant (σ : Sched) (log : List SchedEvent) : Prop where
  records : Records σ log
  deleteNull : σ.deleteQueue = none
  current : σ.allocated σ.currentProcess = true ∧ σ.finished σ.currentProcess = false
  idleOutside : σ.waitFrame σ.kernelIdleTask = none

/-- `caller` waits for the process at `proc`, which cannot go away before it is reaped: its waiters
flag is set or it has finished. -/
structure Waits (σ : Sched) (caller : Nat) (pid : Int) (proc : Nat) : Prop where
  frame : σ.waitFrame caller = some proc
  callerLive : σ.allocated caller = true ∧ σ.finished caller = false
  procLive : σ.allocated proc = true ∧ proc ≠ σ.kernelIdleTask
  isPid : (σ.procs proc).pid = pid
  held : (σ.procs proc).flags.hasWaiters = true ∨ σ.finished proc = true

/-- Queue pointers and running flags apart, the two states hold the same processes. -/
structure SameRecords (σ σ' : Sched) : Prop where
  allocated : σ'.allocated = σ.allocated
  finished : σ'.finished = σ.finished
  idle : σ'.kernelIdleTask = σ.kernelIdleTask
  processTree : σ'.processTree = σ.processTree
  treeNodes : σ'.treeNodes = σ.treeNodes
  currentPid : σ'.currentPid = σ.currentPid
  pid : ∀ p, (σ'.procs p).pid = (σ.procs p).pid
  status : ∀ p, (σ'.procs p).status = (σ.procs p).status
  treeEntry : ∀ p, (σ'.procs p).treeEntry = (σ.procs p).treeEntry
  node : ∀ p, (σ'.procs p).queueNode.process = (σ.procs p).queueNode.process
  waiters : ∀ p, (σ.procs p).flags.hasWaiters = true → (σ'.procs p).flags.hasWaiters = true

namespace SameRecords

theorem refl (σ : Sched) : SameRecords σ σ :=
  ⟨rfl, rfl, rfl, rfl, rfl, rfl, fun _ => rfl, fun _ => rfl, fun _ => rfl, fun _ => rfl,
    fun _ flag => flag⟩

theorem trans {σ τ υ : Sched} (one : SameRecords σ τ) (two : SameRecords τ υ) :
    SameRecords σ υ where
  allocated := two.allocated.trans one.allocated
  finished := two.finished.trans one.finished
  idle := two.idle.trans one.idle
  processTree := two.processTree.trans one.processTree
  treeNodes := two.treeNodes.trans one.treeNodes
  currentPid := two.currentPid.trans one.currentPid
  pid := fun p => (two.pid p).trans (one.pid p)
  status := fun p => (two.status p).trans (one.status p)
  treeEntry := fun p => (two.treeEntry p).trans (one.treeEntry p)
  node := fun p => (two.node p).trans (one.node p)
  waiters := fun p flag => two.waiters p (one.waiters p flag)

/-- A change of one record that keeps what the bookkeeping reads. -/
theorem modify (σ : Sched) (p : Nat) {change : Process → Process}
    (finished : ∀ r, (change r).flags.finished = r.flags.finished)
    (pid : ∀ r, (change r).pid = r.pid) (status : ∀ r, (change r).status = r.status)
    (treeEntry : ∀ r, (change r).treeEntry = r.treeEntry)
    (node : ∀ r, (change r).queueNode.process = r.queueNode.process)
    (waiters : ∀ r, r.flags.hasWaiters = true → (change r).flags.hasWaiters = true) :
    SameRecords σ (σ.modify p change) where
  allocated := rfl
  finished := Sched.modify_finished σ p (finished _)
  idle := rfl
  processTree := rfl
  treeNodes := rfl
  currentPid := rfl
  pid := Sched.modify_field Process.pid σ p (pid _)
  status := Sched.modify_field Process.status σ p (status _)
  treeEntry := Sched.modify_field Process.treeEntry σ p (treeEntry _)
  node := Sched.modify_field (fun r => r.queueNode.process) σ p (node _)
  waiters := by
    intro q flag
    by_cases same : q = p
    · subst same
      rw [Sched.modify_procs_self]
      exact waiters _ flag
    · rwa [Sched.modify_procs_of_ne σ same]

/-- The queue heads, the running process and the wait frames are not part of the records. -/
theorem withQueues (σ : Sched) (waitFrame : Nat → Option Nat) (head last deleted : Option Nat)
    (current : Nat) :
    SameRecords σ
      { σ with
        waitFrame := waitFrame
        processQueue := head
        processQueueEnd := last
        deleteQueue := deleted
        currentProcess := current } :=
  ⟨rfl, rfl, rfl, rfl, rfl, rfl, fun _ => rfl, fun _ => rfl, fun _ => rfl, fun _ => rfl,
    fun _ flag => flag⟩

theorem linkable {σ σ' : Sched} (same : SameRecords σ σ') (p : Nat) :
    Linkable σ' p ↔ Linkable σ p := by
  rw [Linkable, same.allocated, same.finished, same.idle, Linkable]

end SameRecords

/-- The bookkeeping survives every change of the queues that keeps them on known processes. -/
theorem Records.relink {σ σ' : Sched} {log : List SchedEvent} (inv : Records σ log)
    (same : SameRecords σ σ') (links : ∀ p q, σ'.next p = some q → Linkable σ q)
    (head : ∀ q, σ'.processQueue = some q → Linkable σ q) : Records σ' log where
  links := fun p q link => (same.linkable q).mpr (links p q link)
  head := fun q link => (same.linkable q).mpr (head q link)
  self := fun q known => by
    rw [same.node]
    exact inv.self q ((same.linkable q).mp known)
  idleLive := by
    rw [same.allocated, same.finished, same.idle]
    exact inv.idleLive
  idleEntry := by
    rw [same.idle, same.treeEntry]
    exact inv.idleEntry
  pidBound := by
    rw [same.allocated, same.idle, same.currentPid]
    simpa only [same.pid] using inv.pidBound
  pidInj := by
    rw [same.allocated, same.idle]
    simpa only [same.pid] using inv.pidInj
  tree := by
    rw [same.processTree, same.allocated]
    simpa only [same.treeEntry] using inv.tree
  root := by
    rw [same.processTree, same.allocated]
    simpa only [same.treeEntry, same.pid] using inv.root
  rootOld := by
    rw [same.processTree, same.treeNodes]
    exact inv.rootOld
  logBound := by
    rw [same.currentPid]
    exact inv.logBound
  logDone := by
    rw [same.allocated, same.idle, same.finished]
    simpa only [same.pid, same.status] using inv.logDone
  logged := by
    rw [same.allocated, same.finished]
    simpa only [same.pid] using inv.logged
  logOnce := inv.logOnce

/-- Events that are no exits do not matter. -/
theorem Records.append {σ : Sched} {log : List SchedEvent} (inv : Records σ log)
    {event : SchedEvent} (quiet : ∀ pid code, event ≠ .exited pid code) :
    Records σ (log ++ [event]) := by
  have old : ∀ {pid code}, .exited pid code ∈ log ++ [event] → .exited pid code ∈ log := by
    intro pid code member
    rcases List.mem_append.mp member with before | now
    · exact before
    · exact absurd (List.mem_singleton.mp now).symm (quiet pid code)
  exact
    { inv with
      logBound := fun pid code member => inv.logBound pid code (old member)
      logDone := fun pid code member => inv.logDone pid code (old member)
      logged := fun p live done =>
        (inv.logged p live done).imp fun code member => List.mem_append_left _ member
      logOnce := fun pid code other one two => inv.logOnce pid code other (old one) (old two) }

theorem Waits.transport {σ σ' : Sched} {caller proc : Nat} {pid : Int}
    (waits : Waits σ caller pid proc) (same : SameRecords σ σ')
    (frame : σ'.waitFrame caller = σ.waitFrame caller) : Waits σ' caller pid proc where
  frame := frame.trans waits.frame
  callerLive := by
    rw [same.allocated, same.finished]
    exact waits.callerLive
  procLive := by
    rw [same.allocated, same.idle]
    exact waits.procLive
  isPid := (same.pid proc).trans waits.isPid
  held := by
    rw [same.finished]
    exact waits.held.imp_left (same.waiters proc)

/-! ## Choosing the next process -/

/-- The records, the wait frames and the delete queue stay; the ready queue may change. -/
structure Switches (σ σ' : Sched) : Prop where
  same : SameRecords σ σ'
  waitFrame : σ'.waitFrame = σ.waitFrame
  deleteQueue : σ'.deleteQueue = σ.deleteQueue

theorem Switches.trans {σ τ υ : Sched} (one : Switches σ τ) (two : Switches τ υ) :
    Switches σ υ :=
  ⟨one.same.trans two.same, two.waitFrame.trans one.waitFrame,
    two.deleteQueue.trans one.deleteQueue⟩

theorem nextReadyProcess_switches (σ : Sched) : Switches σ (nextReadyProcess σ).2 := by
  unfold nextReadyProcess
  split
  · exact ⟨.refl σ, rfl, rfl⟩
  · dsimp only
    split
    · exact ⟨.withQueues σ _ _ _ _ _, rfl, rfl⟩
    · dsimp only
      exact ⟨SameRecords.trans (.withQueues σ _ _ _ _ _)
        (SameRecords.modify _ _ (fun _ => rfl) (fun _ => rfl) (fun _ => rfl) (fun _ => rfl)
          (fun _ => rfl) (fun _ flag => flag)), rfl, rfl⟩

/-- One round of the second loop of `switch_next`. -/
theorem pickRound_switches (σ : Sched) :
    Switches σ { (nextReadyProcess σ).2 with currentProcess := (nextReadyProcess σ).1 } :=
  (nextReadyProcess_switches σ).trans ⟨.withQueues _ _ _ _ _ _, rfl, rfl⟩

theorem pickReady_switches {fuel : Nat} {σ σ' : Sched} (picked : pickReady fuel σ = some σ') :
    Switches σ σ' := by
  induction fuel generalizing σ with
  | zero => simp [pickReady] at picked
  | succ fuel inductionHypothesis =>
      rw [pickReady] at picked
      dsimp only at picked
      split at picked
      · exact (pickRound_switches σ).trans (inductionHypothesis picked)
      · cases picked
        exact pickRound_switches σ

/-- With an empty delete queue `switch_next` rearranges the ready queue and nothing else. -/
theorem switchNext_switches {fuel : Nat} {σ σ' : Sched} (deleteNull : σ.deleteQueue = none)
    (switched : switchNext fuel σ = some σ') : Switches σ σ' := by
  cases fuel with
  | zero => simp [switchNext, drainDeleteQueue] at switched
  | succ fuel =>
      rw [switchNext, drainDeleteQueue, deleteNull] at switched
      dsimp only at switched
      split at switched
      · cases switched
      · rename_i picked pickedEq
        cases switched
        exact (pickReady_switches pickedEq).trans
          ⟨SameRecords.modify _ _ (fun _ => rfl) (fun _ => rfl) (fun _ => rfl) (fun _ => rfl)
            (fun _ => rfl) (fun _ flag => flag), rfl, rfl⟩

/-- The choice of the running process is not part of the bookkeeping. -/
theorem Records.withCurrent {σ : Sched} {log : List SchedEvent} (inv : Records σ log)
    (current : Nat) : Records { σ with currentProcess := current } log :=
  inv.relink (.withQueues σ _ _ _ _ current) inv.links inv.head

/-- Whatever `next_ready_process` takes off the queue, freed or not, is a known process. -/
theorem Records.nextReadyProcess {σ : Sched} {log : List SchedEvent} (inv : Records σ log) :
    Records (nextReadyProcess σ).2 log ∧
      (Linkable σ (nextReadyProcess σ).1 ∨ (nextReadyProcess σ).1 = σ.kernelIdleTask) := by
  cases headEq : σ.processQueue with
  | none =>
      rw [nextReadyProcess_of_none headEq]
      exact ⟨inv, Or.inr rfl⟩
  | some node =>
      have known := inv.head node headEq
      have picked : (Kernel.nextReadyProcess σ).1 = node := by
        rw [(nextReadyProcess_of_some headEq).1, (inv.self node known).1]
      refine ⟨inv.relink (nextReadyProcess_switches σ).same ?_ ?_, Or.inl (picked ▸ known)⟩
      · intro p q link
        rw [nextReadyProcess_next] at link
        exact inv.links p q link
      · intro q link
        rw [(nextReadyProcess_of_some headEq).2.1] at link
        exact inv.links node q link

/-- The loop of `switch_next` stops at a live unfinished process: a freed record that is still linked
is finished and is skipped. -/
theorem Records.pickReady {fuel : Nat} {σ σ' : Sched} {log : List SchedEvent}
    (inv : Records σ log) (picked : pickReady fuel σ = some σ') :
    Records σ' log ∧ σ'.allocated σ'.currentProcess = true ∧
      σ'.finished σ'.currentProcess = false := by
  induction fuel generalizing σ with
  | zero => simp [Kernel.pickReady] at picked
  | succ fuel inductionHypothesis =>
      obtain ⟨taken, which⟩ := inv.nextReadyProcess
      have taken := taken.withCurrent (Kernel.nextReadyProcess σ).1
      have same := (pickRound_switches σ).same
      rw [Kernel.pickReady] at picked
      dsimp only at picked
      split at picked
      · exact inductionHypothesis taken picked
      · rename_i unfinished
        cases picked
        have open_ : σ.finished (Kernel.nextReadyProcess σ).1 = false := by
          rw [← same.finished]
          simpa using unfinished
        refine ⟨taken, ?_, by simpa using unfinished⟩
        rw [same.allocated]
        rcases which with known | idle
        · refine known.1.resolve_right ?_
          rw [open_]
          exact Bool.false_ne_true
        · change σ.allocated (Kernel.nextReadyProcess σ).1 = true
          rw [idle]
          exact inv.idleLive.1

/-- `switch_next` with an empty delete queue. -/
theorem Records.switchNext {fuel : Nat} {σ σ' : Sched} {log : List SchedEvent}
    (inv : Records σ log) (deleteNull : σ.deleteQueue = none)
    (idleOutside : σ.waitFrame σ.kernelIdleTask = none)
    (switched : switchNext fuel σ = some σ') :
    WaitInvariant σ' log ∧ Switches σ σ' := by
  have all := switchNext_switches deleteNull switched
  cases fuel with
  | zero => simp [Kernel.switchNext, drainDeleteQueue] at switched
  | succ fuel =>
      rw [Kernel.switchNext, drainDeleteQueue, deleteNull] at switched
      dsimp only at switched
      split at switched
      · cases switched
      · rename_i picked pickedEq
        cases switched
        obtain ⟨records, live⟩ := inv.pickReady pickedEq
        have started := @SameRecords.modify picked picked.currentProcess (fun p =>
          { p with flags := { p.flags with started := true } }) (fun _ => rfl) (fun _ => rfl)
          (fun _ => rfl) (fun _ => rfl) (fun _ => rfl) (fun _ flag => flag)
        refine ⟨⟨?_, all.deleteQueue.trans deleteNull, ?_, ?_⟩, all⟩
        · refine records.relink started ?_ records.head
          rw [Sched.modify_next _ _ rfl]
          exact records.links
        · rw [started.allocated, started.finished]
          exact live
        · rw [all.waitFrame, all.same.idle]
          exact idleOutside

theorem makeProcessReady_switches (σ : Sched) (p : Nat) : Switches σ (makeProcessReady σ p) := by
  unfold makeProcessReady
  split
  · rename_i last _
    have same := @SameRecords.modify σ last (Process.setNext (some p)) (fun _ => rfl)
      (fun _ => rfl) (fun _ => rfl) (fun _ => rfl) (fun _ => rfl) (fun _ flag => flag)
    exact ⟨same.trans (.withQueues _ σ.waitFrame σ.processQueue (some p) σ.deleteQueue
      σ.currentProcess), rfl, rfl⟩
  · exact ⟨.withQueues σ σ.waitFrame (some p) (some p) σ.deleteQueue σ.currentProcess, rfl, rfl⟩

/-- `make_process_ready` on a known process. -/
theorem Records.makeProcessReady {σ : Sched} {log : List SchedEvent} {p : Nat}
    (inv : Records σ log) (known : Linkable σ p) : Records (makeProcessReady σ p) log := by
  have same := (makeProcessReady_switches σ p).same
  unfold Kernel.makeProcessReady at same ⊢
  split at same
  · rename_i last _
    refine inv.relink same ?_ inv.head
    intro a b link
    change Sched.next (σ.modify last (Process.setNext (some p))) a = some b at link
    rw [Sched.next] at link
    by_cases isLast : a = last
    · subst isLast
      rw [Sched.modify_procs_self] at link
      cases link
      exact known
    · rw [Sched.modify_procs_of_ne _ isLast] at link
      exact inv.links a b link
  · refine inv.relink same inv.links ?_
    intro q link
    cases link
    exact known

/-- A timer tick or an iteration of the wait loop. -/
theorem WaitInvariant.switchTask {fuel : Nat} {σ σ' : Sched} {log : List SchedEvent}
    (inv : WaitInvariant σ log) (switched : switchTask fuel true σ = some σ') :
    WaitInvariant σ' log ∧ Switches σ σ' := by
  unfold Kernel.switchTask at switched
  split at switched
  · exact inv.records.switchNext inv.deleteNull inv.idleOutside switched
  · rename_i leaves
    have notIdle : σ.currentProcess ≠ σ.kernelIdleTask := fun idle => leaves (Or.inr idle)
    have records := inv.records.makeProcessReady
      (p := σ.currentProcess) ⟨Or.inl inv.current.1, notIdle⟩
    have queued := makeProcessReady_switches σ σ.currentProcess
    rw [if_pos rfl] at switched
    obtain ⟨after, switches⟩ := records.switchNext (queued.deleteQueue.trans inv.deleteNull)
      (by rw [queued.waitFrame, queued.same.idle]; exact inv.idleOutside) switched
    exact ⟨after, queued.trans switches⟩

/-! ## Deleting, forking and exiting -/

/-- Destroying a branch keeps old nodes only, and none with the destroyed entry. -/
theorem treeDestroyAndMerge_nodes {entry : Nat} {tree after : Tree}
    (destroyed : treeDestroyAndMerge entry tree = some after) :
    ∀ node ∈ after.nodes, node ∈ tree.nodes ∧ node.1 ≠ entry := by
  obtain ⟨entryEq, valueEq, notRoot, below⟩ := treeDestroyAndMerge_spec destroyed
  intro node member
  rw [Tree.nodes_eq, List.mem_cons] at member ⊢
  rcases member with rfl | member
  · rw [entryEq, valueEq]
    exact ⟨Or.inl rfl, notRoot⟩
  · exact ⟨Or.inr (below node member).1, (below node member).2⟩

/-- `process_delete` of a finished process. Its record stays finished, so a pointer that still leads
to it leads to a process the scheduler skips. -/
theorem Records.processDelete {σ σ' : Sched} {log : List SchedEvent} {p : Nat}
    (inv : Records σ log) (finished : σ.finished p = true)
    (deleted : processDelete σ p = some σ') : Records σ' log := by
  have other : ∀ {q}, σ.finished q = false → q ≠ p := by
    intro q open_ same
    rw [same, finished] at open_
    cases open_
  unfold Kernel.processDelete at deleted
  split at deleted
  · cases deleted
    exact inv
  split at deleted
  · cases deleted
    exact inv
  rename_i entry entryEq
  split at deleted
  · cases deleted
  rename_i tree treeEq
  cases deleted
  have live : ∀ {q}, Function.update σ.allocated p false q = true → σ.allocated q = true := by
    intro q alive
    by_cases same : q = p
    · simp [same] at alive
    · rwa [Function.update_of_ne same] at alive
  have known : ∀ q, Linkable σ q ↔
      Linkable { σ with processTree := tree, allocated := Function.update σ.allocated p false } q := by
    intro q
    refine and_congr_left fun _ => ?_
    by_cases same : q = p
    · simp [same, Sched.finished, show (σ.procs p).flags.finished = true from finished]
    · simp [same, Sched.finished]
  obtain ⟨treeRoot, _⟩ := treeDestroyAndMerge_spec treeEq
  exact
    { links := fun a b link => (known b).mp (inv.links a b link)
      head := fun b link => (known b).mp (inv.head b link)
      self := fun q linkable => inv.self q ((known q).mpr linkable)
      idleLive := by
        refine ⟨?_, inv.idleLive.2⟩
        change Function.update σ.allocated p false σ.kernelIdleTask = true
        rw [Function.update_of_ne (other inv.idleLive.2)]
        exact inv.idleLive.1
      idleEntry := inv.idleEntry
      pidBound := fun q alive => inv.pidBound q (live alive)
      pidInj := fun a b aLive bLive => inv.pidInj a b (live aLive) (live bLive)
      tree := by
        intro node member
        obtain ⟨old, different⟩ := treeDestroyAndMerge_nodes treeEq node member
        obtain ⟨alive, ownEntry⟩ := inv.tree node old
        refine ⟨?_, ownEntry⟩
        change Function.update σ.allocated p false node.2 = true
        rw [Function.update_of_ne]
        · exact alive
        · -- the only nodes of `p` carried its own entry
          intro same
          rw [same, entryEq] at ownEntry
          exact different (Option.some.inj ownEntry).symm
      root := fun q alive isRoot => inv.root q (live alive) (by rw [← treeRoot]; exact isRoot)
      rootOld := by
        change tree.entry < σ.treeNodes
        rw [treeRoot]
        exact inv.rootOld
      logBound := inv.logBound
      logDone := fun pid code member q alive => inv.logDone pid code member q (live alive)
      logged := fun q alive => inv.logged q (live alive)
      logOnce := inv.logOnce }

/-- Another process is deleted. -/
theorem Waits.processDelete {σ σ' : Sched} {caller proc p : Nat} {pid : Int}
    (waits : Waits σ caller pid proc) (finished : σ.finished p = true) (different : proc ≠ p)
    (deleted : processDelete σ p = some σ') : Waits σ' caller pid proc := by
  obtain ⟨tree, allocated, rfl, kept, _⟩ := processDelete_spec deleted
  have callerOther : caller ≠ p := by
    intro same
    have open_ := waits.callerLive.2
    rw [same, finished] at open_
    cases open_
  refine ⟨waits.frame, ⟨?_, waits.callerLive.2⟩, ⟨?_, waits.procLive.2⟩, waits.isPid, waits.held⟩
  · exact (kept caller callerOther).trans waits.callerLive.1
  · exact (kept proc different).trans waits.procLive.1

/-- A forked process has a pid that no exit in the history carries. -/
theorem Records.fork {σ σ' : Sched} {log : List SchedEvent} {addr : Nat} (inv : Records σ log)
    (forked : fork σ addr = some σ') :
    Records σ' log ∧ σ'.waitFrame = σ.waitFrame ∧ σ'.deleteQueue = σ.deleteQueue ∧
      σ'.currentProcess = σ.currentProcess ∧ σ'.kernelIdleTask = σ.kernelIdleTask ∧
      ∀ p, σ.allocated p = true → σ'.allocated p = true ∧
        (σ'.procs p).pid = (σ.procs p).pid ∧ (σ'.procs p).flags = (σ.procs p).flags := by
  unfold Kernel.fork at forked
  split at forked
  · cases forked
  rename_i free
  push Not at free
  obtain ⟨addrNonzero, addrFree⟩ := free
  have addrDead : σ.allocated addr = false := by simpa using addrFree
  have addrNe : ∀ {p : Nat}, σ.allocated p = true → p ≠ addr := by
    intro p live same
    rw [same, addrDead] at live
    cases live
  generalize flaggedEq : (spawnProcess σ σ.currentProcess addr).modify addr
      (fun p => { p with flags :=
        { p.flags with isTasklet :=
            p.flags.isTasklet || (σ.procs σ.currentProcess).flags.isTasklet } }) = flagged at forked
  dsimp only at forked
  rw [flaggedEq] at forked
  cases forked
  have procsOld : ∀ p, p ≠ addr → flagged.procs p = σ.procs p := by
    intro p other
    rw [← flaggedEq, Sched.modify_procs_of_ne _ other]
    simp [spawnProcess, other]
  have recordNew : (flagged.procs addr).queueNode = ⟨addr, none⟩ ∧
      (flagged.procs addr).pid = σ.currentPid + 1 ∧
      (flagged.procs addr).treeEntry = some σ.treeNodes ∧ flagged.finished addr = false := by
    rw [← flaggedEq]
    simp [Sched.finished, spawnProcess, ProcFlags.clear]
  have allocatedEq : flagged.allocated = Function.update σ.allocated addr true := by
    rw [← flaggedEq]
    rfl
  have headEq : flagged.processQueue = σ.processQueue := by rw [← flaggedEq]; rfl
  have idleEq : flagged.kernelIdleTask = σ.kernelIdleTask := by rw [← flaggedEq]; rfl
  have pidEq : flagged.currentPid = σ.currentPid + 1 := by rw [← flaggedEq]; rfl
  have nodesEq : flagged.treeNodes = σ.treeNodes + 1 := by rw [← flaggedEq]; rfl
  have rootEq : flagged.processTree.entry = σ.processTree.entry := by
    rw [← flaggedEq]
    simp only [Sched.modify, spawnProcess]
    split <;> simp
  have treeEq : ∀ node ∈ flagged.processTree.nodes,
      node = (σ.treeNodes, addr) ∨ node ∈ σ.processTree.nodes := by
    rw [← flaggedEq]
    simp only [Sched.modify, spawnProcess]
    intro node member
    split at member
    · exact Or.inr member
    · rw [Tree.nodes_eq, treeInsertValue_entry, treeInsertValue_value, List.mem_cons] at member
      rw [Tree.nodes_eq, List.mem_cons]
      rcases member with top | below
      · exact Or.inr (Or.inl top)
      · exact (treeInsertValue_descendants below).imp_right Or.inr
  have openOld : ∀ p, p ≠ addr → flagged.finished p = σ.finished p := by
    intro p other
    rw [Sched.finished, procsOld p other, Sched.finished]
  have idleNe : σ.kernelIdleTask ≠ addr := addrNe inv.idleLive.1
  have live : ∀ p, p ≠ addr → flagged.allocated p = σ.allocated p := by
    intro p other
    rw [allocatedEq, Function.update_of_ne other]
  have known : ∀ p, Linkable σ p → Linkable flagged p := by
    rintro p ⟨settled, notIdle⟩
    refine ⟨?_, by rwa [idleEq]⟩
    by_cases same : p = addr
    · rw [same, allocatedEq]
      exact Or.inl (Function.update_self ..)
    · rwa [live p same, openOld p same]
  have spawned : Records flagged log :=
    { links := by
        intro a b link
        rw [Sched.next] at link
        by_cases same : a = addr
        · rw [same, recordNew.1] at link
          cases link
        · rw [procsOld a same] at link
          exact known b (inv.links a b link)
      head := by
        rw [headEq]
        exact fun b link => known b (inv.head b link)
      self := by
        rintro q ⟨settled, notIdle⟩
        by_cases same : q = addr
        · rw [same, recordNew.1]
          exact ⟨rfl, addrNonzero⟩
        · rw [live q same, openOld q same] at settled
          rw [idleEq] at notIdle
          rw [procsOld q same]
          exact inv.self q ⟨settled, notIdle⟩
      idleLive := by
        rw [idleEq, live _ idleNe, openOld _ idleNe]
        exact inv.idleLive
      idleEntry := by
        rw [idleEq, procsOld _ idleNe]
        exact inv.idleEntry
      pidBound := by
        intro p alive notIdle
        rw [pidEq]
        by_cases same : p = addr
        · rw [same]
          exact Int.le_of_eq recordNew.2.1
        · rw [live p same] at alive
          rw [idleEq] at notIdle
          rw [procsOld p same]
          exact Int.le_add_one (inv.pidBound p alive notIdle)
      pidInj := by
        intro p q pLive qLive pIdle qIdle samePid
        rw [idleEq] at pIdle qIdle
        by_cases pNew : p = addr <;> by_cases qNew : q = addr
        · rw [pNew, qNew]
        · rw [pNew, recordNew.2.1, procsOld q qNew] at samePid
          rw [live q qNew] at qLive
          have bound := inv.pidBound q qLive qIdle
          omega
        · rw [qNew, recordNew.2.1, procsOld p pNew] at samePid
          rw [live p pNew] at pLive
          have bound := inv.pidBound p pLive pIdle
          omega
        · rw [live p pNew] at pLive
          rw [live q qNew] at qLive
          rw [procsOld p pNew, procsOld q qNew] at samePid
          exact inv.pidInj p q pLive qLive pIdle qIdle samePid
      tree := by
        intro node member
        rcases treeEq node member with rfl | old
        · exact ⟨by rw [allocatedEq]; exact Function.update_self .., recordNew.2.2.1⟩
        · obtain ⟨alive, ownEntry⟩ := inv.tree node old
          rw [live _ (addrNe alive), procsOld _ (addrNe alive)]
          exact ⟨alive, ownEntry⟩
      root := by
        intro p alive isRoot
        rw [rootEq] at isRoot
        by_cases same : p = addr
        · rw [same, recordNew.2.2.1] at isRoot
          have clash := Option.some.inj isRoot
          have old := inv.rootOld
          omega
        · rw [live p same] at alive
          rw [procsOld p same] at isRoot ⊢
          exact inv.root p alive isRoot
      rootOld := by
        rw [rootEq, nodesEq]
        exact Nat.lt_succ_of_lt inv.rootOld
      logBound := by
        intro pid code member
        rw [pidEq]
        exact Int.le_add_one (inv.logBound pid code member)
      logDone := by
        intro pid code member p alive notIdle isPid
        rw [idleEq] at notIdle
        by_cases same : p = addr
        · rw [same, recordNew.2.1] at isPid
          have bound := inv.logBound pid code member
          omega
        · rw [live p same] at alive
          rw [procsOld p same] at isPid ⊢
          rw [openOld p same]
          exact inv.logDone pid code member p alive notIdle isPid
      logged := by
        intro p alive done
        by_cases same : p = addr
        · rw [same, recordNew.2.2.2] at done
          cases done
        · rw [live p same] at alive
          rw [openOld p same] at done
          rw [procsOld p same]
          exact inv.logged p alive done
      logOnce := inv.logOnce }
  have addrKnown : Linkable flagged addr :=
    ⟨Or.inl (by rw [allocatedEq]; exact Function.update_self ..), by rw [idleEq]; exact idleNe.symm⟩
  have queued := spawned.makeProcessReady addrKnown
  have switches := makeProcessReady_switches flagged addr
  refine ⟨queued, switches.waitFrame.trans ?_, switches.deleteQueue.trans ?_, ?_,
    switches.same.idle.trans idleEq, ?_⟩
  · rw [← flaggedEq]
    rfl
  · rw [← flaggedEq]
    rfl
  · rw [makeProcessReady_currentProcess, ← flaggedEq]
    rfl
  · intro p alive
    have other := addrNe alive
    rw [switches.same.allocated, live p other, switches.same.pid, makeProcessReady_flags,
      procsOld p other]
    exact ⟨alive, rfl, rfl⟩

/-- Between the marks of `process_exit` and the switch: the running process has finished with its
status and nothing else has changed but its own `next` pointer and the delete queue. -/
structure Exited (σ τ : Sched) (rval : BitVec 32) : Prop where
  procs : ∀ p, p ≠ σ.currentProcess → τ.procs p = σ.procs p
  pid : (τ.procs σ.currentProcess).pid = (σ.procs σ.currentProcess).pid
  treeEntry : (τ.procs σ.currentProcess).treeEntry = (σ.procs σ.currentProcess).treeEntry
  node : (τ.procs σ.currentProcess).queueNode.process =
    (σ.procs σ.currentProcess).queueNode.process
  next : ∀ q, τ.next σ.currentProcess = some q → σ.next σ.currentProcess = some q
  status : (τ.procs σ.currentProcess).status = rval
  finished : τ.finished σ.currentProcess = true
  same : τ.allocated = σ.allocated ∧ τ.waitFrame = σ.waitFrame ∧
    τ.processQueue = σ.processQueue ∧ τ.kernelIdleTask = σ.kernelIdleTask ∧
    τ.processTree = σ.processTree ∧ τ.treeNodes = σ.treeNodes ∧ τ.currentPid = σ.currentPid

/-- `process_exit` marks the process and, without a waiter, deletes it; then it switches. -/
theorem processExit_cases {fuel : Nat} {σ σ' : Sched} {rval : BitVec 32}
    (deleteNull : σ.deleteQueue = none)
    (self : (σ.procs σ.currentProcess).queueNode.process = σ.currentProcess)
    (exited : processExit fuel rval σ = some σ') :
    ∃ τ, Exited σ τ rval ∧
      (((σ.procs σ.currentProcess).flags.hasWaiters = true ∧ τ.deleteQueue = none ∧
          switchNext fuel τ = some σ') ∨
        ((σ.procs σ.currentProcess).flags.hasWaiters = false ∧
          ∃ deleted, processDelete τ σ.currentProcess = some deleted ∧
            switchNext fuel { deleted with deleteQueue := none } = some σ')) := by
  unfold processExit at exited
  dsimp only at exited
  split at exited
  · rename_i waited
    generalize stateEq : Sched.modify (σ.modify σ.currentProcess fun p => { p with status := rval })
      σ.currentProcess (fun p => { p with flags := { p.flags with finished := true } }) = τ
      at exited
    have marked : Exited σ τ rval := by
      subst stateEq
      refine ⟨fun p other => ?_, ?_, ?_, ?_, fun q => ?_, ?_, ?_, rfl, rfl, rfl, rfl, rfl, rfl, rfl⟩
      · rw [Sched.modify_procs_of_ne _ other, Sched.modify_procs_of_ne _ other]
      all_goals simp [Sched.finished, Sched.next]
    refine ⟨τ, marked, Or.inl ⟨by simpa using waited, ?_, exited⟩⟩
    rw [← stateEq]
    exact deleteNull
  · rename_i alone
    generalize stateEq : Sched.modify _ σ.currentProcess
      (fun p => { p with flags := { p.flags with finished := true } }) = τ at exited
    have record : (τ.procs σ.currentProcess).queueNode = ⟨σ.currentProcess, none⟩ := by
      subst stateEq
      simp [Sched.modify, Process.setNext, self, deleteNull]
    have marked : Exited σ τ rval := by
      subst stateEq
      refine ⟨fun p other => ?_, ?_, ?_, ?_, fun q link => ?_, ?_, ?_, rfl, rfl, rfl, rfl, rfl, rfl,
        rfl⟩
      · simp [Sched.modify, other]
      · simp [Sched.modify, Process.setNext]
      · simp [Sched.modify, Process.setNext]
      · exact (congrArg ProcessQueue.process record).trans self.symm
      · rw [Sched.next, record] at link
        cases link
      · simp [Sched.modify, Process.setNext]
      · simp [Sched.finished, Sched.modify]
    obtain ⟨drained, loop, switched⟩ := switchNext_drained exited
    obtain ⟨deleted, deletedEq, rfl⟩ := @drainDeleteQueue_one _ _ _ σ.currentProcess
      (by rw [← stateEq]; rfl) (by rw [Sched.next, record]) loop
    rw [record] at deletedEq
    exact ⟨τ, marked, Or.inr ⟨by simpa using alone, deleted, deletedEq, switched⟩⟩

theorem Exited.finishedOld {σ τ : Sched} {rval : BitVec 32} (marked : Exited σ τ rval) {p : Nat}
    (other : p ≠ σ.currentProcess) : τ.finished p = σ.finished p := by
  rw [Sched.finished, marked.procs p other, Sched.finished]

/-- The exit of a process is the first and the last one under its pid. -/
theorem Records.exited {σ τ : Sched} {log : List SchedEvent} {code : BitVec 64}
    (inv : Records σ log) (marked : Exited σ τ (exitStatus code))
    (current : σ.allocated σ.currentProcess = true ∧ σ.finished σ.currentProcess = false)
    (notIdle : σ.currentProcess ≠ σ.kernelIdleTask) :
    Records τ (log ++ [.exited (σ.procs σ.currentProcess).pid code]) := by
  obtain ⟨allocatedEq, -, headEq, idleEq, treeEq, nodesEq, pidEq⟩ := marked.same
  have fresh : ∀ other, .exited (σ.procs σ.currentProcess).pid other ∉ log := by
    intro other member
    have done := (inv.logDone _ other member _ current.1 notIdle rfl).1
    rw [current.2] at done
    cases done
  have event : ∀ {pid other}, .exited pid other ∈
      log ++ [SchedEvent.exited (σ.procs σ.currentProcess).pid code] →
        .exited pid other ∈ log ∨ pid = (σ.procs σ.currentProcess).pid ∧ other = code := by
    intro pid other member
    rcases List.mem_append.mp member with old | new
    · exact Or.inl old
    · rw [List.mem_singleton] at new
      cases new
      exact Or.inr ⟨rfl, rfl⟩
  have known : ∀ q, Linkable σ q ↔ Linkable τ q := by
    intro q
    rw [Linkable, Linkable, allocatedEq, idleEq]
    by_cases isCurrent : q = σ.currentProcess
    · rw [isCurrent, current.1]
      simp
    · rw [marked.finishedOld isCurrent]
  have pidOld : ∀ p, (τ.procs p).pid = (σ.procs p).pid := by
    intro p
    by_cases isCurrent : p = σ.currentProcess
    · rw [isCurrent, marked.pid]
    · rw [marked.procs p isCurrent]
  have entryOld : ∀ p, (τ.procs p).treeEntry = (σ.procs p).treeEntry := by
    intro p
    by_cases isCurrent : p = σ.currentProcess
    · rw [isCurrent, marked.treeEntry]
    · rw [marked.procs p isCurrent]
  exact
    { links := by
        intro a b link
        rw [← known]
        by_cases isCurrent : a = σ.currentProcess
        · rw [isCurrent] at link
          exact inv.links _ b (marked.next b link)
        · rw [Sched.next, marked.procs a isCurrent] at link
          exact inv.links a b link
      head := by
        rw [headEq]
        exact fun b link => (known b).mp (inv.head b link)
      self := by
        intro q linkable
        have before := inv.self q ((known q).mpr linkable)
        by_cases isCurrent : q = σ.currentProcess
        · rw [isCurrent] at before ⊢
          rw [marked.node]
          exact before
        · rw [marked.procs q isCurrent]
          exact before
      idleLive := by
        rw [idleEq, allocatedEq, marked.finishedOld notIdle.symm]
        exact inv.idleLive
      idleEntry := by
        rw [idleEq, entryOld]
        exact inv.idleEntry
      pidBound := by
        rw [allocatedEq, idleEq, pidEq]
        simpa only [pidOld] using inv.pidBound
      pidInj := by
        rw [allocatedEq, idleEq]
        simpa only [pidOld] using inv.pidInj
      tree := by
        rw [treeEq, allocatedEq]
        simpa only [entryOld] using inv.tree
      root := by
        rw [treeEq, allocatedEq]
        simpa only [entryOld, pidOld] using inv.root
      rootOld := by
        rw [treeEq, nodesEq]
        exact inv.rootOld
      logBound := by
        intro pid other member
        rw [pidEq]
        rcases event member with old | ⟨rfl, -⟩
        · exact inv.logBound pid other old
        · exact inv.pidBound _ current.1 notIdle
      logDone := by
        intro pid other member p alive pIdle isPid
        rw [allocatedEq] at alive
        rw [idleEq] at pIdle
        rw [pidOld] at isPid
        rcases event member with old | ⟨rfl, rfl⟩
        · have before := inv.logDone pid other old p alive pIdle isPid
          have isOther : p ≠ σ.currentProcess := by
            intro same
            rw [same, current.2] at before
            cases before.1
          rw [marked.finishedOld isOther, marked.procs p isOther]
          exact before
        · have isCurrent := inv.pidInj p _ alive current.1 pIdle notIdle isPid
          rw [isCurrent]
          exact ⟨marked.finished, marked.status⟩
      logged := by
        intro p alive done
        rw [allocatedEq] at alive
        rw [pidOld]
        by_cases isCurrent : p = σ.currentProcess
        · rw [isCurrent]
          exact ⟨code, by simp⟩
        · rw [marked.finishedOld isCurrent] at done
          exact (inv.logged p alive done).imp fun other member => List.mem_append_left _ member
      logOnce := by
        intro pid one two first second
        rcases event first with oldOne | ⟨isPid, rfl⟩ <;>
          rcases event second with oldTwo | ⟨isPid', rfl⟩
        · exact inv.logOnce pid one two oldOne oldTwo
        · exact absurd (isPid' ▸ oldOne) (fresh one)
        · exact absurd (isPid ▸ oldTwo) (fresh two)
        · rfl }

/-- A waiter keeps its claim when another process, possibly the one it waits for, marks its exit. -/
theorem Waits.exited {σ τ : Sched} {rval : BitVec 32} {caller proc : Nat} {pid : Int}
    (waits : Waits σ caller pid proc) (marked : Exited σ τ rval)
    (other : caller ≠ σ.currentProcess) : Waits τ caller pid proc := by
  obtain ⟨allocatedEq, frameEq, -, idleEq, -⟩ := marked.same
  refine ⟨by rw [frameEq]; exact waits.frame, ?_, ?_, ?_, ?_⟩
  · rw [allocatedEq, marked.finishedOld other]
    exact waits.callerLive
  · rw [allocatedEq, idleEq]
    exact waits.procLive
  · by_cases isCurrent : proc = σ.currentProcess
    · rw [isCurrent, marked.pid, ← isCurrent]
      exact waits.isPid
    · rw [marked.procs proc isCurrent]
      exact waits.isPid
  · by_cases isCurrent : proc = σ.currentProcess
    · rw [isCurrent]
      exact Or.inr marked.finished
    · rw [marked.procs proc isCurrent, marked.finishedOld isCurrent]
      exact waits.held

/-- `sys_exit`, from the marks to the process that runs next. -/
theorem WaitInvariant.exit {fuel : Nat} {σ σ' : Sched} {log : List SchedEvent} {code : BitVec 64}
    (inv : WaitInvariant σ log) (notIdle : σ.currentProcess ≠ σ.kernelIdleTask)
    (exited : sysExit fuel code σ = some σ') :
    WaitInvariant σ' (log ++ [.exited (σ.procs σ.currentProcess).pid code]) ∧
      ∀ {caller proc pid}, caller ≠ σ.currentProcess → Waits σ caller pid proc →
        Waits σ' caller pid proc := by
  obtain ⟨τ, marked, cases⟩ := processExit_cases inv.deleteNull
    (inv.records.self _ ⟨Or.inl inv.current.1, notIdle⟩).1 exited
  have records := inv.records.exited marked inv.current notIdle
  obtain ⟨-, frameEq, -, idleEq, -⟩ := marked.same
  have idleOutside : τ.waitFrame τ.kernelIdleTask = none := by
    rw [frameEq, idleEq]
    exact inv.idleOutside
  rcases cases with ⟨-, deleteNull, switched⟩ | ⟨alone, deleted, deletedEq, switched⟩
  · obtain ⟨after, switches⟩ := records.switchNext deleteNull idleOutside switched
    exact ⟨after, fun other waits =>
      (waits.exited marked other).transport switches.same (congrFun switches.waitFrame _)⟩
  · have reaped := records.processDelete marked.finished deletedEq
    obtain ⟨tree, allocated, deletedShape, -, -⟩ := processDelete_spec deletedEq
    have emptied := SameRecords.withQueues deleted deleted.waitFrame deleted.processQueue
      deleted.processQueueEnd none deleted.currentProcess
    have drained := reaped.relink emptied reaped.links reaped.head
    obtain ⟨after, switches⟩ := drained.switchNext rfl
      (by rw [deletedShape]; exact idleOutside) switched
    refine ⟨after, fun {caller proc pid} other waits => ?_⟩
    -- the process that goes has no waiter
    have different : proc ≠ σ.currentProcess := by
      intro same
      rcases waits.held with flag | done
      · rw [same, alone] at flag
        cases flag
      · rw [same, inv.current.2] at done
        cases done
    have kept := (waits.exited marked other).processDelete marked.finished different deletedEq
    exact (kept.transport emptied rfl).transport switches.same (congrFun switches.waitFrame _)

/-! ## One step -/

/-- What one step does to the claim of a waiter: it keeps the claim and does not answer, or it answers
with the status of the finished process. -/
def WaitProgress (σ σ' : Sched) (event : SchedEvent) (caller : Nat) (pid : Int) (proc : Nat) : Prop :=
  (returnedTo caller event = none ∧ Waits σ' caller pid proc) ∨
    (σ.finished proc = true ∧
      returnedTo caller event = some ((σ.procs proc).status.signExtend 64))

/-- The loop of `sys_waitpid`: a finished process is reaped, an unfinished one gets the waiters flag
before the processor is given up. -/
theorem WaitInvariant.waitLoop {fuel : Nat} {σ σ' : Sched} {log : List SchedEvent} {target : Nat}
    {event : SchedEvent} (inv : WaitInvariant σ log)
    (frame : σ.waitFrame σ.currentProcess = some target)
    (waited : waitLoop fuel σ target = some (σ', event)) :
    WaitInvariant σ' (log ++ [event]) ∧
      (σ.allocated target = true → target ≠ σ.kernelIdleTask →
        WaitProgress σ σ' event σ.currentProcess (σ.procs target).pid target) ∧
      ∀ {caller proc pid}, Waits σ caller pid proc → σ.currentProcess ≠ caller →
        (σ.finished target = true → target ≠ proc) → WaitProgress σ σ' event caller pid proc := by
  unfold Kernel.waitLoop at waited
  split at waited
  · rename_i finished
    dsimp only at waited
    split at waited
    · cases waited
    rename_i deleted deletedEq
    cases waited
    have reaped := inv.records.processDelete finished deletedEq
    have unframed := SameRecords.withQueues deleted
      (Function.update deleted.waitFrame σ.currentProcess none) deleted.processQueue
      deleted.processQueueEnd deleted.deleteQueue deleted.currentProcess
    have records := @Records.append _ _ (reaped.relink unframed reaped.links reaped.head)
      (.returned σ.currentProcess (σ.procs target).pid
        ((σ.procs target).status.signExtend 64)) (fun _ _ => SchedEvent.noConfusion)
    obtain ⟨tree, allocated, shape, kept, -⟩ := processDelete_spec deletedEq
    refine ⟨⟨records, ?_, ?_, ?_⟩, fun _ _ => Or.inr ⟨finished, by simp [returnedTo]⟩, ?_⟩
    · rw [shape]
      exact inv.deleteNull
    · rw [shape]
      refine ⟨(kept _ ?_).trans inv.current.1, inv.current.2⟩
      intro same
      have open_ := inv.current.2
      rw [same, finished] at open_
      cases open_
    · rw [shape]
      change Function.update σ.waitFrame σ.currentProcess none σ.kernelIdleTask = none
      by_cases same : σ.kernelIdleTask = σ.currentProcess
      · rw [same, Function.update_self]
      · rw [Function.update_of_ne same]
        exact inv.idleOutside
    · intro caller proc pid waits isOther different
      refine Or.inl ⟨by simp [returnedTo, isOther], ?_⟩
      refine (waits.processDelete finished (different finished).symm deletedEq).transport unframed ?_
      exact Function.update_of_ne (Ne.symm isOther) _ _
  · rename_i unfinished
    dsimp only at waited
    rw [Option.map_eq_some_iff] at waited
    obtain ⟨switched, switchedEq, pairEq⟩ := waited
    cases pairEq
    have same := @SameRecords.modify σ target
      (fun p => { p with flags := { p.flags with hasWaiters := true } }) (fun _ => rfl)
      (fun _ => rfl) (fun _ => rfl) (fun _ => rfl) (fun _ => rfl) (fun _ _ => rfl)
    have flagged : WaitInvariant (σ.modify target fun p =>
        { p with flags := { p.flags with hasWaiters := true } }) log := by
      refine ⟨inv.records.relink same ?_ inv.records.head, inv.deleteNull, ?_, inv.idleOutside⟩
      · rw [Sched.modify_next _ _ rfl]
        exact inv.records.links
      · rw [same.finished]
        exact inv.current
    obtain ⟨after, switches⟩ := flagged.switchTask switchedEq
    have kept : ∀ {caller proc pid}, Waits (σ.modify target fun p =>
        { p with flags := { p.flags with hasWaiters := true } }) caller pid proc →
        WaitProgress σ σ' .silent caller pid proc := fun waits =>
      Or.inl ⟨rfl, waits.transport switches.same (congrFun switches.waitFrame _)⟩
    refine ⟨⟨after.records.append fun _ _ => SchedEvent.noConfusion, after.deleteNull,
      after.current, after.idleOutside⟩, fun live notIdle => kept ?_, fun waits _ _ =>
      kept (waits.transport same rfl)⟩
    exact ⟨frame, by rw [same.finished]; exact inv.current, ⟨live, notIdle⟩, same.pid target,
      Or.inl (by simp)⟩

/-- The caller of `sys_waitpid` stores the process it found in its frame. -/
theorem WaitInvariant.enter {σ : Sched} {log : List SchedEvent} (inv : WaitInvariant σ log)
    (notIdle : σ.currentProcess ≠ σ.kernelIdleTask) (target : Nat) :
    WaitInvariant
      { σ with waitFrame := Function.update σ.waitFrame σ.currentProcess (some target) } log := by
  have same := SameRecords.withQueues σ
    (Function.update σ.waitFrame σ.currentProcess (some target)) σ.processQueue
    σ.processQueueEnd σ.deleteQueue σ.currentProcess
  refine ⟨inv.records.relink same inv.records.links inv.records.head, inv.deleteNull,
    inv.current, ?_⟩
  change Function.update σ.waitFrame σ.currentProcess (some target) σ.kernelIdleTask = none
  rw [Function.update_of_ne (Ne.symm notIdle)]
  exact inv.idleOutside

theorem Waits.enter {σ : Sched} {caller proc : Nat} {pid : Int} (waits : Waits σ caller pid proc)
    (other : caller ≠ σ.currentProcess) (target : Nat) :
    Waits { σ with waitFrame := Function.update σ.waitFrame σ.currentProcess (some target) }
      caller pid proc :=
  waits.transport (.withQueues σ _ σ.processQueue σ.processQueueEnd σ.deleteQueue σ.currentProcess)
    (Function.update_of_ne other _ _)

/-- Where no other process waits for the pid, only the waiter itself reaps its process. -/
theorem OnlyWaiter.alone {σ : Sched} {log : List SchedEvent} {caller proc : Nat} {pid : Int}
    {op : SchedOp} (only : OnlyWaiter caller pid (σ, log) op) (waits : Waits σ caller pid proc)
    (reaps : Reaps σ op proc) : σ.currentProcess = caller := by
  rcases reaps with ⟨-, ⟨-, frame⟩ | ⟨called, rfl, found⟩⟩
  · exact only.1 _ proc frame waits.isPid
  · refine only.2 ?_
    rw [← waits.isPid, (getProcess_some found).1]

/-- One step of the system. -/
theorem WaitInvariant.step {fuel : Nat} {σ σ' : Sched} {log : List SchedEvent} {op : SchedOp}
    {event : SchedEvent} (inv : WaitInvariant σ log)
    (taken : schedStep fuel σ op = some (σ', event)) :
    WaitInvariant σ' (log ++ [event]) ∧
      ∀ {caller proc pid}, Waits σ caller pid proc →
        (Reaps σ op proc → σ.currentProcess = caller) →
          WaitProgress σ σ' event caller pid proc := by
  have silent : ∀ {τ : Sched}, WaitInvariant τ log → WaitInvariant τ (log ++ [.silent]) :=
    fun after => ⟨after.records.append fun _ _ => SchedEvent.noConfusion, after.deleteNull,
      after.current, after.idleOutside⟩
  have callerNe : ∀ {caller proc pid}, Waits σ caller pid proc →
      σ.waitFrame σ.currentProcess = none → caller ≠ σ.currentProcess := by
    intro caller proc pid waits frame same
    rw [← same, waits.frame] at frame
    cases frame
  unfold schedStep at taken
  split at taken
  · rename_i target frame
    obtain ⟨after, own, progress⟩ := inv.waitLoop frame taken
    refine ⟨after, fun {caller proc pid} waits alone => ?_⟩
    by_cases isCaller : σ.currentProcess = caller
    · have same : target = proc := by
        rw [isCaller, waits.frame] at frame
        exact (Option.some.inj frame).symm
      subst same
      rw [← isCaller, ← waits.isPid]
      exact own waits.procLive.1 waits.procLive.2
    · refine progress waits isCaller fun finished same => isCaller ?_
      exact alone (same ▸ ⟨finished, Or.inl ⟨rfl, frame⟩⟩)
  · cases taken
  · cases taken
  · rw [Option.map_eq_some_iff] at taken
    obtain ⟨switched, switchedEq, pairEq⟩ := taken
    cases pairEq
    obtain ⟨after, switches⟩ := inv.switchTask switchedEq
    exact ⟨silent after, fun waits _ =>
      Or.inl ⟨rfl, waits.transport switches.same (congrFun switches.waitFrame _)⟩⟩
  · split at taken
    · cases taken
    rw [Option.map_eq_some_iff] at taken
    obtain ⟨forked, forkedEq, pairEq⟩ := taken
    cases pairEq
    obtain ⟨records, frames, deletes, current, idle, kept⟩ := inv.records.fork forkedEq
    refine ⟨silent ⟨records, deletes.trans inv.deleteNull, ?_, ?_⟩, ?_⟩
    · obtain ⟨live, -, flags⟩ := kept _ inv.current.1
      rw [current, Sched.finished, flags]
      exact ⟨live, inv.current.2⟩
    · rw [frames, idle]
      exact inv.idleOutside
    · intro caller proc pid waits _
      obtain ⟨callerLive, -, callerFlags⟩ := kept _ waits.callerLive.1
      obtain ⟨procLive, procPid, procFlags⟩ := kept _ waits.procLive.1
      refine Or.inl ⟨rfl, ?_, ⟨callerLive, ?_⟩, ⟨procLive, ?_⟩, procPid.trans waits.isPid, ?_⟩
      · rw [frames]
        exact waits.frame
      · rw [Sched.finished, callerFlags]
        exact waits.callerLive.2
      · rw [idle]
        exact waits.procLive.2
      · rw [Sched.finished, procFlags]
        exact waits.held
  · split at taken
    · cases taken
    rename_i _ frame notIdle
    rw [Option.map_eq_some_iff] at taken
    obtain ⟨switched, switchedEq, pairEq⟩ := taken
    cases pairEq
    obtain ⟨after, kept⟩ := inv.exit notIdle switchedEq
    exact ⟨after, fun waits _ => Or.inl ⟨rfl, kept (callerNe waits frame) waits⟩⟩
  · split at taken
    · cases taken
    rename_i pid frame notIdle
    unfold sysWaitpid at taken
    split at taken
    · cases taken
      refine ⟨⟨inv.records.append fun _ _ => SchedEvent.noConfusion, inv.deleteNull, inv.current,
        inv.idleOutside⟩, fun waits _ => Or.inl ⟨?_, waits⟩⟩
      simp [returnedTo, (callerNe waits frame).symm]
    · rename_i target found
      obtain ⟨after, -, progress⟩ :=
        (inv.enter notIdle target).waitLoop (Function.update_self ..) taken
      refine ⟨after, fun {caller proc waitedPid} waits alone => ?_⟩
      have other := callerNe waits frame
      refine progress (waits.enter other target) (Ne.symm other) fun finished same => other ?_
      exact (alone (same ▸ ⟨finished, Or.inr ⟨pid, rfl, found⟩⟩)).symm

/-- The call itself: without a node in the tree it returns 0 at once; with one the caller waits for
that process, or has already got its status. -/
theorem WaitInvariant.call {fuel : Nat} {σ σ' : Sched} {log : List SchedEvent} {pid : Int}
    {event : SchedEvent} (inv : WaitInvariant σ log)
    (called : schedStep fuel σ (.waitpid pid) = some (σ', event)) :
    (¬ InProcessTree σ pid ∧ returnedTo σ.currentProcess event = some 0) ∨
      (InProcessTree σ pid ∧ ∃ proc, (σ.procs proc).pid = pid ∧ σ.allocated proc = true ∧
        WaitProgress σ σ' event σ.currentProcess pid proc) := by
  unfold schedStep at called
  split at called
  · contradiction
  · cases called
  · contradiction
  · contradiction
  · contradiction
  · contradiction
  rename_i _ callPid frame same
  cases same
  split at called
  · cases called
  rename_i notIdle
  unfold sysWaitpid at called
  split at called
  · rename_i missed
    cases called
    exact Or.inl ⟨getProcess_none_iff.mp missed, by simp [returnedTo]⟩
  · rename_i target found
    have inTree : InProcessTree σ pid := by
      by_contra absent
      rw [getProcess_none_iff.mpr absent] at found
      cases found
    obtain ⟨isPid, entry, member⟩ := getProcess_some found
    obtain ⟨live, ownEntry⟩ := inv.records.tree _ member
    have targetIdle : target ≠ σ.kernelIdleTask := by
      intro isIdle
      rw [isIdle, inv.records.idleEntry] at ownEntry
      cases ownEntry
    obtain ⟨-, own, -⟩ := (inv.enter notIdle target).waitLoop (Function.update_self ..) called
    exact Or.inr ⟨inTree, target, isPid, live, isPid ▸ own live targetIdle⟩

/-! ## Whole runs -/

/-- The scheduler after boot, with an empty history. -/
theorem WaitInvariant.boot {init idle : Nat} (different : init ≠ idle) (nonzero : init ≠ 0) :
    WaitInvariant (multitaskingInit init idle) [] := by
  have records : ∀ p, p ≠ idle → (multitaskingInit init idle).procs p =
      if p = init then spawnInit init else default := by
    intro p notIdle
    simp [multitaskingInit, notIdle]
  have isInit : ∀ {p}, (multitaskingInit init idle).allocated p = true → p ≠ idle → p = init := by
    intro p alive notIdle
    simpa [multitaskingInit, notIdle] using alive
  have initRecord : (multitaskingInit init idle).procs init = spawnInit init := by
    rw [records init different, if_pos rfl]
  have idleRecord : (multitaskingInit init idle).procs idle = spawnIdle := by
    simp [multitaskingInit]
  have open_ : ∀ p, (multitaskingInit init idle).finished p = false := by
    intro p
    by_cases isIdle : p = idle
    · rw [Sched.finished, isIdle, idleRecord]
      rfl
    · rw [Sched.finished, records p isIdle]
      split <;> rfl
  refine ⟨?_, rfl, ?_, rfl⟩
  · exact
      { links := by
          intro p q link
          rw [Sched.next] at link
          by_cases isIdle : p = idle
          · rw [isIdle, idleRecord] at link
            cases link
          · rw [records p isIdle] at link
            split at link <;> cases link
        head := fun q link => by cases link
        self := by
          rintro q ⟨settled, notIdle⟩
          have isInit : q = init := by
            refine isInit (settled.resolve_right ?_) notIdle
            rw [open_]
            exact Bool.false_ne_true
          rw [isInit, initRecord]
          exact ⟨rfl, nonzero⟩
        idleLive := ⟨by simp [multitaskingInit], open_ _⟩
        idleEntry := by
          change ((multitaskingInit init idle).procs idle).treeEntry = none
          rw [idleRecord]
          rfl
        pidBound := by
          intro p alive notIdle
          rw [isInit alive notIdle, initRecord]
          exact Int.le_refl 1
        pidInj := by
          intro p q pLive qLive pIdle qIdle _
          rw [isInit pLive pIdle, isInit qLive qIdle]
        tree := by
          intro node member
          have same : node = (0, init) := by
            simpa [multitaskingInit, Tree.descendants, Tree.children, Tree.nodesChildren, Tree.entry,
              Tree.value] using member
          rw [same]
          exact ⟨by simp [multitaskingInit], by rw [initRecord]; rfl⟩
        root := by
          intro p alive isRoot
          by_cases isIdle : p = idle
          · rw [isIdle, idleRecord] at isRoot
            cases isRoot
          · rw [isInit alive isIdle, initRecord]
            rfl
        rootOld := Nat.zero_lt_one
        logBound := fun pid code member => by cases member
        logDone := fun pid code member => by cases member
        logged := by
          intro p _ done
          rw [open_] at done
          cases done
        logOnce := fun pid code other member => by cases member }
  · exact ⟨by simp [multitaskingInit], open_ _⟩

/-- A history only grows. -/
theorem loggedStep_run_prefix {fuel : Nat} {ok : Sched × List SchedEvent → SchedOp → Prop}
    {s t : Sched × List SchedEvent} {ops : List SchedOp} (run : Run (loggedStep fuel) ok s ops t) :
    ∃ events, t.2 = s.2 ++ events := by
  induction run with
  | refl => exact ⟨[], (List.append_nil _).symm⟩
  | head _ taken _ inductionHypothesis =>
      obtain ⟨events, grown⟩ := inductionHypothesis
      unfold loggedStep at taken
      rw [Option.map_eq_some_iff] at taken
      obtain ⟨next, _, rfl⟩ := taken
      exact ⟨next.2 :: events, by rw [grown, List.append_assoc, List.singleton_append]⟩

/-- The invariant over a run whose history started with `before`. -/
theorem WaitInvariant.run {fuel : Nat} {ok : Sched × List SchedEvent → SchedOp → Prop}
    {s t : Sched × List SchedEvent} {ops : List SchedOp} (before : List SchedEvent)
    (run : Run (loggedStep fuel) ok s ops t) (inv : WaitInvariant s.1 (before ++ s.2)) :
    WaitInvariant t.1 (before ++ t.2) := by
  refine @Run.invariant _ _ _ _ (fun u => WaitInvariant u.1 (before ++ u.2)) ?_ _ _ _ run inv
  intro u op v _ taken holds
  unfold loggedStep at taken
  rw [Option.map_eq_some_iff] at taken
  obtain ⟨next, step, rfl⟩ := taken
  rw [← List.append_assoc]
  exact (holds.step step).1

/-- Through any run in which nobody else waits for its process, a waiter either keeps its claim
unanswered or is answered with the status of an exit in the history. -/
theorem Waits.run {fuel : Nat} {s t : Sched × List SchedEvent} {ops : List SchedOp}
    {caller proc : Nat} {pid : Int} (before : List SchedEvent)
    (run : Run (loggedStep fuel) (OnlyWaiter caller pid) s ops t)
    (inv : WaitInvariant s.1 (before ++ s.2)) (waits : Waits s.1 caller pid proc) :
    ∃ events, t.2 = s.2 ++ events ∧
      ((firstReturn caller events = none ∧ Waits t.1 caller pid proc) ∨
        ∃ code, .exited pid code ∈ before ++ t.2 ∧
          firstReturn caller events = some ((exitStatus code).signExtend 64)) := by
  induction run with
  | refl => exact ⟨[], (List.append_nil _).symm, Or.inl ⟨rfl, waits⟩⟩
  | @head s middle t op ops only taken rest inductionHypothesis =>
      obtain ⟨prefixed, grown⟩ := loggedStep_run_prefix rest
      unfold loggedStep at taken
      rw [Option.map_eq_some_iff] at taken
      obtain ⟨⟨σ', event⟩, step, rfl⟩ := taken
      obtain ⟨after, progress⟩ := inv.step step
      rw [List.append_assoc] at after
      rcases progress waits (OnlyWaiter.alone only waits) with ⟨quiet, kept⟩ | ⟨finished, answered⟩
      · obtain ⟨events, grownBy, outcome⟩ := inductionHypothesis after kept
        refine ⟨event :: events, by rw [grownBy, List.append_assoc, List.singleton_append], ?_⟩
        have later : firstReturn caller (event :: events) = firstReturn caller events := by
          simp [firstReturn, quiet]
        rw [later]
        exact outcome
      · -- the status in the record is that of the exit the history shows
        refine ⟨event :: prefixed, by rw [grown, List.append_assoc, List.singleton_append],
          Or.inr ?_⟩
        obtain ⟨code, member⟩ := inv.records.logged proc waits.procLive.1 finished
        rw [waits.isPid] at member
        have status := (inv.records.logDone pid code member proc waits.procLive.1
          waits.procLive.2 waits.isPid).2
        refine ⟨code, ?_, ?_⟩
        · rw [grown, List.append_assoc, ← List.append_assoc]
          exact List.mem_append_left _ member
        · simp [firstReturn, answered, status]

/-- The waiter of a process that has exited is answered as soon as it runs. -/
theorem Waits.answered {fuel : Nat} {σ : Sched} {log : List SchedEvent} {caller proc : Nat}
    {pid : Int} {code : BitVec 64} (waits : Waits σ caller pid proc) (inv : WaitInvariant σ log)
    (exited : .exited pid code ∈ log) (notInit : pid ≠ 1) (runs : σ.currentProcess = caller) :
    ∃ σ' value, schedStep fuel σ .waitAgain = some (σ', .returned caller pid value) := by
  have finished := (inv.records.logDone pid code exited proc waits.procLive.1 waits.procLive.2
    waits.isPid).1
  have deletes : ∃ deleted, Kernel.processDelete σ proc = some deleted := by
    unfold Kernel.processDelete
    split
    · exact ⟨σ, rfl⟩
    split
    · exact ⟨σ, rfl⟩
    rename_i entry entryEq
    have notRoot : σ.processTree.entry ≠ entry := by
      intro same
      rw [← same] at entryEq
      exact notInit (waits.isPid ▸ inv.records.root proc waits.procLive.1 entryEq)
    rw [treeDestroyAndMerge, if_neg notRoot]
    exact ⟨_, rfl⟩
  obtain ⟨deleted, deletedEq⟩ := deletes
  subst runs
  refine ⟨{ deleted with waitFrame := Function.update deleted.waitFrame σ.currentProcess none },
    (σ.procs proc).status.signExtend 64, ?_⟩
  simp only [schedStep, waits.frame, Kernel.waitLoop, finished, if_true, deletedEq, waits.isPid]

end Voxel.Proofs
