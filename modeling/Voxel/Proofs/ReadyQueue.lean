/-
Module: Voxel.Proofs.ReadyQueue
Layer: Proofs
Purpose: The ready queue against a first-in first-out queue of processes. `make_process_ready` never
  clears the `next` pointer of the node it appends, so a process that comes back keeps the pointer it
  had when it left. As long as it is not the last one waiting nobody follows that pointer; when the
  last waiting process is taken, the pointer becomes the head of the queue.
Trusted boundary: none
Main exports: ReadyOp, nextReturns, queueReturns, LastLinkNull, QueueRefines, readyQueue_fifo_iff
-/
import Voxel.Kernel.Process
import Voxel.Lib.Segment

namespace Voxel.Proofs

open Voxel.Kernel
open Voxel.Lib

/-! ## The queue operations and the queue they are meant to be -/

/-- A call to one of the two operations of the ready queue. -/
inductive ReadyOp where
  | ready (process : Nat)
  | next
deriving Repr, DecidableEq

/-- The scheduler after a call. -/
def readyStep (σ : Sched) : ReadyOp → Sched
  | .ready process => makeProcessReady σ process
  | .next => (nextReadyProcess σ).2

/-- The processes that `next_ready_process` returns over a sequence of calls. -/
def nextReturns (σ : Sched) : List ReadyOp → List Nat
  | [] => []
  | .ready process :: ops => nextReturns (makeProcessReady σ process) ops
  | .next :: ops => (nextReadyProcess σ).1 :: nextReturns (nextReadyProcess σ).2 ops

/-- A first-in first-out queue of processes after a call. -/
def queueStep (queue : List Nat) : ReadyOp → List Nat
  | .ready process => queue ++ [process]
  | .next => queue.tail

/-- What such a queue returns: its head, or the idle task when it is empty. -/
def queueReturns (idle : Nat) (queue : List Nat) : List ReadyOp → List Nat
  | [] => []
  | .ready process :: ops => queueReturns idle (queue ++ [process]) ops
  | .next :: ops => queue.headD idle :: queueReturns idle queue.tail ops

/-- A process is made ready only while it is not waiting, and the idle task never is. -/
def Admissible (idle : Nat) (queue : List Nat) : List ReadyOp → Prop
  | [] => True
  | .ready process :: ops =>
      process ∉ queue ∧ process ≠ idle ∧ Admissible idle (queue ++ [process]) ops
  | .next :: ops => Admissible idle queue.tail ops

/-- The state after a sequence of calls, next to the queue it should represent. -/
def readyRun : Sched × List Nat → List ReadyOp → Sched × List Nat
  | s, [] => s
  | s, op :: ops => readyRun (readyStep s.1 op, queueStep s.2 op) ops

/-- An empty ready queue over processes as `spawn_process` leaves them. -/
structure EmptyReadyQueue (σ : Sched) : Prop where
  head : σ.processQueue = none
  last : σ.processQueueEnd = none
  node : ∀ p, p ≠ σ.kernelIdleTask → (σ.procs p).queueNode = ⟨p, none⟩
  idleNode : σ.next σ.kernelIdleTask = none

/-- If exactly one process waits, its `queue_node.next` is null. -/
def LastLinkNull (s : Sched × List Nat) : Prop :=
  ∀ p, s.2 = [p] → s.1.next p = none

/-! ## Field lemmas of the two operations -/

@[simp] theorem makeProcessReady_idle (σ : Sched) (p : Nat) :
    (makeProcessReady σ p).kernelIdleTask = σ.kernelIdleTask := by
  unfold makeProcessReady
  split <;> rfl

@[simp] theorem nextReadyProcess_idle (σ : Sched) :
    (nextReadyProcess σ).2.kernelIdleTask = σ.kernelIdleTask := by
  unfold nextReadyProcess
  split
  · rfl
  · dsimp only
    split <;> rfl

@[simp] theorem makeProcessReady_nodeProcess (σ : Sched) (p q : Nat) :
    ((makeProcessReady σ p).procs q).queueNode.process = (σ.procs q).queueNode.process := by
  unfold makeProcessReady
  split
  · rename_i last _
    by_cases same : q = last
    · subst same
      simp [Sched.modify, Process.setNext]
    · simp [Sched.modify, Function.update_of_ne same]
  · rfl

/-- Taking a process changes no queue node. -/
@[simp] theorem nextReadyProcess_queueNode (σ : Sched) (q : Nat) :
    ((nextReadyProcess σ).2.procs q).queueNode = (σ.procs q).queueNode := by
  unfold nextReadyProcess
  split
  · rfl
  · rename_i node _
    dsimp only
    split
    · rfl
    · by_cases same : q = (σ.procs node).queueNode.process
      · subst same
        simp [Sched.modify]
      · simp [Sched.modify, Function.update_of_ne same]

@[simp] theorem nextReadyProcess_next (σ : Sched) (q : Nat) :
    (nextReadyProcess σ).2.next q = σ.next q := by
  simp [Sched.next]

/-- Appending to a non-empty queue writes the pointer of the last node. -/
theorem makeProcessReady_next {σ : Sched} {last : Nat} (nonempty : σ.processQueueEnd = some last)
    (p : Nat) : (makeProcessReady σ p).next = Function.update σ.next last (some p) := by
  funext q
  unfold makeProcessReady
  rw [nonempty]
  by_cases same : q = last
  · subst same
    simp [Sched.next, Sched.modify, Process.setNext]
  · simp [Sched.next, Sched.modify, Function.update_of_ne same]

theorem makeProcessReady_of_some {σ : Sched} {last : Nat}
    (nonempty : σ.processQueueEnd = some last) (p : Nat) :
    (makeProcessReady σ p).processQueue = σ.processQueue ∧
      (makeProcessReady σ p).processQueueEnd = some p := by
  unfold makeProcessReady
  rw [nonempty]
  exact ⟨rfl, rfl⟩

theorem makeProcessReady_of_none {σ : Sched} (empty : σ.processQueueEnd = none) (p : Nat) :
    makeProcessReady σ p = { σ with processQueue := some p, processQueueEnd := some p } := by
  unfold makeProcessReady
  rw [empty]

/-- Taking the head of a non-empty queue. -/
theorem nextReadyProcess_of_some {σ : Sched} {node : Nat} (head : σ.processQueue = some node) :
    (nextReadyProcess σ).1 = (σ.procs node).queueNode.process ∧
      (nextReadyProcess σ).2.processQueue = σ.next node ∧
      (nextReadyProcess σ).2.processQueueEnd =
        if σ.next node = none then none else σ.processQueueEnd := by
  unfold nextReadyProcess
  rw [head]
  dsimp only
  split <;> exact ⟨rfl, rfl, rfl⟩

theorem nextReadyProcess_of_none {σ : Sched} (empty : σ.processQueue = none) :
    nextReadyProcess σ = (σ.kernelIdleTask, σ) := by
  unfold nextReadyProcess
  rw [empty]

/-! ## The representation invariant -/

/-- The intrusive list represents `queue`: it threads the waiting processes in order, and behind the
last one stands whatever pointer that node was left with. -/
structure QueueRefines (σ : Sched) (queue : List Nat) : Prop where
  threaded : ∃ stop, Segment σ.next σ.processQueue queue stop
  last : σ.processQueueEnd = queue.getLast?
  null : queue = [] → σ.processQueue = none
  nodup : queue.Nodup
  idleOut : σ.kernelIdleTask ∉ queue
  self : ∀ p, p ≠ σ.kernelIdleTask → (σ.procs p).queueNode.process = p
  links : ∀ p target, σ.next p = some target → target ≠ σ.kernelIdleTask

namespace QueueRefines

theorem ofEmpty {σ : Sched} (fresh : EmptyReadyQueue σ) : QueueRefines σ [] where
  threaded := ⟨none, fresh.head⟩
  last := fresh.last
  null := fun _ => fresh.head
  nodup := List.nodup_nil
  idleOut := by simp
  self := fun p notIdle => by rw [fresh.node p notIdle]
  links := by
    intro p target link
    by_cases idle : p = σ.kernelIdleTask
    · subst idle
      rw [fresh.idleNode] at link
      cases link
    · rw [Sched.next, fresh.node p idle] at link
      cases link

/-- Represented queues answer as the abstract one does. -/
theorem returns_headD {σ : Sched} {queue : List Nat} (refines : QueueRefines σ queue) :
    (nextReadyProcess σ).1 = queue.headD σ.kernelIdleTask := by
  cases queue with
  | nil => simp [nextReadyProcess_of_none (refines.null rfl)]
  | cons first rest =>
      obtain ⟨stop, head, _⟩ := refines.threaded
      have notIdle : first ≠ σ.kernelIdleTask := fun same =>
        refines.idleOut (by simp [same])
      rw [(nextReadyProcess_of_some head).1, refines.self first notIdle]
      rfl

/-- `make_process_ready` appends. -/
theorem ready {σ : Sched} {queue : List Nat} (refines : QueueRefines σ queue) {process : Nat}
    (notWaiting : process ∉ queue) (notIdle : process ≠ σ.kernelIdleTask) :
    QueueRefines (makeProcessReady σ process) (queue ++ [process]) := by
  have nodup : (queue ++ [process]).Nodup := by
    refine List.nodup_append.mpr ⟨refines.nodup, by simp, ?_⟩
    intro a aMem b bMem same
    rw [List.mem_singleton] at bMem
    exact notWaiting (bMem ▸ same ▸ aMem)
  have idleOut : (makeProcessReady σ process).kernelIdleTask ∉ queue ++ [process] := by
    simpa [refines.idleOut] using notIdle.symm
  have self : ∀ p, p ≠ (makeProcessReady σ process).kernelIdleTask →
      ((makeProcessReady σ process).procs p).queueNode.process = p := by
    intro p other
    rw [makeProcessReady_nodeProcess]
    exact refines.self p (by simpa using other)
  rcases List.eq_nil_or_concat' queue with rfl | ⟨front, last, rfl⟩
  · -- the queue was empty: both ends move to the new node
    have shape := makeProcessReady_of_none (by simpa using refines.last) process
    refine ⟨⟨σ.next process, ?_⟩, ?_, by simp, nodup, idleOut, self, ?_⟩
    · rw [shape]
      exact ⟨rfl, rfl⟩
    · rw [shape]
      rfl
    · intro p target link
      rw [shape] at link
      simpa using refines.links p target link
  · have lastEq : σ.processQueueEnd = some last := by
      rw [refines.last]
      simp
    obtain ⟨stop, threaded⟩ := refines.threaded
    have shape := makeProcessReady_of_some lastEq process
    refine ⟨⟨σ.next process, ?_⟩, ?_, by simp, nodup, idleOut, self, ?_⟩
    · rw [shape.1, makeProcessReady_next lastEq]
      exact threaded.snoc refines.nodup notWaiting
    · rw [shape.2]
      simp
    · intro p target link
      rw [makeProcessReady_next lastEq] at link
      by_cases same : p = last
      · subst same
        rw [Function.update_self] at link
        cases link
        simpa using notIdle
      · rw [Function.update_of_ne same] at link
        simpa using refines.links p target link

/-- `next_ready_process` takes the head, provided the last waiting process points nowhere. -/
theorem next {σ : Sched} {queue : List Nat} (refines : QueueRefines σ queue)
    (lastNull : LastLinkNull (σ, queue)) :
    QueueRefines (nextReadyProcess σ).2 queue.tail := by
  cases queue with
  | nil =>
      rw [nextReadyProcess_of_none (refines.null rfl)]
      exact refines
  | cons first rest =>
      obtain ⟨stop, head, threaded⟩ := refines.threaded
      obtain ⟨_, queueEq, endEq⟩ := nextReadyProcess_of_some head
      have sameNext : (nextReadyProcess σ).2.next = σ.next := funext (nextReadyProcess_next σ)
      refine ⟨⟨stop, ?_⟩, ?_, ?_, (List.nodup_cons.mp refines.nodup).2, ?_, ?_, ?_⟩
      · rw [sameNext, queueEq]
        exact threaded
      · rw [endEq, refines.last]
        cases rest with
        | nil => simp [show σ.next first = none from lastNull first rfl]
        | cons second others =>
            have link : σ.next first = some second := threaded.1
            simp [link, List.getLast?_cons]
      · intro restNil
        rw [List.tail_cons] at restNil
        rw [queueEq]
        exact lastNull first (by rw [restNil])
      · rw [nextReadyProcess_idle]
        exact fun member => refines.idleOut (List.mem_cons_of_mem _ member)
      · intro p notIdle
        rw [nextReadyProcess_queueNode]
        exact refines.self p (by simpa using notIdle)
      · intro p target link
        rw [sameNext] at link
        simpa using refines.links p target link

/-- If the last waiting process does point somewhere, the process it points to is handed out
although nobody waits. -/
theorem next_stale {σ : Sched} {queue : List Nat} (refines : QueueRefines σ queue)
    (stale : ¬ LastLinkNull (σ, queue)) :
    queue.tail = [] ∧
      (nextReadyProcess (nextReadyProcess σ).2).1 ≠ σ.kernelIdleTask := by
  unfold LastLinkNull at stale
  push Not at stale
  obtain ⟨p, queueEq, link⟩ := stale
  dsimp only at queueEq link
  subst queueEq
  obtain ⟨stop, head, _⟩ := refines.threaded
  obtain ⟨target, targetEq⟩ := Option.ne_none_iff_exists'.mp link
  have notIdle : target ≠ σ.kernelIdleTask := refines.links p target targetEq
  have stillQueued : (nextReadyProcess σ).2.processQueue = some target := by
    rw [(nextReadyProcess_of_some head).2.1, targetEq]
  refine ⟨rfl, ?_⟩
  rw [(nextReadyProcess_of_some stillQueued).1, nextReadyProcess_queueNode,
    refines.self target notIdle]
  exact notIdle

end QueueRefines

/-! ## Whole runs -/

/-- After every prefix of the calls, one more `next_ready_process` would complete a history of
returned processes that is the history of the first-in first-out queue. -/
def AnswersAsQueue (σ : Sched) (queue : List Nat) (ops : List ReadyOp) : Prop :=
  ∀ k ≤ ops.length,
    nextReturns σ (ops.take k ++ [.next]) =
      queueReturns σ.kernelIdleTask queue (ops.take k ++ [.next])

/-- Every call to `next_ready_process` that takes the last waiting process finds a null pointer in
its node. -/
def TakesNullLast (σ : Sched) (queue : List Nat) (ops : List ReadyOp) : Prop :=
  ∀ k, ops[k]? = some .next → LastLinkNull (readyRun (σ, queue) (ops.take k))

private theorem answersAsQueue_nil {σ : Sched} {queue : List Nat} :
    AnswersAsQueue σ queue [] ↔ (nextReadyProcess σ).1 = queue.headD σ.kernelIdleTask := by
  simp [AnswersAsQueue, nextReturns, queueReturns]

private theorem answersAsQueue_ready {σ : Sched} {queue : List Nat} {process : Nat}
    {ops : List ReadyOp} :
    AnswersAsQueue σ queue (.ready process :: ops) ↔
      (nextReadyProcess σ).1 = queue.headD σ.kernelIdleTask ∧
        AnswersAsQueue (makeProcessReady σ process) (queue ++ [process]) ops := by
  constructor
  · intro answers
    refine ⟨answersAsQueue_nil.mp ?_, ?_⟩
    · intro k bound
      have atStart := answers 0 (by simp)
      simpa [Nat.le_zero.mp bound] using atStart
    · intro k bound
      simpa [nextReturns, queueReturns] using answers (k + 1) (by simpa using bound)
  · rintro ⟨atStart, later⟩ k bound
    cases k with
    | zero => simpa [nextReturns, queueReturns] using atStart
    | succ k => simpa [nextReturns, queueReturns] using later k (by simpa using bound)

private theorem answersAsQueue_next {σ : Sched} {queue : List Nat} {ops : List ReadyOp} :
    AnswersAsQueue σ queue (.next :: ops) ↔
      (nextReadyProcess σ).1 = queue.headD σ.kernelIdleTask ∧
        AnswersAsQueue (nextReadyProcess σ).2 queue.tail ops := by
  constructor
  · intro answers
    have atStart : (nextReadyProcess σ).1 = queue.headD σ.kernelIdleTask := by
      have first := answers 0 (by simp)
      simpa [nextReturns, queueReturns] using first
    refine ⟨atStart, ?_⟩
    intro k bound
    have later := answers (k + 1) (by simpa using bound)
    simpa [nextReturns, queueReturns, atStart] using later
  · rintro ⟨atStart, later⟩ k bound
    cases k with
    | zero => simpa [nextReturns, queueReturns] using atStart
    | succ k =>
        have rest := later k (by simpa using bound)
        simpa [nextReturns, queueReturns, atStart] using rest

private theorem takesNullLast_ready {σ : Sched} {queue : List Nat} {process : Nat}
    {ops : List ReadyOp} :
    TakesNullLast σ queue (.ready process :: ops) ↔
      TakesNullLast (makeProcessReady σ process) (queue ++ [process]) ops := by
  constructor
  · intro takes k call
    exact takes (k + 1) (by simpa using call)
  · intro takes k call
    cases k with
    | zero => simp at call
    | succ k => exact takes k (by simpa using call)

private theorem takesNullLast_next {σ : Sched} {queue : List Nat} {ops : List ReadyOp} :
    TakesNullLast σ queue (.next :: ops) ↔
      LastLinkNull (σ, queue) ∧ TakesNullLast (nextReadyProcess σ).2 queue.tail ops := by
  constructor
  · intro takes
    exact ⟨takes 0 (by simp), fun k call => takes (k + 1) (by simpa using call)⟩
  · rintro ⟨now, later⟩ k call
    cases k with
    | zero => exact now
    | succ k => exact later k (by simpa using call)

/-- From any represented queue: the answers of all continuations are right exactly when no call
takes a last process with a stale pointer. -/
theorem QueueRefines.answers_iff {σ : Sched} {queue : List Nat} {ops : List ReadyOp}
    (refines : QueueRefines σ queue) (admissible : Admissible σ.kernelIdleTask queue ops) :
    AnswersAsQueue σ queue ops ↔ TakesNullLast σ queue ops := by
  induction ops generalizing σ queue with
  | nil =>
      refine ⟨fun _ k call => by simp at call, fun _ => ?_⟩
      exact answersAsQueue_nil.mpr refines.returns_headD
  | cons op ops inductionHypothesis =>
      cases op with
      | ready process =>
          obtain ⟨notWaiting, notIdle, later⟩ := admissible
          have after := refines.ready notWaiting notIdle
          rw [answersAsQueue_ready, takesNullLast_ready]
          rw [inductionHypothesis after (by simpa using later)]
          exact ⟨fun both => both.2, fun takes => ⟨refines.returns_headD, takes⟩⟩
      | next =>
          have later : Admissible (nextReadyProcess σ).2.kernelIdleTask queue.tail ops := by
            simpa [Admissible] using admissible
          rw [answersAsQueue_next, takesNullLast_next]
          by_cases lastNull : LastLinkNull (σ, queue)
          · rw [inductionHypothesis (refines.next lastNull) later]
            exact ⟨fun both => ⟨lastNull, both.2⟩, fun both => ⟨refines.returns_headD, both.2⟩⟩
          · -- the stale head shows in the very next answer
            refine ⟨fun both => ?_, fun both => absurd both.1 lastNull⟩
            obtain ⟨tailNil, wrong⟩ := refines.next_stale lastNull
            have first := both.2 0 (by simp)
            rw [tailNil] at first
            simp [nextReturns, queueReturns] at first
            exact absurd first wrong

/-- The ready queue is first in, first out for a run that starts empty, exactly when every call that
takes the last waiting process finds its `queue_node.next` null. -/
theorem readyQueue_fifo_iff {σ : Sched} {ops : List ReadyOp} (fresh : EmptyReadyQueue σ)
    (admissible : Admissible σ.kernelIdleTask [] ops) :
    AnswersAsQueue σ [] ops ↔ TakesNullLast σ [] ops :=
  (QueueRefines.ofEmpty fresh).answers_iff admissible

/-- Three processes (1, 2 and the idle task 3), nothing queued. -/
def threeProcesses : Sched :=
  { multitaskingInit 1 3 with
    procs := fun p => if p = 3 then spawnIdle else spawnInit p }

theorem threeProcesses_empty : EmptyReadyQueue threeProcesses where
  head := rfl
  last := rfl
  node := by
    intro p notIdle
    have different : p ≠ 3 := notIdle
    simp [threeProcesses, different, spawnInit]
  idleNode := rfl

/-- The exact condition on a run that meets it: 1 is taken while 2 still waits behind it. -/
theorem readyQueue_fifo_iff_example :
    AnswersAsQueue threeProcesses [] [.ready 1, .ready 2, .next, .next] ↔
      TakesNullLast threeProcesses [] [.ready 1, .ready 2, .next, .next] :=
  readyQueue_fifo_iff threeProcesses_empty
    (by simp [Admissible, threeProcesses, multitaskingInit])

/-- Process 1 leaves the queue in front of 2 and comes back behind it: its node still points at 2,
so after both were taken the queue hands out 2 once more. -/
theorem readyQueue_requeue_not_fifo :
    EmptyReadyQueue threeProcesses ∧
      Admissible threeProcesses.kernelIdleTask []
        [.ready 1, .ready 2, .next, .ready 1, .next, .next] ∧
      ¬ AnswersAsQueue threeProcesses [] [.ready 1, .ready 2, .next, .ready 1, .next, .next] := by
  refine ⟨threeProcesses_empty, by simp [Admissible, threeProcesses, multitaskingInit], ?_⟩
  intro answers
  have wrong := answers 6 (by simp)
  revert wrong
  decide

end Voxel.Proofs
