/-
Module: Voxel.Proofs.RingQueue
Layer: Proofs
Purpose: The ring buffer is a queue of one byte less than its array. The bytes of the queue lie in the cells
  from `ridx` on; `widx` is the cell behind them, so equal indices say that the queue is empty.
Trusted boundary: none
Main exports: RingHolds, RingHolds.write, RingHolds.read, ringbuffer_fifo
-/
import Voxel.Lib.BoundedQueue
import Voxel.Kernel.RingBuffer

namespace Voxel.Proofs

open Voxel.Lib Voxel.Kernel

/-! ## Copies -/

/-- A copy inside both arrays. -/
theorem memcpy_inside {α : Type} {dest src : List α} {d s n : Nat} (destRoom : d + n ≤ dest.length)
    (srcRoom : s + n ≤ src.length) :
    ∃ out, memcpy dest d src s n = some out ∧ out.length = dest.length ∧
      ∀ p, out[p]? = if d ≤ p ∧ p < d + n then src[s + (p - d)]? else dest[p]? := by
  refine ⟨_, if_pos ⟨destRoom, srcRoom⟩, ?_, fun p => ?_⟩
  · simp only [List.length_append, List.length_take, List.length_drop]
    omega
  · have front : (dest.take d).length = d := by
      rw [List.length_take]
      omega
    have middle : ((src.drop s).take n).length = n := by
      rw [List.length_take, List.length_drop]
      omega
    rw [List.append_assoc]
    rcases Nat.lt_or_ge p d with before | after
    · rw [List.getElem?_append_left (by omega), List.getElem?_take_of_lt before, if_neg (by omega)]
    · rw [List.getElem?_append_right (by omega), front]
      rcases Nat.lt_or_ge p (d + n) with within | behind
      · rw [List.getElem?_append_left (by omega), List.getElem?_take_of_lt (by omega),
          List.getElem?_drop, if_pos ⟨after, within⟩]
      · rw [List.getElem?_append_right (by omega), middle, List.getElem?_drop, if_neg (by omega)]
        congr 1
        omega

/-! ## The invariant -/

/-- The ring buffer holds a queue. -/
structure RingHolds (rb : RingBuffer) (queue : List (BitVec 8)) : Prop where
  length : rb.buffer.length = rb.size.toNat
  small : rb.size.toNat ≤ 2 ^ 63
  start : rb.ridx.toNat < rb.size.toNat
  room : queue.length < rb.size.toNat
  stop : rb.widx.toNat = circular rb.size.toNat (rb.ridx.toNat + queue.length)
  cells : InCells rb.buffer rb.ridx.toNat queue

variable {rb : RingBuffer} {queue : List (BitVec 8)}

theorem RingHolds.widx_lt (holds : RingHolds rb queue) : rb.widx.toNat < rb.size.toNat := by
  have start := holds.start
  have room := holds.room
  rw [holds.stop]
  exact circular_lt (by omega)

theorem RingHolds.readable (holds : RingHolds rb queue) :
    (ringbufferReadable rb).toNat = queue.length := by
  obtain ⟨-, small, start, room, stop, -⟩ := holds
  unfold ringbufferReadable
  unfold circular at stop
  split_ifs at stop ⊢ <;> bv_omega

theorem RingHolds.avail (holds : RingHolds rb queue) :
    (ringbufferAvail rb).toNat = rb.size.toNat - 1 - queue.length := by
  obtain ⟨-, small, start, room, stop, -⟩ := holds
  unfold ringbufferAvail
  unfold circular at stop
  split_ifs at stop ⊢ <;> bv_omega

/-! ## One call -/

/-- The bytes that a call transfers. -/
theorem transferred_toNat (avail size : BitVec 64) :
    (if avail < size then avail else size).toNat = min size.toNat avail.toNat := by
  split <;> bv_omega

/-- A write copies its bytes into the cells behind the queue and leaves the cells of the queue. -/
theorem ringbufferWrite_spec (holds : RingHolds rb queue) {size : BitVec 64} {data : List (BitVec 8)}
    (dataRoom : size.toNat ≤ data.length) {n : Nat}
    (count : n = min size.toNat (rb.size.toNat - 1 - queue.length)) :
    ∃ array, ringbufferWrite rb size data = some (BitVec.ofNat 64 n, { rb with
        buffer := array
        widx := BitVec.ofNat 64 (circular rb.size.toNat (rb.widx.toNat + n)) }) ∧
      array.length = rb.size.toNat ∧
      (∀ i < n, array[circular rb.size.toNat (rb.widx.toNat + i)]? = data[i]?) ∧
      ∀ i < queue.length, array[circular rb.size.toNat (rb.ridx.toNat + i)]? =
        rb.buffer[circular rb.size.toNat (rb.ridx.toNat + i)]? := by
  have inside := holds.widx_lt
  have small := holds.small
  have room := holds.room
  have length := holds.length
  have start := holds.start
  have stop := holds.stop
  have taken := transferred_toNat (ringbufferAvail rb) size
  rw [holds.avail, ← count] at taken
  unfold ringbufferWrite
  dsimp only
  generalize (if ringbufferAvail rb < size then ringbufferAvail rb else size) = k at taken ⊢
  have same : BitVec.ofNat 64 n = k := by
    rw [← taken, BitVec.ofNat_toNat, BitVec.setWidth_eq]
  by_cases wraps : rb.size.toNat ≤ rb.widx.toNat + n
  · have front : (rb.size - rb.widx).toNat = rb.size.toNat - rb.widx.toNat := by bv_omega
    have back : (k - (rb.size - rb.widx)).toNat = n - (rb.size.toNat - rb.widx.toNat) := by bv_omega
    obtain ⟨first, firstCopy, firstLength, firstCells⟩ :=
      @memcpy_inside _ rb.buffer data rb.widx.toNat 0 (rb.size - rb.widx).toNat (by omega) (by omega)
    obtain ⟨array, copy, arrayLength, cells⟩ :=
      @memcpy_inside _ first data 0 (rb.size - rb.widx).toNat (k - (rb.size - rb.widx)).toNat
        (by omega) (by omega)
    rw [front, back] at cells
    rw [front] at firstCells
    refine ⟨array, ?_, by omega, fun i early => ?_, fun i early => ?_⟩
    · rw [if_pos (by bv_omega), if_pos (by bv_omega), firstCopy]
      simp only [Option.map_some, Option.bind_eq_bind, Option.bind_some]
      rw [show (0 : BitVec 64).toNat = 0 from rfl, copy, same, circular, if_neg (by omega)]
      simp only [Option.bind_some, Option.some.injEq, Prod.mk.injEq, RingBuffer.mk.injEq, true_and, and_true]
      bv_omega
    · rw [cells, firstCells]
      unfold circular
      split_ifs <;> first | omega | exact congrArg (data[·]?) (by omega)
    · rw [cells, firstCells]
      unfold circular at stop ⊢
      split_ifs at stop ⊢ <;> first | omega | rfl
  · obtain ⟨array, copy, arrayLength, cells⟩ :=
      @memcpy_inside _ rb.buffer data rb.widx.toNat 0 k.toNat (by omega) (by omega)
    refine ⟨array, ?_, by omega, fun i early => ?_, fun i early => ?_⟩
    · rw [if_neg (by bv_omega)]
      simp only [Option.bind_eq_bind, Option.bind_some]
      rw [show (0 : BitVec 64).toNat = 0 from rfl, show k - 0 = k from BitVec.sub_zero k, copy, same,
        circular, if_pos (by omega)]
      simp only [Option.bind_some, Option.some.injEq, Prod.mk.injEq, RingBuffer.mk.injEq, true_and, and_true]
      bv_omega
    · rw [cells]
      unfold circular
      split_ifs <;> first | omega | exact congrArg (data[·]?) (by omega)
    · rw [cells]
      unfold circular at stop ⊢
      split_ifs at stop ⊢ <;> first | omega | rfl

/-- A write appends the longest prefix of its bytes that there is room for. -/
theorem RingHolds.write (holds : RingHolds rb queue) {size : BitVec 64} {data : List (BitVec 8)}
    (dataRoom : size.toNat ≤ data.length) {taken : List (BitVec 8)}
    (longest : taken = (data.take size.toNat).take (rb.size.toNat - 1 - queue.length)) :
    ∃ rb', ringbufferWrite rb size data = some (BitVec.ofNat 64 taken.length, rb') ∧
      rb'.size = rb.size ∧ RingHolds rb' (queue ++ taken) := by
  have room := holds.room
  have start := holds.start
  have small := holds.small
  rw [List.take_take] at longest
  have count : taken.length = min size.toNat (rb.size.toNat - 1 - queue.length) := by
    rw [longest, List.length_take]
    omega
  obtain ⟨array, written, arrayLength, new, old⟩ := ringbufferWrite_spec holds dataRoom count
  refine ⟨_, written, rfl, ?_⟩
  have stop : circular rb.size.toNat (rb.widx.toNat + taken.length) =
      circular rb.size.toNat (rb.ridx.toNat + (queue ++ taken).length) := by
    rw [holds.stop, circular_circular (by omega), List.length_append]
  refine ⟨arrayLength, small, start, ?_, ?_, ?_⟩
  · rw [List.length_append]
    dsimp only
    omega
  · dsimp only
    rw [stop, BitVec.toNat_ofNat, Nat.mod_eq_of_lt]
    have := @circular_lt rb.size.toNat (rb.ridx.toNat + (queue ++ taken).length) (by
      rw [List.length_append]
      omega)
    omega
  · have length := holds.length
    refine holds.cells.append (arrayLength.trans length.symm) (length ▸ start) (by omega) ?_ ?_
    · intro i early
      rw [length, ← holds.stop, new i early, longest, List.getElem?_take_of_lt (by omega)]
    · intro i early
      rw [length]
      exact old i early

/-- A read copies the first bytes of the queue to the front of the caller's buffer. -/
theorem ringbufferRead_spec (holds : RingHolds rb queue) {size : BitVec 64} {dest : List (BitVec 8)}
    (destRoom : size.toNat ≤ dest.length) {n : Nat} (count : n = min size.toNat queue.length) :
    ∃ out, ringbufferRead rb size dest = some ((BitVec.ofNat 64 n, out), { rb with
        ridx := BitVec.ofNat 64 (circular rb.size.toNat (rb.ridx.toNat + n)) }) ∧
      ∀ i, out[i]? =
        if i < n then rb.buffer[circular rb.size.toNat (rb.ridx.toNat + i)]? else dest[i]? := by
  have small := holds.small
  have room := holds.room
  have length := holds.length
  have start := holds.start
  have taken := transferred_toNat (ringbufferReadable rb) size
  rw [holds.readable, ← count] at taken
  unfold ringbufferRead
  dsimp only
  generalize (if ringbufferReadable rb < size then ringbufferReadable rb else size) = k at taken ⊢
  have same : BitVec.ofNat 64 n = k := by
    rw [← taken, BitVec.ofNat_toNat, BitVec.setWidth_eq]
  by_cases wraps : rb.size.toNat ≤ rb.ridx.toNat + n
  · have front : (rb.size - rb.ridx).toNat = rb.size.toNat - rb.ridx.toNat := by bv_omega
    have back : (k - (rb.size - rb.ridx)).toNat = n - (rb.size.toNat - rb.ridx.toNat) := by bv_omega
    obtain ⟨first, firstCopy, firstLength, firstCells⟩ :=
      @memcpy_inside _ dest rb.buffer 0 rb.ridx.toNat (rb.size - rb.ridx).toNat (by omega) (by omega)
    obtain ⟨out, copy, outLength, cells⟩ :=
      @memcpy_inside _ first rb.buffer (rb.size - rb.ridx).toNat 0 (k - (rb.size - rb.ridx)).toNat
        (by omega) (by omega)
    rw [front, back] at cells
    rw [front] at firstCells
    refine ⟨out, ?_, fun i => ?_⟩
    · rw [if_pos (by bv_omega), if_pos (by bv_omega), firstCopy]
      simp only [Option.map_some, Option.bind_eq_bind, Option.bind_some]
      rw [show (0 : BitVec 64).toNat = 0 from rfl, copy, same, circular, if_neg (by omega)]
      simp only [Option.bind_some, Option.some.injEq, Prod.mk.injEq, RingBuffer.mk.injEq, true_and, and_true]
      bv_omega
    · rw [cells, firstCells]
      unfold circular
      split_ifs <;> first | omega | rfl | exact congrArg (rb.buffer[·]?) (by omega)
  · obtain ⟨out, copy, outLength, cells⟩ :=
      @memcpy_inside _ dest rb.buffer 0 rb.ridx.toNat k.toNat (by omega) (by omega)
    refine ⟨out, ?_, fun i => ?_⟩
    · rw [if_neg (by bv_omega)]
      simp only [Option.bind_eq_bind, Option.bind_some]
      rw [show (0 : BitVec 64).toNat = 0 from rfl, show k - 0 = k from BitVec.sub_zero k, copy, same,
        circular, if_pos (by omega)]
      simp only [Option.bind_some, Option.some.injEq, Prod.mk.injEq, RingBuffer.mk.injEq, true_and, and_true]
      bv_omega
    · rw [cells]
      unfold circular
      split_ifs <;> first | omega | rfl

/-- A read takes the first bytes of the queue, as many as there are up to its length. -/
theorem RingHolds.read (holds : RingHolds rb queue) {size : BitVec 64} {dest : List (BitVec 8)}
    (destRoom : size.toNat ≤ dest.length) {taken : List (BitVec 8)}
    (longest : taken = queue.take size.toNat) :
    ∃ rb', ringbufferRead rb size dest =
        some ((BitVec.ofNat 64 taken.length, taken ++ dest.drop taken.length), rb') ∧
      rb'.size = rb.size ∧ RingHolds rb' (queue.drop size.toNat) := by
  have room := holds.room
  have start := holds.start
  have small := holds.small
  have length := holds.length
  have count : taken.length = min size.toNat queue.length := by
    rw [longest, List.length_take]
  obtain ⟨out, result, cells⟩ := ringbufferRead_spec holds destRoom count
  have copied : out = taken ++ dest.drop taken.length := by
    apply List.ext_getElem?
    intro i
    rw [cells i]
    split
    · rename_i early
      rw [List.getElem?_append_left early, ← length, holds.cells i (by omega), longest,
        List.getElem?_take_of_lt (by omega)]
    · rename_i late
      rw [List.getElem?_append_right (by omega), List.getElem?_drop, Nat.add_sub_cancel' (by omega)]
  have next : circular rb.size.toNat (rb.ridx.toNat + taken.length) < rb.size.toNat :=
    circular_lt (by omega)
  have address : (BitVec.ofNat 64 (circular rb.size.toNat (rb.ridx.toNat + taken.length))).toNat =
      circular rb.size.toNat (rb.ridx.toNat + taken.length) := by
    rw [BitVec.toNat_ofNat, Nat.mod_eq_of_lt (by omega)]
  have rest : queue.drop size.toNat = queue.drop taken.length := by
    rcases Nat.le_total size.toNat queue.length with fewer | more
    · rw [count, Nat.min_eq_left fewer]
    · rw [count, Nat.min_eq_right more, List.drop_eq_nil_of_le more, List.drop_eq_nil_of_le (Nat.le_refl _)]
  rw [copied] at result
  refine ⟨_, result, rfl, ?_⟩
  rw [rest]
  refine ⟨length, small, ?_, ?_, ?_, ?_⟩
  · dsimp only
    rw [address]
    exact next
  · rw [List.length_drop]
    dsimp only
    omega
  · dsimp only
    rw [address, holds.stop, circular_circular (by rw [List.length_drop]; omega), List.length_drop,
      Nat.add_sub_cancel' (by omega)]
  · dsimp only
    rw [address, ← length]
    exact holds.cells.drop (length ▸ start) (by omega) (by omega)

/-! ## Sequences of calls -/

/-- What a call is for the queue. -/
def ringCall : RingOp → QueueOp (BitVec 8)
  | .write size buffer _ => .write (buffer.take size.toNat)
  | .read size _ _ => .read size.toNat

/-- What a call leaves that transfers these bytes. -/
def ringAnswer : RingOp → List (BitVec 8) → BitVec 64 × List (BitVec 8)
  | .write _ buffer _, taken => (BitVec.ofNat 64 taken.length, buffer)
  | .read _ buffer _, taken => (BitVec.ofNat 64 taken.length, taken ++ buffer.drop taken.length)

/-- A call on the ring buffer is the call on the queue. -/
theorem RingHolds.call (holds : RingHolds rb queue) (op : RingOp) :
    ∃ rb', op.call rb = some (ringAnswer op ((ringCall op).apply (rb.size.toNat - 1) queue).1, rb') ∧
      rb'.size = rb.size ∧ RingHolds rb' ((ringCall op).apply (rb.size.toNat - 1) queue).2 := by
  cases op with
  | write size buffer room =>
      obtain ⟨rb', written, same, holds'⟩ := holds.write room rfl
      exact ⟨rb', by rw [RingOp.call, written]; rfl, same, holds'⟩
  | read size buffer room =>
      obtain ⟨rb', result, same, holds'⟩ := holds.read room rfl
      exact ⟨rb', result, same, holds'⟩

/-- A sequence of calls is the sequence on the queue. -/
theorem RingHolds.run (holds : RingHolds rb queue) (ops : List RingOp) :
    ∃ rb', ringRun rb ops =
        some (List.zipWith ringAnswer ops (queueRun (rb.size.toNat - 1) queue (ops.map ringCall)).1, rb') ∧
      rb'.size = rb.size ∧
      RingHolds rb' (queueRun (rb.size.toNat - 1) queue (ops.map ringCall)).2 := by
  induction ops generalizing rb queue with
  | nil => exact ⟨rb, rfl, rfl, holds⟩
  | cons op ops inductionHypothesis =>
      obtain ⟨next, called, same, holds'⟩ := holds.call op
      obtain ⟨rb', rest, sameRest, holdsRest⟩ := inductionHypothesis holds'
      rw [same] at rest sameRest holdsRest
      refine ⟨rb', ?_, sameRest, holdsRest⟩
      rw [ringRun, called, Option.bind_eq_bind, Option.bind_some]
      dsimp only
      rw [rest]
      rfl

/-- A fresh ring buffer is empty. -/
theorem ringbufferAlloc_holds {m m' : FrameMap} {junk : Nat → BitVec 8} {s : BitVec 64}
    (positive : 1 ≤ s.toNat) (allocated : ringbufferAlloc m junk s = some (rb, m')) :
    rb.size = s ∧ RingHolds rb [] := by
  unfold ringbufferAlloc at allocated
  rw [Option.map_eq_some_iff] at allocated
  obtain ⟨block, found, same⟩ := allocated
  cases same
  have small : s.toNat + ringbufferHeader < 2 ^ 42 := by
    unfold malloc at found
    split at found
    · cases found
    · omega
  refine ⟨rfl, ?_, ?_, positive, positive, ?_, fun i early => absurd early (Nat.not_lt_zero i)⟩
  · dsimp only
    rw [List.length_map, List.length_range]
  · dsimp only
    omega
  · exact (if_pos positive).symm

/-- A ring buffer of `s` bytes is a first-in first-out queue of `s - 1` bytes: after every sequence of calls
no copy has left the array, both indices are below `s`, every call has transferred what it transfers on
the queue, and the two counts add up. -/
theorem ringbuffer_fifo (m m' : FrameMap) (junk : Nat → BitVec 8) (s : BitVec 64) (rb : RingBuffer)
    (positive : 1 ≤ s.toNat) (allocated : ringbufferAlloc m junk s = some (rb, m')) (ops : List RingOp) :
    ∃ rb', ringRun rb ops =
        some (List.zipWith ringAnswer ops (queueRun (s.toNat - 1) [] (ops.map ringCall)).1, rb') ∧
      rb'.ridx < s ∧ rb'.widx < s ∧ rb'.buffer.length = s.toNat ∧
      (ringbufferReadable rb').toNat = (queueRun (s.toNat - 1) [] (ops.map ringCall)).2.length ∧
      ringbufferReadable rb' + ringbufferAvail rb' = s - 1 := by
  obtain ⟨size, fresh⟩ := ringbufferAlloc_holds positive allocated
  obtain ⟨rb', run, same, holds⟩ := fresh.run ops
  rw [size] at run same holds
  have readable := holds.readable
  have avail := holds.avail
  have room := holds.room
  rw [same] at avail room
  refine ⟨rb', run, ?_, ?_, ?_, readable, ?_⟩
  · exact same ▸ holds.start
  · exact same ▸ holds.widx_lt
  · rw [holds.length, same]
  · bv_omega

/-- The heap for the examples: one free frame. -/
def oneFrame : FrameMap := { nFrames := 1, locked := fun _ => false, lowestAvailable := 0 }

/-- The second write into an array of four bytes finds room for two of its three bytes, and the last one
goes around the end. -/
theorem ringbuffer_fifo_example :
    ∃ rb', ringRun { buffer := [7, 7, 7, 7], size := 4, ridx := 0, widx := 0 }
        [.write 2 [1, 2] (by decide), .read 1 [0] (by decide), .write 3 [3, 4, 5] (by decide)] =
        some ([(2, [1, 2]), (1, [1]), (2, [3, 4, 5])], rb') ∧
      ringbufferReadable rb' + ringbufferAvail rb' = 3 := by
  obtain ⟨rb', run, -, -, -, -, sum⟩ := ringbuffer_fifo oneFrame (lockFrames oneFrame 0 1) (fun _ => 7) 4
    { buffer := [7, 7, 7, 7], size := 4, ridx := 0, widx := 0 } (by decide) rfl
    [.write 2 [1, 2] (by decide), .read 1 [0] (by decide), .write 3 [3, 4, 5] (by decide)]
  exact ⟨rb', run, sum⟩

end Voxel.Proofs
