/-
Module: Voxel.Proofs.OpenStreams
Layer: Proofs
Purpose: The list of open streams. As long as no stream of the list is reopened, the records from `_head` on
  are those of the open streams, each of them once, with `prev` and `next` inverse, and `__stdio_free`
  closes each of them once. `freopen` of a stream of the list breaks it every time.
Trusted boundary: none
Main exports: StreamList, link_spec, unlink_spec, StreamList.enter, StreamList.unlink, StreamList.relinked,
  StdioOp, Tidy, tidy_iff
-/
import Voxel.Lib.DoubleList
import Voxel.Lib.Loop
import Voxel.Lib.Run
import Voxel.Libc.OpenStreams
import Voxel.Proofs.DescriptorStreams

namespace Voxel.Proofs

open Voxel.Lib Voxel.Libc

variable {World : Type} {s t : Stdio World}

/-! ## The links -/

/-- `next` of a record. -/
def nextStream (s : Stdio World) (stream : Nat) : Option Nat := (s.records stream).bind FileRecord.next

/-- `prev` of a record. -/
def prevStream (s : Stdio World) (stream : Nat) : Option Nat := (s.records stream).bind FileRecord.prev

/-- The record is allocated. -/
def HasRecord (s : Stdio World) (stream : Nat) : Prop := (s.records stream).isSome

/-- A stream of the program that is open. -/
def IsOpen (s : Stdio World) (stream : Nat) : Prop := HasRecord s stream ∧ ¬Stdio.IsStandard stream

/-- The open streams, in the order of the list. -/
structure StreamList (s : Stdio World) (streams : List Nat) : Prop where
  chain : Chain (nextStream s) (prevStream s) none s.head streams
  nodup : streams.Nodup
  opened : ∀ stream, stream ∈ streams ↔ IsOpen s stream
  standard : ∀ stream, Stdio.IsStandard stream → HasRecord s stream

/-- A change of a record that is allocated. -/
theorem modify_spec {stream : Nat} (allocated : HasRecord s stream) (change : FileRecord → FileRecord) :
    ∃ t, s.modify stream change = some t ∧ t.head = s.head ∧
      ∀ other, t.records other = if stream = other then (s.records other).map change
        else s.records other := by
  obtain ⟨r, found⟩ := Option.isSome_iff_exists.mp allocated
  refine ⟨{ s with records := Function.update s.records stream (some (change r)) },
    by rw [Stdio.modify, found], rfl, fun other => ?_⟩
  by_cases same : stream = other
  · subst same
    rw [if_pos rfl, found]
    exact Function.update_self ..
  · rw [if_neg same]
    exact Function.update_of_ne (Ne.symm same) ..

/-- A change of the record behind a pointer. -/
theorem modifyIf_spec {pointer : Option Nat}
    (allocated : ∀ stream, pointer = some stream → HasRecord s stream)
    (change : FileRecord → FileRecord) :
    ∃ t, s.modifyIf pointer change = some t ∧ t.head = s.head ∧
      ∀ other, t.records other = if pointer = some other then (s.records other).map change
        else s.records other := by
  cases pointer with
  | none => exact ⟨s, rfl, rfl, fun other => (if_neg (Option.some_ne_none other).symm).symm⟩
  | some stream =>
      obtain ⟨t, changed, head, records⟩ := modify_spec (allocated stream rfl) change
      refine ⟨t, changed, head, fun other => ?_⟩
      rw [records]
      exact if_congr Option.some_inj.symm rfl rfl

/-- The fields of a record behind a change that may have taken place. -/
theorem changed_isSome (c : Prop) [Decidable c] (r : Option FileRecord) (change : FileRecord → FileRecord) :
    (if c then r.map change else r).isSome = r.isSome := by
  split
  · rw [Option.isSome_map]
  · rfl

theorem changed_field {c : Prop} [Decidable c] (r : Option FileRecord) {change : FileRecord → FileRecord}
    {field : FileRecord → Option Nat} (kept : ∀ r, field (change r) = field r) :
    (if c then r.map change else r).bind field = r.bind field := by
  split
  · cases r with
    | none => rfl
    | some r => exact kept r
  · rfl

theorem changed_link {c : Prop} [Decidable c] {r : Option FileRecord} {change : FileRecord → FileRecord}
    {field : FileRecord → Option Nat} {value : Option Nat} (allocated : c → r.isSome)
    (set : ∀ r, field (change r) = value) :
    (if c then r.map change else r).bind field = if c then value else r.bind field := by
  split
  · rename_i holds
    obtain ⟨r', rfl⟩ := Option.isSome_iff_exists.mp (allocated holds)
    exact set r'
  · rfl

/-- What `link` does to an allocated record, in the list or not. -/
theorem link_spec {stream : Nat} (allocated : HasRecord s stream)
    (first : ∀ other, s.head = some other → HasRecord s other) :
    ∃ t, Stdio.link stream s = some t ∧ t.head = some stream ∧
      (∀ other, HasRecord t other ↔ HasRecord s other) ∧
      (∀ other, nextStream t other = if stream = other then s.head else nextStream s other) ∧
      ∀ other, prevStream t other = if s.head = some other then some stream else prevStream s other := by
  obtain ⟨u, forward, headEq, changed⟩ := modify_spec allocated fun r => { r with next := s.head }
  have still : ∀ other, HasRecord u other ↔ HasRecord s other := fun other => by
    rw [HasRecord, changed, changed_isSome]
    rfl
  obtain ⟨t, back, -, records⟩ := @modifyIf_spec _ u s.head
    (fun other eq => (still other).mpr (first other eq)) fun r => { r with prev := some stream }
  refine ⟨{ t with head := some stream }, ?_, rfl, fun other => ?_, fun other => ?_, fun other => ?_⟩
  · rw [Stdio.link, forward]
    show (u.modifyIf u.head _).bind _ = _
    rw [headEq, back]
    rfl
  · rw [← still, HasRecord]
    show (t.records other).isSome ↔ _
    rw [records, changed_isSome]
    rfl
  · show (t.records other).bind FileRecord.next = _
    rw [records, changed_field, changed, @changed_link _ _ _ _ _ s.head]
    · rfl
    · intro same
      subst same
      exact allocated
    · exact fun _ => rfl
    · exact fun _ => rfl
  · show (t.records other).bind FileRecord.prev = _
    rw [records, @changed_link _ _ _ _ _ (some stream), changed, changed_field]
    · rfl
    · exact fun _ => rfl
    · exact fun same => (still other).mpr (first other same)
    · exact fun _ => rfl

/-- What `unlink` does to a record that is not its own neighbour. -/
theorem unlink_spec {stream : Nat} (allocated : HasRecord s stream)
    (before : ∀ other, prevStream s stream = some other → HasRecord s other ∧ other ≠ stream)
    (after : ∀ other, nextStream s stream = some other → HasRecord s other ∧ other ≠ stream) :
    ∃ t, Stdio.unlink stream s = some t ∧
      t.head = (if s.head = some stream then nextStream s stream else s.head) ∧
      (∀ other, HasRecord t other ↔ HasRecord s other ∧ other ≠ stream) ∧
      (∀ other, other ≠ stream →
        nextStream t other =
          if prevStream s stream = some other then nextStream s stream else nextStream s other) ∧
      ∀ other, other ≠ stream →
        prevStream t other =
          if nextStream s stream = some other then prevStream s stream else prevStream s other := by
  obtain ⟨r, found⟩ := Option.isSome_iff_exists.mp allocated
  have prevEq : prevStream s stream = r.prev := by rw [prevStream, found]; rfl
  have nextEq : nextStream s stream = r.next := by rw [nextStream, found]; rfl
  rw [prevEq] at before ⊢
  rw [nextEq] at after ⊢
  obtain ⟨u, forward, headEq, changed⟩ := @modifyIf_spec _ s r.prev (fun other eq => (before other eq).1)
    fun q => { q with next := r.next }
  have still : ∀ other, HasRecord u other ↔ HasRecord s other := fun other => by
    rw [HasRecord, changed, changed_isSome]
    rfl
  have found' : u.records stream = some r := by
    rw [changed, if_neg fun eq => (before stream eq).2 rfl, found]
  obtain ⟨v, back, headEq', changed'⟩ := @modifyIf_spec _ u r.next
    (fun other eq => (still other).mpr (after other eq).1) fun q => { q with prev := r.prev }
  have found'' : v.records stream = some r := by
    rw [changed', if_neg fun eq => (after stream eq).2 rfl, found']
  refine ⟨{ v with
    head := if s.head = some stream then r.next else s.head
    records := Function.update v.records stream none }, ?_, rfl, fun other => ?_, fun other different => ?_,
    fun other different => ?_⟩
  · rw [Stdio.unlink, found]
    show (s.modifyIf r.prev _).bind _ = _
    rw [forward]
    show (u.records stream).bind _ = _
    rw [found']
    show (u.modifyIf r.next _).bind _ = _
    rw [back]
    show (v.records stream).bind _ = _
    rw [found'']
    show some _ = some _
    rw [headEq', headEq]
  · rw [HasRecord]
    show (Function.update v.records stream none other).isSome ↔ _
    by_cases same : other = stream
    · subst same
      rw [Function.update_self]
      exact ⟨fun wrong => (by cases wrong), fun both => absurd rfl both.2⟩
    · rw [Function.update_of_ne same, changed', changed_isSome]
      exact ⟨fun there => ⟨(still other).mp there, same⟩, fun both => (still other).mpr both.1⟩
  · show (Function.update v.records stream none other).bind FileRecord.next = _
    rw [Function.update_of_ne different, changed', changed_field, changed, @changed_link _ _ _ _ _ r.next]
    · rfl
    · exact fun same => (before other same).1
    · exact fun _ => rfl
    · exact fun _ => rfl
  · show (Function.update v.records stream none other).bind FileRecord.prev = _
    rw [Function.update_of_ne different, changed', @changed_link _ _ _ _ _ r.prev, changed, changed_field]
    · rfl
    · exact fun _ => rfl
    · exact fun same => (still other).mpr (after other same).1
    · exact fun _ => rfl

/-! ## The list of open streams -/

namespace StreamList

variable {streams front back : List Nat} {stream : Nat}

/-- The first stream of the list is open. -/
theorem head_allocated (listed : StreamList s streams) (first : s.head = some stream) :
    HasRecord s stream := by
  have member : stream ∈ streams := List.mem_of_mem_head? (listed.chain.head_eq ▸ first)
  exact ((listed.opened stream).mp member).1

/-- What a call does to the contents of a stream is not seen in the list. -/
theorem store (listed : StreamList s streams) {r : FileRecord} (found : s.records stream = some r)
    (behind : Libc.Stream World) : StreamList (s.store stream r behind) streams := by
  have records : ∀ field : FileRecord → Option Nat, (∀ file, field { r with file := file } = field r) →
      ∀ other, ((s.store stream r behind).records other).bind field = (s.records other).bind field := by
    intro field kept other
    by_cases same : other = stream
    · subst same
      rw [Stdio.store, found]
      dsimp only
      rw [Function.update_self]
      exact kept behind.file
    · rw [Stdio.store]
      dsimp only
      rw [Function.update_of_ne same]
  have allocated : ∀ other, HasRecord (s.store stream r behind) other ↔ HasRecord s other := by
    intro other
    by_cases same : other = stream
    · subst same
      simp [HasRecord, Stdio.store, found]
    · simp [HasRecord, Stdio.store, Function.update_of_ne same]
  exact {
    chain := listed.chain.congr (fun other _ => records FileRecord.next (fun _ => rfl) other)
      fun other _ => records FileRecord.prev (fun _ => rfl) other
    nodup := listed.nodup
    opened := fun other => by rw [listed.opened, IsOpen, IsOpen, allocated]
    standard := fun other isStandard => (allocated other).mpr (listed.standard other isStandard) }

/-- A new record goes to the front of the list. -/
theorem enter (listed : StreamList s streams) {block : Nat} (fresh : s.records block = none) (file : File) :
    ∃ t, s.enter block file = some t ∧ StreamList t (block :: streams) := by
  have absent : ¬HasRecord s block := by
    rw [HasRecord, fresh]
    exact Bool.false_ne_true
  have outside : ∀ other ∈ streams, block ≠ other := by
    intro other member same
    subst same
    exact absent ((listed.opened _).mp member).1
  have updated : ∀ other, block ≠ other → Function.update s.records block (some ⟨file, none, none⟩) other =
      s.records other := fun other different => Function.update_of_ne (Ne.symm different) ..
  have added : ∀ other, (Function.update s.records block (some ⟨file, none, none⟩) other).isSome ↔
      other = block ∨ HasRecord s other := by
    intro other
    by_cases same : other = block
    · subst same
      rw [Function.update_self]
      exact ⟨fun _ => .inl rfl, fun _ => rfl⟩
    · rw [Function.update_of_ne same]
      exact ⟨.inr, fun either => either.resolve_left same⟩
  obtain ⟨t, linked, headEq, allocated, nexts, prevs⟩ :=
    @link_spec _ { s with records := Function.update s.records block (some ⟨file, none, none⟩) } block
      ((added block).mpr (.inl rfl))
      fun other first => (added other).mpr (.inr (listed.head_allocated first))
  have notFirst : s.head ≠ some block := fun first => absent (listed.head_allocated first)
  refine ⟨t, linked, ⟨?_, ?_, fun other => ?_, fun other isStandard => ?_⟩⟩
  · rw [headEq]
    refine listed.chain.push listed.nodup ?_ ?_ (fun other first => ?_) (fun other member => ?_)
      fun other member later => ?_
    · rw [nexts, if_pos rfl]
    · rw [prevs, if_neg notFirst, prevStream]
      show (Function.update s.records block _ block).bind _ = _
      rw [Function.update_self]
      rfl
    · rw [prevs, if_pos first]
    · rw [nexts, if_neg (outside other member), nextStream]
      show (Function.update s.records block _ other).bind _ = _
      rw [updated other (outside other member)]
      rfl
    · rw [prevs, if_neg later, prevStream]
      show (Function.update s.records block _ other).bind _ = _
      rw [updated other (outside other member)]
      rfl
  · exact List.nodup_cons.mpr ⟨fun member => outside block member rfl, listed.nodup⟩
  · rw [List.mem_cons, listed.opened, IsOpen, IsOpen, allocated]
    show _ ↔ (Function.update s.records block _ other).isSome ∧ _
    rw [added]
    constructor
    · rintro (same | ⟨there, own⟩)
      · exact ⟨.inl same, fun isStandard => absent (same ▸ listed.standard other isStandard)⟩
      · exact ⟨.inr there, own⟩
    · rintro ⟨same | there, own⟩
      · exact .inl same
      · exact .inr ⟨there, own⟩
  · exact (allocated other).mpr ((added other).mpr (.inr (listed.standard other isStandard)))

/-- A stream of the list is taken out. -/
theorem unlink (listed : StreamList s (front ++ stream :: back)) :
    ∃ t, Stdio.unlink stream s = some t ∧ StreamList t (front ++ back) := by
  obtain ⟨prevEq, nextEq⟩ := listed.chain.around
  rw [Option.or_none] at prevEq
  have split : stream ∉ front ++ back := by
    have nodup := listed.nodup
    rw [List.nodup_middle] at nodup
    exact (List.nodup_cons.mp nodup).1
  have inside : ∀ other ∈ front ++ back, HasRecord s other ∧ other ≠ stream := by
    intro other member
    refine ⟨((listed.opened other).mp ?_).1, fun same => split (same ▸ member)⟩
    rw [List.mem_append] at member ⊢
    exact member.imp_right (List.mem_cons_of_mem stream)
  obtain ⟨t, unlinked, headEq, allocated, nexts, prevs⟩ :=
    @unlink_spec _ s stream ((listed.opened stream).mp (List.mem_append_right _ List.mem_cons_self)).1
      (fun other eq => inside other (List.mem_append_left _
        (List.mem_of_getLast? (prevEq ▸ eq))))
      fun other eq => inside other (List.mem_append_right _ (List.mem_of_mem_head? (nextEq ▸ eq)))
  refine ⟨t, unlinked, ⟨?_, ?_, fun other => ?_, fun other isStandard => ?_⟩⟩
  · refine listed.chain.unlink listed.nodup ?_ (fun other member => ?_) fun other member => ?_
    · rw [headEq]
      refine if_congr ?_ rfl rfl
      rw [listed.chain.head_eq]
      cases front with
      | nil => exact ⟨fun _ => rfl, fun _ => rfl⟩
      | cons first front =>
          refine ⟨fun first' => absurd ?_ split, fun wrong => absurd wrong (List.cons_ne_nil _ _)⟩
          rw [← Option.some.inj first']
          exact List.mem_append_left _ List.mem_cons_self
    · rw [nexts other (inside other member).2, prevEq]
    · rw [prevs other (inside other member).2, nextEq]
  · have nodup := listed.nodup
    rw [List.nodup_middle] at nodup
    exact (List.nodup_cons.mp nodup).2
  · have opened := listed.opened other
    rw [IsOpen, allocated]
    constructor
    · intro member
      have here := inside other member
      rw [List.mem_append] at member
      exact ⟨here, (opened.mp (List.mem_append.mpr (member.imp_right (List.mem_cons_of_mem _)))).2⟩
    · rintro ⟨⟨there, different⟩, own⟩
      have member := opened.mpr ⟨there, own⟩
      rw [List.mem_append, List.mem_cons] at member
      exact List.mem_append.mpr (member.imp_right fun either => either.resolve_left different)
  · refine (allocated other).mpr ⟨listed.standard other isStandard, fun same => ?_⟩
    have own := ((listed.opened stream).mp (List.mem_append_right _ List.mem_cons_self)).2
    exact own (same ▸ isStandard)

/-- A stream of the list that is linked again becomes a first one that is not: its `prev` is no null
pointer. -/
theorem relinked (listed : StreamList s streams) (member : stream ∈ streams)
    (linked : Stdio.link stream s = some t) (others : List Nat) :
    ¬Chain (nextStream t) (prevStream t) none t.head others := by
  intro chain
  obtain ⟨t', linked', headEq, -, -, prevs⟩ :=
    @link_spec _ s stream ((listed.opened stream).mp member).1 fun other first => listed.head_allocated first
  rw [linked] at linked'
  cases linked'
  rw [headEq] at chain
  cases others with
  | nil => exact Option.some_ne_none stream chain
  | cons first rest =>
      obtain ⟨same, isFirst, -⟩ := chain
      cases same
      rw [prevs] at isFirst
      by_cases already : s.head = some stream
      · rw [if_pos already] at isFirst
        exact Option.some_ne_none stream isFirst
      · rw [if_neg already] at isFirst
        obtain ⟨front, back, rfl⟩ := List.append_of_mem member
        obtain ⟨prevEq, -⟩ := listed.chain.around
        rw [isFirst, Option.or_none] at prevEq
        rw [List.getLast?_eq_none_iff.mp prevEq.symm] at listed
        exact already listed.chain.1

end StreamList

/-! ## Closing -/

variable {streams : List Nat}

/-- `fclose` of a record. -/
theorem fclose_eq (calls : SysCalls World) {stream : Nat} {r : FileRecord}
    (found : s.records stream = some r) :
    s.fclose calls stream =
      (if Stdio.IsStandard stream then some (s.store stream r (Libc.fclose calls (s.stream r)).2)
        else Stdio.unlink stream (s.store stream r (Libc.fclose calls (s.stream r)).2)).map fun s' =>
          ((Libc.fclose calls (s.stream r)).1, s') := by
  rw [Stdio.fclose, found]
  rfl

/-- `fclose` of a standard stream leaves the list alone. -/
theorem fclose_standard (calls : SysCalls World) (listed : StreamList s streams) {stream : Nat}
    (standard : Stdio.IsStandard stream) :
    ∃ out t, s.fclose calls stream = some (out, t) ∧ StreamList t streams := by
  obtain ⟨r, found⟩ := Option.isSome_iff_exists.mp (listed.standard stream standard)
  refine ⟨(Libc.fclose calls (s.stream r)).1, s.store stream r (Libc.fclose calls (s.stream r)).2, ?_,
    listed.store found _⟩
  rw [fclose_eq calls found, if_pos standard]
  rfl

/-- `fclose` of a stream of the list takes it out. -/
theorem fclose_listed (calls : SysCalls World) {front back : List Nat} {stream : Nat}
    (listed : StreamList s (front ++ stream :: back)) :
    ∃ out t, s.fclose calls stream = some (out, t) ∧ StreamList t (front ++ back) := by
  have opened := (listed.opened stream).mp (List.mem_append_right _ List.mem_cons_self)
  obtain ⟨r, found⟩ := Option.isSome_iff_exists.mp opened.1
  obtain ⟨t, unlinked, listed'⟩ := (listed.store found (Libc.fclose calls (s.stream r)).2).unlink
  refine ⟨(Libc.fclose calls (s.stream r)).1, t, ?_, listed'⟩
  rw [fclose_eq calls found, if_neg opened.2, unlinked]
  rfl

/-- The loop of `__stdio_free` closes the streams of the list in order. -/
theorem closeAll_listed (calls : SysCalls World) (listed : StreamList s streams) :
    ∃ t, (∀ fuel, streams.length < fuel → Stdio.closeAll calls fuel s = some (streams, t)) ∧
      StreamList t [] := by
  induction streams generalizing s with
  | nil =>
      refine ⟨s, fun fuel enough => ?_, listed⟩
      have empty : s.head = none := listed.chain
      cases fuel with
      | zero => exact absurd enough (Nat.not_lt_zero _)
      | succ fuel => rw [Stdio.closeAll, empty]
  | cons first rest inductionHypothesis =>
      obtain ⟨out, u, closed, listed'⟩ := @fclose_listed _ _ calls [] rest first listed
      obtain ⟨t, looped, listed''⟩ := inductionHypothesis listed'
      have headEq : s.head = some first := listed.chain.1
      refine ⟨t, fun fuel enough => ?_, listed''⟩
      cases fuel with
      | zero => exact absurd enough (Nat.not_lt_zero _)
      | succ fuel =>
          rw [Stdio.closeAll, headEq]
          show (s.fclose calls first).bind _ = _
          rw [closed]
          show (Stdio.closeAll calls fuel u).bind _ = _
          rw [looped fuel (Nat.lt_of_succ_lt_succ enough)]
          rfl

/-- `fflush` of a standard stream leaves the list alone. -/
theorem fflush_standard (calls : SysCalls World) (listed : StreamList s streams) {stream : Nat}
    (standard : Stdio.IsStandard stream) :
    ∃ out t, s.fflush calls stream = some (out, t) ∧ StreamList t streams := by
  obtain ⟨r, found⟩ := Option.isSome_iff_exists.mp (listed.standard stream standard)
  refine ⟨(Libc.fflush calls (s.stream r)).1, s.store stream r (Libc.fflush calls (s.stream r)).2, ?_,
    listed.store found _⟩
  rw [Stdio.fflush, found]
  rfl

/-- `__stdio_free` ends, with an empty list. -/
theorem stdioFree_listed (calls : SysCalls World) (listed : StreamList s streams) :
    ∃ t, Settles (fun fuel => Stdio.stdioFree calls fuel s) (streams, t) ∧ StreamList t [] := by
  obtain ⟨out, u, flushed, listed'⟩ := fflush_standard calls listed (.inr (.inl rfl))
  obtain ⟨out', v, flushed', listed''⟩ := fflush_standard calls listed' (.inr (.inr rfl))
  obtain ⟨t, closed, none_⟩ := closeAll_listed calls listed''
  refine ⟨t, ⟨streams.length + 1, fun fuel enough => ?_⟩, none_⟩
  unfold Stdio.stdioFree
  rw [flushed]
  show (u.fflush calls Stdio.stderrAt).bind _ = _
  rw [flushed']
  exact closed fuel enough

/-! ## Runs -/

/-- A call on the streams of a process; `block` is what `malloc` returns. -/
inductive StdioOp
  | fopen (path : CString) (block : Nat) (readJunk writeJunk : Nat → BitVec 8)
  | fdopen (fd : Int) (block : Nat) (readJunk writeJunk : Nat → BitVec 8)
  | freopen (path : Option CString) (stream : Nat)
  | fclose (stream : Nat)

/-- The streams behind a call; the block of `malloc` is none that is allocated. -/
def StdioOp.step (calls : OpenCalls World) (s : Stdio World) : StdioOp → Option (Stdio World)
  | .fopen path block readJunk writeJunk =>
      if (s.records block).isSome then none
      else (s.fopen calls path block readJunk writeJunk).map (·.2)
  | .fdopen fd block readJunk writeJunk =>
      if (s.records block).isSome then none else (s.fdopen fd block readJunk writeJunk).map (·.2)
  | .freopen path stream => (s.freopen calls path stream).map (·.2)
  | .fclose stream => (s.fclose calls.toSysCalls stream).map (·.2)

/-- The call reopens a path with a stream that is none of the standard ones. -/
def StdioOp.Relinks : StdioOp → Prop
  | .freopen path stream => path ≠ none ∧ ¬Stdio.IsStandard stream
  | _ => False

/-- The list from `_head` on ends, has every open stream once and no other one, with `prev` and `next`
inverse; `__stdio_free` ends and closes each of the streams once. -/
structure Tidy (calls : SysCalls World) (s : Stdio World) : Prop where
  list : ∃ streams, Chain (nextStream s) (prevStream s) none s.head streams ∧ streams.Nodup ∧
    ∀ stream, stream ∈ streams ↔ IsOpen s stream
  freed : ∃ closed t, Settles (fun fuel => Stdio.stdioFree calls fuel s) (closed, t) ∧ closed.Nodup ∧
    (∀ stream, stream ∈ closed ↔ IsOpen s stream) ∧ t.head = none ∧ ∀ stream, ¬IsOpen t stream

theorem StreamList.tidy (calls : SysCalls World) (listed : StreamList s streams) : Tidy calls s := by
  obtain ⟨t, settles, none_⟩ := stdioFree_listed calls listed
  exact ⟨⟨streams, listed.chain, listed.nodup, listed.opened⟩, streams, t, settles, listed.nodup,
    listed.opened, none_.chain, fun stream opened => List.not_mem_nil ((none_.opened stream).mpr opened)⟩

/-- The streams behind `__stdio_init`. -/
theorem stdioInit_listed (junk : Nat → BitVec 8) (errno : Int) (world : World) :
    StreamList (Stdio.stdioInit junk errno world) [] := by
  have allocated : ∀ stream,
      HasRecord (Stdio.stdioInit junk errno world) stream ↔ Stdio.IsStandard stream := by
    intro stream
    unfold HasRecord Stdio.stdioInit Stdio.IsStandard
    dsimp only
    by_cases one : stream = Stdio.stdinAt
    · simp [one]
    · by_cases two : stream = Stdio.stdoutAt
      · simp [two, Stdio.stdoutAt, Stdio.stdinAt]
      · by_cases three : stream = Stdio.stderrAt
        · simp [three, Stdio.stderrAt, Stdio.stdoutAt, Stdio.stdinAt]
        · simp [one, two, three]
  exact {
    chain := rfl
    nodup := List.nodup_nil
    opened := fun stream => ⟨fun wrong => absurd wrong List.not_mem_nil,
      fun opened => absurd ((allocated stream).mp opened.1) opened.2⟩
    standard := fun stream => (allocated stream).mpr }

/-- A new record goes to the front of the list. -/
theorem entered_listed {block : Nat} {file : File} (listed : StreamList s streams)
    (fresh : ¬(s.records block).isSome) (entered : s.enter block file = some t) :
    ∃ streams, StreamList t streams := by
  obtain ⟨u, linked, listed'⟩ := listed.enter (Option.not_isSome_iff_eq_none.mp fresh) file
  rw [entered] at linked
  cases linked
  exact ⟨_, listed'⟩

/-- One call that does not relink a stream keeps the list. -/
theorem StdioOp.step_listed {calls : OpenCalls World} {op : StdioOp} (listed : StreamList s streams)
    (keeps : ¬op.Relinks) (stepped : op.step calls s = some t) : ∃ streams, StreamList t streams := by
  cases op with
  | fopen path block readJunk writeJunk =>
      rw [StdioOp.step] at stepped
      split at stepped
      · cases stepped
      rename_i fresh
      obtain ⟨⟨given, u⟩, opened, rfl⟩ := Option.map_eq_some_iff.mp stepped
      rw [Stdio.fopen] at opened
      dsimp only at opened
      split at opened
      · cases opened
        exact ⟨streams, ⟨listed.chain, listed.nodup, listed.opened, listed.standard⟩⟩
      · obtain ⟨v, entered, same⟩ := Option.map_eq_some_iff.mp opened
        cases same
        have listed' : StreamList { s with
            world := (calls.openPath s.world (cstringAt path 0) (openRequest path).1 (openRequest path).2).2 }
            streams := ⟨listed.chain, listed.nodup, listed.opened, listed.standard⟩
        exact entered_listed listed' fresh entered
  | fdopen fd block readJunk writeJunk =>
      rw [StdioOp.step] at stepped
      split at stepped
      · cases stepped
      rename_i fresh
      obtain ⟨⟨given, u⟩, opened, rfl⟩ := Option.map_eq_some_iff.mp stepped
      obtain ⟨v, entered, same⟩ := Option.map_eq_some_iff.mp opened
      cases same
      exact entered_listed listed fresh entered
  | freopen path stream =>
      obtain ⟨⟨given, u⟩, reopened, rfl⟩ := Option.map_eq_some_iff.mp stepped
      obtain ⟨r, found, rest⟩ := Option.bind_eq_some_iff.mp reopened
      obtain ⟨v, unlinked, same⟩ := Option.map_eq_some_iff.mp rest
      have left : path = none ∨ Stdio.IsStandard stream := by
        by_contra neither
        rw [not_or] at neither
        exact keeps neither
      rw [if_pos left] at unlinked
      cases unlinked
      cases same
      exact ⟨streams, listed.store found _⟩
  | fclose stream =>
      obtain ⟨⟨out, u⟩, closed, rfl⟩ := Option.map_eq_some_iff.mp stepped
      by_cases standard : Stdio.IsStandard stream
      · obtain ⟨out', v, closed', listed'⟩ := fclose_standard calls.toSysCalls listed standard
        rw [closed] at closed'
        cases closed'
        exact ⟨streams, listed'⟩
      · obtain ⟨r, found, -⟩ := Option.bind_eq_some_iff.mp closed
        have member := (listed.opened stream).mpr ⟨Option.isSome_iff_exists.mpr ⟨r, found⟩, standard⟩
        obtain ⟨front, back, rfl⟩ := List.append_of_mem member
        obtain ⟨out', v, closed', listed'⟩ := fclose_listed calls.toSysCalls listed
        rw [closed] at closed'
        cases closed'
        exact ⟨_, listed'⟩

/-- One call that relinks a stream breaks the list. -/
theorem StdioOp.step_broken {calls : OpenCalls World} {op : StdioOp} (listed : StreamList s streams)
    (relinks : op.Relinks) (stepped : op.step calls s = some t) : ¬Tidy calls.toSysCalls t := by
  cases op with
  | fopen | fdopen | fclose => exact relinks.elim
  | freopen path stream =>
      obtain ⟨⟨given, u⟩, reopened, rfl⟩ := Option.map_eq_some_iff.mp stepped
      obtain ⟨r, found, rest⟩ := Option.bind_eq_some_iff.mp reopened
      obtain ⟨v, linked, same⟩ := Option.map_eq_some_iff.mp rest
      rw [if_neg (not_or.mpr relinks)] at linked
      cases same
      intro tidy
      obtain ⟨others, chain, -⟩ := tidy.list
      have member := (listed.opened stream).mpr ⟨Option.isSome_iff_exists.mpr ⟨r, found⟩, relinks.2⟩
      exact (listed.store found _).relinked member linked others chain

/-- A run from a state with a list. -/
theorem tidy_run {calls : OpenCalls World} {ops : List StdioOp} (listed : StreamList s streams)
    (ran : Run.exec (StdioOp.step calls) s ops = some t) :
    (∀ first rest u, first ++ rest = ops → Run.exec (StdioOp.step calls) s first = some u →
        Tidy calls.toSysCalls u) ↔
      ∀ op ∈ ops, ¬op.Relinks := by
  induction ops generalizing s streams with
  | nil =>
      refine ⟨fun _ op wrong => absurd wrong List.not_mem_nil, fun _ first rest u split reached => ?_⟩
      rw [(List.append_eq_nil_iff.mp split).1] at reached
      cases reached
      exact listed.tidy calls.toSysCalls
  | cons op ops inductionHypothesis =>
      rw [Run.exec] at ran
      cases stepped : op.step calls s with
      | none =>
          rw [stepped] at ran
          cases ran
      | some middle =>
          rw [stepped] at ran
          have one : Run.exec (StdioOp.step calls) s [op] = some middle := by
            rw [Run.exec, stepped]
            rfl
          by_cases relinks : op.Relinks
          · -- The list is broken behind this call.
            constructor
            · intro tidy
              exact absurd (tidy [op] ops middle rfl one) (StdioOp.step_broken listed relinks stepped)
            · intro none_
              exact absurd relinks (none_ op List.mem_cons_self)
          · obtain ⟨streams', listed'⟩ := StdioOp.step_listed listed relinks stepped
            have rest := inductionHypothesis listed' ran
            rw [List.forall_mem_cons, ← rest]
            constructor
            · intro tidy
              refine ⟨relinks, fun first rest u split reached => tidy (op :: first) rest u ?_ ?_⟩
              · rw [List.cons_append, split]
              · rw [Run.exec, stepped]
                exact reached
            · rintro ⟨_, tidy⟩ first rest u split reached
              cases first with
              | nil =>
                  cases reached
                  exact listed.tidy calls.toSysCalls
              | cons op' first =>
                  rw [List.cons_append] at split
                  obtain ⟨rfl, tail⟩ := List.cons.inj split
                  rw [Run.exec, stepped] at reached
                  exact tidy first rest u tail reached

/-- The list of open streams is well formed in every state that a run reaches, and `__stdio_free` closes every
stream of it once, exactly if no call of the run reopens a stream that is none of the standard ones. -/
theorem tidy_iff (calls : OpenCalls World) (junk : Nat → BitVec 8) (errno : Int) (world : World)
    (ops : List StdioOp) {s : Stdio World}
    (ran : Run.exec (StdioOp.step calls) (Stdio.stdioInit junk errno world) ops = some s) :
    (∀ first rest t, first ++ rest = ops →
        Run.exec (StdioOp.step calls) (Stdio.stdioInit junk errno world) first = some t →
        Tidy calls.toSysCalls t) ↔
      ∀ op ∈ ops, ¬op.Relinks :=
  tidy_run (stdioInit_listed junk errno world) ran

/-- Two streams are made, the first one is closed, and `stdout` is reopened. -/
def tidyOps : List StdioOp :=
  [.fdopen 3 10 (fun _ => 0) (fun _ => 0), .fdopen 4 11 (fun _ => 0) (fun _ => 0), .fclose 10,
    .freopen (some [0x61]) Stdio.stdoutAt]

theorem tidy_iff_example :
    ∃ s, Run.exec (StdioOp.step quiet) (Stdio.stdioInit (fun _ => 0) 0 ()) tidyOps = some s ∧
      Tidy quiet.toSysCalls s := by
  refine ⟨_, rfl, (tidy_iff quiet (fun _ => 0) 0 () tidyOps rfl).mpr ?_ tidyOps [] _ (List.append_nil _) rfl⟩
  intro op member
  simp only [tidyOps, List.mem_cons, List.not_mem_nil, or_false] at member
  rcases member with rfl | rfl | rfl | rfl
  · exact id
  · exact id
  · exact id
  · exact fun relinks => relinks.2 (.inr (.inl rfl))

/-- A stream is made and reopened: it is its own successor, and `__stdio_free` closes it twice. -/
theorem reopened_twice :
    ∃ s, Run.exec (StdioOp.step quiet) (Stdio.stdioInit (fun _ => 0) 0 ())
        [.fdopen 3 10 (fun _ => 0) (fun _ => 0), .freopen (some [0x61]) 10] = some s ∧
      s.head = some 10 ∧ nextStream s 10 = some 10 ∧
      (∀ streams, ¬Chain (nextStream s) (prevStream s) none s.head streams) ∧
      ∀ fuel, Stdio.stdioFree quiet.toSysCalls fuel s = none := by
  refine ⟨_, rfl, rfl, rfl, fun streams chain => ?_, fun fuel => ?_⟩
  · cases streams with
    | nil => cases chain
    | cons first rest =>
        obtain ⟨same, isFirst, -⟩ := chain
        cases same
        cases isFirst
  · -- The first round frees the stream and leaves it at `_head`; the second one has no record.
    match fuel with
    | 0 => rfl
    | 1 => rfl
    | _ + 2 => rfl

end Voxel.Proofs
