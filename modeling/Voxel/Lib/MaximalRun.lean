/-
Module: Voxel.Lib.MaximalRun
Layer: Lib
Purpose: The maximal runs of items with a property in a list, and the scans of a program that finds them
  one after the other: to the next item with the property, and from there to the next one without it.
Trusted boundary: human-reviewed spec
Main exports: HoldsAt, AtBoundary, MaximalRun, scanTo, runStart, runEnd,
  MaximalRun.length_eq, maximalRun_scan, MaximalRun.start_of_scan, runs, eq_runStarts, mem_runs,
  exists_mem_runs, runs_length_le
-/
import Mathlib.Data.List.Basic
import Mathlib.Data.List.Sort

namespace Voxel.Lib

universe u

variable {α : Type u} {holds : α → Prop} {s : List α} {place p q n m i : Nat}

/-- The item at an index has the property. -/
def HoldsAt (holds : α → Prop) (s : List α) (i : Nat) : Prop := ∃ a, s[i]? = some a ∧ holds a

/-- No item with the property stands right before the place. -/
def AtBoundary (holds : α → Prop) (s : List α) (place : Nat) : Prop :=
  ∀ i, i + 1 = place → ¬HoldsAt holds s i

/-- The `n` items from `p` on have the property, and neither the one before them nor the one behind them
does. -/
structure MaximalRun (holds : α → Prop) (s : List α) (p n : Nat) : Prop where
  nonempty : 0 < n
  inside : ∀ i, p ≤ i → i < p + n → HoldsAt holds s i
  opens : AtBoundary holds s p
  closes : ¬HoldsAt holds s (p + n)

theorem HoldsAt.lt_length (at_ : HoldsAt holds s i) : i < s.length := by
  obtain ⟨_, found, _⟩ := at_
  exact (List.getElem?_eq_some_iff.mp found).1

theorem atBoundary_zero : AtBoundary holds s 0 := fun _ isZero => absurd isZero (Nat.succ_ne_zero _)

namespace MaximalRun

theorem start (run : MaximalRun holds s p n) : HoldsAt holds s p :=
  run.inside p (Nat.le_refl p) (Nat.lt_add_of_pos_right run.nonempty)

/-- A run has one length. -/
theorem length_eq (one : MaximalRun holds s p n) (two : MaximalRun holds s p m) : n = m := by
  rcases Nat.lt_trichotomy n m with shorter | same | longer
  · exact absurd (two.inside (p + n) (by omega) (by omega)) one.closes
  · exact same
  · exact absurd (one.inside (p + m) (by omega) (by omega)) two.closes

/-- No run starts inside of another one, nor right behind it. -/
theorem start_eq (one : MaximalRun holds s p n) (two : MaximalRun holds s q m) (after : p ≤ q)
    (inside : q ≤ p + n) : q = p := by
  by_contra different
  rcases Nat.eq_or_lt_of_le inside with behind | inside
  · exact one.closes (behind ▸ two.start)
  · exact two.opens (q - 1) (by omega) (one.inside (q - 1) (by omega) (by omega))

end MaximalRun

/-! ## Scans -/

/-- The first place from `place` on with an item at which the scan stops, or the end of the list. -/
def scanTo (stop : α → Bool) (s : List α) (place : Nat) : Nat := place + (s.drop place).findIdx stop

variable {stop : α → Bool}

theorem le_scanTo : place ≤ scanTo stop s place := Nat.le_add_right _ _

theorem scanTo_le_length (inside : place ≤ s.length) : scanTo stop s place ≤ s.length := by
  have shorter : (s.drop place).findIdx stop ≤ (s.drop place).length := List.findIdx_le_length
  rw [List.length_drop] at shorter
  unfold scanTo
  omega

/-- The scan passes items at which it does not stop. -/
theorem scanTo_passes (after : place ≤ i) (before : i < scanTo stop s place) :
    ∃ a, s[i]? = some a ∧ stop a = false := by
  obtain ⟨j, rfl⟩ := Nat.exists_eq_add_of_le after
  have early : j < (s.drop place).findIdx stop := by
    unfold scanTo at before
    omega
  refine ⟨_, ?_, List.not_of_lt_findIdx early⟩
  rw [← List.getElem?_drop, List.getElem?_eq_getElem]

theorem scanTo_stops {a : α} (found : s[scanTo stop s place]? = some a) : stop a = true := by
  rw [scanTo, ← List.getElem?_drop] at found
  exact List.findIdx_of_getElem?_eq_some found

variable [DecidablePred holds]

/-- The place of the next item with the property. -/
abbrev runStart (holds : α → Prop) [DecidablePred holds] (s : List α) (place : Nat) : Nat :=
  scanTo (fun a => decide (holds a)) s place

/-- The place of the next item without it. -/
abbrev runEnd (holds : α → Prop) [DecidablePred holds] (s : List α) (place : Nat) : Nat :=
  scanTo (fun a => !decide (holds a)) s place

/-- No item with the property lies between a place and the next one that the scan finds. -/
theorem not_holdsAt_scan (after : place ≤ i) (before : i < runStart holds s place) :
    ¬HoldsAt holds s i := by
  rintro ⟨a, found, has⟩
  obtain ⟨b, found', lacks⟩ := scanTo_passes after before
  cases found.symm.trans found'
  exact of_decide_eq_false lacks has

theorem holdsAt_scan (more : runStart holds s place < s.length) :
    HoldsAt holds s (runStart holds s place) := by
  have found := List.getElem?_eq_getElem more
  have stops := scanTo_stops found
  exact ⟨_, found, of_decide_eq_true stops⟩

/-- What lies between the two scans is a maximal run, if the first one finds an item. -/
theorem maximalRun_scan (boundary : AtBoundary holds s place) (n : Nat)
    (start : p = runStart holds s place) (more : p < s.length)
    (length : p + n = runEnd holds s p) : MaximalRun holds s p n := by
  have first : HoldsAt holds s p := start ▸ holdsAt_scan (start ▸ more)
  have closes : ¬HoldsAt holds s (p + n) := by
    rintro ⟨a, found, has⟩
    rw [length] at found
    simpa [has] using scanTo_stops found
  refine ⟨?_, fun i after before => ?_, fun i next => ?_, closes⟩
  · refine Nat.pos_of_ne_zero fun isZero => closes ?_
    rwa [isZero, Nat.add_zero]
  · obtain ⟨a, found, passed⟩ := scanTo_passes after (length ▸ before)
    exact ⟨a, found, by simpa using passed⟩
  · have reached : place ≤ p := start ▸ le_scanTo
    rcases Nat.eq_or_lt_of_le reached with same | later
    · exact boundary i (next.trans same.symm)
    · have passed : place ≤ i := by omega
      exact not_holdsAt_scan passed (by omega)

/-- A run from the place on does not start before the item that the scan finds. -/
theorem MaximalRun.start_of_scan (run : MaximalRun holds s q m) (after : place ≤ q) :
    runStart holds s place ≤ q := by
  by_contra early
  exact not_holdsAt_scan after (by omega) run.start

/-! ## All runs -/

/-- Whether a run starts at a place. -/
def startsAt (holds : α → Prop) [DecidablePred holds] (s : List α) : Nat → Bool
  | 0 => s[0]?.any fun a => decide (holds a)
  | i + 1 => (s[i + 1]?.any fun a => decide (holds a)) && !(s[i]?.any fun a => decide (holds a))

/-- The places where the runs start. -/
def runStarts (holds : α → Prop) [DecidablePred holds] (s : List α) : List Nat :=
  (List.range s.length).filter (startsAt holds s)

/-- The maximal runs, in their order. -/
def runs (holds : α → Prop) [DecidablePred holds] (s : List α) : List (List α) :=
  (runStarts holds s).map fun p => (s.drop p).takeWhile fun a => decide (holds a)

theorem any_holds_iff : (s[i]?.any fun a => decide (holds a)) = true ↔ HoldsAt holds s i := by
  rw [Option.any_eq_true]
  simp only [decide_eq_true_eq]
  exact Iff.rfl

theorem startsAt_iff : startsAt holds s p = true ↔ HoldsAt holds s p ∧ AtBoundary holds s p := by
  cases p with
  | zero => exact any_holds_iff.trans (and_iff_left atBoundary_zero).symm
  | succ p =>
      rw [startsAt, Bool.and_eq_true, any_holds_iff, Bool.not_eq_true', ← Bool.not_eq_true, any_holds_iff]
      exact and_congr_right fun _ => ⟨fun before i next => Nat.succ.inj next ▸ before,
        fun boundary => boundary p rfl⟩

/-- A scan stops at once at an item with the property. -/
theorem HoldsAt.runStart_eq (here : HoldsAt holds s p) : p = runStart holds s p := by
  have inside := here.lt_length
  obtain ⟨a, found, has⟩ := here
  rw [List.getElem?_eq_getElem inside] at found
  rw [runStart, scanTo, List.drop_eq_getElem_cons inside, List.findIdx_cons, Option.some.inj found,
    decide_eq_true has]
  rfl

/-- A run starts where an item has the property and the one before it does not. -/
theorem exists_maximalRun_iff :
    (∃ n, MaximalRun holds s p n) ↔ HoldsAt holds s p ∧ AtBoundary holds s p := by
  constructor
  · rintro ⟨n, run⟩
    exact ⟨run.start, run.opens⟩
  · rintro ⟨here, boundary⟩
    have inside := here.lt_length
    obtain ⟨n, length⟩ := Nat.exists_eq_add_of_le (le_scanTo : p ≤ runEnd holds s p)
    exact ⟨n, maximalRun_scan boundary n here.runStart_eq inside length.symm⟩

theorem mem_runStarts : p ∈ runStarts holds s ↔ ∃ n, MaximalRun holds s p n := by
  rw [runStarts, List.mem_filter, startsAt_iff, exists_maximalRun_iff, List.mem_range]
  exact and_iff_right_of_imp fun both => both.1.lt_length

theorem runStarts_pairwise : (runStarts holds s).Pairwise (· < ·) := List.pairwise_lt_range.filter _

/-- There is one list of the starts in their order. -/
theorem eq_runStarts {starts : List Nat} (ordered : starts.Pairwise (· < ·))
    (words : ∀ p, p ∈ starts ↔ ∃ n, MaximalRun holds s p n) : starts = runStarts holds s :=
  ordered.eq_of_mem_iff runStarts_pairwise fun p => (words p).trans mem_runStarts.symm

/-- From the start of a run on the items of the run have the property, and the next one does not. -/
theorem MaximalRun.takeWhile_eq (run : MaximalRun holds s p n) :
    ((s.drop p).takeWhile fun a => decide (holds a)) = (s.drop p).take n := by
  obtain ⟨m, length⟩ := Nat.exists_eq_add_of_le (le_scanTo : p ≤ runEnd holds s p)
  have scanned := maximalRun_scan run.opens m run.start.runStart_eq run.start.lt_length length.symm
  have size : m = (s.drop p).findIdx fun a => !decide (holds a) := (Nat.add_left_cancel length).symm
  rw [run.length_eq scanned, size]
  exact List.takeWhile_eq_take_findIdx_not

theorem mem_runs {w : List α} :
    w ∈ runs holds s ↔ ∃ p n, MaximalRun holds s p n ∧ w = (s.drop p).take n := by
  rw [runs, List.mem_map]
  constructor
  · rintro ⟨p, member, rfl⟩
    obtain ⟨n, run⟩ := mem_runStarts.mp member
    exact ⟨p, n, run, run.takeWhile_eq⟩
  · rintro ⟨p, n, run, rfl⟩
    exact ⟨p, mem_runStarts.mpr ⟨n, run⟩, run.takeWhile_eq⟩

/-- Every item with the property lies in a run. -/
theorem HoldsAt.exists_run (here : HoldsAt holds s i) :
    ∃ p n, MaximalRun holds s p n ∧ p ≤ i ∧ i < p + n := by
  induction i with
  | zero =>
      obtain ⟨n, run⟩ := exists_maximalRun_iff.mpr ⟨here, atBoundary_zero⟩
      exact ⟨0, n, run, Nat.le_refl 0, by have := run.nonempty; omega⟩
  | succ i inductionHypothesis =>
      by_cases before : HoldsAt holds s i
      · obtain ⟨p, n, run, after, inside⟩ := inductionHypothesis before
        refine ⟨p, n, run, Nat.le_succ_of_le after, Nat.lt_of_le_of_ne inside fun atEnd => ?_⟩
        exact run.closes (atEnd ▸ here)
      · have boundary : AtBoundary holds s (i + 1) := fun j next => Nat.succ.inj next ▸ before
        obtain ⟨n, run⟩ := exists_maximalRun_iff.mpr ⟨here, boundary⟩
        exact ⟨i + 1, n, run, Nat.le_refl _, by have := run.nonempty; omega⟩

/-- The items of the runs are the items with the property. -/
theorem exists_mem_runs {a : α} (member : a ∈ s) (has : holds a) : ∃ w ∈ runs holds s, a ∈ w := by
  obtain ⟨i, inside, rfl⟩ := List.mem_iff_getElem.mp member
  have here : HoldsAt holds s i := ⟨_, List.getElem?_eq_getElem inside, has⟩
  obtain ⟨p, n, run, after, before⟩ := here.exists_run
  refine ⟨_, mem_runs.mpr ⟨p, n, run, rfl⟩, List.mem_of_getElem? (i := i - p) ?_⟩
  rw [List.getElem?_take_of_lt (by omega), List.getElem?_drop, Nat.add_sub_cancel' after,
    List.getElem?_eq_getElem inside]

theorem mem_of_mem_runs {a : α} {w : List α} (inRuns : w ∈ runs holds s) (member : a ∈ w) : a ∈ s := by
  obtain ⟨p, n, -, rfl⟩ := mem_runs.mp inRuns
  exact List.mem_of_mem_drop (List.mem_of_mem_take member)

/-- At least one item lies between two runs. -/
theorem runStarts_gaps : (runStarts holds s).Pairwise fun p q => p + 2 ≤ q := by
  refine runStarts_pairwise.imp_of_mem fun {p q} inRuns inRuns' before => ?_
  obtain ⟨n, run⟩ := mem_runStarts.mp inRuns
  obtain ⟨m, run'⟩ := mem_runStarts.mp inRuns'
  by_contra near
  have some_ := run.nonempty
  exact Nat.ne_of_gt before (run.start_eq run' (Nat.le_of_lt before) (by omega))

theorem length_le_of_gaps {places : List Nat} (gaps : places.Pairwise fun p q => p + 2 ≤ q) (low high : Nat)
    (within : ∀ p ∈ places, low ≤ p ∧ p < high) (room : low ≤ high + 1) :
    2 * places.length + low ≤ high + 1 := by
  induction places generalizing low with
  | nil => simpa using room
  | cons p places inductionHypothesis =>
      obtain ⟨first, rest⟩ := List.pairwise_cons.mp gaps
      have here := within p List.mem_cons_self
      have shorter := inductionHypothesis rest (p + 2)
        (fun q member => ⟨first q member, (within q (List.mem_cons_of_mem _ member)).2⟩) (by omega)
      rw [List.length_cons]
      omega

/-- So there are not more than half as many runs as items. -/
theorem runs_length_le : 2 * (runs holds s).length ≤ s.length + 1 := by
  have gaps : (runStarts holds s).Pairwise fun p q => p + 2 ≤ q := runStarts_gaps
  have shorter := length_le_of_gaps gaps 0 s.length
    (fun p member => ⟨Nat.zero_le p, List.mem_range.mp (List.mem_filter.mp member).1⟩) (Nat.zero_le _)
  rwa [Nat.add_zero, ← List.length_map] at shorter

end Voxel.Lib
