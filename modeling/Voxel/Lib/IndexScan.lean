/-
Module: Voxel.Lib.IndexScan
Layer: Lib
Purpose: A scan of a list by index, 0, 1, 2, …, while items are appended and taken out. The items that
  are there from the beginning of the scan on are all returned once exactly if no item that was passed
  is taken out while one of them is next.
Trusted boundary: human-reviewed spec
Main exports: IndexScan, IndexScan.NoneSkipped, IndexScan.KeepsPlace, IndexScan.noneSkipped_next,
  IndexScan.noneSkipped_append, IndexScan.noneSkipped_erase
-/
import Mathlib.Data.List.Nodup

namespace Voxel.Lib

universe u

/-- The items, the index of the next one that the scan reads, what it has returned, and the items that
are there since it began. -/
structure IndexScan (α : Type u) where
  items : List α
  place : Nat
  returned : List α
  surviving : List α

namespace IndexScan

variable {α : Type u} {s : IndexScan α} {a : α}

/-- Every item that was there all the time was returned once, or is still ahead. -/
def NoneSkipped [DecidableEq α] (s : IndexScan α) : Prop :=
  ∀ a ∈ s.surviving, s.returned.count a + (s.items.drop s.place).count a = 1

/-- No item occurs twice, and the surviving ones are there. -/
structure WellFormed (s : IndexScan α) : Prop where
  nodup : s.items.Nodup
  there : ∀ a ∈ s.surviving, a ∈ s.items

/-- Taking out an item keeps the place of the scan: it was not passed, or what comes next was not there
all the time. -/
def KeepsPlace (s : IndexScan α) (a : α) : Prop :=
  a ∈ s.items.take s.place → ∀ next, s.items[s.place]? = some next → next ∉ s.surviving

/-- The scan reads an item. -/
def next (s : IndexScan α) (a : α) : IndexScan α :=
  { s with place := s.place + 1, returned := s.returned ++ [a] }

/-- An item is appended. -/
def append (s : IndexScan α) (a : α) : IndexScan α := { s with items := s.items ++ [a] }

/-- An item is taken out. -/
def erase [DecidableEq α] (s : IndexScan α) (a : α) : IndexScan α :=
  { s with items := s.items.erase a, surviving := s.surviving.filter (· ≠ a) }

theorem WellFormed.append (formed : WellFormed s) (new : a ∉ s.items) : WellFormed (s.append a) where
  nodup := by
    show (s.items ++ [a]).Nodup
    rw [List.nodup_append]
    refine ⟨formed.nodup, List.nodup_singleton a, fun b member c single => ?_⟩
    rintro rfl
    rw [List.mem_singleton] at single
    rw [single] at member
    exact new member
  there := fun b survives => List.mem_append_left [a] (formed.there b survives)

variable [DecidableEq α]

theorem WellFormed.erase (formed : WellFormed s) : WellFormed (s.erase a) where
  nodup := formed.nodup.erase a
  there := fun b survives => by
    have both := List.mem_filter.mp survives
    have different : b ≠ a := by simpa using both.2
    exact (List.mem_erase_of_ne different).mpr (formed.there b both.1)

/-- A scan that begins. -/
theorem noneSkipped_start {items : List α} (nodup : items.Nodup) : NoneSkipped ⟨items, 0, [], items⟩ := by
  intro b there
  show [].count b + (items.drop 0).count b = 1
  rw [List.drop_zero, List.count_nil, Nat.zero_add]
  exact List.count_eq_one_of_mem nodup there

/-- A scan with nothing ahead has returned every surviving item once. -/
theorem NoneSkipped.ended (skipped : NoneSkipped s) (ended : s.items.length ≤ s.place) :
    ∀ b ∈ s.surviving, s.returned.count b = 1 := by
  intro b survives
  have once := skipped b survives
  rw [List.drop_eq_nil_of_le ended, List.count_nil] at once
  exact once

/-- Reading the next item skips nothing. -/
theorem noneSkipped_next (found : s.items[s.place]? = some a) : NoneSkipped (s.next a) ↔ NoneSkipped s := by
  obtain ⟨inside, rfl⟩ := List.getElem?_eq_some_iff.mp found
  unfold NoneSkipped
  refine forall₂_congr fun b _ => ?_
  show (s.returned ++ [s.items[s.place]]).count b + (s.items.drop (s.place + 1)).count b = 1 ↔ _
  rw [List.drop_eq_getElem_cons inside, List.count_append, List.count_cons (l := s.items.drop _),
    List.count_singleton]
  omega

/-- What is appended was not there all the time. -/
theorem noneSkipped_append (formed : WellFormed s) (new : a ∉ s.items) :
    NoneSkipped (s.append a) ↔ NoneSkipped s := by
  unfold NoneSkipped
  refine forall₂_congr fun b survives => ?_
  have other : b ≠ a := by
    rintro rfl
    exact new (formed.there b survives)
  show s.returned.count b + ((s.items ++ [a]).drop s.place).count b = 1 ↔ _
  have none_ : ([a].drop (s.place - s.items.length)).count b = 0 := by
    refine List.count_eq_zero.mpr fun member => other ?_
    exact List.mem_singleton.mp (List.mem_of_mem_drop member)
  rw [List.drop_append, List.count_append, none_]
  omega

/-- An item that was passed is taken out: the next one is passed too. -/
theorem drop_erase_passed {items : List α} {place : Nat} (passed : a ∈ items.take place) :
    (items.erase a).drop place = items.drop (place + 1) := by
  have length := List.length_erase_of_mem passed
  have some_ := List.length_pos_of_mem passed
  have parts : items.erase a = (items.take place).erase a ++ items.drop place := by
    conv_lhs => rw [← List.take_append_drop place items]
    exact List.erase_append_left _ passed
  rw [parts, List.drop_append, List.drop_eq_nil_of_le (by rw [length, List.length_take]; omega),
    List.nil_append, List.drop_drop]
  rw [List.length_take] at length some_
  rcases Nat.le_total place items.length with inside | outside
  · congr 1
    omega
  · rw [List.drop_eq_nil_of_le (by omega), List.drop_eq_nil_of_le (by omega)]

/-- An item that was not passed is taken out. -/
theorem drop_erase_ahead {items : List α} {place : Nat} (ahead : a ∉ items.take place) :
    (items.erase a).drop place = (items.drop place).erase a := by
  have parts : items.erase a = items.take place ++ (items.drop place).erase a := by
    conv_lhs => rw [← List.take_append_drop place items]
    exact List.erase_append_right _ ahead
  rcases Nat.le_total place items.length with inside | outside
  · rw [parts, List.drop_append, List.drop_eq_nil_of_le (by rw [List.length_take]; omega),
      List.nil_append, List.length_take, Nat.min_eq_left inside, Nat.sub_self, List.drop_zero]
  · have shorter := List.length_erase_le (l := items) (a := a)
    rw [List.drop_eq_nil_of_le (by omega), List.drop_eq_nil_of_le outside, List.erase_nil]

/-- Taking out an item skips nothing exactly if the place is kept. -/
theorem noneSkipped_erase (formed : WellFormed s) (before : NoneSkipped s) :
    NoneSkipped (s.erase a) ↔ KeepsPlace s a := by
  by_cases passed : a ∈ s.items.take s.place
  · have shifted := drop_erase_passed passed
    constructor
    · -- The next item is a surviving one that is not ahead any more.
      intro after _ next found survives
      obtain ⟨inside, rfl⟩ := List.getElem?_eq_some_iff.mp found
      have different : s.items[s.place] ≠ a := by
        intro same
        obtain ⟨i, early, same'⟩ := List.mem_take_iff_getElem.mp passed
        have indices : i = s.place := formed.nodup.getElem_inj_iff.mp (same'.trans same.symm)
        omega
      have kept : s.items[s.place] ∈ (s.erase a).surviving :=
        List.mem_filter.mpr ⟨survives, by simpa using different⟩
      have now := after _ kept
      have once := before _ survives
      change s.returned.count _ + ((s.items.erase a).drop s.place).count _ = 1 at now
      rw [shifted] at now
      rw [List.drop_eq_getElem_cons inside, List.count_cons_self] at once
      omega
    · intro keeps b survives
      have old := (List.mem_filter.mp survives).1
      have once := before b old
      show s.returned.count b + ((s.items.erase a).drop s.place).count b = 1
      rw [shifted]
      rcases Nat.lt_or_ge s.place s.items.length with inside | outside
      · have other : s.items[s.place] ≠ b := by
          rintro rfl
          exact keeps passed _ (List.getElem?_eq_getElem inside) old
        rw [List.drop_eq_getElem_cons inside, List.count_cons_of_ne other] at once
        exact once
      · rw [List.drop_eq_nil_of_le outside] at once
        rw [List.drop_eq_nil_of_le (by omega)]
        exact once
  · refine iff_of_true (fun b survives => ?_) fun wrong => absurd wrong passed
    have both := List.mem_filter.mp survives
    have different : b ≠ a := by simpa using both.2
    show s.returned.count b + ((s.items.erase a).drop s.place).count b = 1
    rw [drop_erase_ahead passed, List.count_erase_of_ne different]
    exact before b both.1

end IndexScan

end Voxel.Lib
