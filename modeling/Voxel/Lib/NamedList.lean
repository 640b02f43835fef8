/-
Module: Voxel.Lib.NamedList
Layer: Lib
Purpose: A list of entries with names, searched from the front, as a finite map from names to entries.
  Appending an entry with a new name and erasing the entry of a name are the updates of the map, and
  the names of the list are its domain.
Trusted boundary: none
Main exports: NamedList.find, NamedList.Distinct, NamedList.Distinct.append, NamedList.Distinct.erase,
  NamedList.Distinct.mem_names
-/
import Mathlib.Data.List.Nodup
import Mathlib.Logic.Function.Basic

namespace Voxel.Lib.NamedList

universe u v

variable {Entry : Type u} {Name : Type v}
  {nameOf nameOf' : Entry → Option Name} {entries : List Entry} {entry : Entry} {name : Name}

/-- The first entry with a name. -/
def find [DecidableEq Name] (nameOf : Entry → Option Name) (entries : List Entry) (name : Name) :
    Option Entry :=
  entries.find? fun entry => nameOf entry = some name

/-- Every entry has a name, and no two entries have the same. -/
structure Distinct (nameOf : Entry → Option Name) (entries : List Entry) : Prop where
  nodup : (entries.map nameOf).Nodup
  named : ∀ entry ∈ entries, ∃ name, nameOf entry = some name

theorem Distinct.nil : Distinct nameOf [] :=
  ⟨List.nodup_nil, nofun⟩

/-- Only the names of the entries matter. -/
theorem Distinct.congr (distinct : Distinct nameOf entries)
    (same : ∀ entry ∈ entries, nameOf' entry = nameOf entry) : Distinct nameOf' entries where
  nodup := by
    rw [List.map_congr_left same]
    exact distinct.nodup
  named := fun entry member => same entry member ▸ distinct.named entry member

/-- An entry is taken out. -/
theorem Distinct.erase [DecidableEq Entry] (distinct : Distinct nameOf entries) (entry : Entry) :
    Distinct nameOf (entries.erase entry) where
  nodup := distinct.nodup.sublist (List.erase_sublist.map nameOf)
  named := fun other member => distinct.named other (List.mem_of_mem_erase member)

/-- The names of the entries, in their order. -/
def names (nameOf : Entry → Option Name) (entries : List Entry) : List Name := entries.filterMap nameOf

theorem Distinct.map_names (distinct : Distinct nameOf entries) :
    (names nameOf entries).map some = entries.map nameOf := by
  unfold names
  have named := distinct.named
  clear distinct
  induction entries with
  | nil => rfl
  | cons first rest inductionHypothesis =>
      obtain ⟨name, isName⟩ := named first List.mem_cons_self
      rw [List.filterMap_cons_some isName, List.map_cons, List.map_cons, isName,
        inductionHypothesis fun entry member => named entry (List.mem_cons_of_mem _ member)]

/-- Every name occurs once. -/
theorem Distinct.names_nodup (distinct : Distinct nameOf entries) : (names nameOf entries).Nodup := by
  have nodup := distinct.nodup
  rw [← distinct.map_names] at nodup
  exact nodup.of_map

/-- The name of the entry at an index. -/
theorem Distinct.names_getElem? (distinct : Distinct nameOf entries) (i : Nat) :
    (names nameOf entries)[i]? = entries[i]?.bind nameOf := by
  have same := congrArg (fun list => list[i]?) distinct.map_names
  simp only [List.getElem?_map] at same
  cases here : entries[i]? with
  | none =>
      rw [here] at same
      cases there : (names nameOf entries)[i]? with
      | none => rfl
      | some name => rw [there] at same; cases same
  | some entry =>
      rw [here] at same
      cases there : (names nameOf entries)[i]? with
      | none => rw [there] at same; cases same
      | some name =>
          rw [there] at same
          exact Option.some.inj same

/-! ## The search -/

section Search

variable [DecidableEq Name]

theorem find_congr (same : ∀ entry ∈ entries, nameOf' entry = nameOf entry) (name : Name) :
    find nameOf' entries name = find nameOf entries name := by
  induction entries with
  | nil => rfl
  | cons first rest inductionHypothesis =>
      have tail := inductionHypothesis fun entry member => same entry (List.mem_cons_of_mem _ member)
      unfold find at tail ⊢
      simp only [List.find?_cons, same first List.mem_cons_self, tail]

theorem find_eq_none : find nameOf entries name = none ↔ ∀ entry ∈ entries, nameOf entry ≠ some name := by
  unfold find
  simp [List.find?_eq_none]

/-- With distinct names the search finds the entry of a name, wherever it stands. -/
theorem Distinct.find_eq_some (distinct : Distinct nameOf entries) :
    find nameOf entries name = some entry ↔ entry ∈ entries ∧ nameOf entry = some name := by
  constructor
  · intro found
    exact ⟨List.mem_of_find?_eq_some found, by simpa using List.find?_some found⟩
  · rintro ⟨member, named⟩
    cases found : find nameOf entries name with
    | none => exact absurd named (find_eq_none.mp found entry member)
    | some other =>
        have memberOther := List.mem_of_find?_eq_some found
        have namedOther : nameOf other = some name := by simpa using List.find?_some found
        rw [List.inj_on_of_nodup_map distinct.nodup memberOther member (namedOther.trans named.symm)]

/-- An entry with a new name behind the others. -/
theorem Distinct.append (distinct : Distinct nameOf entries) (new : find nameOf entries name = none)
    (named : nameOf entry = some name) : Distinct nameOf (entries ++ [entry]) where
  nodup := by
    rw [List.map_append, List.map_singleton, List.nodup_append]
    refine ⟨distinct.nodup, List.nodup_singleton _, ?_⟩
    intro a inEntries b inNew same
    obtain ⟨old, member, rfl⟩ := List.mem_map.mp inEntries
    rw [List.mem_singleton] at inNew
    exact find_eq_none.mp new old member (same.trans (inNew.trans named))
  named := by
    intro other member
    rcases List.mem_append.mp member with old | isNew
    · exact distinct.named other old
    · rw [List.mem_singleton.mp isNew]
      exact ⟨name, named⟩

theorem find_append (new : find nameOf entries name = none) (named : nameOf entry = some name) :
    find nameOf (entries ++ [entry]) = Function.update (find nameOf entries) name (some entry) := by
  funext other
  by_cases same : other = name
  · subst same
    rw [Function.update_self]
    unfold find at new ⊢
    rw [List.find?_append, new, Option.none_or, List.find?_cons_of_pos (by simpa using named)]
  · rw [Function.update_of_ne same]
    unfold find
    have notNew : ¬ nameOf entry = some other := fun equal =>
      same (Option.some.inj (equal.symm.trans named))
    rw [List.find?_append, List.find?_cons_of_neg (by simpa using notNew), List.find?_nil, Option.or_none]

/-- The entry of a name is taken out. -/
theorem Distinct.find_erase [DecidableEq Entry] (distinct : Distinct nameOf entries)
    (found : find nameOf entries name = some entry) :
    find nameOf (entries.erase entry) = Function.update (find nameOf entries) name none := by
  have named := (distinct.find_eq_some.mp found).2
  have nodup : entries.Nodup := distinct.nodup.of_map
  funext other
  apply Option.ext
  intro kept
  have inside : find nameOf (entries.erase entry) other = some kept ↔
      kept ∈ entries.erase entry ∧ nameOf kept = some other := (distinct.erase entry).find_eq_some
  rw [inside, nodup.mem_erase_iff]
  by_cases same : other = name
  · subst same
    rw [Function.update_self]
    constructor
    · rintro ⟨⟨different, member⟩, namedKept⟩
      exact absurd (List.inj_on_of_nodup_map distinct.nodup member
        (distinct.find_eq_some.mp found).1 (namedKept.trans named.symm)) different
    · intro impossible
      cases impossible
  · rw [Function.update_of_ne same, distinct.find_eq_some]
    constructor
    · rintro ⟨⟨_, member⟩, namedKept⟩
      exact ⟨member, namedKept⟩
    · rintro ⟨member, namedKept⟩
      refine ⟨⟨?_, member⟩, namedKept⟩
      rintro rfl
      exact same (Option.some.inj (namedKept.symm.trans named))

/-- The names are those that the search finds. -/
theorem Distinct.mem_names (distinct : Distinct nameOf entries) :
    name ∈ names nameOf entries ↔ ∃ entry, find nameOf entries name = some entry := by
  unfold names
  rw [List.mem_filterMap]
  exact exists_congr fun entry => distinct.find_eq_some.symm

end Search

end Voxel.Lib.NamedList
