/-
Module: Voxel.Proofs.PtsDirectory
Layer: Proofs
Purpose: `/dev/pts` lists the numerals of its terminals, and opens every name that `atoi` reads the same
  numbers from: with other zeros, signs or characters behind the digits. What it opens is listed for the
  numerals only.
Trusted boundary: none
Main exports: Registered, PtyListed, ptyListed_iff, finddirPty_isSome_iff, OpensListed, pts_opens_iff
-/
import Voxel.Proofs.TerminalPaths

namespace Voxel.Proofs

open Voxel.Lib Voxel.Kernel

/-! ## Entries -/

/-- The entries are those of `pty_add`, for terminals with distinct positive numbers. -/
structure Registered (ptyMap : List PtyMapEntry) : Prop where
  indexed : ∀ entry ∈ ptyMap, entry.index = entry.pty.name
  positive : ∀ entry ∈ ptyMap, 0 < entry.index
  distinct : (ptyMap.map PtyMapEntry.index).Nodup

/-- An index at which `readdir_pty` returns a record with this name. -/
def PtyListed (ptyMap : List PtyMapEntry) (index : Nat) (name : CString) : Prop :=
  ∃ record, readdirPty (ptyMap.map PtyMapEntry.listed) index = some (some record) ∧
    cstringAt record.name 0 = name

variable {ptyMap : List PtyMapEntry} {name : CString}

/-- Behind the two records of the directory itself, an entry is listed by its numeral. -/
theorem ptyListed_iff {index : Nat} (behind : 2 ≤ index) :
    PtyListed ptyMap index name ↔ ∃ entry, ptyMap[index - 2]? = some entry ∧ itoa entry.pty.name = name := by
  have stored : ∀ target : Int, ∃ field, strcpy (List.replicate nodeNameSize 0) (itoa target) = some field ∧
      cstringAt field 0 = itoa target := by
    intro target
    have room : (itoa target).length < (List.replicate nodeNameSize (0 : BitVec 8)).length := by
      rw [List.length_replicate]
      exact Nat.lt_of_le_of_lt (itoa_length target) (by decide)
    rw [strcpy_eq, if_pos room]
    refine ⟨_, rfl, ?_⟩
    rw [cstringAt, List.drop_zero, takeWhile_isCString (itoa_component target).isString]
  unfold PtyListed readdirPty
  rw [if_neg (by omega), if_neg (by omega), List.getElem?_map]
  cases ptyMap[index - 2]? with
  | none => simp
  | some entry =>
      obtain ⟨field, copied, text⟩ := stored entry.pty.name
      dsimp only [Option.map_some, PtyMapEntry.listed]
      rw [copied]
      constructor
      · rintro ⟨record, same, isName⟩
        cases same
        exact ⟨entry, rfl, text.symm.trans isName⟩
      · rintro ⟨_, same, isName⟩
        cases same
        exact ⟨_, rfl, text.trans isName⟩

/-- The number of a terminal is read from its numeral. -/
theorem atoi_name (pty : Terminal) : (atoi (itoa pty.name) 10).toInt = pty.name := atoi_index pty.index

/-- Terminals with distinct numbers are found by them. -/
theorem ptyGet_of_member (distinct : (ptyMap.map PtyMapEntry.index).Nodup) {entry : PtyMapEntry}
    (member : entry ∈ ptyMap) : ptyGet ptyMap entry.index = some entry.pty := by
  unfold ptyGet
  induction ptyMap with
  | nil => cases member
  | cons first rest inductionHypothesis =>
      rw [List.map_cons, List.nodup_cons] at distinct
      rw [List.find?_cons]
      rcases List.mem_cons.mp member with rfl | later
      · rw [decide_eq_true rfl]
        rfl
      · have other : first.index ≠ entry.index := fun same =>
          distinct.1 (same ▸ List.mem_map_of_mem later)
        rw [decide_eq_false other]
        exact inductionHypothesis distinct.2 later

/-- A name is opened if the number that `atoi` reads from it has a terminal. -/
theorem finddirPty_isSome_iff :
    (finddirPty ptyMap name).isSome ↔ name ≠ [] ∧ ∃ entry ∈ ptyMap, entry.index = (atoi name 10).toInt := by
  unfold finddirPty ptyGet
  by_cases empty : name = []
  · simp [empty]
  · have some_ : ¬name.length < 1 := fun short => empty (List.length_eq_zero_iff.mp (by omega))
    rw [if_neg some_, Option.isSome_map, List.find?_isSome]
    simp [empty]

/-! ## Names -/

/-- A name is opened exactly if it is listed, and then the terminal that is listed by it. -/
def OpensListed (ptyMap : List PtyMapEntry) (name : CString) : Prop :=
  ((finddirPty ptyMap name).isSome ↔ ∃ index, 2 ≤ index ∧ PtyListed ptyMap index name) ∧
    ∀ index, 2 ≤ index → PtyListed ptyMap index name →
      finddirPty ptyMap name = (ptyMap[index - 2]?).map PtyMapEntry.pty

/-- What is listed is opened. -/
theorem finddirPty_listed (registered : Registered ptyMap) {index : Nat} (behind : 2 ≤ index)
    (listed : PtyListed ptyMap index name) :
    finddirPty ptyMap name = (ptyMap[index - 2]?).map PtyMapEntry.pty := by
  obtain ⟨entry, isEntry, rfl⟩ := (ptyListed_iff behind).mp listed
  have member : entry ∈ ptyMap := List.mem_of_getElem? isEntry
  have some_ : ¬(itoa entry.pty.name).length < 1 := fun short =>
    (itoa_component entry.pty.name).notEmpty (List.length_eq_zero_iff.mp (by omega))
  rw [finddirPty, if_neg some_, atoi_name, ← registered.indexed entry member,
    ptyGet_of_member registered.distinct member, isEntry]
  rfl

/-- The names that are listed are the numerals of the numbers. -/
theorem listed_iff :
    (∃ index, 2 ≤ index ∧ PtyListed ptyMap index name) ↔ ∃ entry ∈ ptyMap, itoa entry.pty.name = name := by
  constructor
  · rintro ⟨index, behind, listed⟩
    obtain ⟨entry, isEntry, isName⟩ := (ptyListed_iff behind).mp listed
    exact ⟨entry, List.mem_of_getElem? isEntry, isName⟩
  · rintro ⟨entry, member, isName⟩
    obtain ⟨place, isEntry⟩ := List.mem_iff_getElem?.mp member
    exact ⟨place + 2, Nat.le_add_left 2 place, (ptyListed_iff (Nat.le_add_left 2 place)).mpr
      ⟨entry, isEntry, isName⟩⟩

/-- For every set of terminals with distinct positive numbers, a name is opened exactly if it is listed, and
then its own terminal is found, exactly if the name is empty, is the numeral of the number that `atoi` reads
from it, or that number has no terminal. -/
theorem pts_opens_iff (registered : Registered ptyMap) (name : CString) :
    OpensListed ptyMap name ↔
      name = [] ∨ itoa (atoi name 10).toInt = name ∨ ∀ entry ∈ ptyMap,
        entry.index ≠ (atoi name 10).toInt := by
  have numeral : ∀ entry ∈ ptyMap, itoa entry.pty.name = name →
      entry.index = (atoi name 10).toInt ∧ itoa (atoi name 10).toInt = name := by
    rintro entry member rfl
    rw [atoi_name, registered.indexed entry member]
    exact ⟨rfl, rfl⟩
  constructor
  · rintro ⟨opens, -⟩
    rw [finddirPty_isSome_iff, listed_iff] at opens
    by_cases empty : name = []
    · exact .inl empty
    by_cases known : ∃ entry ∈ ptyMap, entry.index = (atoi name 10).toInt
    · obtain ⟨entry, member, isName⟩ := opens.mp ⟨empty, known⟩
      exact .inr (.inl (numeral entry member isName).2)
    · exact .inr (.inr fun entry member same => known ⟨entry, member, same⟩)
  · intro cases_
    refine ⟨?_, fun index behind listed => finddirPty_listed registered behind listed⟩
    rw [finddirPty_isSome_iff, listed_iff]
    constructor
    · rintro ⟨some_, entry, member, same⟩
      rcases cases_ with empty | isNumeral | unknown
      · exact absurd empty some_
      · refine ⟨entry, member, ?_⟩
        rw [← registered.indexed entry member, same]
        exact isNumeral
      · exact absurd same (unknown entry member)
    · rintro ⟨entry, member, isName⟩
      refine ⟨fun empty => ?_, entry, member, (numeral entry member isName).1⟩
      exact (itoa_component entry.pty.name).notEmpty (isName.trans empty)

/-- The first terminal of a kernel. -/
def firstTerminal : List PtyMapEntry :=
  ptyAdd [] { address := 0, index := 1, slave := { uid := 0, gid := 0, mask := 0o620 } }

theorem firstTerminal_registered : Registered firstTerminal :=
  ⟨by decide, by decide, by decide⟩

theorem pts_opens_iff_one : OpensListed firstTerminal ("1".toList.map chr) :=
  (pts_opens_iff firstTerminal_registered _).mpr (by decide)

/-- The name `01` opens the first terminal and is not listed. -/
theorem pts_opens_zero_one : ¬OpensListed firstTerminal ("01".toList.map chr) := by
  rintro ⟨opens, -⟩
  rw [listed_iff] at opens
  have listed : ∃ entry ∈ firstTerminal, itoa entry.pty.name = "01".toList.map chr := opens.mp (by decide)
  exact absurd listed (by decide)

end Voxel.Proofs
