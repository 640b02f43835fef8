/-
Module: Voxel.Proofs.RamdiskChecked
Layer: Proofs
Purpose: The checked callbacks of the ramdisk are the callbacks. Where a checked call ends, the call
  that reads whatever memory it is led to has the same result, as long as no name fills its field.
Trusted boundary: none
Main exports: TextAt, entryName_textAt, finddirLoopInside_agrees, readdirLoopInside_agrees,
  ramdiskfsReadInside_agrees
-/
import Voxel.Proofs.RamdiskBounds

namespace Voxel.Proofs

open Voxel.Lib Voxel.Kernel

variable {mem : RamdiskMemory}

/-! ## Names -/

/-- The string at an address. -/
structure TextAt (mem : RamdiskMemory) (address : Nat) (text : CString) : Prop where
  isString : IsCString text
  bytes : ∀ j < text.length, text[j]? = some (mem (address + j))
  terminator : mem (address + text.length) = nul

/-- `strcpy` copies the string at the address. -/
theorem strcpyInside_text {fuel address : Nat} {text : CString}
    (copied : strcpyInside mem fuel address = some text) : TextAt mem address text := by
  induction fuel generalizing address text with
  | zero => cases copied
  | succ fuel inductionHypothesis =>
      rw [strcpyInside] at copied
      obtain ⟨_, -, rest⟩ := Option.bind_eq_some_iff.mp copied
      by_cases ends : mem address = nul
      · rw [if_pos ends] at rest
        cases rest
        exact ⟨List.not_mem_nil, fun j below => absurd below (Nat.not_lt_zero j), ends⟩
      · rw [if_neg ends] at rest
        obtain ⟨tail, later, rfl⟩ := Option.map_eq_some_iff.mp rest
        obtain ⟨isString, bytes, terminator⟩ := inductionHypothesis later
        refine ⟨?_, fun j below => ?_, ?_⟩
        · intro member
          rcases List.mem_cons.mp member with isNul | inTail
          · exact ends isNul.symm
          · exact isString inTail
        · cases j with
          | zero => rfl
          | succ j =>
              rw [List.getElem?_cons_succ, bytes j (Nat.lt_of_succ_lt_succ below)]
              congr 2
              omega
        · rw [← terminator, List.length_cons]
          congr 1
          omega

/-- A string is common with the memory as far as its bytes are there. -/
theorem commonLength_eq_iff (address : Nat) (name : CString) :
    commonLength mem address name = name.length ↔
      ∀ j < name.length, name[j]? = some (mem (address + j)) := by
  induction name generalizing address with
  | nil => exact iff_of_true rfl fun j below => absurd below (Nat.not_lt_zero j)
  | cons c rest inductionHypothesis =>
      rw [commonLength, List.length_cons]
      by_cases same : mem address = c
      · rw [if_pos same, Nat.add_right_cancel_iff, inductionHypothesis]
        constructor
        · intro later j below
          cases j with
          | zero => exact congrArg some same.symm
          | succ j =>
              rw [List.getElem?_cons_succ, later j (Nat.lt_of_succ_lt_succ below)]
              congr 2
              omega
        · intro all j below
          have next := all (j + 1) (Nat.succ_lt_succ below)
          rw [List.getElem?_cons_succ] at next
          rw [next]
          congr 2
          omega
      · rw [if_neg same]
        refine iff_of_false (Nat.succ_ne_zero _).symm fun all => same ?_
        exact (Option.some.inj (all 0 (Nat.succ_pos _))).symm

theorem hasName_iff {entry : Nat} {name : CString} (isString : IsCString name) :
    HasName mem entry name ↔ TextAt mem (entry + 1) name := by
  unfold HasName
  rw [commonLength_eq_iff]
  exact ⟨fun both => ⟨isString, both.1, both.2⟩, fun text => ⟨text.bytes, text.terminator⟩⟩

/-- The name of an entry is the string in its field, if it does not fill it. -/
theorem entryName_textAt {entry : Nat} {text : CString} (short : text.length < 256)
    (at_ : TextAt mem (entry + 1) text) : mem.entryName entry = text := by
  have field : (List.range 256).map (fun i => mem (entry + 1 + i)) =
      text ++ nul :: ((List.range 256).map fun i => mem (entry + 1 + i)).drop (text.length + 1) := by
    refine List.ext_getElem? fun i => ?_
    rcases Nat.lt_trichotomy i text.length with before | rfl | behind
    · rw [List.getElem?_append_left before, at_.bytes i before, List.getElem?_map,
        List.getElem?_range (Nat.lt_trans before short)]
      rfl
    · rw [List.getElem?_append_right (Nat.le_refl _), Nat.sub_self, List.getElem?_cons_zero,
        List.getElem?_map, List.getElem?_range short, Option.map_some, at_.terminator]
    · obtain ⟨k, rfl⟩ := Nat.exists_eq_add_of_lt behind
      rw [List.getElem?_append_right (by omega), show text.length + k + 1 - text.length = k + 1 by omega,
        List.getElem?_cons_succ, List.getElem?_drop]
      congr 1
      omega
  rw [RamdiskMemory.entryName, cstringAt, List.drop_zero, field]
  exact takeWhile_isCString at_.isString _

/-- The name of an entry that does not fill its field is the string there. -/
theorem textAt_entryName {entry : Nat} (short : (mem.entryName entry).length < 256) :
    TextAt mem (entry + 1) (mem.entryName entry) := by
  have isName : mem.entryName entry =
      ((List.range 256).map fun i => mem (entry + 1 + i)).takeWhile (· ≠ nul) := by
    rw [RamdiskMemory.entryName, cstringAt, List.drop_zero]
  generalize mem.entryName entry = name at *
  have whole := List.takeWhile_append_dropWhile (p := (· ≠ nul))
    (l := (List.range 256).map fun i => mem (entry + 1 + i))
  have last := List.head?_dropWhile_not (· ≠ nul) ((List.range 256).map fun i => mem (entry + 1 + i))
  rw [← isName] at whole
  have byte : ∀ j < 256, ((List.range 256).map fun i => mem (entry + 1 + i))[j]? =
      some (mem (entry + 1 + j)) := by
    intro j below
    rw [List.getElem?_map, List.getElem?_range below]
    rfl
  cases behind : ((List.range 256).map fun i => mem (entry + 1 + i)).dropWhile (· ≠ nul) with
  | nil =>
      rw [behind, List.append_nil] at whole
      rw [whole] at short
      simp at short
  | cons d rest =>
      rw [behind] at whole last
      refine ⟨?_, fun j below => ?_, ?_⟩
      · rw [isName]
        exact fun member => absurd (List.mem_takeWhile_imp member) (by simp)
      · rw [← byte j (Nat.lt_trans below short), ← whole, List.getElem?_append_left below]
      · have here := byte name.length short
        rw [← whole, List.getElem?_append_right (Nat.le_refl _), Nat.sub_self,
          List.getElem?_cons_zero] at here
        rw [← Option.some.inj here]
        simpa using last

/-! ## The callbacks -/

/-- The name that is looked for, if it does not fill a field. -/
theorem entryName_eq_iff {entry : Nat} {name : CString} (isString : IsCString name)
    (short : name.length < 256) : mem.entryName entry = name ↔ HasName mem entry name := by
  rw [hasName_iff isString]
  constructor
  · rintro rfl
    exact textAt_entryName short
  · exact entryName_textAt short

/-- Two strings at one address. -/
theorem TextAt.unique {address : Nat} {text other : CString} (one : TextAt mem address text)
    (two : TextAt mem address other) : text = other := by
  have notShorter : ∀ {text other : CString}, TextAt mem address text → TextAt mem address other →
      ¬text.length < other.length := by
    intro text other one two shorter
    have byte := two.bytes text.length shorter
    rw [one.terminator] at byte
    exact two.isString (List.mem_of_getElem? byte)
  have length : text.length = other.length :=
    Nat.le_antisymm (Nat.le_of_not_lt (notShorter two one)) (Nat.le_of_not_lt (notShorter one two))
  refine List.ext_getElem? fun i => ?_
  by_cases inside : i < text.length
  · rw [one.bytes i inside, two.bytes i (length ▸ inside)]
  · rw [List.getElem?_eq_none (Nat.le_of_not_lt inside),
      List.getElem?_eq_none (length ▸ Nat.le_of_not_lt inside)]

/-- The node that is made. -/
theorem entryNodeInside_agrees {fuel entry : Nat} {name : CString} {node : Option RamdiskNode}
    (isString : IsCString name) (short : name.length < 256) (same : HasName mem entry name)
    (made : entryNodeInside mem fuel entry = some node) : entryNode mem entry = node := by
  unfold entryNodeInside at made
  obtain ⟨text, copied, rest⟩ := Option.bind_eq_some_iff.mp made
  have isText : mem.entryName entry = text := by
    rw [(entryName_eq_iff isString short).mpr same]
    exact ((hasName_iff isString).mp same).unique (strcpyInside_text copied)
  obtain ⟨type, read, rest⟩ := Option.bind_eq_some_iff.mp rest
  have isType : type = mem.entryType entry := (readInside_cases read).2
  subst isType
  unfold entryNode
  rw [isText]
  split_ifs at rest ⊢
  · obtain ⟨size, length, rfl⟩ := Option.map_eq_some_iff.mp rest
    have isSize : size = mem.entryLength entry := (readInside_cases length).2
    rw [isSize]
  · exact Option.some.inj rest
  · exact Option.some.inj rest
  · exact Option.some.inj rest

/-- `ramdiskfs_finddir`, with the same fuel. -/
theorem finddirLoopInside_agrees {name : CString} (isString : IsCString name) (short : name.length < 256)
    {fuel start : Nat} {found : Option RamdiskNode}
    (searched : finddirLoopInside mem name fuel start = some found) :
    finddirLoop mem name fuel start = some found := by
  induction fuel generalizing start with
  | zero => cases searched
  | succ fuel inductionHypothesis =>
      rw [finddirLoopInside] at searched
      rw [finddirLoop]
      by_cases isEntry : start = 0
      · rw [if_pos isEntry] at searched ⊢
        exact searched
      rw [if_neg isEntry] at searched ⊢
      obtain ⟨same, compared, rest⟩ := Option.bind_eq_some_iff.mp searched
      have isName := (strcmpInside_cases compared).2
      cases same with
      | true =>
          rw [if_pos rfl] at rest
          have hasName := isName.mp rfl
          rw [if_pos ((entryName_eq_iff isString short).mpr hasName),
            entryNodeInside_agrees isString short hasName rest]
      | false =>
          rw [if_neg Bool.false_ne_true] at rest
          obtain ⟨next, read, later⟩ := Option.bind_eq_some_iff.mp rest
          obtain ⟨-, rfl⟩ := readInside_link read
          have other : ¬mem.entryName start = name := fun hasName =>
            Bool.false_ne_true (isName.mpr ((entryName_eq_iff isString short).mp hasName))
          rw [if_neg other]
          exact inductionHypothesis later

/-- `ramdiskfs_readdir`, for an index that its counter reaches. -/
theorem readdirLoopInside_agrees {index : BitVec 64} (small : index.toNat < 2 ^ 32) {fuel start : Nat}
    {i : BitVec 32} {record : Option CString} (before : i.toNat ≤ index.toNat)
    (short : ∀ name, record = some name → name.length < 256)
    (listed : readdirLoopInside mem index fuel i start = some record) :
    readdirLoop mem start (index.toNat - i.toNat) = record := by
  have stops : ∀ count, readdirLoop mem 0 count = none := by
    intro count
    cases count <;> rfl
  induction fuel generalizing start i with
  | zero => cases listed
  | succ fuel inductionHypothesis =>
      have width : (i.setWidth 64).toNat = i.toNat := by
        rw [BitVec.toNat_setWidth]
        omega
      rw [readdirLoopInside] at listed
      by_cases isEntry : start = 0
      · rw [if_pos isEntry, if_pos isEntry, ite_self] at listed
        rw [isEntry, stops]
        exact Option.some.inj listed
      rw [if_neg isEntry, if_neg isEntry] at listed
      split at listed
      · rename_i less
        have below : i.toNat < index.toNat := by rw [← width]; exact less
        have next : (i + 1).toNat = i.toNat + 1 := by bv_omega
        obtain ⟨link, read, later⟩ := Option.bind_eq_some_iff.mp listed
        obtain ⟨-, rfl⟩ := readInside_link read
        have rest := inductionHypothesis (by omega) later
        rw [next] at rest
        rw [show index.toNat - i.toNat = index.toNat - (i.toNat + 1) + 1 by omega, readdirLoop,
          if_neg isEntry]
        exact rest
      · rename_i notLess
        have above : ¬i.toNat < index.toNat := by rw [← width]; exact notLess
        obtain ⟨text, copied, rfl⟩ := Option.map_eq_some_iff.mp listed
        rw [show index.toNat - i.toNat = 0 by omega, readdirLoop, if_neg isEntry,
          entryName_textAt (short text rfl) (strcpyInside_text copied)]

theorem memcpyInside_bytes {address count : Nat} {bytes : Nat → BitVec 8}
    (copied : memcpyInside mem address count = some bytes) : bytes = fun i => mem (address + i) := by
  unfold memcpyInside at copied
  split_ifs at copied
  exact (Option.some.inj copied).symm

theorem ramdiskfsRead_eq (isImage : mem.headerSignature = rdfsSignature) (node : RamdiskNode)
    (offset size : Nat) :
    ramdiskfsRead mem node offset size =
      if mem.entryLength (node.currentEntry mem) < offset then (0, fun _ => 0)
      else
        (if mem.entryLength (node.currentEntry mem) < (offset + size) % 2 ^ 64 then
            mem.entryLength (node.currentEntry mem) - offset
          else size,
          fun i => mem (offset + mem.entryOffset (node.currentEntry mem) + entrySize + i)) :=
  if_neg (not_not.mpr isImage)

/-- `ramdiskfs_read`. -/
theorem ramdiskfsReadInside_agrees {root node : RamdiskNode} (opened : ramdiskfsOpen mem = some root)
    {offset size count : BitVec 64} {bytes : Nat → BitVec 8}
    (read : ramdiskfsReadInside mem node offset size = some (count, bytes)) :
    (ramdiskfsRead mem node offset.toNat size.toNat).1 = count.toNat ∧
      ∀ i < count.toNat, (ramdiskfsRead mem node offset.toNat size.toNat).2 i = bytes i := by
  obtain ⟨signature, current⟩ := ramdiskfsOpen_header node opened
  have isImage : mem.headerSignature = rdfsSignature := (readInside_cases signature).2.symm
  unfold ramdiskfsReadInside at read
  rw [signature, Option.bind_some, if_neg (not_not.mpr rfl), current, Option.bind_some] at read
  rw [ramdiskfsRead_eq isImage]
  generalize node.currentEntry mem = entry at *
  obtain ⟨length, lengthRead, rest⟩ := Option.bind_eq_some_iff.mp read
  have isLength : length = mem.entryLength entry := (readInside_cases lengthRead).2
  subst isLength
  have small : mem.entryLength entry < 2 ^ 32 := leNat_lt mem (entry + 271) 4
  generalize mem.entryLength entry = length at *
  have value : (BitVec.ofNat 64 length).toNat = length := by
    rw [BitVec.toNat_ofNat]
    omega
  by_cases behind : length < offset.toNat
  · have less : BitVec.ofNat 64 length < offset := by bv_omega
    rw [if_pos less] at rest
    cases rest
    rw [if_pos behind]
    exact ⟨rfl, fun i below => absurd below (Nat.not_lt_zero i)⟩
  · have notLess : ¬BitVec.ofNat 64 length < offset := by bv_omega
    rw [if_neg notLess] at rest
    obtain ⟨start, startRead, copied⟩ := Option.bind_eq_some_iff.mp rest
    have isStart : start = mem.entryOffset entry := (readInside_cases startRead).2
    subst isStart
    obtain ⟨_, range, same⟩ := Option.map_eq_some_iff.mp copied
    obtain ⟨rfl, rfl⟩ := Prod.mk.inj same
    rw [if_neg behind]
    constructor
    · split_ifs <;> bv_omega
    · intro i _
      rw [memcpyInside_bytes range]

end Voxel.Proofs
