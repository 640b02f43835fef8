/-
Module: Voxel.Proofs.RamdiskBounds
Layer: Proofs
Purpose: Which images the callbacks of the ramdisk read without leaving them. The links and lengths of the
  entries are followed as they are, so the answer is a condition on the chain of entries that a call visits.
Trusted boundary: none
Main exports: linkAt, commonLength, strcmpInside_eq, strcpyInside_settles_iff, SearchInside, ListInside,
  CopyInside, RamdiskCall.Safe, RamdiskCall.Inside, ramdisk_reads_inside_iff
-/
import Mathlib.Logic.Function.Iterate
import Voxel.Kernel.Ramdisk
import Voxel.Lib.Loop

namespace Voxel.Proofs

open Voxel.Lib Voxel.Kernel

/-! ## Strings in the image -/

section Strings

variable (mem : RamdiskMemory)

/-- The number of bytes that the memory and a string have in common. -/
def commonLength : Nat → CString → Nat
  | _, [] => 0
  | address, c :: rest => if mem address = c then commonLength (address + 1) rest + 1 else 0

/-- The entry has this name. -/
def HasName (entry : Nat) (name : CString) : Prop :=
  commonLength mem (entry + 1) name = name.length ∧ mem (entry + 1 + name.length) = nul

instance (entry : Nat) (name : CString) : Decidable (HasName mem entry name) :=
  inferInstanceAs (Decidable (_ ∧ _))

/-- The string at an address ends inside the image. -/
def EndsInside (address : Nat) : Prop := ∃ k, address + k < mem.headerLength ∧ mem (address + k) = nul

variable {mem}

theorem readInside_eq {address n : Nat} (inside : address + n ≤ mem.headerLength) :
    readInside mem address n = some (leNat mem address n) := if_pos inside

theorem readInside_none {address n : Nat} (outside : ¬address + n ≤ mem.headerLength) :
    readInside mem address n = none := if_neg outside

theorem readInside_cases {address n value : Nat} (read : readInside mem address n = some value) :
    address + n ≤ mem.headerLength ∧ value = leNat mem address n := by
  by_cases inside : address + n ≤ mem.headerLength
  · rw [readInside_eq inside] at read
    exact ⟨inside, (Option.some.inj read).symm⟩
  · rw [readInside_none inside] at read
    cases read

/-- `strcmp` reads the common bytes and one more. -/
theorem strcmpInside_eq (address : Nat) (name : CString) :
    strcmpInside mem address name =
      if address + commonLength mem address name < mem.headerLength then
        some (decide (commonLength mem address name = name.length ∧ mem (address + name.length) = nul))
      else none := by
  induction name generalizing address with
  | nil =>
      rw [strcmpInside, commonLength, Nat.add_zero]
      by_cases inside : address < mem.headerLength
      · rw [readInside_eq inside, if_pos inside]
        simp
      · rw [readInside_none inside, if_neg inside]
        rfl
  | cons c rest inductionHypothesis =>
      rw [strcmpInside, commonLength]
      by_cases inside : address < mem.headerLength
      · rw [readInside_eq inside, Option.bind_some]
        by_cases same : mem address = c
        · rw [if_pos same, if_pos same, inductionHypothesis, List.length_cons,
            show address + (commonLength mem (address + 1) rest + 1) =
              address + 1 + commonLength mem (address + 1) rest by omega,
            show address + (rest.length + 1) = address + 1 + rest.length by omega]
          simp
        · rw [if_neg same, if_neg same, Nat.add_zero, if_pos inside]
          simp
      · rw [readInside_none inside, Option.bind_none, if_neg]
        split
        · omega
        · omega

/-- `strcpy` ends at the terminator. -/
theorem strcpyInside_some {fuel address : Nat} {text : CString}
    (copied : strcpyInside mem fuel address = some text) : EndsInside mem address := by
  induction fuel generalizing address text with
  | zero => cases copied
  | succ fuel inductionHypothesis =>
      rw [strcpyInside] at copied
      obtain ⟨_, read, rest⟩ := Option.bind_eq_some_iff.mp copied
      have inside := (readInside_cases read).1
      by_cases ends : mem address = nul
      · exact ⟨0, inside, ends⟩
      · rw [if_neg ends] at rest
        obtain ⟨_, later, -⟩ := Option.map_eq_some_iff.mp rest
        obtain ⟨k, below, isNul⟩ := inductionHypothesis later
        exact ⟨k + 1, by omega, by rw [← isNul]; congr 1; omega⟩

theorem strcpyInside_settles {address : Nat} (ends : EndsInside mem address) :
    ∃ text, Settles (fun fuel => strcpyInside mem fuel address) text := by
  obtain ⟨k, below, isNul⟩ := ends
  induction k generalizing address with
  | zero =>
      rw [Nat.add_zero] at below isNul
      refine ⟨[], Settles.round (fun fuel => ?_) (Settles.some [])⟩
      rw [strcpyInside, readInside_eq below, Option.bind_some, if_pos isNul]
  | succ k inductionHypothesis =>
      by_cases here : mem address = nul
      · refine ⟨[], Settles.round (fun fuel => ?_) (Settles.some [])⟩
        rw [strcpyInside, readInside_eq (by omega), Option.bind_some, if_pos here]
      · have next : address + (k + 1) = address + 1 + k := by omega
        obtain ⟨text, settles⟩ := @inductionHypothesis (address + 1) (by omega) (by rw [← next]; exact isNul)
        refine ⟨_, Settles.round (fun fuel => ?_) (settles.map (mem address :: ·))⟩
        rw [strcpyInside, readInside_eq (by omega), Option.bind_some, if_neg here]

end Strings

/-! ## Links -/

section Links

variable (mem : RamdiskMemory)

/-- The entry that `n` links lead to. -/
def linkAt (entry n : Nat) : Nat := mem.entryNext^[n] entry

/-- `finddir` reads this entry and goes on. -/
structure PassedBy (name : CString) (entry : Nat) : Prop where
  isEntry : entry ≠ 0
  other : ¬HasName mem entry name
  compared : entry + 1 + commonLength mem (entry + 1) name < mem.headerLength
  link : entry + 267 ≤ mem.headerLength

/-- `finddir` makes a node of this entry. -/
structure FoundAt (name : CString) (entry : Nat) : Prop where
  isEntry : entry ≠ 0
  same : HasName mem entry name
  compared : entry + 1 + name.length < mem.headerLength
  type : entry + 262 ≤ mem.headerLength
  size : mem.entryType entry = rdfsTypeFile → entry + 275 ≤ mem.headerLength

/-- The links lead to zero or to an entry with the name, past entries inside the image. -/
def SearchInside (name : CString) (start : Nat) : Prop :=
  ∃ n, (∀ i < n, PassedBy mem name (linkAt mem start i)) ∧
    (linkAt mem start n = 0 ∨ FoundAt mem name (linkAt mem start n))

/-- From the entry of number `i` on, the links lead to zero or to the entry of number `index`, past entries
inside the image; there the name ends inside the image. Numbers have 32 bits. -/
def ListInside (i index start : Nat) : Prop :=
  ∃ n, (∀ j < n, linkAt mem start j ≠ 0 ∧ linkAt mem start j + 267 ≤ mem.headerLength) ∧
    (linkAt mem start n = 0 ∧ (i + n ≤ index ∨ 2 ^ 32 ≤ index) ∨
      linkAt mem start n ≠ 0 ∧ i + n = index ∧ index < 2 ^ 32 ∧ EndsInside mem (linkAt mem start n + 1))

variable {mem}

@[simp] theorem linkAt_zero (entry : Nat) : linkAt mem entry 0 = entry := rfl

theorem linkAt_succ (entry n : Nat) : linkAt mem entry (n + 1) = linkAt mem (mem.entryNext entry) n :=
  Function.iterate_succ_apply ..

/-- A condition on the links before `n + 1`. -/
theorem links_succ {Passed : Nat → Prop} {start n : Nat} :
    (∀ i < n + 1, Passed (linkAt mem start i)) ↔
      Passed start ∧ ∀ i < n, Passed (linkAt mem (mem.entryNext start) i) := by
  constructor
  · intro all
    refine ⟨all 0 (Nat.succ_pos n), fun i below => ?_⟩
    rw [← linkAt_succ]
    exact all (i + 1) (Nat.succ_lt_succ below)
  · rintro ⟨first, others⟩ i below
    cases i with
    | zero => exact first
    | succ i =>
        rw [linkAt_succ]
        exact others i (Nat.lt_of_succ_lt_succ below)

/-- The next link of an entry that is read. -/
theorem readInside_link {entry next : Nat} (read : readInside mem (entry + 263) 4 = some next) :
    entry + 267 ≤ mem.headerLength ∧ next = mem.entryNext entry := readInside_cases read

theorem readInside_next {entry : Nat} (inside : entry + 267 ≤ mem.headerLength) :
    readInside mem (entry + 263) 4 = some (mem.entryNext entry) := readInside_eq inside

/-! ## finddir -/

/-- `strcmp` of the name of an entry. -/
theorem strcmpInside_name {name : CString} {entry : Nat}
    (compared : entry + 1 + commonLength mem (entry + 1) name < mem.headerLength) :
    strcmpInside mem (entry + 1) name = some (decide (HasName mem entry name)) := by
  rw [strcmpInside_eq, if_pos compared]
  rfl

theorem strcmpInside_cases {name : CString} {entry : Nat} {same : Bool}
    (compared : strcmpInside mem (entry + 1) name = some same) :
    entry + 1 + commonLength mem (entry + 1) name < mem.headerLength ∧
      (same = true ↔ HasName mem entry name) := by
  rw [strcmpInside_eq] at compared
  split at compared
  · rename_i inside
    cases compared
    exact ⟨inside, decide_eq_true_iff⟩
  · cases compared

/-- The node of an entry is made of bytes inside the image. -/
theorem entryNodeInside_some {name : CString} {fuel entry : Nat} {node : Option RamdiskNode}
    (isEntry : entry ≠ 0) (same : HasName mem entry name)
    (compared : entry + 1 + commonLength mem (entry + 1) name < mem.headerLength)
    (made : entryNodeInside mem fuel entry = some node) : FoundAt mem name entry := by
  unfold entryNodeInside at made
  obtain ⟨text, -, rest⟩ := Option.bind_eq_some_iff.mp made
  obtain ⟨type, read, rest⟩ := Option.bind_eq_some_iff.mp rest
  obtain ⟨inside, isType⟩ := readInside_cases read
  rw [same.1] at compared
  refine ⟨isEntry, same, compared, inside, fun isFile => ?_⟩
  rw [if_pos (isType.trans isFile)] at rest
  obtain ⟨_, size, -⟩ := Option.map_eq_some_iff.mp rest
  exact (readInside_cases size).1

theorem entryNodeInside_settles {name : CString} {entry : Nat} (found : FoundAt mem name entry) :
    ∃ node, Settles (fun fuel => entryNodeInside mem fuel entry) node := by
  obtain ⟨text, copies⟩ := strcpyInside_settles
    ⟨name.length, found.compared, found.same.2⟩
  have type : readInside mem (entry + 261) 1 = some (mem.entryType entry) := readInside_eq found.type
  unfold entryNodeInside
  by_cases isFile : mem.entryType entry = rdfsTypeFile
  · have size : readInside mem (entry + 271) 4 = some (mem.entryLength entry) :=
      readInside_eq (found.size isFile)
    rw [type, size]
    simp only [Option.bind_some, if_pos isFile, Option.map_some]
    exact ⟨_, copies.bind (Settles.some _)⟩
  · rw [type]
    simp only [Option.bind_some, if_neg isFile]
    split_ifs <;> exact ⟨_, copies.bind (Settles.some _)⟩

/-- A search that ends has read entries inside the image only. -/
theorem finddirLoopInside_some {name : CString} {fuel start : Nat} {found : Option RamdiskNode}
    (searched : finddirLoopInside mem name fuel start = some found) : SearchInside mem name start := by
  induction fuel generalizing start with
  | zero => cases searched
  | succ fuel inductionHypothesis =>
      rw [finddirLoopInside] at searched
      by_cases isEntry : start = 0
      · exact ⟨0, fun _ below => absurd below (Nat.not_lt_zero _), .inl isEntry⟩
      rw [if_neg isEntry] at searched
      obtain ⟨same, compared, rest⟩ := Option.bind_eq_some_iff.mp searched
      obtain ⟨inside, isName⟩ := strcmpInside_cases compared
      cases same with
      | true =>
          rw [if_pos rfl] at rest
          exact ⟨0, fun _ below => absurd below (Nat.not_lt_zero _),
            .inr (entryNodeInside_some isEntry (isName.mp rfl) inside rest)⟩
      | false =>
          rw [if_neg Bool.false_ne_true] at rest
          obtain ⟨next, read, later⟩ := Option.bind_eq_some_iff.mp rest
          obtain ⟨link, rfl⟩ := readInside_link read
          obtain ⟨n, passed, done⟩ := inductionHypothesis later
          have here : PassedBy mem name start :=
            ⟨isEntry, fun hasName => Bool.false_ne_true (isName.mpr hasName), inside, link⟩
          refine ⟨n + 1, links_succ.mpr ⟨here, passed⟩, ?_⟩
          rw [linkAt_succ]
          exact done

/-- Past entries inside the image a search ends. -/
theorem finddirLoopInside_settles {name : CString} {n start : Nat}
    (passed : ∀ i < n, PassedBy mem name (linkAt mem start i))
    (done : linkAt mem start n = 0 ∨ FoundAt mem name (linkAt mem start n)) :
    ∃ found, Settles (fun fuel => finddirLoopInside mem name fuel start) found := by
  induction n generalizing start with
  | zero =>
      rw [linkAt_zero] at done
      rcases done with isEnd | found
      · refine ⟨none, Settles.round (fun fuel => ?_) (Settles.some none)⟩
        rw [finddirLoopInside, if_pos isEnd]
      · obtain ⟨node, settles⟩ := entryNodeInside_settles found
        refine ⟨node, Settles.round (fun fuel => ?_) settles⟩
        have compared := found.compared
        rw [← found.same.1] at compared
        rw [finddirLoopInside, if_neg found.isEntry, strcmpInside_name compared, Option.bind_some,
          if_pos (decide_eq_true found.same)]
  | succ n inductionHypothesis =>
      obtain ⟨here, others⟩ := links_succ.mp passed
      rw [linkAt_succ] at done
      obtain ⟨found, settles⟩ := inductionHypothesis others done
      refine ⟨found, Settles.round (fun fuel => ?_) settles⟩
      rw [finddirLoopInside, if_neg here.isEntry, strcmpInside_name here.compared, Option.bind_some,
        decide_eq_false here.other, if_neg Bool.false_ne_true, readInside_next here.link, Option.bind_some]

theorem finddirLoopInside_settles_iff {name : CString} {start : Nat} :
    (∃ found, Settles (fun fuel => finddirLoopInside mem name fuel start) found) ↔
      SearchInside mem name start := by
  constructor
  · rintro ⟨_, enough, searched⟩
    exact finddirLoopInside_some (searched enough (Nat.le_refl _))
  · rintro ⟨n, passed, done⟩
    exact finddirLoopInside_settles passed done

/-! ## readdir -/

/-- A listing that ends has read entries inside the image only. -/
theorem readdirLoopInside_some {index : BitVec 64} {fuel start : Nat} {i : BitVec 32}
    {record : Option CString} (before : i.toNat ≤ index.toNat)
    (listed : readdirLoopInside mem index fuel i start = some record) :
    ListInside mem i.toNat index.toNat start := by
  induction fuel generalizing start i with
  | zero => cases listed
  | succ fuel inductionHypothesis =>
      have width : (i.setWidth 64).toNat = i.toNat := by
        rw [BitVec.toNat_setWidth]
        omega
      have noLink : ∀ j < 0, linkAt mem start j ≠ 0 ∧ linkAt mem start j + 267 ≤ mem.headerLength :=
        fun _ below => absurd below (Nat.not_lt_zero _)
      rw [readdirLoopInside] at listed
      by_cases isEntry : start = 0
      · exact ⟨0, noLink, .inl ⟨isEntry, .inl before⟩⟩
      rw [if_neg isEntry, if_neg isEntry] at listed
      split at listed
      · rename_i less
        have below : i.toNat < index.toNat := by rw [← width]; exact less
        obtain ⟨next, read, later⟩ := Option.bind_eq_some_iff.mp listed
        obtain ⟨link, rfl⟩ := readInside_link read
        have wide : (i + 1).toNat = i.toNat + 1 ∨ 2 ^ 32 ≤ index.toNat ∧ (i + 1).toNat = 0 := by
          have bound := i.isLt
          bv_omega
        have stillBefore : (i + 1).toNat ≤ index.toNat := by omega
        obtain ⟨n, passed, done⟩ := inductionHypothesis stillBefore later
        have here : start ≠ 0 ∧ start + 267 ≤ mem.headerLength := ⟨isEntry, link⟩
        refine ⟨n + 1, ?_, ?_⟩
        · exact (@links_succ mem (fun entry => entry ≠ 0 ∧ entry + 267 ≤ mem.headerLength) start n).mpr
            ⟨here, passed⟩
        rw [linkAt_succ]
        rcases done with ⟨isEnd, reached⟩ | ⟨notEnd, reached, small, ends⟩
        · exact .inl ⟨isEnd, by omega⟩
        · exact .inr ⟨notEnd, by omega, small, ends⟩
      · rename_i notLess
        have reached : i.toNat = index.toNat := by
          have above : ¬i.toNat < index.toNat := by rw [← width]; exact notLess
          omega
        obtain ⟨text, copied, -⟩ := Option.map_eq_some_iff.mp listed
        exact ⟨0, noLink, .inr ⟨isEntry, reached, by omega, strcpyInside_some copied⟩⟩

/-- Past entries inside the image a listing ends. -/
theorem readdirLoopInside_settles {index : BitVec 64} {n start : Nat} {i : BitVec 32}
    (before : i.toNat ≤ index.toNat)
    (passed : ∀ j < n, linkAt mem start j ≠ 0 ∧ linkAt mem start j + 267 ≤ mem.headerLength)
    (done : linkAt mem start n = 0 ∧ (i.toNat + n ≤ index.toNat ∨ 2 ^ 32 ≤ index.toNat) ∨
      linkAt mem start n ≠ 0 ∧ i.toNat + n = index.toNat ∧ index.toNat < 2 ^ 32 ∧
        EndsInside mem (linkAt mem start n + 1)) :
    ∃ record, Settles (fun fuel => readdirLoopInside mem index fuel i start) record := by
  have width : (i.setWidth 64).toNat = i.toNat := by
    rw [BitVec.toNat_setWidth]
    omega
  have smaller : i.setWidth 64 < index ↔ i.toNat < index.toNat := by
    rw [← width]
    exact Iff.rfl
  induction n generalizing start i with
  | zero =>
      rw [linkAt_zero] at done
      rcases done with ⟨isEnd, -⟩ | ⟨isEntry, reached, -, ends⟩
      · refine ⟨none, Settles.round (fun fuel => ?_) (Settles.some none)⟩
        rw [readdirLoopInside, if_pos isEnd, if_pos isEnd, ite_self]
      · obtain ⟨text, settles⟩ := strcpyInside_settles ends
        refine ⟨some text, Settles.round (fun fuel => ?_) (settles.map some)⟩
        rw [readdirLoopInside, if_neg (mt smaller.mp (by omega)), if_neg isEntry]
  | succ n inductionHypothesis =>
      obtain ⟨⟨isEntry, link⟩, others⟩ :=
        (@links_succ mem (fun entry => entry ≠ 0 ∧ entry + 267 ≤ mem.headerLength) start n).mp passed
      rw [linkAt_succ] at done
      have bound := i.isLt
      have below : i.toNat < index.toNat := by omega
      have wide : (i + 1).toNat = i.toNat + 1 ∨ 2 ^ 32 ≤ index.toNat ∧ (i + 1).toNat = 0 := by bv_omega
      have stillBefore : (i + 1).toNat ≤ index.toNat := by omega
      have width' : ((i + 1).setWidth 64).toNat = (i + 1).toNat := by
        rw [BitVec.toNat_setWidth]
        omega
      have later : linkAt mem (mem.entryNext start) n = 0 ∧
            ((i + 1).toNat + n ≤ index.toNat ∨ 2 ^ 32 ≤ index.toNat) ∨
          linkAt mem (mem.entryNext start) n ≠ 0 ∧ (i + 1).toNat + n = index.toNat ∧
            index.toNat < 2 ^ 32 ∧ EndsInside mem (linkAt mem (mem.entryNext start) n + 1) := by
        rcases done with ⟨isEnd, reached⟩ | ⟨notEnd, reached, small, ends⟩
        · exact .inl ⟨isEnd, by omega⟩
        · exact .inr ⟨notEnd, by omega, small, ends⟩
      obtain ⟨record, settles⟩ := inductionHypothesis stillBefore others later width'
        (by rw [← width']; exact Iff.rfl)
      refine ⟨record, Settles.round (fun fuel => ?_) settles⟩
      rw [readdirLoopInside, if_pos (smaller.mpr below), if_neg isEntry, readInside_next link,
        Option.bind_some]

theorem readdirLoopInside_settles_iff {index : BitVec 64} {start : Nat} :
    (∃ record, Settles (fun fuel => readdirLoopInside mem index fuel 0 start) record) ↔
      ListInside mem 0 index.toNat start := by
  constructor
  · rintro ⟨_, enough, listed⟩
    exact readdirLoopInside_some (Nat.zero_le _) (listed enough (Nat.le_refl _))
  · rintro ⟨n, passed, done⟩
    exact readdirLoopInside_settles (Nat.zero_le _) passed done

end Links

/-! ## The calls -/

section Calls

variable {mem : RamdiskMemory} (node : RamdiskNode)

/-- A call ends, and all its reads are inside the image. -/
def RamdiskCall.Safe (mem : RamdiskMemory) (node : RamdiskNode) : RamdiskCall → Prop
  | .finddir name => ∃ found, Settles (ramdiskfsFinddirInside mem node name) found
  | .readdir index => ∃ record, Settles (ramdiskfsReaddirInside mem node index) record
  | .read offset size => ∃ result, ramdiskfsReadInside mem node offset size = some result

/-- The range of a file that is copied, if the sum of the offset and the size does not overflow. -/
def CopyInside (mem : RamdiskMemory) (entry offset size : Nat) : Prop :=
  mem.entryLength entry < offset ∨
    offset + size < 2 ^ 64 ∧
      (min size (mem.entryLength entry - offset) = 0 ∨
        offset + mem.entryOffset entry + entrySize + min size (mem.entryLength entry - offset) ≤
          mem.headerLength)

/-- The fields, links and ranges that a call uses are inside the image, and the links come to an end. -/
def RamdiskCall.Inside (mem : RamdiskMemory) (node : RamdiskNode) : RamdiskCall → Prop
  | .finddir name =>
      node.currentEntry mem = 0 ∨ node.currentEntry mem + 271 ≤ mem.headerLength ∧
        SearchInside mem name (mem.entryTarget (node.currentEntry mem))
  | .readdir index =>
      node.currentEntry mem = 0 ∨ node.currentEntry mem + 271 ≤ mem.headerLength ∧
        ListInside mem 0 index.toNat (mem.entryTarget (node.currentEntry mem))
  | .read offset size =>
      node.currentEntry mem + 275 ≤ mem.headerLength ∧
        CopyInside mem (node.currentEntry mem) offset.toNat size.toNat

/-- The header of an accepted image. -/
theorem ramdiskfsOpen_header {root : RamdiskNode} (opened : ramdiskfsOpen mem = some root) :
    readInside mem 0 2 = some rdfsSignature ∧ currentEntryInside mem node = some (node.currentEntry mem) := by
  unfold ramdiskfsOpen at opened
  by_cases signature : mem.headerSignature = rdfsSignature
  · rw [if_neg (not_not.mpr signature)] at opened
    by_cases version : mem.headerVersion = 1
    · rw [if_neg (not_not.mpr version)] at opened
      by_cases short : mem.headerLength < headerSize
      · rw [if_pos short] at opened
        cases opened
      · have length : 27 ≤ mem.headerLength := Nat.le_of_not_lt short
        refine ⟨(readInside_eq (by omega)).trans (congrArg some signature), ?_⟩
        unfold currentEntryInside RamdiskNode.currentEntry
        split
        · exact readInside_eq (by omega)
        · rfl
    · rw [if_pos version] at opened
      cases opened
  · rw [if_pos signature] at opened
    cases opened

/-- The root node stands for the root entry. -/
theorem ramdiskfsOpen_root {root : RamdiskNode} (opened : ramdiskfsOpen mem = some root) :
    root.currentEntry mem = mem.headerRootEntry := by
  unfold ramdiskfsOpen at opened
  split_ifs at opened
  cases opened
  rfl

/-- Both searches begin at the entry that the directory points to. -/
theorem directory_settles_iff {Result : Type} {run : Nat → Option (Option Result)}
    {loop : Nat → Nat → Option (Option Result)} {current : Nat}
    (runs : ∀ fuel, run fuel =
      if current = 0 then some none else (readInside mem (current + 267) 4).bind (loop fuel)) :
    (∃ result, Settles run result) ↔
      current = 0 ∨ current + 271 ≤ mem.headerLength ∧
        ∃ result, Settles (fun fuel => loop fuel (mem.entryTarget current)) result := by
  by_cases isEmpty : current = 0
  · refine iff_of_true ⟨none, 0, fun fuel _ => ?_⟩ (.inl isEmpty)
    rw [runs, if_pos isEmpty]
  rw [or_iff_right isEmpty]
  by_cases inside : current + 271 ≤ mem.headerLength
  · have target : readInside mem (current + 267) 4 = some (mem.entryTarget current) := readInside_eq inside
    have same : run = fun fuel => loop fuel (mem.entryTarget current) := by
      funext fuel
      rw [runs, if_neg isEmpty, target, Option.bind_some]
    rw [same, and_iff_right inside]
  · refine iff_of_false ?_ fun both => inside both.1
    rintro ⟨result, enough, returns⟩
    have stuck := returns enough (Nat.le_refl _)
    have outside : ¬current + 267 + 4 ≤ mem.headerLength := inside
    rw [runs, if_neg isEmpty, readInside_none outside] at stuck
    cases stuck

/-- The copy of a file. -/
theorem memcpyInside_isSome_iff {address count : Nat} :
    (∃ bytes, memcpyInside mem address count = some bytes) ↔
      count = 0 ∨ address + count ≤ mem.headerLength := by
  unfold memcpyInside
  split
  · rename_i inside
    exact iff_of_true ⟨_, rfl⟩ inside
  · rename_i outside
    refine iff_of_false ?_ outside
    rintro ⟨_, stuck⟩
    cases stuck

/-- A read that is cut at the end of the file copies the rest of it; one whose end overflows is not cut. -/
theorem copyInside_iff {entry : Nat} {offset size : BitVec 64}
    (inside : ¬mem.entryLength entry < offset.toNat)
    {count : BitVec 64}
    (counted : count = if BitVec.ofNat 64 (mem.entryLength entry) < offset + size then
      BitVec.ofNat 64 (mem.entryLength entry) - offset else size) :
    (∃ bytes, memcpyInside mem (offset.toNat + mem.entryOffset entry + entrySize) count.toNat = some bytes) ↔
      CopyInside mem entry offset.toNat size.toNat := by
  have small : mem.entryLength entry < 2 ^ 32 := leNat_lt mem (entry + 271) 4
  have limit : mem.headerLength < 2 ^ 32 := leNat_lt mem 19 4
  unfold CopyInside
  rw [memcpyInside_isSome_iff, or_iff_right inside]
  generalize mem.entryLength entry = length at *
  have value : (BitVec.ofNat 64 length).toNat = length := by
    rw [BitVec.toNat_ofNat]
    omega
  by_cases overflows : offset.toNat + size.toNat < 2 ^ 64
  · rw [and_iff_right overflows]
    have cut : count.toNat = min size.toNat (length - offset.toNat) := by
      rw [counted]
      split_ifs <;> bv_omega
    rw [cut]
  · refine iff_of_false ?_ fun both => overflows both.1
    have whole : count = size := by
      rw [counted, if_neg]
      bv_omega
    rw [whole]
    omega

/-- `ramdiskfs_read` reads the length of the entry, and its bytes where the offset is not behind them. -/
theorem ramdiskfsReadInside_safe_iff {root : RamdiskNode} (opened : ramdiskfsOpen mem = some root)
    (offset size : BitVec 64) :
    RamdiskCall.Safe mem node (.read offset size) ↔ RamdiskCall.Inside mem node (.read offset size) := by
  obtain ⟨signature, current⟩ := ramdiskfsOpen_header node opened
  dsimp only [RamdiskCall.Safe, RamdiskCall.Inside]
  unfold ramdiskfsReadInside
  rw [signature, Option.bind_some, if_neg (not_not.mpr rfl), current, Option.bind_some]
  by_cases inside : node.currentEntry mem + 275 ≤ mem.headerLength
  · rw [and_iff_right inside]
    generalize node.currentEntry mem = entry at *
    have length : readInside mem (entry + 271) 4 = some (mem.entryLength entry) := readInside_eq inside
    have start : readInside mem (entry + 257) 4 = some (mem.entryOffset entry) :=
      readInside_eq (by omega)
    have value : (BitVec.ofNat 64 (mem.entryLength entry)).toNat = mem.entryLength entry := by
      have small : mem.entryLength entry < 2 ^ 32 := leNat_lt mem (entry + 271) 4
      rw [BitVec.toNat_ofNat]
      omega
    rw [length, Option.bind_some]
    by_cases behind : mem.entryLength entry < offset.toNat
    · have less : BitVec.ofNat 64 (mem.entryLength entry) < offset := by
        show (BitVec.ofNat 64 (mem.entryLength entry)).toNat < offset.toNat
        rw [value]
        exact behind
      rw [if_pos less]
      exact iff_of_true ⟨_, rfl⟩ (.inl behind)
    · have notLess : ¬BitVec.ofNat 64 (mem.entryLength entry) < offset := by
        show ¬(BitVec.ofNat 64 (mem.entryLength entry)).toNat < offset.toNat
        rw [value]
        exact behind
      rw [if_neg notLess, start]
      dsimp only
      rw [Option.bind_some, ← copyInside_iff behind rfl]
      simp only [Option.map_eq_some_iff]
      constructor
      · rintro ⟨_, bytes, copied, -⟩
        exact ⟨bytes, copied⟩
      · rintro ⟨bytes, copied⟩
        exact ⟨_, bytes, copied, rfl⟩
  · have outside : ¬node.currentEntry mem + 271 + 4 ≤ mem.headerLength := inside
    rw [readInside_none outside]
    refine iff_of_false ?_ fun both => inside both.1
    rintro ⟨_, stuck⟩
    cases stuck

/-- On every accepted image, a call on a node ends and reads bytes of the image only, exactly if the fields,
links and ranges that it uses are inside the image and its chain of links comes to an end. -/
theorem ramdisk_reads_inside_iff {root : RamdiskNode} (opened : ramdiskfsOpen mem = some root)
    (call : RamdiskCall) : RamdiskCall.Safe mem node call ↔ RamdiskCall.Inside mem node call := by
  obtain ⟨signature, current⟩ := ramdiskfsOpen_header node opened
  cases call with
  | finddir name =>
      have runs : ∀ fuel, ramdiskfsFinddirInside mem node name fuel =
          if node.currentEntry mem = 0 then some none
          else (readInside mem (node.currentEntry mem + 267) 4).bind (finddirLoopInside mem name fuel) := by
        intro fuel
        unfold ramdiskfsFinddirInside
        rw [signature, Option.bind_some, if_neg (not_not.mpr rfl), current, Option.bind_some]
      have ends := directory_settles_iff runs
      rw [finddirLoopInside_settles_iff] at ends
      exact ends
  | readdir index =>
      have runs : ∀ fuel, ramdiskfsReaddirInside mem node index fuel =
          if node.currentEntry mem = 0 then some none
          else (readInside mem (node.currentEntry mem + 267) 4).bind
            ((fun fuel => readdirLoopInside mem index fuel 0) fuel) := by
        intro fuel
        unfold ramdiskfsReaddirInside
        rw [signature, Option.bind_some, if_neg (not_not.mpr rfl), current, Option.bind_some]
      have ends := directory_settles_iff runs
      rw [readdirLoopInside_settles_iff] at ends
      exact ends
  | read offset size => exact ramdiskfsReadInside_safe_iff node opened offset size

end Calls

/-- An image without labels and names, of a size and with a root entry. -/
def bareImage (size root : Nat) : RamdiskMemory := fun a =>
  ([0xF4, 0x1D, 1] ++ List.replicate 16 0 ++ (List.range 4).map (leByte size) ++
    (List.range 4).map (leByte root)).getD a 0

/-- An empty directory is searched without a read behind the image. -/
theorem ramdisk_reads_inside_iff_empty :
    ∃ root, ramdiskfsOpen (bareImage 302 27) = some root ∧
      RamdiskCall.Safe (bareImage 302 27) root (.finddir [0x61]) := by
  have opened : (ramdiskfsOpen (bareImage 302 27)).isSome = true := by decide
  obtain ⟨root, isRoot⟩ := Option.isSome_iff_exists.mp opened
  refine ⟨root, isRoot, (ramdisk_reads_inside_iff root isRoot _).mpr (.inr ?_)⟩
  have current : root.currentEntry (bareImage 302 27) = 27 := (ramdiskfsOpen_root isRoot).trans (by decide)
  rw [current]
  exact ⟨by decide, 0, fun _ below => absurd below (Nat.not_lt_zero _), .inl (by decide)⟩

/-- An image is accepted whose root entry is far behind its end. -/
theorem ramdisk_root_entry_outside :
    ∃ root, ramdiskfsOpen (bareImage 27 0xFFFFFFFF) = some root ∧
      ¬RamdiskCall.Safe (bareImage 27 0xFFFFFFFF) root (.finddir [0x61]) := by
  have opened : (ramdiskfsOpen (bareImage 27 0xFFFFFFFF)).isSome = true := by decide
  obtain ⟨root, isRoot⟩ := Option.isSome_iff_exists.mp opened
  refine ⟨root, isRoot, ?_⟩
  rintro ⟨found, enough, returns⟩
  have stuck := returns enough (Nat.le_refl _)
  have current : root.currentEntry (bareImage 27 0xFFFFFFFF) = 0xFFFFFFFF :=
    (ramdiskfsOpen_root isRoot).trans (by decide)
  obtain ⟨signature, entry⟩ := ramdiskfsOpen_header root isRoot
  unfold ramdiskfsFinddirInside at stuck
  rw [signature, Option.bind_some, if_neg (not_not.mpr rfl), entry, Option.bind_some, current,
    if_neg (by decide), readInside_none (by decide)] at stuck
  cases stuck

end Voxel.Proofs
