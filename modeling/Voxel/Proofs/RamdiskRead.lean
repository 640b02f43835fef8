/-
Module: Voxel.Proofs.RamdiskRead
Layer: Proofs
Purpose: What the reader finds in the image of a tree. If no directory lists `.` or `..` behind its last
  entry, the links of the image are those of the tree, and a walk through the image finds at every path
  what the host has there.
Trusted boundary: none
Main exports: hostAt, ramdiskAt, Shows, EntriesLastStream, shows_of_opens, DotsFirstNode,
  ramdisk_round_trip
-/
import Voxel.Proofs.RamdiskLayout

namespace Voxel.Proofs

open Voxel.Lib Voxel.Kernel Voxel.Tool

/-! ## What is at a path -/

/-- The record of a directory with a name. -/
def findRecord (stream : HostStream) (name : CString) : Option HostNode :=
  ((entries stream).find? fun entry => entry.1 = name).map Prod.snd

/-- The record that is found is a record of the directory. -/
theorem mem_of_findRecord {stream : HostStream} {name : CString} {node : HostNode}
    (found : findRecord stream name = some node) : (name, node) ∈ entries stream := by
  obtain ⟨⟨name', node'⟩, here, rfl⟩ := Option.map_eq_some_iff.mp found
  have same : name' = name := by simpa using List.find?_some here
  rw [← same]
  exact List.mem_of_find?_eq_some here

/-- What the host has at a path below a node. -/
def hostAt : HostNode → List CString → Option HostNode
  | node, [] => some node
  | .directory stream, name :: path => (findRecord stream name).bind fun child => hostAt child path
  | _, _ :: _ => none

/-- The walk with `finddir_fs` through the image; the outer `none` is a search that never ends. -/
def ramdiskAt (mem : RamdiskMemory) : RamdiskNode → List CString → Option (Option RamdiskNode)
  | node, [] => some (some node)
  | node, name :: path =>
      match ramdiskFinddirFs mem node name with
      | none => none
      | some none => some none
      | some (some child) => ramdiskAt mem child path

/-- A node of the image shows a file: its size, and every part of its bytes. -/
structure ShowsFile (mem : RamdiskMemory) (node : RamdiskNode) (bytes : List (BitVec 8)) : Prop where
  kind : node.kind = .file
  length : node.length = bytes.length
  count : ∀ offset size, offset + size < 2 ^ 64 →
    (ramdiskfsRead mem node offset size).1 = min size (bytes.length - offset)
  read : ∀ offset size i, offset + size < 2 ^ 64 → i < min size (bytes.length - offset) →
    (ramdiskfsRead mem node offset size).2 i = charAt bytes (offset + i)

/-- A node of the image shows a directory: its names in their order. -/
structure ShowsDirectory (mem : RamdiskMemory) (node : RamdiskNode) (stream : HostStream) : Prop where
  kind : node.kind = .directory
  names : ∀ index, ramdiskReaddirFs mem node index = (entries stream)[index]?.map Prod.fst

/-- The result of a walk shows what the host has. -/
def Shows (mem : RamdiskMemory) (found : Option (Option RamdiskNode)) : Option HostNode → Prop
  | none => found = some none
  | some (.regular bytes) => ∃ node, found = some (some node) ∧ ShowsFile mem node bytes
  | some (.directory stream) => ∃ node, found = some (some node) ∧ ShowsDirectory mem node stream
  | some .other => False

/-! ## Trees whose links are right -/

/-- Behind the last entry of a directory there is no other record. -/
def LastIsEntry : HostStream → Prop
  | .nil => True
  | .cons name _ rest => (¬ IsSpecial name → entries rest = [] → rest = .nil) ∧ LastIsEntry rest

mutual

/-- No directory below a node lists `.` or `..` behind its last entry. -/
def EntriesLastNode : HostNode → Prop
  | .directory stream => EntriesLastStream stream
  | _ => True

/-- The same for the records of a directory. -/
def EntriesLastStream : HostStream → Prop
  | .nil => True
  | .cons name node rest =>
      (¬ IsSpecial name → EntriesLastNode node ∧ (entries rest = [] → rest = .nil)) ∧
        EntriesLastStream rest

end

theorem entries_special {name : CString} {node : HostNode} {rest : HostStream}
    (special : IsSpecial name) : entries (.cons name node rest) = entries rest := by
  rw [entries, if_pos special]

theorem entries_real {name : CString} {node : HostNode} {rest : HostStream}
    (real : ¬ IsSpecial name) : entries (.cons name node rest) = (name, node) :: entries rest := by
  rw [entries, if_neg real]

theorem lastIsEntry_of_entriesLast : ∀ {stream : HostStream}, EntriesLastStream stream →
    LastIsEntry stream
  | .nil, _ => trivial
  | .cons name node rest, entriesLast => by
      unfold EntriesLastStream at entriesLast
      unfold LastIsEntry
      exact ⟨fun real => (entriesLast.1 real).2, lastIsEntry_of_entriesLast entriesLast.2⟩

/-- Every entry takes place in the image. -/
theorem entries_size : ∀ stream : HostStream, entrySize * (entries stream).length ≤ streamSize stream
  | .nil => Nat.le_refl 0
  | .cons name node rest => by
      have tail := entries_size rest
      unfold streamSize
      by_cases special : IsSpecial name
      · rw [entries_special special, if_pos special]
        exact tail
      · rw [entries_real special, if_neg special, List.length_cons, Nat.mul_succ]
        omega

/-- A directory takes no place exactly if it has no entry. -/
theorem streamSize_eq_zero : ∀ {stream : HostStream}, streamSize stream = 0 ↔ entries stream = []
  | .nil => ⟨fun _ => rfl, fun _ => rfl⟩
  | .cons name node rest => by
      unfold streamSize
      by_cases special : IsSpecial name
      · rw [entries_special special, if_pos special]
        exact streamSize_eq_zero
      · rw [entries_real special, if_neg special]
        unfold entrySize
        simp

/-- What the proofs about a tree need of it. -/
structure Decodable (node : HostNode) : Prop where
  wellFormed : WellFormedNode node
  entriesLast : EntriesLastNode node
  small : nodeSize node < 2 ^ 32

/-- The entries of a decodable directory are decodable. -/
theorem decodable_of_mem {name : CString} {node : HostNode} : ∀ {stream : HostStream},
    WellFormedStream stream → EntriesLastStream stream → streamSize stream < 2 ^ 32 →
      (name, node) ∈ entries stream → Decodable node
  | .nil, _, _, _, member => by
      unfold entries at member
      cases member
  | .cons name' node' rest, wellFormed, entriesLast, small, member => by
      unfold WellFormedStream at wellFormed
      unfold EntriesLastStream at entriesLast
      unfold streamSize at small
      by_cases special : IsSpecial name'
      · rw [entries_special special] at member
        rw [if_pos special] at small
        exact decodable_of_mem wellFormed.2 entriesLast.2 small member
      · rw [entries_real special] at member
        rw [if_neg special] at small
        rcases List.mem_cons.mp member with same | member
        · cases same
          exact ⟨(wellFormed.1 special).2.2, (entriesLast.1 special).1, by omega⟩
        · exact decodable_of_mem wellFormed.2 entriesLast.2 (by omega) member

/-! ## Nodes of the image -/

/-- A node of the image stands for a node of the host. -/
def Opens (mem : RamdiskMemory) (node : RamdiskNode) : HostNode → Prop
  | .regular bytes =>
      node.kind = .file ∧ node.length = bytes.length ∧
        mem.entryLength (node.currentEntry mem) = bytes.length ∧
        ∀ i < bytes.length,
          mem (mem.entryOffset (node.currentEntry mem) + entrySize + i) = charAt bytes i
  | .directory stream =>
      node.kind = .directory ∧ node.currentEntry mem ≠ 0 ∧
        ∃ pos, 0 < pos ∧
          mem.entryTarget (node.currentEntry mem) = (if streamSize stream = 0 then 0 else pos) ∧
          LaidStream mem stream pos
  | .other => False

/-- The entry of a record that was laid out opens as its node. -/
theorem entryNode_opens {mem : RamdiskMemory} {pos : Nat} {name : CString} {node : HostNode}
    {rest : HostStream} (entry : EntryAt mem pos (entryOf pos name node rest))
    (contents : LaidNode mem node (pos + entrySize)) (wellFormed : WellFormedNode node)
    (positive : 0 < pos) : ∃ child, entryNode mem pos = some child ∧ Opens mem child node := by
  obtain ⟨_, offset, type, _, target, size⟩ := entry
  cases node with
  | regular bytes =>
      unfold LaidNode at contents
      change mem.entryType pos = rdfsTypeFile at type
      change mem.entryOffset pos = pos at offset
      change mem.entryLength pos = bytes.length at size
      have opened : entryNode mem pos = some
          { name := mem.entryName pos, kind := .file, length := mem.entryLength pos
            context := pos, isRoot := false } := by rw [entryNode, if_pos type]
      refine ⟨_, opened, rfl, size, size, ?_⟩
      intro i inside
      change mem (mem.entryOffset pos + entrySize + i) = charAt bytes i
      rw [offset]
      exact contents i inside
  | directory stream =>
      unfold LaidNode at contents
      change mem.entryType pos = rdfsTypeDirectory at type
      have notFile : mem.entryType pos ≠ rdfsTypeFile := by
        rw [type]
        decide
      have opened : entryNode mem pos = some
          { name := mem.entryName pos, kind := .directory, length := 0
            context := pos, isRoot := false } := by rw [entryNode, if_neg notFile, if_pos type]
      exact ⟨_, opened, rfl, Nat.pos_iff_ne_zero.mp positive, pos + entrySize,
        by unfold entrySize; omega, target, contents⟩
  | other =>
      unfold WellFormedNode at wellFormed
      exact wellFormed.elim

/-- The first entry of a directory at a position. -/
def firstEntry (stream : HostStream) (pos : Nat) : Nat := if entries stream = [] then 0 else pos

/-- The link of an entry leads to the first of the others. -/
theorem nextLink_eq {pos : Nat} {node : HostNode} {rest : HostStream}
    (entriesLast : entries rest = [] → rest = .nil) :
    nextLink pos node rest = firstEntry rest (pos + entrySize + nodeSize node) := by
  unfold nextLink firstEntry
  by_cases none : entries rest = []
  · rw [entriesLast none]
    rfl
  · cases rest with
    | nil => exact absurd rfl none
    | cons name node' rest =>
        rw [if_neg none]
        rfl

/-- `readdir` follows the links through the names of the directory. -/
theorem readdirLoop_laid {mem : RamdiskMemory} : ∀ {stream : HostStream} {pos : Nat} (index : Nat),
    LaidStream mem stream pos → LastIsEntry stream → 0 < pos →
      readdirLoop mem (firstEntry stream pos) index = (entries stream)[index]?.map Prod.fst
  | .nil, _, index, _, _, _ => by cases index <;> rfl
  | .cons name node rest, pos, index, laid, lastIsEntry, positive => by
      unfold LaidStream at laid
      unfold LastIsEntry at lastIsEntry
      by_cases special : IsSpecial name
      · rw [if_pos special] at laid
        have same : firstEntry (.cons name node rest) pos = firstEntry rest pos := by
          unfold firstEntry
          rw [entries_special special]
        rw [same, entries_special special]
        exact readdirLoop_laid index laid lastIsEntry.2 positive
      · rw [if_neg special] at laid
        obtain ⟨entry, _, behind⟩ := laid
        have here : firstEntry (.cons name node rest) pos = pos := by
          unfold firstEntry
          rw [entries_real special, if_neg (List.cons_ne_nil _ _)]
        have notZero : pos ≠ 0 := Nat.pos_iff_ne_zero.mp positive
        rw [here, entries_real special]
        cases index with
        | zero =>
            rw [readdirLoop, if_neg notZero, List.getElem?_cons_zero, Option.map_some, entry.name]
            rfl
        | succ index =>
            have link : mem.entryNext pos = firstEntry rest (pos + entrySize + nodeSize node) :=
              entry.next.trans (nextLink_eq (lastIsEntry.1 special))
            rw [readdirLoop, if_neg notZero, link, List.getElem?_cons_succ]
            exact readdirLoop_laid index behind lastIsEntry.2 (by omega)

/-- `finddir` finds the first entry with a name, and no other. -/
theorem finddirLoop_laid {mem : RamdiskMemory} {name : CString} : ∀ {stream : HostStream} {pos fuel : Nat},
    LaidStream mem stream pos → LastIsEntry stream → WellFormedStream stream → 0 < pos →
    (entries stream).length < fuel →
      (findRecord stream name = none →
        finddirLoop mem name fuel (firstEntry stream pos) = some none) ∧
      ∀ node, findRecord stream name = some node →
        ∃ child, finddirLoop mem name fuel (firstEntry stream pos) = some (some child) ∧
          Opens mem child node
  | .nil, _, fuel, _, _, _, _, enough => by
      cases fuel with
      | zero => exact absurd enough (Nat.not_lt_zero _)
      | succ fuel => exact ⟨fun _ => rfl, fun node found => nomatch found⟩
  | .cons name' node rest, pos, fuel, laid, lastIsEntry, wellFormed, positive, enough => by
      unfold LaidStream at laid
      unfold LastIsEntry at lastIsEntry
      unfold WellFormedStream at wellFormed
      unfold findRecord
      by_cases special : IsSpecial name'
      · rw [if_pos special] at laid
        have same : firstEntry (.cons name' node rest) pos = firstEntry rest pos := by
          unfold firstEntry
          rw [entries_special special]
        rw [entries_special special] at enough
        rw [same, entries_special special]
        exact finddirLoop_laid laid lastIsEntry.2 wellFormed.2 positive enough
      · rw [if_neg special] at laid
        obtain ⟨entry, contents, behind⟩ := laid
        have here : firstEntry (.cons name' node rest) pos = pos := by
          unfold firstEntry
          rw [entries_real special, if_neg (List.cons_ne_nil _ _)]
        have notZero : pos ≠ 0 := Nat.pos_iff_ne_zero.mp positive
        rw [entries_real special, List.length_cons] at enough
        rw [here, entries_real special]
        cases fuel with
        | zero => exact absurd enough (Nat.not_lt_zero _)
        | succ fuel =>
            rw [finddirLoop, if_neg notZero, entry.name]
            change (_ → (if name' = name then _ else _) = _) ∧
              ∀ _, _ → ∃ _, (if name' = name then _ else _) = _ ∧ _
            by_cases match_ : name' = name
            · rw [if_pos match_, List.find?_cons_of_pos (by simpa using match_)]
              rw [Option.map_some]
              refine ⟨fun none => absurd none (Option.some_ne_none _), ?_⟩
              rintro _ ⟨⟩
              obtain ⟨child, opened, opens⟩ :=
                entryNode_opens entry contents (wellFormed.1 special).2.2 positive
              exact ⟨child, by rw [opened], opens⟩
            · have link : mem.entryNext pos = firstEntry rest (pos + entrySize + nodeSize node) :=
                entry.next.trans (nextLink_eq (lastIsEntry.1 special))
              rw [if_neg match_, link, List.find?_cons_of_neg (by simpa using match_)]
              exact finddirLoop_laid behind lastIsEntry.2 wellFormed.2 (by omega) (by omega)

/-! ## Walks -/

/-- A node that opens as a file shows it. -/
theorem showsFile_of_opens {mem : RamdiskMemory} {node : RamdiskNode} {bytes : List (BitVec 8)}
    (signature : mem.headerSignature = rdfsSignature) (opens : Opens mem node (.regular bytes)) :
    ShowsFile mem node bytes := by
  obtain ⟨kind, length, size, content⟩ := opens
  have read : ∀ offset size', offset + size' < 2 ^ 64 → ramdiskfsRead mem node offset size' =
      if bytes.length < offset then (0, fun _ => 0)
      else
        (if bytes.length < offset + size' then bytes.length - offset else size',
          fun i => mem (offset + mem.entryOffset (node.currentEntry mem) + entrySize + i)) := by
    intro offset size' small
    unfold ramdiskfsRead
    rw [if_neg (not_not.mpr signature)]
    dsimp only
    rw [size, Nat.mod_eq_of_lt small]
  refine ⟨kind, length, ?_, ?_⟩
  · intro offset size' small
    rw [read offset size' small]
    split
    · change 0 = _
      omega
    · change (if bytes.length < offset + size' then bytes.length - offset else size') = _
      split <;> omega
  · intro offset size' i small inside
    rw [read offset size' small, if_neg (by omega)]
    change mem (offset + mem.entryOffset (node.currentEntry mem) + entrySize + i) = _
    rw [← content (offset + i) (by omega)]
    congr 1
    omega

/-- The link of a directory leads to its first entry. -/
theorem opens_first {mem : RamdiskMemory} {node : RamdiskNode} {stream : HostStream}
    (opens : Opens mem node (.directory stream)) :
    node.currentEntry mem ≠ 0 ∧ ∃ pos, 0 < pos ∧
      mem.entryTarget (node.currentEntry mem) = firstEntry stream pos ∧ LaidStream mem stream pos := by
  obtain ⟨_, notZero, pos, positive, target, laid⟩ := opens
  refine ⟨notZero, pos, positive, ?_, laid⟩
  unfold firstEntry
  rw [target]
  simp only [streamSize_eq_zero]

/-- `readdir` on a node that opens as a directory. -/
theorem readdir_of_opens {mem : RamdiskMemory} {node : RamdiskNode} {stream : HostStream}
    (signature : mem.headerSignature = rdfsSignature) (opens : Opens mem node (.directory stream))
    (index : Nat) :
    ramdiskReaddirFs mem node index =
      readdirLoop mem (mem.entryTarget (node.currentEntry mem)) index := by
  unfold ramdiskReaddirFs ramdiskfsReaddir
  rw [if_pos opens.1, if_neg (not_not.mpr signature), if_neg opens.2.1]

/-- A node that opens as a directory shows it. -/
theorem showsDirectory_of_opens {mem : RamdiskMemory} {node : RamdiskNode} {stream : HostStream}
    (signature : mem.headerSignature = rdfsSignature) (lastIsEntry : LastIsEntry stream)
    (opens : Opens mem node (.directory stream)) : ShowsDirectory mem node stream := by
  refine ⟨opens.1, fun index => ?_⟩
  obtain ⟨_, pos, positive, first, laid⟩ := opens_first opens
  rw [readdir_of_opens signature opens, first]
  exact readdirLoop_laid index laid lastIsEntry positive

/-- The entry of a directory with a name opens as what the host has under it. -/
theorem finddir_of_opens {mem : RamdiskMemory} {node : RamdiskNode} {stream : HostStream}
    (signature : mem.headerSignature = rdfsSignature) (lastIsEntry : LastIsEntry stream)
    (wellFormed : WellFormedStream stream) (small : streamSize stream < 2 ^ 32)
    (opens : Opens mem node (.directory stream)) (name : CString) :
    (findRecord stream name = none → ramdiskFinddirFs mem node name = some none) ∧
      ∀ host, findRecord stream name = some host →
        ∃ child, ramdiskFinddirFs mem node name = some (some child) ∧ Opens mem child host := by
  obtain ⟨notZero, pos, positive, first, laid⟩ := opens_first opens
  have enough : (entries stream).length < 2 ^ 32 + 1 := by
    have size := entries_size stream
    unfold entrySize at size
    omega
  have search : ramdiskFinddirFs mem node name =
      finddirLoop mem name (2 ^ 32 + 1) (firstEntry stream pos) := by
    unfold ramdiskFinddirFs ramdiskfsFinddir
    rw [if_pos opens.1, if_neg (not_not.mpr signature), if_neg notZero, first]
  rw [search]
  exact finddirLoop_laid laid lastIsEntry wellFormed positive enough

/-- A walk from a node that opens shows what the host has at the path. -/
theorem shows_of_opens {mem : RamdiskMemory} (signature : mem.headerSignature = rdfsSignature)
    {path : List CString} {node : RamdiskNode} {host : HostNode} (decodable : Decodable host)
    (opens : Opens mem node host) : Shows mem (ramdiskAt mem node path) (hostAt host path) := by
  induction path generalizing node host with
  | nil =>
      rw [ramdiskAt]
      cases host with
      | regular bytes => exact ⟨node, rfl, showsFile_of_opens signature opens⟩
      | directory stream =>
          have entriesLast := decodable.entriesLast
          unfold EntriesLastNode at entriesLast
          exact ⟨node, rfl,
            showsDirectory_of_opens signature (lastIsEntry_of_entriesLast entriesLast) opens⟩
      | other => exact opens.elim
  | cons name path inductionHypothesis =>
      rw [ramdiskAt]
      cases host with
      | regular bytes =>
          have notDirectory : node.kind ≠ .directory := by
            rw [opens.1]
            decide
          rw [ramdiskFinddirFs, if_neg notDirectory]
          rfl
      | directory stream =>
          obtain ⟨wellFormed, entriesLast, small⟩ := decodable
          unfold WellFormedNode at wellFormed
          unfold EntriesLastNode at entriesLast
          unfold nodeSize at small
          obtain ⟨missing, present⟩ := finddir_of_opens signature
            (lastIsEntry_of_entriesLast entriesLast) wellFormed.2 small opens name
          rw [hostAt]
          cases found : findRecord stream name with
          | none =>
              rw [missing found]
              rfl
          | some child =>
              obtain ⟨childNode, opened, opensChild⟩ := present child found
              rw [opened]
              exact inductionHypothesis
                (decodable_of_mem wellFormed.2 entriesLast small (mem_of_findRecord found)) opensChild
      | other => exact opens.elim

/-- The root of an image opens as the directory that was written, if it has an entry. -/
theorem image_opens {mem : RamdiskMemory} {stream : HostStream} (image : ImageOf mem stream)
    (notEmpty : entries stream ≠ []) :
    ∃ root, ramdiskfsOpen mem = some root ∧ Opens mem root (.directory stream) := by
  have size : ¬ mem.headerLength < headerSize := by
    rw [image.size]
    unfold imageSize
    omega
  have opened : ramdiskfsOpen mem = some
      { name := "fs:ramdisk".toList.map fun c => BitVec.ofNat 8 c.toNat
        kind := .directory, length := 0, context := 0, isRoot := true } := by
    unfold ramdiskfsOpen
    rw [if_neg (not_not.mpr image.signature), if_neg (not_not.mpr image.version), if_neg size]
  have notZero : streamSize stream ≠ 0 := fun zero => notEmpty (streamSize_eq_zero.mp zero)
  refine ⟨_, opened, rfl, ?_, headerSize + entrySize, by decide, ?_, image.laid⟩
  · change mem.headerRootEntry ≠ 0
    rw [image.root]
    decide
  · change mem.entryTarget mem.headerRootEntry = _
    rw [image.root, if_neg notZero, image.rootEntry.target]
    rfl

/-! ## The round trip -/

mutual

/-- Every directory below a node lists `.` and `..`, and both before its entries. -/
def DotsFirstNode : HostNode → Prop
  | .directory (.cons dot _ (.cons dotDot _ rest)) =>
      IsSpecial dot ∧ IsSpecial dotDot ∧ DotsFirstRest rest
  | .directory _ => False
  | _ => True

/-- The records behind `.` and `..` are entries. -/
def DotsFirstRest : HostStream → Prop
  | .nil => True
  | .cons name node rest => ¬ IsSpecial name ∧ DotsFirstNode node ∧ DotsFirstRest rest

end

/-- Without `.` and `..` every record is an entry. -/
theorem dotsFirstRest_nil : ∀ {stream : HostStream}, DotsFirstRest stream → entries stream = [] →
    stream = .nil
  | .nil, _, _ => rfl
  | .cons name node rest, dotsFirst, empty => by
      unfold DotsFirstRest at dotsFirst
      rw [entries_real dotsFirst.1] at empty
      exact absurd empty (List.cons_ne_nil _ _)

mutual

/-- If `.` and `..` come first, the last record is an entry. -/
theorem entriesLast_of_dotsFirst : ∀ {node : HostNode}, DotsFirstNode node → EntriesLastNode node
  | .regular _, _ => trivial
  | .other, _ => trivial
  | .directory .nil, dotsFirst => by
      unfold DotsFirstNode at dotsFirst
      exact dotsFirst.elim
  | .directory (.cons _ _ .nil), dotsFirst => by
      unfold DotsFirstNode at dotsFirst
      exact dotsFirst.elim
  | .directory (.cons dot node (.cons dotDot node' rest)), dotsFirst => by
      unfold DotsFirstNode at dotsFirst
      obtain ⟨special, special', behind⟩ := dotsFirst
      unfold EntriesLastNode EntriesLastStream EntriesLastStream
      exact ⟨fun real => absurd special real, fun real => absurd special' real,
        entriesLast_of_dotsFirstRest behind⟩

/-- The same for the records behind `.` and `..`. -/
theorem entriesLast_of_dotsFirstRest : ∀ {stream : HostStream}, DotsFirstRest stream →
    EntriesLastStream stream
  | .nil, _ => trivial
  | .cons name node rest, dotsFirst => by
      unfold DotsFirstRest at dotsFirst
      obtain ⟨_, below, behind⟩ := dotsFirst
      unfold EntriesLastStream
      exact ⟨fun _ => ⟨entriesLast_of_dotsFirst below, dotsFirstRest_nil behind⟩,
        entriesLast_of_dotsFirstRest behind⟩

end

/-- Opening the image of a tree and walking through it shows what the host has, at every path. -/
theorem ramdisk_round_trip (junk : Nat → Nat → BitVec 8) (label : CString) (stream : HostStream)
    (wellFormed : WellFormedStream stream) (dotsFirst : DotsFirstNode (.directory stream))
    (notEmpty : entries stream ≠ []) (small : imageSize stream < 2 ^ 32) :
    ∃ image, mkvfs junk label stream = some image ∧ image.length = imageSize stream ∧
      ∀ mem : RamdiskMemory, (∀ a < image.length, mem a = image.bytes a) →
        ∃ root, ramdiskfsOpen mem = some root ∧
          ∀ path, Shows mem (ramdiskAt mem root path) (hostAt (.directory stream) path) := by
  have someRecord : stream ≠ .nil := by
    rintro rfl
    exact notEmpty rfl
  obtain ⟨image, written, length, contents⟩ := mkvfs_spec junk label wellFormed someRecord small
  refine ⟨image, written, length, fun mem same => ?_⟩
  rw [length] at same
  have here : ImageOf mem stream := contents.congr same
  obtain ⟨root, opened, opens⟩ := image_opens here notEmpty
  have decodable : Decodable (.directory stream) := by
    refine ⟨?_, entriesLast_of_dotsFirst dotsFirst, ?_⟩
    · unfold WellFormedNode
      exact ⟨someRecord, wellFormed⟩
    · unfold imageSize at small
      unfold nodeSize
      omega
  exact ⟨root, opened, fun path => shows_of_opens here.signature decodable opens⟩

/-- A directory with the entries `a`, an empty directory, and `b`, a file of one byte. -/
def smallTree : HostStream :=
  .cons [0x2E] (.directory .nil) (.cons [0x2E, 0x2E] (.directory .nil)
    (.cons [0x61] (.directory
        (.cons [0x2E] (.directory .nil) (.cons [0x2E, 0x2E] (.directory .nil) .nil)))
      (.cons [0x62] (.regular [7]) .nil)))

theorem ramdisk_round_trip_smallTree :
    ∃ image, mkvfs (fun _ _ => 0) [] smallTree = some image ∧ image.length = imageSize smallTree ∧
      ∀ mem : RamdiskMemory, (∀ a < image.length, mem a = image.bytes a) →
        ∃ root, ramdiskfsOpen mem = some root ∧
          ∀ path, Shows mem (ramdiskAt mem root path) (hostAt (.directory smallTree) path) :=
  ramdisk_round_trip (fun _ _ => 0) [] smallTree
    (by simp [smallTree, WellFormedStream, WellFormedNode, IsSpecial, IsCString, nul])
    (by simp [smallTree, DotsFirstNode, DotsFirstRest, IsSpecial])
    (by simp [smallTree, entries, IsSpecial])
    (by simp [smallTree, imageSize, streamSize, nodeSize, IsSpecial, headerSize, entrySize])

end Voxel.Proofs
