/-
Module: Voxel.Proofs.RamdiskOrder
Layer: Proofs
Purpose: What the order of the records of a directory does to the image. The writer links an entry to the
  next one as soon as `readdir` returns another record; if the records that are left are all `.` and `..`,
  the link leads to whatever is written next. The decoded trees agree exactly if this never happens.
Trusted boundary: none
Main exports: SameTree, DecodesAs, decodesAs_iff, ramdisk_order_iff, ramdisk_order_extra_entry
-/
import Voxel.Proofs.RamdiskRead

namespace Voxel.Proofs

open Voxel.Lib Voxel.Kernel Voxel.Tool

/-! ## Trees without their order -/

/-- The names of a directory. -/
def names (stream : HostStream) : List CString := (entries stream).map Prod.fst

mutual

/-- No directory below a node has a name twice. -/
def DistinctNode : HostNode → Prop
  | .directory stream => DistinctStream stream
  | _ => True

/-- The same for the records of a directory. -/
def DistinctStream : HostStream → Prop
  | .nil => True
  | .cons name node rest =>
      (¬ IsSpecial name → name ∉ names rest ∧ DistinctNode node) ∧ DistinctStream rest

end

/-- Two nodes that differ only in the order of their records. -/
def SameNode : Option HostNode → Option HostNode → Prop
  | none, none => True
  | some (.regular bytes), some (.regular bytes') => bytes = bytes'
  | some (.directory stream), some (.directory stream') => (names stream).Perm (names stream')
  | some .other, some .other => True
  | _, _ => False

theorem sameNode_refl (host : Option HostNode) : SameNode host host := by
  cases host with
  | none => trivial
  | some node =>
      cases node with
      | regular bytes => rfl
      | directory stream => exact List.Perm.refl _
      | other => trivial

theorem sameNode_symm {host host' : Option HostNode} (same : SameNode host host') :
    SameNode host' host := by
  cases host with
  | none =>
      cases host' with
      | none => trivial
      | some node => exact same.elim
  | some node =>
      cases host' with
      | none => cases node <;> exact same.elim
      | some node' =>
          cases node <;> cases node'
          case regular.regular => exact Eq.symm same
          case directory.directory => exact List.Perm.symm same
          case other.other => trivial
          all_goals exact same.elim

/-- Two enumerations of one tree: at every path there is the same. -/
def SameTree (stream stream' : HostStream) : Prop :=
  ∀ path, SameNode (hostAt (.directory stream) path) (hostAt (.directory stream') path)

theorem sameTree_refl (stream : HostStream) : SameTree stream stream := fun _ => sameNode_refl _

/-- `.` and `..` do not belong to the tree. -/
theorem sameTree_special {name : CString} {node : HostNode} {rest stream : HostStream}
    (special : IsSpecial name) (same : SameTree rest stream) :
    SameTree (.cons name node rest) stream := by
  intro path
  cases path with
  | nil =>
      have perm : (names rest).Perm (names stream) := same []
      change (names _).Perm _
      rw [names, entries_special special]
      exact perm
  | cons name' path =>
      have there := same (name' :: path)
      rw [hostAt, findRecord] at there ⊢
      rw [entries_special special]
      exact there

/-- An entry of both enumerations. -/
theorem sameTree_cons {name : CString} {node node' : HostNode} {rest rest' : HostStream}
    (real : ¬ IsSpecial name) (nodes : ∀ path, SameNode (hostAt node path) (hostAt node' path))
    (same : SameTree rest rest') : SameTree (.cons name node rest) (.cons name node' rest') := by
  intro path
  cases path with
  | nil =>
      have perm : (names rest).Perm (names rest') := same []
      change (names _).Perm (names _)
      rw [names, names, entries_real real, entries_real real]
      exact perm.cons name
  | cons name' path =>
      have there := same (name' :: path)
      rw [hostAt, hostAt, findRecord, findRecord] at there ⊢
      rw [entries_real real, entries_real real]
      by_cases here : name = name'
      · rw [List.find?_cons_of_pos (by simpa using here), List.find?_cons_of_pos (by simpa using here)]
        exact nodes path
      · rw [List.find?_cons_of_neg (by simpa using here), List.find?_cons_of_neg (by simpa using here)]
        exact there

/-- The result of a walk is what the host has there: a file with its bytes, or a directory whose names are
listed, each as often as the host has it. -/
def Lists (mem : RamdiskMemory) (found : Option (Option RamdiskNode)) : Option HostNode → Prop
  | none => found = some none
  | some (.regular bytes) => ∃ node, found = some (some node) ∧ ShowsFile mem node bytes
  | some (.directory stream) =>
      ∃ node, found = some (some node) ∧ node.kind = .directory ∧
        ∃ listed : List CString, listed.Perm (names stream) ∧
          ∀ index, ramdiskReaddirFs mem node index = listed[index]?
  | some .other => False

/-- Listing does not look at the order of the host. -/
theorem lists_congr {mem : RamdiskMemory} {found : Option (Option RamdiskNode)}
    {host host' : Option HostNode} (same : SameNode host host') (lists : Lists mem found host) :
    Lists mem found host' := by
  cases host with
  | none =>
      cases host' with
      | none => exact lists
      | some node => exact same.elim
  | some node =>
      cases host' with
      | none => cases node <;> exact same.elim
      | some node' =>
          cases node <;> cases node'
          case regular.regular =>
            cases same
            exact lists
          case directory.directory =>
            obtain ⟨node, here, kind, listed, perm, all⟩ := lists
            exact ⟨node, here, kind, listed, perm.trans same, all⟩
          case other.other => exact lists
          all_goals exact same.elim

/-- What shows a node of the host lists it. -/
theorem lists_of_shows {mem : RamdiskMemory} {found : Option (Option RamdiskNode)}
    {host : Option HostNode} (shows_ : Shows mem found host) : Lists mem found host := by
  cases host with
  | none => exact shows_
  | some node =>
      cases node with
      | regular bytes => exact shows_
      | directory stream =>
          obtain ⟨node, here, kind, all⟩ := shows_
          refine ⟨node, here, kind, names stream, .refl _, fun index => ?_⟩
          rw [all, names, List.getElem?_map]
      | other => exact shows_.elim

/-! ## Links that dangle -/

/-- If a record follows the last entry, `readdir` goes on behind the entries. -/
theorem readdirLoop_dangles {mem : RamdiskMemory} : ∀ {stream : HostStream} {pos : Nat},
    LaidStream mem stream pos → 0 < pos → ¬ LastIsEntry stream →
      readdirLoop mem (firstEntry stream pos) (entries stream).length ≠ none
  | .nil, _, _, _, dangles => absurd trivial dangles
  | .cons name node rest, pos, laid, positive, dangles => by
      unfold LaidStream at laid
      unfold LastIsEntry at dangles
      by_cases special : IsSpecial name
      · rw [if_pos special] at laid
        have same : firstEntry (.cons name node rest) pos = firstEntry rest pos := by
          unfold firstEntry
          rw [entries_special special]
        rw [same, entries_special special]
        exact readdirLoop_dangles laid positive
          fun lastIsEntry => dangles ⟨fun real => absurd special real, lastIsEntry⟩
      · rw [if_neg special] at laid
        obtain ⟨entry, _, behind⟩ := laid
        have here : firstEntry (.cons name node rest) pos = pos := by
          unfold firstEntry
          rw [entries_real special, if_neg (List.cons_ne_nil _ _)]
        have notZero : pos ≠ 0 := Nat.pos_iff_ne_zero.mp positive
        have link : mem.entryNext pos = nextLink pos node rest := entry.next
        rw [here, entries_real special, List.length_cons, readdirLoop, if_neg notZero, link]
        by_cases lastEntry : entries rest = [] → rest = .nil
        · rw [nextLink_eq lastEntry]
          exact readdirLoop_dangles behind (by omega)
            fun lastIsEntry => dangles ⟨fun _ => lastEntry, lastIsEntry⟩
        · -- The records that are left are no entries, and the link is set.
          obtain ⟨empty, more⟩ := Classical.not_imp.mp lastEntry
          have set : nextLink pos node rest ≠ 0 := by
            cases rest with
            | nil => exact absurd rfl more
            | cons name' node' rest =>
                change pos + entrySize + nodeSize node ≠ 0
                omega
          rw [empty, List.length_nil, readdirLoop, if_neg set]
          exact Option.some_ne_none _

/-- A directory whose listing goes on behind its entries does not list what the host has. -/
theorem not_lists_of_more {mem : RamdiskMemory} {node : RamdiskNode} {stream : HostStream}
    (more : ramdiskReaddirFs mem node (entries stream).length ≠ none) :
    ¬ Lists mem (some (some node)) (some (.directory stream)) := by
  rintro ⟨_, ⟨⟩, _, listed, perm, all⟩
  have length : listed.length = (entries stream).length := by
    rw [perm.length_eq, names, List.length_map]
  rw [all, ← length] at more
  exact more (List.getElem?_eq_none (Nat.le_refl _))

/-! ## Walks to a link that dangles -/

/-- A tree of a host that fits. -/
structure Readable (node : HostNode) : Prop where
  wellFormed : WellFormedNode node
  distinct : DistinctNode node
  small : nodeSize node < 2 ^ 32

/-- The entries of a directory are smaller trees that fit. -/
theorem readable_of_mem {name : CString} {node : HostNode} : ∀ {stream : HostStream},
    WellFormedStream stream → DistinctStream stream → streamSize stream < 2 ^ 32 →
      (name, node) ∈ entries stream → Readable node ∧ nodeSize node < streamSize stream
  | .nil, _, _, _, member => by
      unfold entries at member
      cases member
  | .cons name' node' rest, wellFormed, distinct, small, member => by
      unfold WellFormedStream at wellFormed
      unfold DistinctStream at distinct
      unfold streamSize at small ⊢
      by_cases special : IsSpecial name'
      · rw [entries_special special] at member
        rw [if_pos special] at small ⊢
        exact readable_of_mem wellFormed.2 distinct.2 small member
      · rw [entries_real special] at member
        rw [if_neg special] at small ⊢
        unfold entrySize at small ⊢
        rcases List.mem_cons.mp member with same | member
        · cases same
          exact ⟨⟨(wellFormed.1 special).2.2, (distinct.1 special).2, by omega⟩, by omega⟩
        · obtain ⟨readable, smaller⟩ := readable_of_mem wellFormed.2 distinct.2 (by omega) member
          exact ⟨readable, by omega⟩

/-- A directory with distinct names has each of its records under its name. -/
theorem findRecord_of_mem {name : CString} {node : HostNode} : ∀ {stream : HostStream},
    DistinctStream stream → (name, node) ∈ entries stream → findRecord stream name = some node
  | .nil, _, member => by
      unfold entries at member
      cases member
  | .cons name' node' rest, distinct, member => by
      unfold DistinctStream at distinct
      unfold findRecord
      by_cases special : IsSpecial name'
      · rw [entries_special special] at member ⊢
        exact findRecord_of_mem distinct.2 member
      · rw [entries_real special] at member ⊢
        rcases List.mem_cons.mp member with same | member
        · cases same
          rw [List.find?_cons_of_pos (by simp)]
          rfl
        · have other : name' ≠ name := by
            rintro rfl
            exact (distinct.1 special).1 (List.mem_map_of_mem member)
          rw [List.find?_cons_of_neg (by simpa using other)]
          exact findRecord_of_mem distinct.2 member

/-- A tree whose own links are right but some link is not has such a link below an entry. -/
theorem exists_of_not_entriesLast : ∀ {stream : HostStream}, LastIsEntry stream →
    ¬ EntriesLastStream stream →
      ∃ name node, (name, node) ∈ entries stream ∧ ¬ EntriesLastNode node
  | .nil, _, dangles => absurd trivial dangles
  | .cons name node rest, lastIsEntry, dangles => by
      unfold LastIsEntry at lastIsEntry
      unfold EntriesLastStream at dangles
      by_cases special : IsSpecial name
      · rw [entries_special special]
        exact exists_of_not_entriesLast lastIsEntry.2
          fun behind => dangles ⟨fun real => absurd special real, behind⟩
      · rw [entries_real special]
        by_cases below : EntriesLastNode node
        · obtain ⟨name', node', member, found⟩ := exists_of_not_entriesLast lastIsEntry.2
            fun behind => dangles ⟨fun real => ⟨below, lastIsEntry.1 real⟩, behind⟩
          exact ⟨name', node', List.mem_cons_of_mem _ member, found⟩
        · exact ⟨name, node, List.mem_cons_self, below⟩

/-- A link that dangles is reached by a walk: the walk goes through directories whose own links are
right. -/
theorem exists_not_lists {mem : RamdiskMemory} (signature : mem.headerSignature = rdfsSignature)
    {bound : Nat} {node : RamdiskNode} {host : HostNode} (readable : Readable host)
    (bounded : nodeSize host < bound) (opens : Opens mem node host)
    (dangles : ¬ EntriesLastNode host) :
    ∃ path, ¬ Lists mem (ramdiskAt mem node path) (hostAt host path) := by
  induction bound generalizing node host with
  | zero => exact absurd bounded (Nat.not_lt_zero _)
  | succ bound inductionHypothesis =>
      cases host with
      | regular bytes => exact absurd trivial dangles
      | other => exact absurd trivial dangles
      | directory stream =>
          obtain ⟨wellFormed, distinct, small⟩ := readable
          unfold WellFormedNode at wellFormed
          unfold DistinctNode at distinct
          unfold nodeSize at small bounded
          unfold EntriesLastNode at dangles
          by_cases lastIsEntry : LastIsEntry stream
          · obtain ⟨name, child, member, below⟩ := exists_of_not_entriesLast lastIsEntry dangles
            have found := findRecord_of_mem distinct member
            obtain ⟨readable, smaller⟩ := readable_of_mem wellFormed.2 distinct small member
            obtain ⟨childNode, opened, opensChild⟩ :=
              (finddir_of_opens signature lastIsEntry wellFormed.2 small opens name).2 child found
            obtain ⟨path, wrong⟩ := inductionHypothesis readable (by omega) opensChild below
            refine ⟨name :: path, ?_⟩
            rw [ramdiskAt, opened, hostAt, found]
            exact wrong
          · obtain ⟨_, pos, positive, first, laid⟩ := opens_first opens
            have more := readdirLoop_dangles laid positive lastIsEntry
            rw [← first, ← readdir_of_opens signature opens] at more
            exact ⟨[], not_lists_of_more more⟩

/-! ## Decoding -/

/-- Whatever is behind it in memory, the image opens and a walk finds what a tree has, at every path. -/
def DecodesAs (image : OutFile) (stream : HostStream) : Prop :=
  ∀ mem : RamdiskMemory, (∀ a < image.length, mem a = image.bytes a) →
    ∃ root, ramdiskfsOpen mem = some root ∧
      ∀ path, Lists mem (ramdiskAt mem root path) (hostAt (.directory stream) path)

/-- The link of the root directory is always set. -/
theorem not_lists_of_emptyRoot {mem : RamdiskMemory} {stream : HostStream} {root : RamdiskNode}
    (image : ImageOf mem stream) (empty : entries stream = []) (opened : ramdiskfsOpen mem = some root) :
    ¬ Lists mem (some (some root)) (some (.directory stream)) := by
  refine not_lists_of_more ?_
  unfold ramdiskfsOpen at opened
  split at opened
  · cases opened
  split at opened
  · cases opened
  split at opened
  · cases opened
  cases opened
  rw [empty, List.length_nil, ramdiskReaddirFs, if_pos rfl, ramdiskfsReaddir,
    if_neg (not_not.mpr image.signature)]
  change (if mem.headerRootEntry = 0 then none
    else readdirLoop mem (mem.entryTarget mem.headerRootEntry) 0) ≠ none
  rw [image.root, image.rootEntry.target]
  exact Option.some_ne_none _

/-- The image of a tree decodes as the tree exactly if it has an entry and no link dangles. -/
theorem decodesAs_iff {image : OutFile} {stream stream' : HostStream} (same : SameTree stream stream')
    (wellFormed : WellFormedNode (.directory stream)) (distinct : DistinctStream stream)
    (small : imageSize stream < 2 ^ 32) (length : image.length = imageSize stream)
    (contents : ImageOf image.bytes stream) :
    DecodesAs image stream' ↔ entries stream ≠ [] ∧ EntriesLastStream stream := by
  have size : nodeSize (.directory stream) < 2 ^ 32 := by
    unfold imageSize at small
    unfold nodeSize
    omega
  constructor
  · intro decodes
    obtain ⟨root, opened, lists⟩ := decodes image.bytes fun _ _ => rfl
    have listsHere : ∀ path,
        Lists image.bytes (ramdiskAt image.bytes root path) (hostAt (.directory stream) path) :=
      fun path => lists_congr (sameNode_symm (same path)) (lists path)
    have notEmpty : entries stream ≠ [] :=
      fun empty => not_lists_of_emptyRoot contents empty opened (listsHere [])
    refine ⟨notEmpty, Classical.not_not.mp fun dangles => ?_⟩
    obtain ⟨root', opened', opens⟩ := image_opens contents notEmpty
    cases opened.symm.trans opened'
    obtain ⟨path, wrong⟩ := exists_not_lists contents.signature
      ⟨wellFormed, by unfold DistinctNode; exact distinct, size⟩ (Nat.lt_succ_self _) opens
      (by unfold EntriesLastNode; exact dangles)
    exact wrong (listsHere path)
  · rintro ⟨notEmpty, entriesLast⟩ mem agrees
    rw [length] at agrees
    have here : ImageOf mem stream := contents.congr agrees
    obtain ⟨root, opened, opens⟩ := image_opens here notEmpty
    have decodable : Decodable (.directory stream) :=
      ⟨wellFormed, by unfold EntriesLastNode; exact entriesLast, size⟩
    exact ⟨root, opened, fun path => lists_congr (same path)
      (lists_of_shows (shows_of_opens here.signature decodable opens))⟩

/-- The two images of a tree decode as the same tree. -/
def OrderIndependent (junk junk' : Nat → Nat → BitVec 8) (label label' : CString)
    (stream stream' : HostStream) : Prop :=
  ∃ image image', mkvfs junk label stream = some image ∧ mkvfs junk' label' stream' = some image' ∧
    DecodesAs image stream ∧ DecodesAs image' stream

/-- The images of two enumerations of a tree decode as that tree exactly if it has an entry and in no
directory of either enumeration `.` or `..` is listed behind the last entry. -/
theorem ramdisk_order_iff (junk junk' : Nat → Nat → BitVec 8) (label label' : CString)
    (stream stream' : HostStream) (same : SameTree stream stream')
    (wellFormed : WellFormedNode (.directory stream)) (wellFormed' : WellFormedNode (.directory stream'))
    (distinct : DistinctStream stream) (distinct' : DistinctStream stream')
    (small : imageSize stream < 2 ^ 32) (small' : imageSize stream' < 2 ^ 32) :
    OrderIndependent junk junk' label label' stream stream' ↔
      entries stream ≠ [] ∧ EntriesLastStream stream ∧ EntriesLastStream stream' := by
  have records := wellFormed
  have records' := wellFormed'
  unfold WellFormedNode at records records'
  obtain ⟨image, written, length, contents⟩ := mkvfs_spec junk label records.2 records.1 small
  obtain ⟨image', written', length', contents'⟩ := mkvfs_spec junk' label' records'.2 records'.1 small'
  have first := decodesAs_iff (fun path => sameNode_refl _) wellFormed distinct small length contents
  have second := decodesAs_iff (fun path => sameNode_symm (same path)) wellFormed' distinct' small'
    length' contents'
  have notEmpty : entries stream ≠ [] → entries stream' ≠ [] := by
    intro notEmpty empty
    have perm : (names stream).Perm (names stream') := same []
    rw [names, names, empty, List.map_nil] at perm
    exact notEmpty (List.map_eq_nil_iff.mp perm.eq_nil)
  constructor
  · rintro ⟨_, _, here, here', decodes, decodes'⟩
    cases written.symm.trans here
    cases written'.symm.trans here'
    exact ⟨(first.mp decodes).1, (first.mp decodes).2, (second.mp decodes').2⟩
  · rintro ⟨some_, entriesLast, entriesLast'⟩
    exact ⟨image, image', written, written', first.mpr ⟨some_, entriesLast⟩,
      second.mpr ⟨notEmpty some_, entriesLast'⟩⟩

/-- `.` and `..` in front of other records. -/
def dotsThen (rest : HostStream) : HostStream :=
  .cons [0x2E] (.directory .nil) (.cons [0x2E, 0x2E] (.directory .nil) rest)

/-- The directory `d` with the file `x`, listed in front of `.` and `..`; behind it the file `y`. -/
def danglingTree : HostStream :=
  dotsThen (.cons [0x64] (.directory (.cons [0x78] (.regular []) (dotsThen .nil)))
    (.cons [0x79] (.regular []) .nil))

/-- The same tree with `.` and `..` in front everywhere. -/
def orderedTree : HostStream :=
  dotsThen (.cons [0x64] (.directory (dotsThen (.cons [0x78] (.regular []) .nil)))
    (.cons [0x79] (.regular []) .nil))

theorem sameTree_dotsThen {rest stream : HostStream} (same : SameTree rest stream) :
    SameTree (dotsThen rest) stream :=
  sameTree_special (by decide) (sameTree_special (by decide) same)

/-- The trees are the same. -/
theorem sameTree_dangling : SameTree danglingTree orderedTree := by
  refine sameTree_dotsThen fun path => sameNode_symm (sameTree_dotsThen (fun path => ?_) path)
  refine sameNode_symm (sameTree_cons (by decide) (fun path => sameNode_symm ?_) (sameTree_refl _) path)
  refine sameTree_dotsThen ?_ path
  refine sameTree_cons (by decide) (fun _ => sameNode_refl _) fun path => sameNode_symm ?_
  exact sameTree_dotsThen (sameTree_refl _) path

theorem danglingTree_wellFormed : WellFormedNode (.directory danglingTree) := by
  simp [danglingTree, dotsThen, WellFormedStream, WellFormedNode, IsSpecial, IsCString, nul]

theorem danglingTree_distinct : DistinctStream danglingTree := by
  simp [danglingTree, dotsThen, DistinctStream, DistinctNode, names, entries, IsSpecial]

theorem danglingTree_small : imageSize danglingTree < 2 ^ 32 := by
  simp [danglingTree, dotsThen, imageSize, streamSize, nodeSize, IsSpecial, headerSize, entrySize]

/-- Behind `x` in `d`, `readdir` finds `y`. -/
theorem ramdisk_order_extra_entry :
    SameTree danglingTree orderedTree ∧
      ¬ OrderIndependent (fun _ _ => 0) (fun _ _ => 0) [] [] danglingTree orderedTree := by
  refine ⟨sameTree_dangling, ?_⟩
  rintro ⟨image, _, written, _, decodes, _⟩
  have wellFormed := danglingTree_wellFormed
  unfold WellFormedNode at wellFormed
  obtain ⟨image', written', length, contents⟩ :=
    mkvfs_spec (fun _ _ => 0) [] wellFormed.2 wellFormed.1 danglingTree_small
  cases written.symm.trans written'
  have links := ((decodesAs_iff (sameTree_refl _) danglingTree_wellFormed danglingTree_distinct
    danglingTree_small length contents).mp decodes).2
  simp [danglingTree, dotsThen, EntriesLastStream, EntriesLastNode, entries, IsSpecial] at links

theorem ramdisk_order_iff_danglingTree :
    OrderIndependent (fun _ _ => 0) (fun _ _ => 0) [] [] danglingTree orderedTree ↔
      entries danglingTree ≠ [] ∧ EntriesLastStream danglingTree ∧ EntriesLastStream orderedTree :=
  ramdisk_order_iff (fun _ _ => 0) (fun _ _ => 0) [] [] danglingTree orderedTree sameTree_dangling
    danglingTree_wellFormed
    (by simp [orderedTree, dotsThen, WellFormedStream, WellFormedNode, IsSpecial, IsCString, nul])
    danglingTree_distinct
    (by simp [orderedTree, dotsThen, DistinctStream, DistinctNode, names, entries, IsSpecial])
    danglingTree_small
    (by simp [orderedTree, dotsThen, imageSize, streamSize, nodeSize, IsSpecial, headerSize, entrySize])

end Voxel.Proofs
