/-
Module: Voxel.Proofs.BootCopy
Layer: Proofs
Purpose: `copy_directory` fills a directory of tmpfs with the tree of the ramdisk. Copying a file carries
  the bytes up to an offset, in chunks; copying a directory carries what was there before, since every
  structure that it adds is new.
Trusted boundary: none
Main exports: FileWritten, copyContents_progress, treeCost, copyDirectory_progress, boot_copy_faithful
-/
import Voxel.Kernel.CopyDirectory
import Voxel.Proofs.BootTrees

namespace Voxel.Proofs

open Voxel.Lib Voxel.Kernel Voxel.Tool

/-! ## The contents of a file -/

/-- A file got new contents; nothing else changed but frames and memory that it owns. -/
structure FileWritten (t t' : Tmpfs) (f : Nat) (file file' : TmpfsFile) : Prop where
  files : t'.files = Function.update t.files f (some file')
  dirs : t'.dirs = t.dirs
  name : file'.name = file.name
  target : file'.target = file.target
  blocks : ∃ extra, file'.blocks = file.blocks ++ extra
  outside : ∀ address, address / blockSize ∉ file'.blocks → t'.phys address = t.phys address

theorem FileWritten.refl {t : Tmpfs} {f : Nat} {file : TmpfsFile} (present : t.files f = some file) :
    FileWritten t t f file file :=
  ⟨by rw [← present, Function.update_eq_self], rfl, rfl, rfl, ⟨[], by simp⟩, fun _ _ => rfl⟩

theorem FileWritten.trans {t t' t'' : Tmpfs} {f : Nat} {file file' file'' : TmpfsFile}
    (first : FileWritten t t' f file file') (second : FileWritten t' t'' f file' file'') :
    FileWritten t t'' f file file'' where
  files := by rw [second.files, first.files, Function.update_idem]
  dirs := second.dirs.trans first.dirs
  name := second.name.trans first.name
  target := second.target.trans first.target
  blocks := by
    obtain ⟨extra, blocks⟩ := first.blocks
    obtain ⟨more, blocks'⟩ := second.blocks
    exact ⟨extra ++ more, by rw [blocks', blocks, List.append_assoc]⟩
  outside := by
    intro address notBlock
    obtain ⟨more, blocks'⟩ := second.blocks
    rw [second.outside address notBlock]
    exact first.outside address fun block => notBlock (by rw [blocks']; exact List.mem_append_left _ block)

/-- Other files keep their bytes: they own their blocks. -/
theorem FileWritten.otherBytes {t t' : Tmpfs} {f g : Nat} {file file' other : TmpfsFile}
    (written : FileWritten t t' f file file') (owned : Tmpfs.Owned t') (different : g ≠ f)
    (present : t.files g = some other) (position : Nat) :
    TmpfsFile.byteAt other t'.phys position = TmpfsFile.byteAt other t.phys position := by
  unfold TmpfsFile.byteAt
  cases block : other.blocks[position / blockSize]? with
  | none => rfl
  | some frame =>
      rw [Option.map_some, Option.map_some, written.outside]
      have inFrame : (frame * blockSize + position % blockSize) / blockSize = frame := by
        have inPage : position % blockSize < blockSize := Nat.mod_lt _ (by decide)
        simp only [blockSize] at *
        omega
      rw [inFrame]
      intro member
      obtain ⟨i, here⟩ := List.mem_iff_getElem?.mp member
      have presentG : t'.files g = some other := by
        rw [written.files, Function.update_of_ne different]
        exact present
      have presentF : t'.files f = some file' := by rw [written.files, Function.update_self]
      have same := @Exclusive.unique _ _ _ _ owned (.filePart g (.block (position / blockSize)))
        (.filePart f (.block i)) frame ⟨other, presentG, block⟩ ⟨file', presentF, here⟩
      cases same
      exact different rfl

/-- A write of a chunk behind the end of a file appends it. -/
theorem appendChunk {t : Tmpfs} {f n blocks size : Nat} {buffer : Nat → BitVec 8} {file : TmpfsFile}
    (owned : Tmpfs.Owned t) (present : t.files f = some file) (positive : 0 < file.pointers)
    (noWrap : NoWrap file.length size) (inside : (file.length + size) / blockSize < blocks)
    (small : blocks ≤ 2 ^ 32) (available : Available t.frames (n + reserve blocks file)) :
    ∃ t' file', t.writeTmpfs f file.length size buffer = some (size, t') ∧ t'.files f = some file' ∧
      FileWritten t t' f file file' ∧ 0 < file'.pointers ∧ file'.length = file.length + size ∧
      Tmpfs.Owned t' ∧ Available t'.frames (n + reserve blocks file') ∧
      (∀ k < size, TmpfsFile.byteAt file' t'.phys (file.length + k) = some (buffer k)) ∧
      ∀ position b, position < file.length → TmpfsFile.byteAt file t.phys position = some b →
        TmpfsFile.byteAt file' t'.phys position = some b := by
  obtain ⟨t', file', wrote, presentAfter, positiveAfter, left⟩ :=
    @writeTmpfs_progress blocks n f file.length size buffer file t noWrap present inside small positive
      available
  obtain ⟨_, file'', grown, done⟩ := writeTmpfs_spec noWrap owned present wrote
  cases presentAfter.symm.trans grown.present
  have length : file'.length = file.length + size := by
    rw [done.length]
    omega
  refine ⟨t', file', wrote, presentAfter, ⟨?_, grown.dirs, ?_, ?_, ?_, done.outside⟩, positiveAfter,
    length, grown.owned (owned.setLength present _), left, done.written, ?_⟩
  · rw [grown.files, setFile_files, Function.update_idem]
  · rw [grown.rest]
  · rw [grown.rest]
  · obtain ⟨extra, blocks, _⟩ := grown.blocks
    exact ⟨extra, blocks⟩
  · intro position b before here
    rw [done.kept position ?_ (Or.inl before)]
    · exact here
    · unfold TmpfsFile.byteAt at here
      obtain ⟨frame, block, _⟩ := Option.map_eq_some_iff.mp here
      exact (List.getElem?_eq_some_iff.mp block).1

/-- Copying the rest of a file from an offset on. -/
theorem copyContents_progress {mem : RamdiskMemory} {node : RamdiskNode} {bytes : List (BitVec 8)}
    {f n fuel : Nat} {buffer : Nat → BitVec 8} {file : TmpfsFile} {t : Tmpfs}
    (shows_ : ShowsFile mem node bytes) (small : bytes.length < 2 ^ 32) (owned : Tmpfs.Owned t)
    (present : t.files f = some file) (noTarget : file.target = none) (positive : 0 < file.pointers)
    (inside : file.length ≤ bytes.length)
    (copied : ∀ i < file.length, TmpfsFile.byteAt file t.phys i = some (charAt bytes i))
    (enough : bytes.length - file.length + 2 ≤ fuel)
    (available : Available t.frames (n + reserve (bytes.length / blockSize + 1) file)) :
    ∃ t' file', copyContents mem node (.file f) fuel file.length (bytes.length - file.length) buffer t =
        some t' ∧ t'.files f = some file' ∧ FileWritten t t' f file file' ∧
      file'.length = bytes.length ∧
      (∀ i < bytes.length, TmpfsFile.byteAt file' t'.phys i = some (charAt bytes i)) ∧
      Tmpfs.Owned t' ∧ Available t'.frames n := by
  induction fuel generalizing t file buffer with
  | zero => omega
  | succ fuel inductionHypothesis =>
      rw [copyContents]
      by_cases done : bytes.length - file.length = 0
      · rw [if_pos done]
        have length : file.length = bytes.length := by omega
        exact ⟨t, file, rfl, present, .refl present, length,
          fun i before => copied i (by omega), owned, available.mono (by omega)⟩
      · rw [if_neg done]
        dsimp only
        generalize chunk : (if copyBufferSize < bytes.length - file.length then copyBufferSize
          else bytes.length - file.length) = size
        have bound : 0 < size ∧ size ≤ copyBufferSize ∧ size ≤ bytes.length - file.length := by
          unfold copyBufferSize at *
          split at chunk <;> omega
        have noWrap : file.length + size < 2 ^ 64 := by
          unfold copyBufferSize at bound
          omega
        have reads : ramdiskReadFs mem node file.length size = ramdiskfsRead mem node file.length size := by
          rw [ramdiskReadFs, if_pos shows_.kind]
        have count : (ramdiskfsRead mem node file.length size).1 = size := by
          rw [shows_.count _ _ noWrap]
          omega
        rw [reads, count, if_neg (by omega)]
        generalize filled : (fun i => if i < size then (ramdiskfsRead mem node file.length size).2 i
          else buffer i) = buffer'
        have content : ∀ k < size, buffer' k = charAt bytes (file.length + k) := by
          intro k before
          rw [← filled]
          dsimp only
          rw [if_pos before, shows_.read _ _ _ noWrap (by omega)]
        obtain ⟨t₁, file₁, wrote, present₁, written, positive₁, length, owned₁, left, new, old⟩ :=
          @appendChunk t f n (bytes.length / blockSize + 1) size buffer' file owned present positive
            noWrap (by simp only [blockSize] at *; omega) (by simp only [blockSize] at *; omega) available
        obtain ⟨rounds, rfl⟩ : ∃ rounds, fuel = rounds + 2 := ⟨fuel - 2, by omega⟩
        have whole : writeChunk (.file f) file.length size buffer' (rounds + 2) size t =
            some (true, t₁) := by
          rw [writeChunk, if_neg (by omega), tmpfsWriteFs, present]
          dsimp only
          rw [noTarget, if_neg (by decide), Nat.add_sub_cancel, wrote]
          dsimp only
          rw [if_neg (Nat.lt_irrefl _), Nat.sub_self, writeChunk, if_pos rfl]
        rw [whole]
        dsimp only
        obtain ⟨t', file', rest, present', written', length', bytes', owned', left'⟩ :=
          @inductionHypothesis buffer' file₁ t₁ owned₁ present₁ (written.target.trans noTarget)
            positive₁ (by omega) (by
              intro i before
              by_cases early : i < file.length
              · exact old i _ early (copied i early)
              · have here := new (i - file.length) (by omega)
                rw [Nat.add_sub_cancel' (Nat.le_of_not_lt early)] at here
                rw [here, content _ (by omega), Nat.add_sub_cancel' (Nat.le_of_not_lt early)])
            (by omega) left
        rw [show bytes.length - file.length - size = bytes.length - file₁.length by omega, ← length]
        exact ⟨t', file', rest, present', written.trans written', length', bytes', owned', left'⟩

/-! ## Names -/

/-- The names of a directory are known, and none is one of some names. -/
def NamesApart (t : Tmpfs) (dir : TmpfsDir) (names : List CString) : Prop :=
  ∀ entry ∈ dir.files, ∃ name, t.entryName entry = some name ∧ name ∉ names

theorem NamesApart.findEntry {t : Tmpfs} {dir : TmpfsDir} {names : List CString} {name : CString}
    (apart : NamesApart t dir names) (member : name ∈ names) : t.findEntry dir name = none := by
  unfold Tmpfs.findEntry
  refine List.find?_eq_none.mpr fun entry inDir => ?_
  obtain ⟨other, named, notMember⟩ := apart entry inDir
  have different : other ≠ name := fun same => notMember (same ▸ member)
  simpa [named] using different

/-- The other names of a directory when an entry was added. -/
theorem NamesApart.others {t t' : Tmpfs} {d : Nat} {dir : TmpfsDir} {names : List CString}
    {name : CString} (apart : NamesApart t dir names) (member : name ∈ names) (kept : Kept t t' d) :
    ∀ old ∈ dir.files, t'.entryName old ≠ some name := by
  intro old inDir same
  obtain ⟨other, named, notMember⟩ := apart old inDir
  rw [kept.entryName named] at same
  cases same
  exact notMember member

theorem NamesApart.added {t t' : Tmpfs} {d : Nat} {dir dir' : TmpfsDir} {names : List CString}
    {name : CString} {entry : TmpfsEntry} (apart : NamesApart t dir (name :: names)) (kept : Kept t t' d)
    (files : dir'.files = dir.files ++ [entry]) (named : t'.entryName entry = some name)
    (different : name ∉ names) : NamesApart t' dir' names := by
  intro other member
  rw [files, List.mem_append, List.mem_singleton] at member
  rcases member with old | rfl
  · obtain ⟨oldName, known, notMember⟩ := apart other old
    exact ⟨oldName, kept.entryName known, fun inNames => notMember (List.mem_cons_of_mem _ inNames)⟩
  · exact ⟨name, named, different⟩

/-! ## Directories -/

mutual

/-- The frames that the copy of a tree may take. -/
def treeCost : FileTree → Nat
  | .file bytes => 3 * (bytes.length / blockSize + 1)
  | .directory entries => forestCost 0 entries

/-- The frames that the copy of entries behind `count` others may take. -/
def forestCost (count : Nat) : FileForest → Nat
  | .nil => 0
  | .cons name tree rest =>
      entryCost count + newCost name + treeCost tree + forestCost (count + 1) rest

end

mutual

/-- The rounds and calls that the copy of a tree takes. -/
def treeFuel : FileTree → Nat
  | .file bytes => bytes.length + 2
  | .directory entries => forestFuel entries

/-- The same for entries. -/
def forestFuel : FileForest → Nat
  | .nil => 1
  | .cons _ tree rest => max (treeFuel tree) (forestFuel rest) + 1

end

/-- What a copy into the directory `d` leaves: `extra` holds the entries, and all of it is new. -/
structure TreeCopied (t t' : Tmpfs) (d : Nat) (dir : TmpfsDir) (extra : List TmpfsEntry) : Prop where
  parent : ∃ dir', t'.dirs d = some dir' ∧ dir'.files = dir.files ++ extra
  kept : Kept t t' d
  owned : Tmpfs.Owned t'

/-- The copy of a file. -/
theorem copyFile_progress {mem : RamdiskMemory} {who : Credentials} {buffer : Nat → BitVec 8}
    {recurse : TmpfsEntry → RamdiskNode → Tmpfs → Option Tmpfs} {node : RamdiskNode}
    {bytes : List (BitVec 8)} {t : Tmpfs} {d n fuel : Nat} {dir : TmpfsDir} {names : List CString}
    (shows_ : ShowsFile mem node bytes) (small : bytes.length < 2 ^ 32) (short : node.name.length ≤ 255)
    (present : t.dirs d = some dir) (apart : NamesApart t dir (node.name :: names))
    (room : dir.files.length ≤ 2 ^ 32) (owned : Tmpfs.Owned t) (enough : treeFuel (.file bytes) ≤ fuel)
    (available : Available t.frames
      (n + treeCost (.file bytes) + entryCost dir.files.length + newCost node.name)) :
    ∃ t' entry, copyNode mem who buffer fuel recurse (.dir d) node t = some t' ∧
      TreeCopied t t' d dir [entry] ∧ t'.entryName entry = some node.name ∧
      TmpfsTree t' (Fresh t) entry (.file bytes) ∧ Available t'.frames n := by
  obtain ⟨f, file, t₁, created, left, added, absent, present₁, named, noTarget, empty, positive, noBlocks⟩ :=
    @createTmpfs_progress who t d _ dir node.name 0o777 present
      (apart.findEntry List.mem_cons_self) short room owned available
  obtain ⟨dir₁, parent₁, files₁, name₁⟩ := added.parent
  have kept₁ := added.kept present absent
  have entryNamed : t₁.entryName (.file f) = some node.name := by
    change (t₁.files f).map TmpfsFile.name = _
    rw [present₁, Option.map_some, named]
  have found : t₁.finddirTmpfs d node.name = some (.file f) := by
    rw [Tmpfs.finddirTmpfs, parent₁]
    exact findEntry_added (apart.others List.mem_cons_self kept₁) entryNamed files₁
  unfold treeFuel at enough
  unfold treeCost at left
  obtain ⟨t₂, file₂, copied, present₂, written, length, content, owned₂, left₂⟩ :=
    @copyContents_progress mem node bytes f n fuel buffer file t₁ shows_ small added.owned present₁
      noTarget positive (by omega) (by rw [empty]; exact fun i before => absurd before (Nat.not_lt_zero i))
      (by omega) (left.mono (by unfold reserve; simp only [blockSize]; omega))
  rw [empty, Nat.sub_zero] at copied
  have others : ∀ g other, t₁.files g = some other → g ≠ f →
      t₂.files g = some other ∧
        ∀ position, TmpfsFile.byteAt other t₂.phys position = TmpfsFile.byteAt other t₁.phys position := by
    intro g other here different
    refine ⟨?_, written.otherBytes owned₂ different here⟩
    rw [written.files, Function.update_of_ne different]
    exact here
  have kept : Kept t t₂ d := by
    refine ⟨fun g other here => ?_, fun e other different here => ?_, fun other here => ?_⟩
    · have different : g ≠ f := by
        rintro rfl
        rw [absent] at here
        cases here
      obtain ⟨here₁, same₁⟩ := kept₁.files g other here
      obtain ⟨here₂, same₂⟩ := others g other here₁ different
      exact ⟨here₂, fun position => (same₂ position).trans (same₁ position)⟩
    · rw [written.dirs]
      exact kept₁.dirs e other different here
    · rw [written.dirs]
      exact kept₁.parent other here
  refine ⟨t₂, .file f, ?_, ⟨⟨dir₁, by rw [written.dirs]; exact parent₁, files₁⟩, kept, owned₂⟩, ?_, ?_,
    left₂⟩
  · rw [copyNode, shows_.kind]
    dsimp only
    rw [tmpfsCreateFs, created]
    dsimp only
    rw [if_neg (by decide), tmpfsFinddirFs, found]
    dsimp only
    rw [shows_.length]
    exact copied
  · change (t₂.files f).map TmpfsFile.name = _
    rw [present₂, Option.map_some, written.name, named]
  · unfold TmpfsTree
    exact ⟨absent, f, file₂, rfl, present₂, written.target.trans noTarget, length, content⟩

mutual

/-- The copy of an entry. -/
theorem copyNode_progress (mem : RamdiskMemory) (who : Credentials) (buffer : Nat → BitVec 8) :
    ∀ (tree : FileTree) (fuel : Nat) {node : RamdiskNode} {t : Tmpfs} {d n : Nat} {dir : TmpfsDir}
      {names : List CString}, RamdiskTree mem node tree → node.length < 2 ^ 32 → tree.WellNamed →
      tree.DirectoriesNamed → node.name.length ≤ 255 →
      (∀ entries, tree = .directory entries → node.name ≠ []) → t.dirs d = some dir →
      NamesApart t dir (node.name :: names) → dir.files.length ≤ 2 ^ 32 → Tmpfs.Owned t →
      treeFuel tree ≤ fuel →
      Available t.frames (n + treeCost tree + entryCost dir.files.length + newCost node.name) →
      ∃ t' entry,
        copyNode mem who buffer fuel (copyDirectory mem who buffer fuel 0) (.dir d) node t = some t' ∧
        TreeCopied t t' d dir [entry] ∧ t'.entryName entry = some node.name ∧
        TmpfsTree t' (Fresh t) entry tree ∧ Available t'.frames n
  | .file bytes, fuel, node, t, d, n, dir, names, shown, small, _, _, short, _, present, apart, room,
      owned, enough, available => by
      unfold RamdiskTree at shown
      exact copyFile_progress shown (shown.length ▸ small) short present apart room owned enough available
  | .directory entries, fuel, node, t, d, n, dir, names, shown, _, wellNamed, named, short, notEmpty,
      present, apart, room, owned, enough, available => by
      unfold RamdiskTree at shown
      unfold FileTree.WellNamed at wellNamed
      unfold FileTree.DirectoriesNamed at named
      unfold treeFuel at enough
      unfold treeCost at available
      obtain ⟨kind, listing, forest⟩ := shown
      obtain ⟨out, outDir, t₁, made, left, added, absent, present₁, outName, noFiles⟩ :=
        @mkdirTmpfs_progress who t d _ dir node.name 0o777 present (notEmpty entries rfl)
          (apart.findEntry List.mem_cons_self) short room owned available
      obtain ⟨dir₁, parent₁, files₁, _⟩ := added.parent
      have kept₁ := added.kept present absent
      have entryNamed : t₁.entryName (.dir out) = some node.name := by
        change (t₁.dirs out).map TmpfsDir.name = _
        rw [present₁, Option.map_some, outName]
      have found : t₁.finddirTmpfs d node.name = some (.dir out) := by
        rw [Tmpfs.finddirTmpfs, parent₁]
        exact findEntry_added (apart.others List.mem_cons_self kept₁) entryNamed files₁
      have different : d ≠ out := by
        rintro rfl
        rw [absent] at present
        cases present
      have noNames : NamesApart t₁ outDir entries.names := by
        intro entry member
        rw [noFiles] at member
        cases member
      obtain ⟨t₂, extra, copied, done, held, left₂⟩ := copyForest_progress mem who buffer entries
        fuel 0 forest (fun i => by rw [Nat.zero_add]; exact listing i) wellNamed named present₁
        noNames (by
          rw [noFiles, List.length_nil, Nat.zero_add]
          exact names_length_le forest wellNamed.nodup)
        added.owned enough (by rw [noFiles]; exact left)
      obtain ⟨outDir₂, present₂, files₂⟩ := done.parent
      rw [noFiles, List.nil_append] at files₂
      have kept₂ := done.kept
      refine ⟨t₂, .dir out, ?_, ⟨⟨dir₁, kept₂.dirs d dir₁ different parent₁, files₁⟩,
        kept₁.below kept₂ absent different, done.owned⟩, kept₂.entryName entryNamed, ?_, left₂⟩
      · rw [copyNode, kind]
        dsimp only
        rw [tmpfsMkdirFs, made]
        dsimp only
        rw [if_neg (by decide), tmpfsFinddirFs, found]
        exact copied
      · unfold TmpfsTree
        refine ⟨absent, out, outDir₂, rfl, present₂, ?_⟩
        rw [files₂]
        exact held.carry (.refl _ _) fun entry fresh => kept₁.fresh fresh

/-- The copy of the entries from an index on. -/
theorem copyForest_progress (mem : RamdiskMemory) (who : Credentials) (buffer : Nat → BitVec 8) :
    ∀ (forest : FileForest) (fuel index : Nat) {source : RamdiskNode} {t : Tmpfs} {d n : Nat}
      {dir : TmpfsDir},
      RamdiskForest mem source forest →
      (∀ i, ramdiskReaddirFs mem source (index + i) = forest.names[i]?) → forest.WellNamed →
      forest.DirectoriesNamed → t.dirs d = some dir → NamesApart t dir forest.names →
      dir.files.length + forest.names.length ≤ 2 ^ 32 → Tmpfs.Owned t → forestFuel forest ≤ fuel →
      Available t.frames (n + forestCost dir.files.length forest) →
      ∃ t' extra, copyDirectory mem who buffer fuel index (.dir d) source t = some t' ∧
        TreeCopied t t' d dir extra ∧ TmpfsForest t' (Fresh t) extra forest ∧ Available t'.frames n
  | .nil, fuel, index, source, t, d, n, dir, _, listing, _, _, present, _, _, owned, enough, available => by
      unfold forestFuel at enough
      obtain ⟨rounds, rfl⟩ : ∃ rounds, fuel = rounds + 1 := ⟨fuel - 1, by omega⟩
      have last : ramdiskReaddirFs mem source index = none := listing 0
      refine ⟨t, [], by rw [copyDirectory, last], ⟨⟨dir, present, by simp⟩, .refl t d, owned⟩, ?_,
        available.mono (Nat.le_add_right _ _)⟩
      unfold TmpfsForest
      rfl
  | .cons name tree rest, fuel, index, source, t, d, n, dir, shown, listing, wellNamed, named, present,
      apart, room, owned, enough, available => by
      unfold RamdiskForest at shown
      unfold FileForest.WellNamed at wellNamed
      unfold FileForest.DirectoriesNamed at named
      unfold FileForest.names at listing apart room
      unfold forestFuel at enough
      unfold forestCost at available
      obtain ⟨⟨child, found, shownChild⟩, shownRest⟩ := shown
      obtain ⟨short, notInRest, wellNamedTree, wellNamedRest⟩ := wellNamed
      obtain ⟨notEmpty, namedTree, namedRest⟩ := named
      obtain ⟨_, _, childName, childSmall⟩ := finddir_found found
      obtain ⟨rounds, rfl⟩ : ∃ rounds, fuel = rounds + 1 := ⟨fuel - 1, by omega⟩
      rw [List.length_cons] at room
      have first : ramdiskReaddirFs mem source index = some name := listing 0
      subst childName
      obtain ⟨t₁, entry, copied, done, entryNamed, held, left⟩ := copyNode_progress mem who buffer tree
        rounds (n := n + forestCost (dir.files.length + 1) rest) shownChild childSmall wellNamedTree namedTree
        short notEmpty present apart (by omega) owned (by omega) (available.mono (by omega))
      obtain ⟨dir₁, present₁, files₁⟩ := done.parent
      have count : dir₁.files.length = dir.files.length + 1 := by
        rw [files₁, List.length_append]
        rfl
      obtain ⟨t₂, extra, copiedRest, doneRest, heldRest, leftRest⟩ := copyForest_progress mem who buffer
        rest rounds (index + 1) shownRest
        (fun i => by rw [Nat.add_assoc, Nat.add_comm 1 i]; exact listing (i + 1)) wellNamedRest namedRest
        present₁ (apart.added done.kept files₁ entryNamed notInRest) (by omega) done.owned (by omega)
        (by rw [count]; exact left)
      obtain ⟨dir₂, present₂, files₂⟩ := doneRest.parent
      have notParent : ∀ other, Fresh t other → other ≠ .dir d := by
        rintro _ fresh rfl
        rw [show t.dirs d = none from fresh] at present
        cases present
      refine ⟨t₂, entry :: extra, ?_, ⟨⟨dir₂, present₂, ?_⟩, done.kept.trans doneRest.kept,
        doneRest.owned⟩, ?_, leftRest⟩
      · rw [copyDirectory, first]
        dsimp only
        rw [found]
        dsimp only
        rw [copied]
        exact copiedRest
      · rw [files₂, files₁, List.append_assoc]
        rfl
      · unfold TmpfsForest
        exact ⟨entry, extra, rfl, doneRest.kept.entryName entryNamed,
          held.carry (doneRest.kept.carried notParent) fun _ fresh => fresh,
          heldRest.carry (.refl _ _) fun _ fresh => done.kept.fresh fresh⟩

end

/-! ## Booting -/

/-- `copy_directory` returns, and the directory of tmpfs has the entries of the ramdisk: the same names,
directories, lengths and bytes, in structures that are all new. -/
def CopiesTree (mem : RamdiskMemory) (who : Credentials) (buffer : Nat → BitVec 8)
    (source : RamdiskNode) (entries : FileForest) (t : Tmpfs) (d : Nat) : Prop :=
  ∀ fuel, treeFuel (.directory entries) ≤ fuel → ∃ t' dir',
    copyDirectory mem who buffer fuel 0 (.dir d) source t = some t' ∧ t'.dirs d = some dir' ∧
      TmpfsForest t' (Fresh t) dir'.files entries

/-- The copy into an empty directory. -/
theorem copyDirectory_progress {mem : RamdiskMemory} {source : RamdiskNode} {entries : FileForest}
    {t : Tmpfs} {d : Nat} {dir : TmpfsDir} (who : Credentials) (buffer : Nat → BitVec 8)
    (shown : RamdiskTree mem source (.directory entries)) (wellNamed : entries.WellNamed)
    (named : entries.DirectoriesNamed) (owned : Tmpfs.Owned t) (present : t.dirs d = some dir)
    (empty : dir.files = []) (available : Available t.frames (treeCost (.directory entries))) :
    CopiesTree mem who buffer source entries t d := by
  intro fuel enough
  unfold RamdiskTree at shown
  unfold treeFuel at enough
  unfold treeCost at available
  obtain ⟨_, listing, forest⟩ := shown
  have noNames : NamesApart t dir entries.names := by
    intro entry member
    rw [empty] at member
    cases member
  obtain ⟨t', extra, copied, done, held, _⟩ := copyForest_progress mem who buffer entries fuel 0 (n := 0)
    forest (fun i => by rw [Nat.zero_add]; exact listing i) wellNamed named present noNames
    (by
      rw [empty, List.length_nil, Nat.zero_add]
      exact names_length_le forest wellNamed.nodup)
    owned enough (by rw [empty, Nat.zero_add]; exact available)
  obtain ⟨dir', present', files⟩ := done.parent
  rw [empty, List.nil_append] at files
  exact ⟨t', dir', copied, present', by rw [files]; exact held⟩

/-- If no directory has the empty name, the boot copy leaves the tree of the ramdisk in an empty root of
tmpfs, as long as there are frames for it. -/
theorem boot_copy_faithful (mem : RamdiskMemory) (source : RamdiskNode) (entries : FileForest)
    (who : Credentials) (buffer : Nat → BitVec 8) (t : Tmpfs) (root : TmpfsDir)
    (shown : RamdiskTree mem source (.directory entries)) (wellNamed : entries.WellNamed)
    (named : entries.DirectoriesNamed) (reachable : Tmpfs.Reachable t)
    (present : t.dirs t.tmpfsRoot = some root) (empty : root.files = [])
    (available : Available t.frames (treeCost (.directory entries))) :
    CopiesTree mem who buffer source entries t t.tmpfsRoot :=
  copyDirectory_progress who buffer shown wellNamed named reachable.sound.owned present empty available

/-- The image of a tree shows the tree. -/
theorem image_tree {mem : RamdiskMemory} {stream : HostStream} (image : ImageOf mem stream)
    (wellFormed : WellFormedStream stream) (entriesLast : EntriesLastStream stream)
    (distinct : DistinctStream stream) (notEmpty : entries stream ≠ [])
    (small : imageSize stream < 2 ^ 32) :
    ∃ source, ramdiskfsOpen mem = some source ∧
      RamdiskTree mem source (.directory (forestOf stream)) := by
  obtain ⟨source, opened, opens⟩ := image_opens image notEmpty
  have someRecord : stream ≠ .nil := by
    rintro rfl
    exact notEmpty rfl
  have decodable : Decodable (.directory stream) := by
    refine ⟨?_, by unfold EntriesLastNode; exact entriesLast, ?_⟩
    · unfold WellFormedNode
      exact ⟨someRecord, wellFormed⟩
    · unfold imageSize at small
      unfold nodeSize
      omega
  have tree := ramdiskTree_of_opens image.signature decodable
    (by unfold DistinctNode; exact distinct) opens
  unfold treeOf at tree
  exact ⟨source, opened, tree⟩

/-- A tree whose only entry is a directory with the empty name. -/
def emptyNameTree : HostStream := dotsThen (.cons [] (.directory (dotsThen .nil)) .nil)

/-- `mkdir_tmpfs` refuses the empty name, and the directory is left out. -/
theorem boot_copy_skips_empty_name :
    ∃ image source t root, mkvfs (fun _ _ => 0) [] emptyNameTree = some image ∧
      ramdiskfsOpen image.bytes = some source ∧
      RamdiskTree image.bytes source (.directory (forestOf emptyNameTree)) ∧
      (forestOf emptyNameTree).WellNamed ∧ Tmpfs.Reachable t ∧ t.dirs t.tmpfsRoot = some root ∧
      root.files = [] ∧ Available t.frames (treeCost (.directory (forestOf emptyNameTree))) ∧
      ¬ CopiesTree image.bytes ⟨0, 0⟩ (fun _ => 0) source (forestOf emptyNameTree) t t.tmpfsRoot := by
  have wellFormed : WellFormedStream emptyNameTree := by
    simp [emptyNameTree, dotsThen, WellFormedStream, WellFormedNode, IsSpecial, IsCString]
  have small : imageSize emptyNameTree < 2 ^ 32 := by
    simp [emptyNameTree, dotsThen, imageSize, streamSize, nodeSize, IsSpecial, headerSize, entrySize]
  obtain ⟨image, written, _, contents⟩ := mkvfs_spec (fun _ _ => 0) [] wellFormed
    (by simp [emptyNameTree, dotsThen]) small
  obtain ⟨source, opened, tree⟩ := image_tree contents wellFormed
    (by simp [emptyNameTree, dotsThen, EntriesLastStream, EntriesLastNode, IsSpecial])
    (by simp [emptyNameTree, dotsThen, DistinctStream, DistinctNode, names, entries, IsSpecial])
    (by simp [emptyNameTree, dotsThen, entries, IsSpecial]) small
  obtain ⟨t, root, created, present, empty, available⟩ :=
    @tmpfsCreate_progress freeMemory (fun _ => 0) [] 32 (Nat.zero_le _) freeMemory_available
  have forest : forestOf emptyNameTree = .cons [] (.directory .nil) .nil := by
    simp [emptyNameTree, dotsThen, forestOf, treeOf, IsSpecial]
  rw [forest] at tree ⊢
  refine ⟨image, source, t, root, written, opened, tree, ?_, ⟨_, _, _, _, [], created, .refl _⟩, present,
    empty, available.mono (by decide), ?_⟩
  · simp [FileForest.WellNamed, FileTree.WellNamed, FileForest.names]
  · intro copies
    unfold RamdiskTree RamdiskForest RamdiskTree at tree
    obtain ⟨_, listing, ⟨child, found, isDirectory, _⟩, _⟩ := tree
    obtain ⟨_, _, childName, _⟩ := finddir_found found
    obtain ⟨t', dir', copied, present', held⟩ := copies 2 (by decide)
    have first : ramdiskReaddirFs image.bytes source 0 = some [] := listing 0
    have last : ramdiskReaddirFs image.bytes source 1 = none := listing 1
    have skipped : copyDirectory image.bytes ⟨0, 0⟩ (fun _ => 0) 2 0 (.dir t.tmpfsRoot) source t =
        some t := by
      rw [copyDirectory, first]
      dsimp only
      rw [found]
      dsimp only
      rw [copyNode, isDirectory]
      dsimp only
      rw [tmpfsMkdirFs, childName, Tmpfs.mkdirTmpfs, if_pos rfl]
      dsimp only
      rw [if_pos (by decide)]
      dsimp only
      rw [copyDirectory, last]
    cases skipped.symm.trans copied
    cases present.symm.trans present'
    unfold TmpfsForest at held
    obtain ⟨_, _, files, _⟩ := held
    rw [empty] at files
    cases files

/-- The boot copy of the image of a small tree. -/
theorem boot_copy_faithful_smallTree :
    ∃ image source t root, mkvfs (fun _ _ => 0) [] smallTree = some image ∧
      ramdiskfsOpen image.bytes = some source ∧ Tmpfs.Reachable t ∧
      t.dirs t.tmpfsRoot = some root ∧ root.files = [] ∧
      CopiesTree image.bytes ⟨0, 0⟩ (fun _ => 0) source
        (.cons [0x61] (.directory .nil) (.cons [0x62] (.file [7]) .nil)) t t.tmpfsRoot := by
  have wellFormed : WellFormedStream smallTree := by
    simp [smallTree, WellFormedStream, WellFormedNode, IsSpecial, IsCString, nul]
  have small : imageSize smallTree < 2 ^ 32 := by
    simp [smallTree, imageSize, streamSize, nodeSize, IsSpecial, headerSize, entrySize]
  obtain ⟨image, written, _, contents⟩ := mkvfs_spec (fun _ _ => 0) [] wellFormed
    (by simp [smallTree]) small
  obtain ⟨source, opened, tree⟩ := image_tree contents wellFormed
    (by simp [smallTree, EntriesLastStream, EntriesLastNode, entries, IsSpecial])
    (by simp [smallTree, DistinctStream, DistinctNode, names, entries, IsSpecial])
    (by simp [smallTree, entries, IsSpecial]) small
  have forest : forestOf smallTree = .cons [0x61] (.directory .nil) (.cons [0x62] (.file [7]) .nil) := by
    simp [smallTree, forestOf, treeOf, IsSpecial]
  obtain ⟨t, root, created, present, empty, available⟩ :=
    @tmpfsCreate_progress freeMemory (fun _ => 0) [] 32 (Nat.zero_le _) freeMemory_available
  have reachable : Tmpfs.Reachable t := ⟨_, _, _, _, [], created, .refl _⟩
  rw [forest] at tree
  exact ⟨image, source, t, root, written, opened, reachable, present, empty,
    boot_copy_faithful image.bytes source _ ⟨0, 0⟩ (fun _ => 0) t root tree
      (by simp [FileForest.WellNamed, FileTree.WellNamed, FileForest.names])
      (by simp [FileForest.DirectoriesNamed, FileTree.DirectoriesNamed]) reachable present empty
      (available.mono (by decide))⟩

end Voxel.Proofs
