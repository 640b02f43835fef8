/-
Module: Voxel.Proofs.TmpfsProgress
Layer: Proofs
Purpose: The operations of tmpfs succeed while there are frames. A run of free frames behind the hint is
  enough for requests that add up to its length: the search takes the first run that is long enough, so it
  takes at most the front of this one. A file that may grow up to a number of blocks has a reserve, which every
  new block and every larger block array is paid from; a new structure and a new entry have a fixed price.
Trusted boundary: none
Main exports: Available, malloc_available, realloc_available, mmuAllocateFrame_available, reserve,
  writeTmpfs_progress, newCost, entryCost, Added, createTmpfs_progress, mkdirTmpfs_progress
-/
import Voxel.Kernel.Alloc
import Voxel.Proofs.TmpfsBlocks

namespace Voxel.Proofs

open Voxel.Lib Voxel.Kernel

/-! ## Free frames -/

/-- There is a run of `n` free frames behind the hint, in whole words of the bitmap. -/
def Available (m : FrameMap) (n : Nat) : Prop :=
  ∃ first, m.lowestAvailable ≤ first ∧ first + n ≤ 32 * (m.nFrames / 32) ∧
    ∀ f, first ≤ f → f < first + n → m.locked f = false

theorem Available.mono {m : FrameMap} {n k : Nat} (available : Available m n) (fewer : k ≤ n) :
    Available m k := by
  obtain ⟨first, hint, inside, free⟩ := available
  exact ⟨first, hint, by omega, fun f low high => free f low (by omega)⟩

@[simp] theorem lockFrames_lowestAvailable (m : FrameMap) (first pages : Nat) :
    (lockFrames m first pages).lowestAvailable = m.lowestAvailable := by
  induction pages with
  | zero => rfl
  | succ pages inductionHypothesis =>
      rw [lockFrames, ← inductionHypothesis]
      unfold mmuLockFrame
      split <;> rfl

/-- A run of free frames is found, or one in front of it. -/
theorem mmuRequestFrames_available {m : FrameMap} {n pages : Nat} (available : Available m n)
    (positive : 0 < pages) (enough : pages ≤ n) :
    ∃ found, mmuRequestFrames m pages = some found ∧
      ∀ first, m.lowestAvailable ≤ first → first + n ≤ 32 * (m.nFrames / 32) →
        (∀ f, first ≤ f → f < first + n → m.locked f = false) → found ≤ first := by
  have fits : ∀ first, first + n ≤ 32 * (m.nFrames / 32) →
      (∀ f, first ≤ f → f < first + n → m.locked f = false) →
        (List.range pages).all (fun j => !mmuProbeFrame m (first + j)) = true := by
    intro first inside free
    rw [List.all_eq_true]
    intro j member
    rw [List.mem_range] at member
    unfold mmuProbeFrame
    rw [if_neg (by omega), free (first + j) (by omega) (by omega)]
    rfl
  obtain ⟨first, hint, inside, free⟩ := available
  have present : (mmuRequestFrames m pages).isSome := by
    unfold mmuRequestFrames
    rw [List.find?_isSome]
    exact ⟨first, by rw [List.mem_range'_1]; omega, fits first inside free⟩
  obtain ⟨found, requested⟩ := Option.isSome_iff_exists.mp present
  refine ⟨found, requested, fun other hint inside free => ?_⟩
  unfold mmuRequestFrames at requested
  rw [List.find?_range'_eq_some] at requested
  by_cases later : found ≤ other
  · exact later
  · have missed := requested.2.2 other hint (by omega)
    rw [fits other inside free] at missed
    cases missed

/-- `malloc` uses up at most the front of the run. -/
theorem malloc_available {m : FrameMap} {n size : Nat} (available : Available m n)
    (small : size < 2 ^ 42) (enough : mallocPages size ≤ n) :
    ∃ b m', malloc m size = some (b, m') ∧ Available m' (n - mallocPages size) := by
  obtain ⟨found, requested, front⟩ := mmuRequestFrames_available available (mallocPages_pos size) enough
  refine ⟨{ first := found, pages := mallocPages size }, lockFrames m found (mallocPages size), ?_, ?_⟩
  · rw [malloc, if_neg (by omega), requested]
    rfl
  · obtain ⟨first, hint, inside, free⟩ := available
    have before := front first hint inside free
    refine ⟨first + mallocPages size, ?_, ?_, fun f low high => ?_⟩
    · rw [lockFrames_lowestAvailable]
      omega
    · rw [lockFrames_nFrames]
      omega
    · rw [lockFrames_of_not_mem m (by omega)]
      exact free f (by omega) (by omega)

/-- Releasing frames keeps what is available. -/
theorem releaseFrames_available {m : FrameMap} {n first pages : Nat} (available : Available m n) :
    Available (releaseFrames m first pages) n := by
  induction pages with
  | zero => exact available
  | succ pages inductionHypothesis =>
      obtain ⟨start, hint, inside, free⟩ := inductionHypothesis
      refine ⟨start, ?_, by rw [releaseFrames, mmuReleaseFrame_nFrames]; exact inside, fun f low high => ?_⟩
      · rw [releaseFrames]
        unfold mmuReleaseFrame
        split
        · dsimp only
          split <;> omega
        · exact hint
      · rw [releaseFrames]
        by_cases same : f = first + pages
        · rw [mmuReleaseFrame, if_pos (by rw [← same]; omega), same]
          exact Function.update_self _ _ _
        · rw [mmuReleaseFrame_of_ne _ same]
          exact free f low high

/-- `realloc` uses up no more than the new block. -/
theorem realloc_available {m : FrameMap} {n size : Nat} {b : HeapBlock} (available : Available m n)
    (small : size < 2 ^ 42) (enough : mallocPages size ≤ n) :
    ∃ b' m', realloc m b size = some (b', m') ∧ Available m' (n - mallocPages size) := by
  obtain ⟨b', middle, allocated, left⟩ := malloc_available available small enough
  exact ⟨b', free middle b, by rw [realloc, allocated]; rfl, releaseFrames_available left⟩

/-- `mmu_allocate_frame` uses up one frame. -/
theorem mmuAllocateFrame_available {m : FrameMap} {n : Nat} (available : Available m n)
    (enough : 0 < n) : ∃ frame m', mmuAllocateFrame m = some (frame, m') ∧ Available m' (n - 1) := by
  obtain ⟨first, hint, inside, free⟩ := available
  have present : ((List.range' (32 * (m.lowestAvailable / 32))
      (32 * (m.nFrames / 32) - 32 * (m.lowestAvailable / 32))).find? fun f => !m.locked f).isSome := by
    rw [List.find?_isSome]
    refine ⟨first, by rw [List.mem_range'_1]; omega, ?_⟩
    rw [free first (Nat.le_refl _) (by omega)]
    rfl
  obtain ⟨frame, found⟩ := Option.isSome_iff_exists.mp present
  refine ⟨frame, mmuLockFrame { m with lowestAvailable := frame + 1 } frame, ?_, ?_⟩
  · unfold mmuAllocateFrame mmuRequestFrame
    dsimp only
    rw [found]
    rfl
  · rw [List.find?_range'_eq_some] at found
    have before : frame ≤ first := by
      by_cases later : frame ≤ first
      · exact later
      · have missed := found.2.2 first (by omega) (by omega)
        rw [free first (Nat.le_refl _) (by omega)] at missed
        cases missed
    have inBitmap := found.2.1
    rw [List.mem_range'_1] at inBitmap
    refine ⟨first + 1, ?_, ?_, fun f low high => ?_⟩
    · rw [mmuLockFrame, if_pos (by change frame < m.nFrames; omega)]
      change frame + 1 ≤ first + 1
      omega
    · rw [mmuLockFrame_nFrames]
      change first + 1 + (n - 1) ≤ 32 * (m.nFrames / 32)
      omega
    · rw [mmuLockFrame_of_ne _ (by omega)]
      exact free f (by omega) (by omega)

/-! ## Files that grow -/

/-- The frames that a file may still take until it has a number of blocks. -/
def reserve (blocks : Nat) (file : TmpfsFile) : Nat :=
  2 * blocks - file.pointers + (blocks - file.blockCount)

/-- A larger block array costs no more than the pointers it adds. -/
theorem mallocPages_double {pointers : Nat} (positive : 0 < pointers) :
    mallocPages (pointerSize * (pointers * 2)) ≤ pointers := by
  unfold mallocPages pointerSize allocInfo blockSize
  omega

theorem embiggen_progress {blockid blocks n fuel : Nat} {file : TmpfsFile} {t : Tmpfs}
    (inside : blockid < blocks) (small : blocks ≤ 2 ^ 32) (positive : 0 < file.pointers)
    (enough : blockid < file.pointers + fuel)
    (available : Available t.frames (n + reserve blocks file)) :
    ∃ file' t', Tmpfs.embiggen blockid (fuel + 1) file t = some (file', t') ∧ 0 < file'.pointers ∧
      Available t'.frames (n + reserve blocks file') := by
  induction fuel generalizing file t with
  | zero =>
      refine ⟨file, t, ?_, positive, available⟩
      rw [Tmpfs.embiggen, if_neg (by omega)]
  | succ fuel inductionHypothesis =>
      rw [Tmpfs.embiggen]
      by_cases large : file.pointers ≤ blockid
      · rw [if_pos large]
        have price := mallocPages_double positive
        obtain ⟨blocksAt, frames, allocated, left⟩ := @realloc_available _ _
          (pointerSize * (file.pointers * 2)) file.blocksAt available (by unfold pointerSize; omega)
          (by unfold reserve; omega)
        rw [allocated]
        refine inductionHypothesis (by change 0 < file.pointers * 2; omega)
          (by change blockid < file.pointers * 2 + fuel; omega) (left.mono ?_)
        change n + (2 * blocks - file.pointers * 2 + (blocks - file.blockCount)) ≤ _
        unfold reserve
        omega
      · rw [if_neg large]
        exact ⟨file, t, rfl, positive, available⟩

theorem appendBlocks_progress {blocks n count : Nat} {file : TmpfsFile} {t : Tmpfs}
    (inside : file.blockCount + count ≤ blocks) (positive : 0 < file.pointers)
    (available : Available t.frames (n + reserve blocks file)) :
    ∃ file' t', Tmpfs.appendBlocks count file t = some (file', t') ∧ 0 < file'.pointers ∧
      Available t'.frames (n + reserve blocks file') := by
  induction count generalizing file t with
  | zero => exact ⟨file, t, rfl, positive, available⟩
  | succ count inductionHypothesis =>
      obtain ⟨index, frames, allocated, left⟩ := mmuAllocateFrame_available available
        (by unfold reserve; omega)
      have length : TmpfsFile.blockCount { file with blocks := file.blocks ++ [index] } =
          file.blockCount + 1 := by
        unfold TmpfsFile.blockCount
        rw [List.length_append]
        rfl
      rw [Tmpfs.appendBlocks, allocated]
      refine inductionHypothesis (by rw [length]; omega) positive (left.mono ?_)
      unfold reserve
      rw [length]
      change n + (2 * blocks - file.pointers + (blocks - (file.blockCount + 1))) ≤ _
      omega

/-- `tmpfs_file_getset_block` succeeds for a block that the reserve is meant for. -/
theorem getsetBlock_progress {blockid blocks n f : Nat} {file : TmpfsFile} {t : Tmpfs}
    (present : t.files f = some file) (inside : blockid < blocks) (small : blocks ≤ 2 ^ 32)
    (positive : 0 < file.pointers) (available : Available t.frames (n + reserve blocks file)) :
    ∃ frame t' file', t.getsetBlock f blockid = some (frame, t') ∧ t'.files f = some file' ∧
      0 < file'.pointers ∧ Available t'.frames (n + reserve blocks file') := by
  obtain ⟨larger, t₁, embiggened, positive₁, available₁⟩ :=
    @embiggen_progress blockid blocks n (blockid + 1) file t inside small positive (by omega) available
  obtain ⟨_, same, _⟩ := @embiggen_grows blockid f _ _ _ _ _ embiggened
  by_cases grows : larger.blockCount ≤ blockid
  · obtain ⟨file', t₂, appended, positive₂, available₂⟩ :=
      @appendBlocks_progress blocks n (blockid + 1 - larger.blockCount) larger t₁ (by omega) positive₁
        available₁
    obtain ⟨_, _, room, _⟩ := @embiggen_grows blockid f _ _ _ _ _ embiggened
    obtain ⟨_, count, _⟩ := @appendBlocks_grows _ f _ _ _ _ appended (by omega)
    have here : blockid < file'.blocks.length := by
      change blockid < file'.blockCount
      omega
    refine ⟨file'.blocks[blockid], t₂.setFile f file', file', ?_, Function.update_self _ _ _, positive₂,
      available₂⟩
    rw [Tmpfs.getsetBlock, present]
    dsimp only
    rw [embiggened]
    dsimp only
    rw [appended]
    dsimp only
    rw [List.getElem?_eq_getElem here]
  · have here : blockid < larger.blocks.length := Nat.lt_of_not_le grows
    refine ⟨larger.blocks[blockid], t₁.setFile f larger, larger, ?_, Function.update_self _ _ _,
      positive₁, available₁⟩
    rw [Tmpfs.getsetBlock, present]
    dsimp only
    rw [embiggened]
    dsimp only
    rw [show blockid + 1 - larger.blockCount = 0 by omega, Tmpfs.appendBlocks]
    dsimp only
    rw [List.getElem?_eq_getElem here]

theorem runCopies_progress {blocks n f : Nat} {copies : List Copy} {buffer : Nat → BitVec 8}
    {file : TmpfsFile} {t : Tmpfs} (present : t.files f = some file)
    (inside : ∀ c ∈ copies, c.blockid < blocks) (small : blocks ≤ 2 ^ 32) (positive : 0 < file.pointers)
    (available : Available t.frames (n + reserve blocks file)) :
    ∃ t' file', Tmpfs.runCopies f buffer copies t = some t' ∧ t'.files f = some file' ∧
      0 < file'.pointers ∧ Available t'.frames (n + reserve blocks file') := by
  induction copies generalizing t file with
  | nil => exact ⟨t, file, rfl, present, positive, available⟩
  | cons c copies inductionHypothesis =>
      obtain ⟨frame, middle, fileMid, got, presentMid, positiveMid, left⟩ :=
        getsetBlock_progress present (inside c List.mem_cons_self) small positive available
      rw [Tmpfs.runCopies, got]
      exact inductionHypothesis presentMid (fun d member => inside d (List.mem_cons_of_mem _ member))
        positiveMid left

/-- A write succeeds if the reserve is meant for its last block. -/
theorem writeTmpfs_progress {blocks n f offset size : Nat} {buffer : Nat → BitVec 8}
    {file : TmpfsFile} {t : Tmpfs} (noWrap : NoWrap offset size) (present : t.files f = some file)
    (inside : (offset + size) / blockSize < blocks) (small : blocks ≤ 2 ^ 32)
    (positive : 0 < file.pointers) (available : Available t.frames (n + reserve blocks file)) :
    ∃ t' file', t.writeTmpfs f offset size buffer = some (size, t') ∧ t'.files f = some file' ∧
      0 < file'.pointers ∧ Available t'.frames (n + reserve blocks file') := by
  have reached : ∀ c ∈ writeCopies offset size, c.blockid < blocks := by
    intro c member
    obtain ⟨_, inBuffer, aligned⟩ := writeCopies_straight noWrap c member
    simp only [blockSize] at *
    omega
  rw [Tmpfs.writeTmpfs, present]
  dsimp only
  generalize (if file.length < writeEnd offset size then writeEnd offset size else file.length) = length
  obtain ⟨t', file', ran, presentAfter, positiveAfter, left⟩ := @runCopies_progress blocks n f
    (writeCopies offset size) buffer { file with length := length }
    (t.setFile f { file with length := length }) (Function.update_self _ _ _) reached small positive
    available
  refine ⟨t', file', ?_, presentAfter, positiveAfter, left⟩
  rw [ran, sizeToRead_noWrap noWrap]

/-! ## New structures -/

/-- The price of a new file or directory: its structure, its name and its array. -/
def newCost (name : CString) : Nat := 2 + mallocPages (name.length + 1)

/-- The price of an entry behind `count` others. -/
def entryCost (count : Nat) : Nat := mallocPages (pointerSize * (count + 8))

theorem mallocPages_mono {size size' : Nat} (smaller : size ≤ size') :
    mallocPages size ≤ mallocPages size' :=
  Nat.div_le_div_right (by omega)

theorem newFile_progress {t : Tmpfs} {name : CString} {n : Nat} (short : name.length ≤ 255)
    (available : Available t.frames (n + newCost name)) :
    ∃ f file m, t.newFile name = some (f, file, { t with frames := m }) ∧ 0 < file.pointers ∧
      Available m n := by
  unfold newCost at available
  have one : mallocPages fileSize = 1 ∧ mallocPages (2 * pointerSize) = 1 := by decide
  obtain ⟨structAt, m₁, allocated₁, left₁⟩ := @malloc_available _ _ fileSize available (by decide)
    (by omega)
  obtain ⟨nameAt, m₂, allocated₂, left₂⟩ := @malloc_available _ _ (name.length + 1) left₁ (by omega)
    (by omega)
  obtain ⟨blocksAt, m₃, allocated₃, left₃⟩ := @malloc_available _ _ (2 * pointerSize) left₂
    (by decide) (by omega)
  refine ⟨structAt.first,
    { name := name, mask := 0, uid := 0, gid := 0, length := 0, blocks := [], pointers := 2
      target := none, nameAt := nameAt, blocksAt := blocksAt },
    m₃, ?_, Nat.zero_lt_two, left₃.mono (by omega)⟩
  unfold Tmpfs.newFile Tmpfs.strdup
  rw [allocated₁]
  dsimp only
  rw [allocated₂]
  dsimp only
  rw [allocated₃]

theorem newDir_progress {t : Tmpfs} {name : CString} {n : Nat} (short : name.length ≤ 255)
    (available : Available t.frames (n + newCost name)) :
    ∃ d dir m, t.newDir name = some (d, dir, { t with frames := m }) ∧ Available m n := by
  unfold newCost at available
  have one : mallocPages dirSize = 1 ∧ mallocPages (8 * pointerSize) = 1 := by decide
  obtain ⟨structAt, m₁, allocated₁, left₁⟩ := @malloc_available _ _ dirSize available (by decide)
    (by omega)
  obtain ⟨nameAt, m₂, allocated₂, left₂⟩ := @malloc_available _ _ (name.length + 1) left₁ (by omega)
    (by omega)
  obtain ⟨filesAt, m₃, allocated₃, left₃⟩ := @malloc_available _ _ (8 * pointerSize) left₂
    (by decide) (by omega)
  refine ⟨structAt.first,
    { name := name, mask := 0, uid := 0, gid := 0, files := [], filesCapacity := 8
      filesAt := filesAt },
    m₃, ?_, left₃.mono (by omega)⟩
  unfold Tmpfs.newDir Tmpfs.strdup
  rw [allocated₁]
  dsimp only
  rw [allocated₂]
  dsimp only
  rw [allocated₃]

theorem addEntry_progress {t : Tmpfs} {d n : Nat} {dir : TmpfsDir} {entry : TmpfsEntry}
    (present : t.dirs d = some dir) (small : dir.files.length ≤ 2 ^ 32)
    (available : Available t.frames (n + entryCost dir.files.length)) :
    ∃ t', t.addEntry d entry = some t' ∧ Available t'.frames n := by
  unfold entryCost at available
  rw [Tmpfs.addEntry, present]
  dsimp only
  by_cases full : dir.filesCapacity ≤ dir.files.length
  · rw [if_pos full]
    have price : mallocPages (pointerSize * (dir.filesCapacity + 8)) ≤
        mallocPages (pointerSize * (dir.files.length + 8)) :=
      mallocPages_mono (Nat.mul_le_mul_left _ (by omega))
    obtain ⟨filesAt, m, allocated, left⟩ := @realloc_available _ _
      (pointerSize * (dir.filesCapacity + 8)) dir.filesAt available (by unfold pointerSize; omega) (by omega)
    rw [allocated]
    exact ⟨_, rfl, left.mono (by omega)⟩
  · rw [if_neg full]
    exact ⟨_, rfl, available.mono (by omega)⟩

/-- A directory keeps its name. -/
theorem addEntry_name {t t' : Tmpfs} {d : Nat} {dir dir' : TmpfsDir} {entry : TmpfsEntry}
    (added : t.addEntry d entry = some t') (present : t.dirs d = some dir)
    (after : t'.dirs d = some dir') : dir'.name = dir.name := by
  rw [Tmpfs.addEntry, present] at added
  dsimp only at added
  split at added
  · split at added
    · cases added
    · cases added
      rw [setDir_dirs, Function.update_self] at after
      cases after
      rfl
  · cases added
    rw [setDir_dirs, Function.update_self] at after
    cases after
    rfl

/-- A new entry behind the others of a directory; nothing else changed but the frames. -/
structure Added (t t' : Tmpfs) (d : Nat) (dir : TmpfsDir) (entry : TmpfsEntry) : Prop where
  parent : ∃ dir', t'.dirs d = some dir' ∧ dir'.files = dir.files ++ [entry] ∧
    dir'.name = dir.name
  otherDirs : ∀ e, e ≠ d → .dir e ≠ entry → t'.dirs e = t.dirs e
  otherFiles : ∀ f, .file f ≠ entry → t'.files f = t.files f
  newDir : ∀ e, .dir e = entry → ∃ dir', t'.dirs e = some dir' ∧ dir'.files = []
  phys : t'.phys = t.phys
  owned : Tmpfs.Owned t'

/-- A new file is linked. -/
theorem added_newFile {t t' : Tmpfs} {d f : Nat} {dir : TmpfsDir} {file : TmpfsFile} {m : FrameMap}
    (owned : Tmpfs.Owned t) (present : t.dirs d = some dir) (new : NewFile t f file m)
    (linked : ({ t with frames := m }.setFile f file).addEntry d (.file f) = some t') :
    Added t t' d dir (.file f) ∧ t.files f = none ∧ t'.files f = some file := by
  obtain ⟨dir₀, dir', m', present', shape, files, ownedAfter⟩ := addEntry_spec linked
  cases present.symm.trans present'
  have parent : t'.dirs d = some dir' := by rw [shape, setDir_dirs, Function.update_self]
  refine ⟨⟨⟨dir', parent, files, addEntry_name linked present parent⟩, ?_, ?_, (fun e same => nomatch same),
    ?_, ownedAfter (new.owned owned)⟩, new.absent owned, ?_⟩
  · intro e different _
    rw [shape, setDir_dirs, Function.update_of_ne different]
    rfl
  · intro g different
    rw [shape]
    exact Function.update_of_ne (fun same => different (by rw [same])) _ _
  · rw [shape]
    rfl
  · rw [shape]
    exact Function.update_self _ _ _

/-- A new directory is linked. -/
theorem added_newDir {t t' : Tmpfs} {d out : Nat} {dir outDir : TmpfsDir} {m : FrameMap}
    (owned : Tmpfs.Owned t) (present : t.dirs d = some dir) (new : NewDir t out outDir m)
    (linked : ({ t with frames := m }.setDir out outDir).addEntry d (.dir out) = some t') :
    Added t t' d dir (.dir out) ∧ t.dirs out = none ∧ t'.dirs out = some outDir := by
  have absent := new.absent owned
  have different : d ≠ out := by
    rintro rfl
    rw [absent] at present
    cases present
  have presentThen : ({ t with frames := m }.setDir out outDir).dirs d = some dir := by
    rw [setDir_dirs, Function.update_of_ne different]
    exact present
  obtain ⟨dir₀, dir', m', present', shape, files, ownedAfter⟩ := addEntry_spec linked
  cases presentThen.symm.trans present'
  have parent : t'.dirs d = some dir' := by rw [shape, setDir_dirs, Function.update_self]
  have isNew : t'.dirs out = some outDir := by
    rw [shape, setDir_dirs, Function.update_of_ne different.symm]
    exact Function.update_self _ _ _
  refine ⟨⟨⟨dir', parent, files, addEntry_name linked presentThen parent⟩, ?_, ?_, ?_, ?_,
    ownedAfter (new.owned owned)⟩, absent, isNew⟩
  · intro e notParent notOut
    rw [shape, setDir_dirs, Function.update_of_ne notParent]
    exact Function.update_of_ne (fun same => notOut (by rw [same])) _ _
  · intro g _
    rw [shape]
    rfl
  · rintro e ⟨⟩
    exact ⟨outDir, isNew, new.files⟩
  · rw [shape]
    rfl

/-- `create_tmpfs` succeeds for a name that is not there and adds an empty file. -/
theorem createTmpfs_progress {who : Credentials} {t : Tmpfs} {d n : Nat} {dir : TmpfsDir}
    {name : CString} {mode : BitVec 32} (present : t.dirs d = some dir)
    (fresh : t.findEntry dir name = none) (short : name.length ≤ 255)
    (small : dir.files.length ≤ 2 ^ 32) (owned : Tmpfs.Owned t)
    (available : Available t.frames (n + entryCost dir.files.length + newCost name)) :
    ∃ f file t', t.createTmpfs who d name mode = some (0, t') ∧ Available t'.frames n ∧
      Added t t' d dir (.file f) ∧ t.files f = none ∧ t'.files f = some file ∧ file.name = name ∧
      file.target = none ∧ file.length = 0 ∧ 0 < file.pointers ∧ file.blocks = [] := by
  obtain ⟨f, made, m, created, positive, left⟩ := newFile_progress short available
  obtain ⟨_, same, new, noTarget, named, fits⟩ := newFile_spec created
  cases same
  have withMode : NewFile t f { made with mask := mode, uid := who.uid, gid := who.gid } m :=
    ⟨new.takes, new.apart, new.parts, new.blocks⟩
  obtain ⟨t', linked, left'⟩ := @addEntry_progress ({ t with frames := m }.setFile f
    { made with mask := mode, uid := who.uid, gid := who.gid }) d n dir (.file f) present small left
  obtain ⟨added, absent, isNew⟩ := added_newFile owned present withMode linked
  have empty : made.length = 0 := by
    have inBlocks := fits.2
    unfold TmpfsFile.blockCount at inBlocks
    rw [new.blocks] at inBlocks
    simpa using inBlocks
  refine ⟨f, _, t', ?_, left', added, absent, isNew, named, noTarget, empty, positive, new.blocks⟩
  rw [Tmpfs.createTmpfs, present]
  dsimp only
  rw [fresh, if_neg (by decide), created]
  dsimp only
  rw [linked]
  rfl

/-- `mkdir_tmpfs` succeeds for a name that is not empty and not there, and adds an empty directory. -/
theorem mkdirTmpfs_progress {who : Credentials} {t : Tmpfs} {d n : Nat} {dir : TmpfsDir}
    {name : CString} {mode : BitVec 32} (present : t.dirs d = some dir) (notEmpty : name ≠ [])
    (fresh : t.findEntry dir name = none) (short : name.length ≤ 255)
    (small : dir.files.length ≤ 2 ^ 32) (owned : Tmpfs.Owned t)
    (available : Available t.frames (n + entryCost dir.files.length + newCost name)) :
    ∃ out outDir t', t.mkdirTmpfs who d name mode = some (0, t') ∧ Available t'.frames n ∧
      Added t t' d dir (.dir out) ∧ t.dirs out = none ∧ t'.dirs out = some outDir ∧
      outDir.name = name ∧ outDir.files = [] := by
  obtain ⟨out, made, m, created, left⟩ := newDir_progress short available
  obtain ⟨_, same, new, named⟩ := newDir_spec created
  cases same
  have withMode : NewDir t out { made with mask := mode, uid := who.uid, gid := who.gid } m :=
    ⟨new.takes, new.apart, new.files⟩
  have different : d ≠ out := by
    rintro rfl
    rw [new.absent owned] at present
    cases present
  have presentThen : ({ t with frames := m }.setDir out
      { made with mask := mode, uid := who.uid, gid := who.gid }).dirs d = some dir := by
    rw [setDir_dirs, Function.update_of_ne different]
    exact present
  obtain ⟨t', linked, left'⟩ := @addEntry_progress _ d n dir (.dir out) presentThen small left
  obtain ⟨added, absent, isNew⟩ := added_newDir owned present withMode linked
  refine ⟨out, _, t', ?_, left', added, absent, isNew, named, new.files⟩
  rw [Tmpfs.mkdirTmpfs, if_neg notEmpty, present]
  dsimp only
  rw [fresh, if_neg (by decide), created]
  dsimp only
  rw [linked]
  rfl

/-- `tmpfs_create` makes an empty root. -/
theorem tmpfsCreate_progress {frames : FrameMap} {phys : Nat → BitVec 8} {name : CString} {n : Nat}
    (short : name.length ≤ 255) (available : Available frames (n + newCost name)) :
    ∃ t root, Tmpfs.tmpfsCreate frames phys name = some t ∧ t.dirs t.tmpfsRoot = some root ∧
      root.files = [] ∧ Available t.frames n := by
  obtain ⟨d, dir, m, made, left⟩ := @newDir_progress
    { frames := frames, files := fun _ => none, dirs := fun _ => none, tmpfsRoot := 0
      totalBlocks := 0, phys := phys } name n short available
  obtain ⟨_, _, new, _⟩ := newDir_spec made
  refine ⟨_, { dir with mask := 0o777 }, by rw [Tmpfs.tmpfsCreate, made], ?_, new.files, left⟩
  exact Function.update_self _ _ _

/-- There are frames for `tmpfs_create` on free memory, and more. -/
theorem freeMemory_available : Available freeMemory (32 + newCost []) :=
  ⟨0, Nat.le_refl 0, by decide, fun _ _ _ => rfl⟩

end Voxel.Proofs
