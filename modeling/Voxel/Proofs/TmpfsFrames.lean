/-
Module: Voxel.Proofs.TmpfsFrames
Layer: Proofs
Purpose: The frames of tmpfs. Every frame that a structure, a name, a block array or a block of a file
  stands in has one owner and is locked; files that grow keep this.
Trusted boundary: none
Main exports: Tmpfs.Owns, Tmpfs.Owned, Tmpfs.Sound, FileGrown, getsetBlock_grows
-/
import Mathlib.Algebra.BigOperators.Group.Finset.Basic
import Voxel.Kernel.Tmpfs
import Voxel.Lib.Ownership

namespace Voxel.Proofs

open Voxel.Lib Voxel.Kernel

/-! ## Who owns a frame -/

/-- The parts of a file that have frames of their own. -/
inductive Part
  | name
  | array
  | target
  | block (i : Nat)

/-- The frames of the parts of a file. -/
def TmpfsFile.Has (file : TmpfsFile) : Part → Nat → Prop
  | .name, frame => file.nameAt.Holds frame
  | .array, frame => file.blocksAt.Holds frame
  | .target, frame => ∃ target ∈ file.target, target.2.Holds frame
  | .block i, frame => file.blocks[i]? = some frame

/-- The owners of frames in a tmpfs. The structures and names of directories stay for ever; only the
frame that names a directory matters. -/
inductive Owner
  | fileStruct (f : Nat)
  | filePart (f : Nat) (part : Part)
  | dirStruct (d : Nat)
  | dirArray (d : Nat)

/-- The frames that belong to the files and directories of a state. -/
def Tmpfs.Owns (t : Tmpfs) : Owner → Nat → Prop
  | .fileStruct f, frame => frame = f ∧ (t.files f).isSome
  | .filePart f part, frame => ∃ file, t.files f = some file ∧ TmpfsFile.Has file part frame
  | .dirStruct d, frame => frame = d ∧ (t.dirs d).isSome
  | .dirArray d, frame => ∃ dir, t.dirs d = some dir ∧ dir.filesAt.Holds frame

/-- The frames that are in use. -/
def Used (m : FrameMap) (frame : Nat) : Prop := m.locked frame = true

/-- Every frame of a tmpfs is locked and has one owner. -/
def Tmpfs.Owned (t : Tmpfs) : Prop := Exclusive (Tmpfs.Owns t) (Used t.frames)

/-- An entry of some directory. -/
def Tmpfs.Linked (t : Tmpfs) (f : Nat) : Prop :=
  ∃ d dir, t.dirs d = some dir ∧ .file f ∈ dir.files

/-- The number of blocks of a file; none if there is no such file. -/
def Tmpfs.blocksOf (t : Tmpfs) (f : Nat) : Nat := ((t.files f).map TmpfsFile.blockCount).getD 0

/-- A regular file has room for its blocks, and blocks for its length. -/
def TmpfsFile.Fits (file : TmpfsFile) : Prop :=
  file.blockCount ≤ file.pointers ∧ file.length ≤ file.blockCount * blockSize

/-- The invariant of every state: the structures are those of the linked files, each of which stands in
one place, and the blocks are counted. -/
structure Tmpfs.Sound (t : Tmpfs) : Prop where
  owned : Tmpfs.Owned t
  listed : ∀ f, Tmpfs.Linked t f ↔ (t.files f).isSome
  once : ∀ d dir, t.dirs d = some dir → ∀ f, dir.files.count (.file f) ≤ 1
  placed : ∀ f d dir d' dir', t.dirs d = some dir → t.dirs d' = some dir' →
    TmpfsEntry.file f ∈ dir.files → TmpfsEntry.file f ∈ dir'.files → d = d'
  fits : ∀ f file, t.files f = some file → file.target = none → TmpfsFile.Fits file
  counted : ∃ linked : Finset Nat, (∀ f, f ∈ linked ↔ (t.files f).isSome) ∧
    t.totalBlocks = ∑ f ∈ linked, (Tmpfs.blocksOf t f : Int)

/-! ## Allocations -/

theorem malloc_takes {m m' : FrameMap} {size : Nat} {b : HeapBlock}
    (allocated : malloc m size = some (b, m')) : Takes (Used m) (Used m') b.Holds := by
  obtain ⟨_, _, inside, outside⟩ := malloc_spec allocated
  refine ⟨fun held => by simp [Used, (inside _ held).1], ?_⟩
  intro frame
  by_cases held : b.Holds frame
  · simp [Used, held, (inside _ held).2.1]
  · simp [Used, held, outside _ held]

theorem mmuAllocateFrame_takes {m m' : FrameMap} {frame : Nat}
    (allocated : mmuAllocateFrame m = some (frame, m')) : Takes (Used m) (Used m') (· = frame) := by
  obtain ⟨_, free, locked, _, others⟩ := mmuAllocateFrame_spec allocated
  refine ⟨fun same => by simp [Used, same, free], ?_⟩
  intro r
  by_cases same : r = frame
  · simp [Used, same, locked]
  · simp [Used, same, others r same]

theorem free_keeps {m : FrameMap} {b : HeapBlock} {frame : Nat} (used : Used m frame)
    (outside : ¬ b.Holds frame) : Used (free m b) frame :=
  (free_of_not_mem m outside).trans used

/-- A block for a structure is one frame. -/
theorem malloc_struct {m m' : FrameMap} {size : Nat} {b : HeapBlock} (small : mallocPages size = 1)
    (allocated : malloc m size = some (b, m')) (frame : Nat) : b.Holds frame ↔ frame = b.first := by
  have pages := (malloc_spec allocated).1
  unfold HeapBlock.Holds
  rw [pages, small]
  omega

theorem realloc_spec {m m' : FrameMap} {old new : HeapBlock} {size : Nat}
    (allocated : realloc m old size = some (new, m')) :
    ∃ middle, Takes (Used m) (Used middle) new.Holds ∧ m' = free middle old := by
  unfold realloc at allocated
  rw [Option.map_eq_some_iff] at allocated
  obtain ⟨⟨b, middle⟩, taken, same⟩ := allocated
  cases same
  exact ⟨middle, malloc_takes taken, rfl⟩

/-! ## Files that grow -/

@[simp] theorem setFile_files (t : Tmpfs) (f : Nat) (file : TmpfsFile) :
    (t.setFile f file).files = Function.update t.files f (some file) := rfl

@[simp] theorem setFile_dirs (t : Tmpfs) (f : Nat) (file : TmpfsFile) :
    (t.setFile f file).dirs = t.dirs := rfl

@[simp] theorem setFile_frames (t : Tmpfs) (f : Nat) (file : TmpfsFile) :
    (t.setFile f file).frames = t.frames := rfl

@[simp] theorem setFile_totalBlocks (t : Tmpfs) (f : Nat) (file : TmpfsFile) :
    (t.setFile f file).totalBlocks = t.totalBlocks := rfl

@[simp] theorem setFile_phys (t : Tmpfs) (f : Nat) (file : TmpfsFile) :
    (t.setFile f file).phys = t.phys := rfl

@[simp] theorem setFile_tmpfsRoot (t : Tmpfs) (f : Nat) (file : TmpfsFile) :
    (t.setFile f file).tmpfsRoot = t.tmpfsRoot := rfl

@[simp] theorem setDir_files (t : Tmpfs) (d : Nat) (dir : TmpfsDir) :
    (t.setDir d dir).files = t.files := rfl

@[simp] theorem setDir_dirs (t : Tmpfs) (d : Nat) (dir : TmpfsDir) :
    (t.setDir d dir).dirs = Function.update t.dirs d (some dir) := rfl

@[simp] theorem setDir_frames (t : Tmpfs) (d : Nat) (dir : TmpfsDir) :
    (t.setDir d dir).frames = t.frames := rfl

@[simp] theorem setDir_totalBlocks (t : Tmpfs) (d : Nat) (dir : TmpfsDir) :
    (t.setDir d dir).totalBlocks = t.totalBlocks := rfl

@[simp] theorem setDir_phys (t : Tmpfs) (d : Nat) (dir : TmpfsDir) :
    (t.setDir d dir).phys = t.phys := rfl

@[simp] theorem setDir_tmpfsRoot (t : Tmpfs) (d : Nat) (dir : TmpfsDir) :
    (t.setDir d dir).tmpfsRoot = t.tmpfsRoot := rfl

/-- Writing back what is there. -/
theorem setFile_same {t : Tmpfs} {f : Nat} {file : TmpfsFile} (present : t.files f = some file) :
    t.setFile f file = t := by
  unfold Tmpfs.setFile
  rw [← present, Function.update_eq_self]

/-- A file got more blocks or a larger block array, and nothing else changed but memory and frames. -/
structure FileGrown (t t' : Tmpfs) (f : Nat) (file file' : TmpfsFile) : Prop where
  files : t'.files = Function.update t.files f (some file')
  dirs : t'.dirs = t.dirs
  root : t'.tmpfsRoot = t.tmpfsRoot
  rest : file' = { file with
    blocks := file'.blocks, pointers := file'.pointers, blocksAt := file'.blocksAt }
  blocks : ∃ extra, file'.blocks = file.blocks ++ extra ∧
    t'.totalBlocks = t.totalBlocks + extra.length
  pointers : file.blockCount ≤ file.pointers → file'.blockCount ≤ file'.pointers
  owned : Tmpfs.Owned t → Tmpfs.Owned t'

theorem FileGrown.refl {t : Tmpfs} {f : Nat} {file : TmpfsFile} (present : t.files f = some file) :
    FileGrown t t f file file where
  files := by rw [← present, Function.update_eq_self]
  dirs := rfl
  root := rfl
  rest := rfl
  blocks := ⟨[], by simp⟩
  pointers := id
  owned := id

theorem FileGrown.trans {t t' t'' : Tmpfs} {f : Nat} {file file' file'' : TmpfsFile}
    (first : FileGrown t t' f file file') (second : FileGrown t' t'' f file' file'') :
    FileGrown t t'' f file file'' where
  files := by rw [second.files, first.files, Function.update_idem]
  dirs := second.dirs.trans first.dirs
  root := second.root.trans first.root
  rest := by rw [second.rest, first.rest]
  blocks := by
    obtain ⟨extra, blocks, total⟩ := first.blocks
    obtain ⟨more, blocks', total'⟩ := second.blocks
    refine ⟨extra ++ more, by rw [blocks', blocks, List.append_assoc], ?_⟩
    rw [total', total, List.length_append]
    omega
  pointers := second.pointers ∘ first.pointers
  owned := second.owned ∘ first.owned

/-- The parts of the grown file are there afterwards. -/
theorem FileGrown.present {t t' : Tmpfs} {f : Nat} {file file' : TmpfsFile}
    (grown : FileGrown t t' f file file') : t'.files f = some file' := by
  rw [grown.files, Function.update_self]

theorem owns_setFile_self (t : Tmpfs) (f : Nat) (file : TmpfsFile) (part : Part) (frame : Nat) :
    Tmpfs.Owns (t.setFile f file) (.filePart f part) frame ↔ TmpfsFile.Has file part frame := by
  simp [Tmpfs.Owns]

/-- What does not belong to a part of a file stays when the file is written. -/
theorem owns_setFile_other {t : Tmpfs} {f : Nat} {file file' : TmpfsFile} {a : Owner} {frame : Nat}
    (other : ∀ part, a ≠ .filePart f part) (m : FrameMap)
    (owns : Tmpfs.Owns ({ t with frames := m }.setFile f file') a frame) :
    Tmpfs.Owns (t.setFile f file) a frame := by
  cases a with
  | fileStruct g =>
      refine ⟨owns.1, ?_⟩
      have present := owns.2
      by_cases same : g = f
      · simp [same]
      · simpa [same] using present
  | filePart g part =>
      have different : g ≠ f := fun same => other part (by rw [same])
      simpa [Tmpfs.Owns, different] using owns
  | dirStruct d => exact owns
  | dirArray d => exact owns

/-- A file changes its parts: one part may give up frames, and one may get frames that were free. -/
theorem Tmpfs.Owned.changeFile {t : Tmpfs} {f : Nat} {file file' : TmpfsFile} {middle m : FrameMap}
    {taken gone : Nat → Prop} (owned : Tmpfs.Owned (t.setFile f file))
    (allocation : Takes (Used t.frames) (Used middle) taken) (giver taker : Part)
    (held : ∀ r, gone r → TmpfsFile.Has file giver r)
    (source : ∀ part r, TmpfsFile.Has file' part r →
      (TmpfsFile.Has file part r ∧ (part = giver → ¬ gone r)) ∨ (part = taker ∧ taken r))
    (kept : ∀ r, Used middle r → ¬ gone r → Used m r) :
    Tmpfs.Owned ({ t with frames := m }.setFile f file') := by
  have origin : ∀ a r, Tmpfs.Owns ({ t with frames := m }.setFile f file') a r →
      (Tmpfs.Owns (t.setFile f file) a r ∧ (a = .filePart f giver → ¬ gone r)) ∨
        (a = .filePart f taker ∧ taken r) := by
    intro a r owns
    by_cases ofFile : ∃ part, a = .filePart f part
    · obtain ⟨part, rfl⟩ := ofFile
      rw [owns_setFile_self] at owns ⊢
      rcases source part r owns with ⟨old, stays⟩ | ⟨rfl, new⟩
      · exact Or.inl ⟨old, fun same => stays (by cases same; rfl)⟩
      · exact Or.inr ⟨rfl, new⟩
    · have other : ∀ part, a ≠ .filePart f part := fun part same => ofFile ⟨part, same⟩
      exact Or.inl ⟨owns_setFile_other other m owns, fun same => absurd same (other giver)⟩
  refine Exclusive.handOver owned allocation (.filePart f giver) (.filePart f taker) ?_ origin kept
  intro r given
  exact (owns_setFile_self _ _ _ _ _).mpr (held r given)

/-- The length of a file has no frames. -/
theorem Tmpfs.Owned.setLength {t : Tmpfs} {f : Nat} {file : TmpfsFile} (owned : Tmpfs.Owned t)
    (present : t.files f = some file) (length : Nat) :
    Tmpfs.Owned (t.setFile f { file with length := length }) := by
  rw [← setFile_same present] at owned
  refine @Tmpfs.Owned.changeFile t f file _ t.frames t.frames (fun _ => False) (fun _ => False) owned
    (.none _) .name .name (fun _ given => given.elim) ?_ fun _ used _ => used
  intro part r has
  cases part <;> exact Or.inl ⟨has, fun _ => id⟩

/-- A larger block array. -/
theorem realloc_grows {t : Tmpfs} {f size pointers : Nat} {file : TmpfsFile} {new : HeapBlock}
    {m : FrameMap} (allocated : realloc t.frames file.blocksAt size = some (new, m))
    (larger : file.pointers ≤ pointers) :
    FileGrown (t.setFile f file)
      ({ t with frames := m }.setFile f { file with pointers := pointers, blocksAt := new }) f file
      { file with pointers := pointers, blocksAt := new } where
  files := by simp
  dirs := rfl
  root := rfl
  rest := rfl
  blocks := ⟨[], by simp⟩
  pointers := fun fits => Nat.le_trans fits larger
  owned := by
    intro owned
    obtain ⟨middle, allocation, rfl⟩ := realloc_spec allocated
    refine owned.changeFile allocation .array .array (fun _ given => given) ?_
      fun _ used outside => free_keeps used outside
    intro part r has
    cases part with
    | array => exact Or.inr ⟨rfl, has⟩
    | name => exact Or.inl ⟨has, fun same => nomatch same⟩
    | target => exact Or.inl ⟨has, fun same => nomatch same⟩
    | block i => exact Or.inl ⟨has, fun same => nomatch same⟩

/-- One more block. -/
theorem append_grows {t : Tmpfs} {f index : Nat} {file : TmpfsFile} {m : FrameMap}
    (allocated : mmuAllocateFrame t.frames = some (index, m))
    (room : file.blockCount < file.pointers) :
    FileGrown (t.setFile f file)
      ({ t with frames := m, totalBlocks := t.totalBlocks + 1 }.setFile f
        { file with blocks := file.blocks ++ [index] }) f file
      { file with blocks := file.blocks ++ [index] } where
  files := by simp
  dirs := rfl
  root := rfl
  rest := rfl
  blocks := ⟨[index], rfl, rfl⟩
  pointers := by
    intro _
    unfold TmpfsFile.blockCount at room ⊢
    rw [List.length_append]
    exact room
  owned := by
    intro owned
    have grown : Tmpfs.Owned ({ t with frames := m }.setFile f
        { file with blocks := file.blocks ++ [index] }) := by
      refine @Tmpfs.Owned.changeFile t f file _ m m _ (fun _ => False) owned
        (mmuAllocateFrame_takes allocated) .array (.block file.blocks.length)
        (fun _ given => given.elim) ?_ (fun _ used _ => used)
      intro part r has
      cases part with
      | array => exact Or.inl ⟨has, fun _ => id⟩
      | name => exact Or.inl ⟨has, fun _ => id⟩
      | target => exact Or.inl ⟨has, fun _ => id⟩
      | block i =>
          by_cases old : i < file.blocks.length
          · have here : file.blocks[i]? = some r := by
              rw [← List.getElem?_append_left old]
              exact has
            exact Or.inl ⟨here, fun _ => id⟩
          · have here : ([index] : List Nat)[i - file.blocks.length]? = some r := by
              rw [← List.getElem?_append_right (Nat.le_of_not_lt old)]
              exact has
            rw [List.getElem?_singleton] at here
            split at here
            · rename_i first
              have place : i = file.blocks.length := by omega
              exact Or.inr ⟨by rw [place], by simpa using here.symm⟩
            · cases here
    exact grown

theorem embiggen_grows {blockid f : Nat} {fuel : Nat} {file file' : TmpfsFile} {t t' : Tmpfs}
    (grown : Tmpfs.embiggen blockid fuel file t = some (file', t')) :
    FileGrown (t.setFile f file) (t'.setFile f file') f file file' ∧ file'.blocks = file.blocks ∧
      blockid < file'.pointers ∧ t'.phys = t.phys := by
  induction fuel generalizing file t with
  | zero => cases grown
  | succ fuel inductionHypothesis =>
      unfold Tmpfs.embiggen at grown
      split at grown
      · split at grown
        · cases grown
        · rename_i blocksAt m allocated
          obtain ⟨rest, blocks, room, phys⟩ := inductionHypothesis grown
          have first := @realloc_grows t f _ (file.pointers * 2) file blocksAt m allocated (by omega)
          exact ⟨first.trans rest, blocks, room, phys⟩
      · rename_i enough
        cases grown
        exact ⟨.refl (by simp), rfl, by omega, rfl⟩

theorem appendBlocks_grows {count f : Nat} {file file' : TmpfsFile} {t t' : Tmpfs}
    (grown : Tmpfs.appendBlocks count file t = some (file', t'))
    (room : file.blockCount + count ≤ file.pointers) :
    FileGrown (t.setFile f file) (t'.setFile f file') f file file' ∧
      file'.blockCount = file.blockCount + count ∧ t'.phys = t.phys := by
  induction count generalizing file t with
  | zero =>
      cases grown
      exact ⟨.refl (by simp), rfl, rfl⟩
  | succ count inductionHypothesis =>
      unfold Tmpfs.appendBlocks at grown
      split at grown
      · cases grown
      · rename_i index m allocated
        have length : TmpfsFile.blockCount { file with blocks := file.blocks ++ [index] } =
            file.blockCount + 1 := by
          unfold TmpfsFile.blockCount
          rw [List.length_append]
          rfl
        obtain ⟨rest, blocks, phys⟩ := inductionHypothesis grown (by
          rw [length]
          change _ ≤ file.pointers
          omega)
        have first := @append_grows t f index file m allocated (by omega)
        exact ⟨first.trans rest, by rw [blocks, length]; omega, phys⟩

/-- `tmpfs_file_getset_block` makes a file grow to the block it is asked for. -/
theorem getsetBlock_grows {t t' : Tmpfs} {f blockid frame : Nat} {file : TmpfsFile}
    (present : t.files f = some file) (got : t.getsetBlock f blockid = some (frame, t')) :
    ∃ file', FileGrown t t' f file file' ∧ file'.blocks[blockid]? = some frame ∧
      file'.blockCount = max file.blockCount (blockid + 1) ∧ t'.phys = t.phys := by
  unfold Tmpfs.getsetBlock at got
  rw [present] at got
  dsimp only at got
  split at got
  · cases got
  rename_i larger t₁ embiggened
  split at got
  · cases got
  rename_i file' t₂ appended
  split at got
  · cases got
  rename_i found here
  cases got
  obtain ⟨first, blocks, enough, phys⟩ := @embiggen_grows blockid f _ _ _ _ _ embiggened
  have count : larger.blockCount = file.blockCount := by
    unfold TmpfsFile.blockCount
    rw [blocks]
  by_cases grows : file.blockCount ≤ blockid
  · obtain ⟨second, length, phys'⟩ := @appendBlocks_grows _ f _ _ _ _ appended (by omega)
    rw [setFile_same present] at first
    exact ⟨file', first.trans second, here, by omega, phys'.trans phys⟩
  · have idle : blockid + 1 - larger.blockCount = 0 := by omega
    rw [idle] at appended
    cases appended
    rw [setFile_same present] at first
    exact ⟨larger, first, here, by omega, phys⟩

end Voxel.Proofs
