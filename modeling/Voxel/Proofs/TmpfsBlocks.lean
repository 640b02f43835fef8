/-
Module: Voxel.Proofs.TmpfsBlocks
Layer: Proofs
Purpose: Block accounting of tmpfs over runs. Creating, linking, writing, truncating and unlinking keep
  the invariant, so in every state that is reached the files have room for their lengths, their blocks
  are distinct and locked, and `tmpfs_total_blocks` counts them.
Trusted boundary: none
Main exports: TmpfsCall, TmpfsCall.Allowed, Tmpfs.Sound.step, tmpfs_blocks_sound
-/
import Mathlib.Algebra.Order.BigOperators.Group.Finset
import Voxel.Proofs.TmpfsWrite
import Voxel.Lib.Run

namespace Voxel.Proofs

open Voxel.Lib Voxel.Kernel

/-! ## Calls -/

/-- The calls on a tmpfs, with the credentials of the process that makes them. -/
inductive TmpfsCall
  | create (who : Credentials) (d : Nat) (name : CString) (mode : BitVec 32)
  | symlink (who : Credentials) (d : Nat) (target name : CString)
  | mkdir (who : Credentials) (d : Nat) (name : CString) (mode : BitVec 32)
  | write (f offset size : Nat) (buffer : Nat → BitVec 8)
  | truncate (f : Nat)
  | unlink (d : Nat) (name : CString)

/-- The state after a call. -/
def TmpfsCall.step (t : Tmpfs) : TmpfsCall → Option Tmpfs
  | .create who d name mode => (t.createTmpfs who d name mode).map Prod.snd
  | .symlink who d target name => (t.symlinkTmpfs who d target name).map Prod.snd
  | .mkdir who d name mode => (t.mkdirTmpfs who d name mode).map Prod.snd
  | .write f offset size buffer => (t.writeTmpfs f offset size buffer).map Prod.snd
  | .truncate f => (t.truncateTmpfs f).map Prod.snd
  | .unlink d name => (t.unlinkTmpfs d name).map Prod.snd

/-- Writes go to linked files and do not wrap, truncations go to linked files. -/
def TmpfsCall.Allowed (t : Tmpfs) : TmpfsCall → Prop
  | .write f offset size _ => Tmpfs.Linked t f ∧ NoWrap offset size
  | .truncate f => Tmpfs.Linked t f
  | _ => True

/-! ## A file that is there changes -/

theorem blocksOf_present {t : Tmpfs} {f : Nat} {file : TmpfsFile} (present : t.files f = some file) :
    Tmpfs.blocksOf t f = file.blockCount := by
  simp [Tmpfs.blocksOf, present]

/-- The sum over the linked files when one of them changes. -/
theorem blocks_sum_update {t t' : Tmpfs} {f : Nat} {file' : TmpfsFile} {linked : Finset Nat}
    (files : t'.files = Function.update t.files f (some file')) (member : f ∈ linked) :
    (∑ g ∈ linked, (Tmpfs.blocksOf t' g : Int)) =
      ∑ g ∈ linked, (Tmpfs.blocksOf t g : Int) - Tmpfs.blocksOf t f + file'.blockCount := by
  have others : ∑ g ∈ linked.erase f, (Tmpfs.blocksOf t' g : Int) =
      ∑ g ∈ linked.erase f, (Tmpfs.blocksOf t g : Int) := by
    refine Finset.sum_congr rfl fun g inRest => ?_
    have different := Finset.ne_of_mem_erase inRest
    simp [Tmpfs.blocksOf, files, different]
  have here : Tmpfs.blocksOf t' f = file'.blockCount := blocksOf_present (by simp [files])
  have before := Finset.add_sum_erase linked (fun g => (Tmpfs.blocksOf t g : Int)) member
  have after := Finset.add_sum_erase linked (fun g => (Tmpfs.blocksOf t' g : Int)) member
  simp only [others, here] at before after
  omega

theorem Tmpfs.Sound.linked_some {t : Tmpfs} (sound : Tmpfs.Sound t) {f : Nat} (linked : Tmpfs.Linked t f) :
    ∃ file, t.files f = some file :=
  Option.isSome_iff_exists.mp ((sound.listed f).mp linked)

/-- The invariant survives a change of one file that the total follows. -/
theorem Tmpfs.Sound.changeFile {t t' : Tmpfs} {f : Nat} {file file' : TmpfsFile} (sound : Tmpfs.Sound t)
    (present : t.files f = some file) (owned : Tmpfs.Owned t')
    (files : t'.files = Function.update t.files f (some file')) (dirs : t'.dirs = t.dirs)
    (total : t'.totalBlocks = t.totalBlocks - file.blockCount + file'.blockCount)
    (fits : file'.target = none → TmpfsFile.Fits file') : Tmpfs.Sound t' where
  owned := owned
  listed := by
    intro g
    have same : Tmpfs.Linked t' g ↔ Tmpfs.Linked t g := by
      unfold Tmpfs.Linked
      rw [dirs]
    rw [same, sound.listed g, files]
    by_cases here : g = f
    · simp [here, present]
    · simp [here]
  once := by
    intro d dir
    rw [dirs]
    exact sound.once d dir
  placed := by
    intro g d dir d' dir'
    rw [dirs]
    exact sound.placed g d dir d' dir'
  fits := by
    intro g other
    rw [files]
    by_cases here : g = f
    · subst here
      rw [Function.update_self]
      intro same
      cases same
      exact fits
    · rw [Function.update_of_ne here]
      exact sound.fits g other
  counted := by
    obtain ⟨linked, complete, sum⟩ := sound.counted
    have member : f ∈ linked := (complete f).mpr (by simp [present])
    refine ⟨linked, ?_, ?_⟩
    · intro g
      rw [complete g, files]
      by_cases here : g = f
      · simp [here, present]
      · simp [here]
    · rw [total, sum, blocks_sum_update files member, blocksOf_present present]

/-- A write that does not wrap keeps the invariant. -/
theorem Tmpfs.Sound.write {t t' : Tmpfs} {f offset size n : Nat} {buffer : Nat → BitVec 8}
    (sound : Tmpfs.Sound t) (linked : Tmpfs.Linked t f) (inside : NoWrap offset size)
    (wrote : t.writeTmpfs f offset size buffer = some (n, t')) : Tmpfs.Sound t' := by
  obtain ⟨file, present⟩ := sound.linked_some linked
  obtain ⟨_, file', grown, done⟩ := writeTmpfs_spec inside sound.owned present wrote
  obtain ⟨extra, blocks, total⟩ := grown.blocks
  have count : file'.blockCount = file.blockCount + extra.length := by
    unfold TmpfsFile.blockCount
    rw [blocks, List.length_append]
  have raised := sound.owned.setLength present (max file.length (offset + size))
  refine @Tmpfs.Sound.changeFile t t' f file file' sound present (grown.owned raised) ?_ grown.dirs ?_
    ?_
  · rw [grown.files, setFile_files, Function.update_idem]
  · rw [total, count]
    simp only [setFile_totalBlocks]
    omega
  · intro regular
    have regularBefore : file.target = none := by
      rw [grown.rest] at regular
      exact regular
    obtain ⟨room, reach⟩ := sound.fits f file present regularBefore
    refine ⟨grown.pointers room, ?_⟩
    rw [done.length]
    have covered := done.covered
    have more : file.blockCount * blockSize ≤ file'.blockCount * blockSize :=
      Nat.mul_le_mul_right _ (by omega)
    omega

/-! ## Releasing blocks -/

/-- Releasing blocks changes the frames and the total, and keeps the frames of all others. -/
theorem releaseBlocks_spec (t : Tmpfs) (blocks : List Nat) :
    (∃ m, t.releaseBlocks blocks =
      { t with frames := m, totalBlocks := t.totalBlocks - blocks.length }) ∧
      ∀ r, Used t.frames r → r ∉ blocks → Used (t.releaseBlocks blocks).frames r := by
  induction blocks generalizing t with
  | nil => exact ⟨⟨t.frames, by simp [Tmpfs.releaseBlocks]⟩, fun r used _ => used⟩
  | cons block blocks inductionHypothesis =>
      obtain ⟨⟨m, shape⟩, kept⟩ := inductionHypothesis
        { t with frames := mmuReleaseFrame t.frames block, totalBlocks := t.totalBlocks - 1 }
      refine ⟨⟨m, ?_⟩, ?_⟩
      · rw [Tmpfs.releaseBlocks, shape]
        simp only [List.length_cons, Int.natCast_add, Int.natCast_one]
        congr 1
        omega
      · intro r used outside
        rw [List.mem_cons, not_or] at outside
        exact kept r ((mmuReleaseFrame_of_ne _ outside.1).trans used) outside.2

/-- A truncation gives up the blocks of one file. -/
theorem Tmpfs.Owned.truncate {t t' : Tmpfs} {f : Nat} {file : TmpfsFile} {result : Int}
    (owned : Tmpfs.Owned t) (present : t.files f = some file)
    (truncated : t.truncateTmpfs f = some (result, t')) : Tmpfs.Owned t' := by
  unfold Tmpfs.truncateTmpfs at truncated
  rw [present] at truncated
  cases truncated
  obtain ⟨⟨m, shape⟩, kept⟩ := releaseBlocks_spec t file.blocks
  rw [shape] at kept ⊢
  change Tmpfs.Owned ({ t with frames := m }.setFile f { file with blocks := [], length := 0 })
  have before := owned
  rw [← setFile_same present] at before
  have noBlocks : ∀ a r, Tmpfs.Owns ({ t with frames := m }.setFile f
      { file with blocks := [], length := 0 }) a r →
        Tmpfs.Owns (t.setFile f file) a r ∧ r ∉ file.blocks := by
    intro a r owns
    have old : Tmpfs.Owns (t.setFile f file) a r := by
      by_cases ofFile : ∃ part, a = .filePart f part
      · obtain ⟨part, rfl⟩ := ofFile
        rw [owns_setFile_self] at owns ⊢
        cases part with
        | block i => simp [TmpfsFile.Has] at owns
        | name => exact owns
        | array => exact owns
        | target => exact owns
      · exact owns_setFile_other (fun part same => ofFile ⟨part, same⟩) m owns
    refine ⟨old, fun member => ?_⟩
    obtain ⟨i, block⟩ := List.getElem?_of_mem member
    have ofBlock := before.unique old ((owns_setFile_self t f file (.block i) r).mpr block)
    subst ofBlock
    rw [owns_setFile_self] at owns
    simp [TmpfsFile.Has] at owns
  exact before.release (fun a r owns => (noBlocks a r owns).1)
    fun a r owns used => kept r used (noBlocks a r owns).2

/-- A truncation keeps the invariant. -/
theorem Tmpfs.Sound.truncate {t t' : Tmpfs} {f : Nat} {result : Int} (sound : Tmpfs.Sound t)
    (linked : Tmpfs.Linked t f) (truncated : t.truncateTmpfs f = some (result, t')) :
    Tmpfs.Sound t' := by
  obtain ⟨file, present⟩ := sound.linked_some linked
  have owned := sound.owned.truncate present truncated
  unfold Tmpfs.truncateTmpfs at truncated
  rw [present] at truncated
  cases truncated
  obtain ⟨⟨m, shape⟩, _⟩ := releaseBlocks_spec t file.blocks
  rw [shape] at owned ⊢
  refine @Tmpfs.Sound.changeFile t _ f file { file with blocks := [], length := 0 } sound present owned
    rfl rfl ?_ ?_
  · simp [TmpfsFile.blockCount]
  · intro _
    exact ⟨Nat.zero_le _, Nat.zero_le _⟩

/-! ## A new entry -/

/-- A directory is written, and its array may have moved. -/
theorem Tmpfs.Owned.changeDir {t : Tmpfs} {d : Nat} {dir dir' : TmpfsDir} {middle m : FrameMap}
    {taken gone : Nat → Prop} (owned : Tmpfs.Owned t) (present : t.dirs d = some dir)
    (allocation : Takes (Used t.frames) (Used middle) taken)
    (held : ∀ r, gone r → dir.filesAt.Holds r)
    (source : ∀ r, dir'.filesAt.Holds r → (dir.filesAt.Holds r ∧ ¬ gone r) ∨ taken r)
    (kept : ∀ r, Used middle r → ¬ gone r → Used m r) :
    Tmpfs.Owned ({ t with frames := m }.setDir d dir') := by
  refine Exclusive.handOver owned allocation (.dirArray d) (.dirArray d)
    (fun r given => ⟨dir, present, held r given⟩) ?_ kept
  intro a r owns
  cases a with
  | fileStruct f => exact Or.inl ⟨owns, nofun⟩
  | filePart f part => exact Or.inl ⟨owns, nofun⟩
  | dirStruct d' =>
      refine Or.inl ⟨⟨owns.1, ?_⟩, nofun⟩
      have isSome := owns.2
      by_cases same : d' = d
      · simp [same, present]
      · simpa [same] using isSome
  | dirArray d' =>
      obtain ⟨other, here, holds⟩ := owns
      by_cases same : d' = d
      · subst same
        rw [setDir_dirs, Function.update_self] at here
        cases here
        rcases source r holds with ⟨old, stays⟩ | new
        · exact Or.inl ⟨⟨dir, present, old⟩, fun _ => stays⟩
        · exact Or.inr ⟨rfl, new⟩
      · rw [setDir_dirs, Function.update_of_ne same] at here
        exact Or.inl ⟨⟨other, here, holds⟩, fun equal => absurd (by cases equal; rfl) same⟩

/-- Appending an entry changes one directory, and its array if that is full. -/
theorem addEntry_spec {t t' : Tmpfs} {d : Nat} {entry : TmpfsEntry}
    (added : t.addEntry d entry = some t') :
    ∃ dir dir' m, t.dirs d = some dir ∧ t' = { t with frames := m }.setDir d dir' ∧
      dir'.files = dir.files ++ [entry] ∧ (Tmpfs.Owned t → Tmpfs.Owned t') := by
  unfold Tmpfs.addEntry at added
  split at added
  · cases added
  rename_i dir present
  split at added
  · split at added
    · cases added
    rename_i filesAt m allocated
    cases added
    refine ⟨dir, _, m, present, rfl, rfl, fun owned => ?_⟩
    obtain ⟨middle, allocation, rfl⟩ := realloc_spec allocated
    exact owned.changeDir present allocation (fun _ given => given) (fun r holds => Or.inr holds)
      fun r used outside => free_keeps used outside
  · cases added
    refine ⟨dir, _, t.frames, present, rfl, rfl, fun owned => ?_⟩
    exact @Tmpfs.Owned.changeDir t d dir _ t.frames t.frames (fun _ => False) (fun _ => False) owned
      present (.none _) (fun _ given => given.elim) (fun r holds => Or.inl ⟨holds, id⟩)
      fun r used _ => used

/-- Appending an entry leaves the root where it is. -/
theorem addEntry_root {t t' : Tmpfs} {d : Nat} {entry : TmpfsEntry} (added : t.addEntry d entry = some t') :
    t'.tmpfsRoot = t.tmpfsRoot := by
  obtain ⟨_, _, _, _, rfl, _, _⟩ := addEntry_spec added
  rfl

/-- The frames of a new file were free, and its structure and its parts do not share any. -/
structure NewFile (t : Tmpfs) (f : Nat) (file : TmpfsFile) (m : FrameMap) : Prop where
  takes : Takes (Used t.frames) (Used m) fun r => r = f ∨ ∃ part, TmpfsFile.Has file part r
  apart : ∀ part r, TmpfsFile.Has file part r → r ≠ f
  parts : ∀ p q r, TmpfsFile.Has file p r → TmpfsFile.Has file q r → p = q
  blocks : file.blocks = []

theorem newFile_spec {t t' : Tmpfs} {name : CString} {f : Nat} {file : TmpfsFile}
    (made : t.newFile name = some (f, file, t')) :
    ∃ m, t' = { t with frames := m } ∧ NewFile t f file m ∧ file.target = none ∧ file.name = name ∧
      TmpfsFile.Fits file := by
  unfold Tmpfs.newFile Tmpfs.strdup at made
  split at made
  · cases made
  rename_i struct m₁ structAllocated
  split at made
  · cases made
  rename_i nameAt t₂ copied
  split at copied
  · cases copied
  rename_i nameBlock m₂ nameAllocated
  cases copied
  split at made
  · cases made
  rename_i blocksAt m₃ arrayAllocated
  cases made
  have structTakes := malloc_takes structAllocated
  have nameTakes := malloc_takes nameAllocated
  have arrayTakes := malloc_takes arrayAllocated
  have single := malloc_struct (by decide) structAllocated
  have both := structTakes.trans nameTakes
  refine ⟨m₃, rfl, ⟨(both.trans arrayTakes).congr ?_, ?_, ?_, rfl⟩, rfl, rfl, ?_⟩
  · intro r
    rw [single r]
    constructor
    · rintro (same | ⟨part, has⟩)
      · exact Or.inl (Or.inl same)
      · cases part with
        | name => exact Or.inl (Or.inr has)
        | array => exact Or.inr has
        | target => simp [TmpfsFile.Has] at has
        | block i => simp [TmpfsFile.Has] at has
    · rintro ((same | has) | has)
      · exact Or.inl same
      · exact Or.inr ⟨.name, has⟩
      · exact Or.inr ⟨.array, has⟩
  · intro part r has same
    have inStruct := (single r).mpr same
    cases part with
    | name => exact structTakes.apart nameTakes inStruct has
    | array => exact both.apart arrayTakes (Or.inl inStruct) has
    | target => simp [TmpfsFile.Has] at has
    | block i => simp [TmpfsFile.Has] at has
  · intro p q r left right
    cases p with
    | name =>
        cases q with
        | name => rfl
        | array => exact absurd right (both.apart arrayTakes (Or.inr left))
        | target => simp [TmpfsFile.Has] at right
        | block i => simp [TmpfsFile.Has] at right
    | array =>
        cases q with
        | name => exact absurd left (both.apart arrayTakes (Or.inr right))
        | array => rfl
        | target => simp [TmpfsFile.Has] at right
        | block i => simp [TmpfsFile.Has] at right
    | target => simp [TmpfsFile.Has] at left
    | block i => simp [TmpfsFile.Has] at left
  · exact ⟨Nat.zero_le _, Nat.zero_le _⟩

/-- A new file becomes a link. -/
theorem NewFile.link {t : Tmpfs} {f size : Nat} {file : TmpfsFile} {m m' : FrameMap} {target : CString}
    {targetAt : HeapBlock} (new : NewFile t f file m) (noTarget : file.target = none)
    (allocated : malloc m size = some (targetAt, m')) :
    NewFile t f { file with target := some (target, targetAt) } m' := by
  have targetTakes := malloc_takes allocated
  have origin : ∀ part r, TmpfsFile.Has { file with target := some (target, targetAt) } part r →
      TmpfsFile.Has file part r ∨ (part = .target ∧ targetAt.Holds r) := by
    intro part r has
    cases part with
    | target =>
        obtain ⟨_, member, holds⟩ := has
        cases member
        exact Or.inr ⟨rfl, holds⟩
    | name => exact Or.inl has
    | array => exact Or.inl has
    | block i => exact Or.inl has
  have older : ∀ part r, TmpfsFile.Has file part r →
      TmpfsFile.Has { file with target := some (target, targetAt) } part r := by
    intro part r has
    cases part with
    | target =>
        obtain ⟨_, member, _⟩ := has
        rw [noTarget] at member
        cases member
    | name => exact has
    | array => exact has
    | block i => exact has
  have fresh : ∀ part r, TmpfsFile.Has file part r → ¬ targetAt.Holds r :=
    fun part r has => new.takes.apart targetTakes (Or.inr ⟨part, has⟩)
  refine ⟨(new.takes.trans targetTakes).congr ?_, ?_, ?_, new.blocks⟩
  · intro r
    constructor
    · rintro (same | ⟨part, has⟩)
      · exact Or.inl (Or.inl same)
      · rcases origin part r has with old | ⟨_, holds⟩
        · exact Or.inl (Or.inr ⟨part, old⟩)
        · exact Or.inr holds
    · rintro ((same | ⟨part, has⟩) | holds)
      · exact Or.inl same
      · exact Or.inr ⟨part, older part r has⟩
      · exact Or.inr ⟨.target, ⟨_, rfl, holds⟩⟩
  · intro part r has same
    rcases origin part r has with old | ⟨_, holds⟩
    · exact new.apart part r old same
    · exact new.takes.apart targetTakes (Or.inl same) holds
  · intro p q r left right
    rcases origin p r left with oldLeft | ⟨rfl, holdsLeft⟩
    · rcases origin q r right with oldRight | ⟨rfl, holdsRight⟩
      · exact new.parts p q r oldLeft oldRight
      · exact absurd holdsRight (fresh p r oldLeft)
    · rcases origin q r right with oldRight | ⟨rfl, _⟩
      · exact absurd holdsLeft (fresh q r oldRight)
      · rfl

/-- The structure of a new file is in the frames that were taken for it. -/
theorem NewFile.absent {t : Tmpfs} {f : Nat} {file : TmpfsFile} {m : FrameMap}
    (new : NewFile t f file m) (owned : Tmpfs.Owned t) : t.files f = none := by
  cases present : t.files f with
  | none => rfl
  | some other =>
      have inUse := @Exclusive.inUse _ _ _ _ owned (.fileStruct f) f ⟨rfl, by simp [present]⟩
      exact absurd inUse (new.takes.fresh (Or.inl rfl))

/-- Writing a new file down keeps the ownership. -/
theorem NewFile.owned {t : Tmpfs} {f : Nat} {file : TmpfsFile} {m : FrameMap}
    (new : NewFile t f file m) (owned : Tmpfs.Owned t) :
    Tmpfs.Owned ({ t with frames := m }.setFile f file) := by
  have origin : ∀ a r, Tmpfs.Owns ({ t with frames := m }.setFile f file) a r → Tmpfs.Owns t a r ∨
      (a = .fileStruct f ∧ r = f) ∨ ∃ part, a = .filePart f part ∧ TmpfsFile.Has file part r := by
    intro a r owns
    cases a with
    | fileStruct g =>
        obtain ⟨rfl, isSome⟩ := owns
        by_cases same : r = f
        · subst same
          exact Or.inr (Or.inl ⟨rfl, rfl⟩)
        · exact Or.inl ⟨rfl, by simpa [same] using isSome⟩
    | filePart g part =>
        by_cases same : g = f
        · subst same
          rw [owns_setFile_self] at owns
          exact Or.inr (Or.inr ⟨part, rfl, owns⟩)
        · exact Or.inl (by simpa [Tmpfs.Owns, same] using owns)
    | dirStruct d => exact Or.inl owns
    | dirArray d => exact Or.inl owns
  refine Exclusive.take owned new.takes ?_ ?_
  · intro a r owns
    rcases origin a r owns with old | ⟨_, same⟩ | ⟨part, _, has⟩
    · exact Or.inl old
    · exact Or.inr (Or.inl same)
    · exact Or.inr (Or.inr ⟨part, has⟩)
  · intro a b r taken left right
    have notOld : ∀ c, ¬ Tmpfs.Owns t c r := fun c old => new.takes.fresh taken (owned.inUse old)
    rcases (origin a r left).resolve_left (notOld a) with ⟨rfl, sameLeft⟩ | ⟨p, rfl, hasLeft⟩
    · rcases (origin b r right).resolve_left (notOld b) with ⟨rfl, _⟩ | ⟨q, rfl, hasRight⟩
      · rfl
      · exact absurd sameLeft (new.apart q r hasRight)
    · rcases (origin b r right).resolve_left (notOld b) with ⟨rfl, sameRight⟩ | ⟨q, rfl, hasRight⟩
      · exact absurd sameRight (new.apart p r hasLeft)
      · rw [new.parts p q r hasLeft hasRight]

/-! ## Links after a new entry -/

section NewEntry

variable {t t' : Tmpfs} {d : Nat} {dir dir' : TmpfsDir} {entry : TmpfsEntry}

/-- The files that are linked after an entry was appended. -/
theorem linked_addEntry (present : t.dirs d = some dir)
    (dirs : t'.dirs = Function.update t.dirs d (some dir')) (files : dir'.files = dir.files ++ [entry])
    (g : Nat) : Tmpfs.Linked t' g ↔ entry = .file g ∨ Tmpfs.Linked t g := by
  unfold Tmpfs.Linked
  rw [dirs]
  constructor
  · rintro ⟨e, other, here, member⟩
    by_cases same : e = d
    · subst same
      rw [Function.update_self] at here
      cases here
      rw [files, List.mem_append, List.mem_singleton] at member
      rcases member with old | new
      · exact Or.inr ⟨e, dir, present, old⟩
      · exact Or.inl new.symm
    · rw [Function.update_of_ne same] at here
      exact Or.inr ⟨e, other, here, member⟩
  · rintro (new | ⟨e, other, here, member⟩)
    · exact ⟨d, dir', Function.update_self .., by rw [files, new]; simp⟩
    · by_cases same : e = d
      · subst same
        rw [present] at here
        cases here
        exact ⟨e, dir', Function.update_self .., by rw [files]; exact List.mem_append_left _ member⟩
      · exact ⟨e, other, by rw [Function.update_of_ne same]; exact here, member⟩

theorem once_addEntry (sound : Tmpfs.Sound t) (present : t.dirs d = some dir)
    (dirs : t'.dirs = Function.update t.dirs d (some dir')) (files : dir'.files = dir.files ++ [entry])
    (fresh : ∀ g, entry = .file g → ¬ Tmpfs.Linked t g) :
    ∀ e other, t'.dirs e = some other → ∀ g, other.files.count (.file g) ≤ 1 := by
  intro e other here g
  rw [dirs] at here
  by_cases same : e = d
  · subst same
    rw [Function.update_self] at here
    cases here
    rw [files, List.count_append]
    have before := sound.once e dir present g
    by_cases new : entry = .file g
    · have absent : dir.files.count (.file g) = 0 :=
        List.count_eq_zero.mpr fun member => fresh g new ⟨e, dir, present, member⟩
      rw [absent, new]
      simp
    · have absent : [entry].count (.file g) = 0 :=
        List.count_eq_zero.mpr fun member => new (List.mem_singleton.mp member).symm
      omega
  · rw [Function.update_of_ne same] at here
    exact sound.once e other here g

theorem placed_addEntry (sound : Tmpfs.Sound t) (present : t.dirs d = some dir)
    (dirs : t'.dirs = Function.update t.dirs d (some dir')) (files : dir'.files = dir.files ++ [entry])
    (fresh : ∀ g, entry = .file g → ¬ Tmpfs.Linked t g) :
    ∀ g a dirA b dirB, t'.dirs a = some dirA → t'.dirs b = some dirB →
      TmpfsEntry.file g ∈ dirA.files → TmpfsEntry.file g ∈ dirB.files → a = b := by
  -- where an entry stands afterwards, it stood before, or it is the new one
  have origin : ∀ g e other, t'.dirs e = some other → TmpfsEntry.file g ∈ other.files →
      (e = d ∧ entry = .file g) ∨ ∃ old, t.dirs e = some old ∧ TmpfsEntry.file g ∈ old.files := by
    intro g e other here member
    rw [dirs] at here
    by_cases same : e = d
    · subst same
      rw [Function.update_self] at here
      cases here
      rw [files, List.mem_append, List.mem_singleton] at member
      rcases member with old | new
      · exact Or.inr ⟨dir, present, old⟩
      · exact Or.inl ⟨rfl, new.symm⟩
    · rw [Function.update_of_ne same] at here
      exact Or.inr ⟨other, here, member⟩
  intro g a dirA b dirB hereA hereB memberA memberB
  rcases origin g a dirA hereA memberA with ⟨atA, newA⟩ | ⟨oldA, presentA, inA⟩
  · rcases origin g b dirB hereB memberB with ⟨atB, _⟩ | ⟨oldB, presentB, inB⟩
    · rw [atA, atB]
    · exact absurd ⟨b, oldB, presentB, inB⟩ (fresh g newA)
  · rcases origin g b dirB hereB memberB with ⟨_, newB⟩ | ⟨oldB, presentB, inB⟩
    · exact absurd ⟨a, oldA, presentA, inA⟩ (fresh g newB)
    · exact sound.placed g a oldA b oldB presentA presentB inA inB

end NewEntry

/-! ## Creating -/

/-- Linking a new file keeps the invariant. -/
theorem Tmpfs.Sound.addFile {t t' : Tmpfs} {d f : Nat} {file : TmpfsFile} {m : FrameMap}
    (sound : Tmpfs.Sound t) (new : NewFile t f file m)
    (fits : file.target = none → TmpfsFile.Fits file)
    (added : ({ t with frames := m }.setFile f file).addEntry d (.file f) = some t') :
    Tmpfs.Sound t' := by
  obtain ⟨dir, dir', m', present, shape, files, owned⟩ := addEntry_spec added
  have absent := new.absent sound.owned
  have notLinked : ¬ Tmpfs.Linked t f := by
    rw [sound.listed f, absent]
    simp
  have fresh : ∀ g, TmpfsEntry.file f = .file g → ¬ Tmpfs.Linked t g := by
    intro g same
    cases same
    exact notLinked
  have presentBefore : t.dirs d = some dir := present
  have dirsAfter : t'.dirs = Function.update t.dirs d (some dir') := by rw [shape]; rfl
  have filesAfter : t'.files = Function.update t.files f (some file) := by rw [shape]; rfl
  refine ⟨owned (new.owned sound.owned), ?_, once_addEntry sound presentBefore dirsAfter files fresh,
    placed_addEntry sound presentBefore dirsAfter files fresh, ?_, ?_⟩
  · intro g
    rw [linked_addEntry presentBefore dirsAfter files, sound.listed g, filesAfter]
    by_cases same : g = f
    · simp [same]
    · simp [same, Ne.symm same]
  · intro g other here
    rw [filesAfter] at here
    by_cases same : g = f
    · subst same
      rw [Function.update_self] at here
      cases here
      exact fits
    · rw [Function.update_of_ne same] at here
      exact sound.fits g other here
  · obtain ⟨linked, complete, sum⟩ := sound.counted
    have notMember : f ∉ linked := by
      rw [complete f, absent]
      simp
    refine ⟨insert f linked, ?_, ?_⟩
    · intro g
      rw [Finset.mem_insert, complete g, filesAfter]
      by_cases same : g = f
      · simp [same]
      · simp [same]
    · have here : Tmpfs.blocksOf t' f = 0 := by
        rw [@blocksOf_present t' f file (by simp [filesAfter]), TmpfsFile.blockCount, new.blocks]
        rfl
      have others : ∑ g ∈ linked, (Tmpfs.blocksOf t' g : Int) =
          ∑ g ∈ linked, (Tmpfs.blocksOf t g : Int) := by
        refine Finset.sum_congr rfl fun g member => ?_
        have different : g ≠ f := fun same => notMember (same ▸ member)
        simp [Tmpfs.blocksOf, filesAfter, different]
      rw [Finset.sum_insert notMember, here, others, ← sum, shape]
      simp

/-- `create_tmpfs` keeps the invariant. -/
theorem Tmpfs.Sound.create {t t' : Tmpfs} {who : Credentials} {d : Nat} {name : CString}
    {mode : BitVec 32} {result : Int} (sound : Tmpfs.Sound t)
    (created : t.createTmpfs who d name mode = some (result, t')) : Tmpfs.Sound t' := by
  unfold Tmpfs.createTmpfs at created
  split at created
  · cases created
  split at created
  · cases created
    exact sound
  split at created
  · cases created
  rename_i f file t₁ made
  rw [Option.map_eq_some_iff] at created
  obtain ⟨t₂, added, same⟩ := created
  cases same
  obtain ⟨m, rfl, new, _, _, fits⟩ := newFile_spec made
  have named : NewFile t f { file with mask := mode, uid := who.uid, gid := who.gid } m :=
    ⟨new.takes, new.apart, new.parts, new.blocks⟩
  exact sound.addFile named (fun _ => fits) added

/-- `symlink_tmpfs` keeps the invariant. -/
theorem Tmpfs.Sound.symlink {t t' : Tmpfs} {who : Credentials} {d : Nat} {target name : CString}
    {result : Int} (sound : Tmpfs.Sound t)
    (created : t.symlinkTmpfs who d target name = some (result, t')) : Tmpfs.Sound t' := by
  unfold Tmpfs.symlinkTmpfs at created
  split at created
  · cases created
  split at created
  · cases created
    exact sound
  split at created
  · cases created
  rename_i f file t₁ made
  obtain ⟨m, rfl, new, noTarget, _, _⟩ := newFile_spec made
  split at created
  · cases created
  rename_i targetAt t₂ copied
  unfold Tmpfs.strdup at copied
  split at copied
  · cases copied
  rename_i block m' allocated
  cases copied
  rw [Option.map_eq_some_iff] at created
  obtain ⟨t₃, added, same⟩ := created
  cases same
  have link := @NewFile.link t f _ file m m' target targetAt new noTarget allocated
  have named : NewFile t f
      { file with
        target := some (target, targetAt)
        length := target.length
        mask := 0o777
        uid := who.uid
        gid := who.gid } m' := ⟨link.takes, link.apart, link.parts, link.blocks⟩
  exact sound.addFile named (fun regular => nomatch regular) added

/-- The frames of a new directory were free, and its structure is not in its array. -/
structure NewDir (t : Tmpfs) (d : Nat) (dir : TmpfsDir) (m : FrameMap) : Prop where
  takes : ∃ taken, Takes (Used t.frames) (Used m) taken ∧ taken d ∧
    ∀ r, dir.filesAt.Holds r → taken r
  apart : ¬ dir.filesAt.Holds d
  files : dir.files = []

theorem newDir_spec {t t' : Tmpfs} {name : CString} {d : Nat} {dir : TmpfsDir}
    (made : t.newDir name = some (d, dir, t')) :
    ∃ m, t' = { t with frames := m } ∧ NewDir t d dir m ∧ dir.name = name := by
  unfold Tmpfs.newDir Tmpfs.strdup at made
  split at made
  · cases made
  rename_i struct m₁ structAllocated
  split at made
  · cases made
  rename_i nameAt t₂ copied
  split at copied
  · cases copied
  rename_i nameBlock m₂ nameAllocated
  cases copied
  split at made
  · cases made
  rename_i filesAt m₃ arrayAllocated
  cases made
  have structTakes := malloc_takes structAllocated
  have both := structTakes.trans (malloc_takes nameAllocated)
  have arrayTakes := malloc_takes arrayAllocated
  have inStruct := (malloc_struct (by decide) structAllocated struct.first).mpr rfl
  exact ⟨m₃, rfl, ⟨⟨_, both.trans arrayTakes, Or.inl (Or.inl inStruct), fun r holds => Or.inr holds⟩,
    both.apart arrayTakes (Or.inl inStruct), rfl⟩, rfl⟩

theorem NewDir.absent {t : Tmpfs} {d : Nat} {dir : TmpfsDir} {m : FrameMap} (new : NewDir t d dir m)
    (owned : Tmpfs.Owned t) : t.dirs d = none := by
  obtain ⟨taken, takes, struct, _⟩ := new.takes
  cases present : t.dirs d with
  | none => rfl
  | some other =>
      have inUse := @Exclusive.inUse _ _ _ _ owned (.dirStruct d) d ⟨rfl, by simp [present]⟩
      exact absurd inUse (takes.fresh struct)

/-- Writing a new directory down keeps the ownership. -/
theorem NewDir.owned {t : Tmpfs} {d : Nat} {dir : TmpfsDir} {m : FrameMap} (new : NewDir t d dir m)
    (owned : Tmpfs.Owned t) : Tmpfs.Owned ({ t with frames := m }.setDir d dir) := by
  obtain ⟨taken, takes, struct, array⟩ := new.takes
  have origin : ∀ a r, Tmpfs.Owns ({ t with frames := m }.setDir d dir) a r → Tmpfs.Owns t a r ∨
      (a = .dirStruct d ∧ r = d) ∨ (a = .dirArray d ∧ dir.filesAt.Holds r) := by
    intro a r owns
    cases a with
    | fileStruct f => exact Or.inl owns
    | filePart f part => exact Or.inl owns
    | dirStruct e =>
        obtain ⟨rfl, isSome⟩ := owns
        by_cases same : r = d
        · subst same
          exact Or.inr (Or.inl ⟨rfl, rfl⟩)
        · exact Or.inl ⟨rfl, by simpa [same] using isSome⟩
    | dirArray e =>
        by_cases same : e = d
        · subst same
          obtain ⟨other, here, holds⟩ := owns
          rw [setDir_dirs, Function.update_self] at here
          cases here
          exact Or.inr (Or.inr ⟨rfl, holds⟩)
        · exact Or.inl (by simpa [Tmpfs.Owns, same] using owns)
  refine Exclusive.take owned takes ?_ ?_
  · intro a r owns
    rcases origin a r owns with old | ⟨_, rfl⟩ | ⟨_, holds⟩
    · exact Or.inl old
    · exact Or.inr struct
    · exact Or.inr (array r holds)
  · intro a b r isTaken left right
    have notOld : ∀ c, ¬ Tmpfs.Owns t c r := fun c old => takes.fresh isTaken (owned.inUse old)
    rcases (origin a r left).resolve_left (notOld a) with ⟨rfl, rfl⟩ | ⟨rfl, holdsLeft⟩
    · rcases (origin b r right).resolve_left (notOld b) with ⟨rfl, _⟩ | ⟨_, holdsRight⟩
      · rfl
      · exact absurd holdsRight new.apart
    · rcases (origin b r right).resolve_left (notOld b) with ⟨_, rfl⟩ | ⟨rfl, _⟩
      · exact absurd holdsLeft new.apart
      · rfl

/-- A new directory, which has no files, keeps the invariant. -/
theorem Tmpfs.Sound.addDir {t : Tmpfs} {d : Nat} {dir : TmpfsDir} {m : FrameMap}
    (sound : Tmpfs.Sound t) (new : NewDir t d dir m) :
    Tmpfs.Sound ({ t with frames := m }.setDir d dir) := by
  have absent := new.absent sound.owned
  -- a directory that lists a file was there before
  have older : ∀ e other g, Function.update t.dirs d (some dir) e = some other →
      TmpfsEntry.file g ∈ other.files → t.dirs e = some other := by
    intro e other g here member
    by_cases same : e = d
    · subst same
      rw [Function.update_self] at here
      cases here
      rw [new.files] at member
      cases member
    · rwa [Function.update_of_ne same] at here
  refine ⟨new.owned sound.owned, ?_, ?_, ?_, sound.fits, sound.counted⟩
  · intro g
    rw [setDir_files, ← sound.listed g]
    constructor
    · rintro ⟨e, other, here, member⟩
      exact ⟨e, other, older e other g here member, member⟩
    · rintro ⟨e, other, here, member⟩
      refine ⟨e, other, ?_, member⟩
      rw [setDir_dirs, Function.update_of_ne (fun same => by rw [same, absent] at here; cases here)]
      exact here
  · intro e other here g
    by_cases member : TmpfsEntry.file g ∈ other.files
    · exact sound.once e other (older e other g here member) g
    · rw [List.count_eq_zero.mpr member]
      omega
  · intro g a dirA b dirB hereA hereB memberA memberB
    exact sound.placed g a dirA b dirB (older a dirA g hereA memberA) (older b dirB g hereB memberB)
      memberA memberB

/-- Linking a directory keeps the invariant. -/
theorem Tmpfs.Sound.linkDir {t t' : Tmpfs} {d out : Nat} (sound : Tmpfs.Sound t)
    (added : t.addEntry d (.dir out) = some t') : Tmpfs.Sound t' := by
  obtain ⟨dir, dir', m', present, shape, files, owned⟩ := addEntry_spec added
  have fresh : ∀ g, TmpfsEntry.dir out = .file g → ¬ Tmpfs.Linked t g := fun g same => nomatch same
  have dirsAfter : t'.dirs = Function.update t.dirs d (some dir') := by rw [shape]; rfl
  have filesAfter : t'.files = t.files := by rw [shape]; rfl
  refine ⟨owned sound.owned, ?_, once_addEntry sound present dirsAfter files fresh,
    placed_addEntry sound present dirsAfter files fresh, ?_, ?_⟩
  · intro g
    rw [linked_addEntry present dirsAfter files, sound.listed g, filesAfter]
    simp
  · rw [filesAfter]
    exact sound.fits
  · rw [shape]
    exact sound.counted

/-- `mkdir_tmpfs` keeps the invariant. -/
theorem Tmpfs.Sound.mkdir {t t' : Tmpfs} {who : Credentials} {d : Nat} {name : CString}
    {mode : BitVec 32} {result : Int} (sound : Tmpfs.Sound t)
    (created : t.mkdirTmpfs who d name mode = some (result, t')) : Tmpfs.Sound t' := by
  unfold Tmpfs.mkdirTmpfs at created
  split at created
  · cases created
    exact sound
  split at created
  · cases created
  split at created
  · cases created
    exact sound
  split at created
  · cases created
  rename_i out outDir t₁ made
  rw [Option.map_eq_some_iff] at created
  obtain ⟨t₂, added, same⟩ := created
  cases same
  obtain ⟨m, rfl, new, _⟩ := newDir_spec made
  have named : NewDir t out { outDir with mask := mode, uid := who.uid, gid := who.gid } m :=
    ⟨new.takes, new.apart, new.files⟩
  exact (sound.addDir named).linkDir added

/-! ## Unlinking -/

/-- Freeing a file releases its target and its blocks, and keeps the frames of all others. -/
theorem freeFile_spec (t : Tmpfs) (file : TmpfsFile) :
    ∃ m, t.freeFile file =
        { t with frames := m, totalBlocks := t.totalBlocks - file.blocks.length } ∧
      ∀ r, Used t.frames r → r ∉ file.blocks → ¬ TmpfsFile.Has file .target r → Used m r := by
  unfold Tmpfs.freeFile
  split
  · rename_i target targetAt isLink
    obtain ⟨⟨m, shape⟩, kept⟩ := releaseBlocks_spec { t with frames := free t.frames targetAt } file.blocks
    refine ⟨m, shape, fun r used outside notTarget => ?_⟩
    rw [shape] at kept
    exact kept r (free_keeps used fun holds => notTarget ⟨_, isLink, holds⟩) outside
  · obtain ⟨⟨m, shape⟩, kept⟩ := releaseBlocks_spec t file.blocks
    rw [shape] at kept
    exact ⟨m, shape, fun r used outside _ => kept r used outside⟩

/-- The directories of a state without an entry. -/
theorem dirs_erased {t t' : Tmpfs} {d f : Nat} {dir : TmpfsDir} (inDir : t.dirs d = some dir)
    (dirs : t'.dirs = Function.update t.dirs d (some { dir with files := dir.files.erase (.file f) }))
    (e : Nat) (other : TmpfsDir) (here : t'.dirs e = some other) :
    ∃ old, t.dirs e = some old ∧ old.filesAt = other.filesAt ∧ other.files.Sublist old.files ∧
      (e = d → other.files = dir.files.erase (.file f)) := by
  rw [dirs] at here
  by_cases same : e = d
  · subst same
    rw [Function.update_self] at here
    cases here
    exact ⟨dir, inDir, rfl, List.erase_sublist, fun _ => rfl⟩
  · rw [Function.update_of_ne same] at here
    exact ⟨other, here, rfl, .refl _, fun equal => absurd equal same⟩

/-- The owners that are left never held a frame of the file. -/
theorem Tmpfs.Owned.remove {t t' : Tmpfs} {d f : Nat} {dir : TmpfsDir} {file : TmpfsFile}
    (owned : Tmpfs.Owned t) (inDir : t.dirs d = some dir)
    (present : t.files f = some file) (files : t'.files = Function.update t.files f none)
    (dirs : t'.dirs = Function.update t.dirs d (some { dir with files := dir.files.erase (.file f) }))
    (kept : ∀ r, Used t.frames r → r ≠ f → (∀ part, ¬ TmpfsFile.Has file part r) →
      Used t'.frames r) : Tmpfs.Owned t' := by
  have older : ∀ a r, Tmpfs.Owns t' a r →
      Tmpfs.Owns t a r ∧ a ≠ .fileStruct f ∧ ∀ part, a ≠ .filePart f part := by
    intro a r owns
    cases a with
    | fileStruct g =>
        obtain ⟨rfl, isSome⟩ := owns
        rw [files] at isSome
        by_cases same : r = f
        · simp [same] at isSome
        · rw [Function.update_of_ne same] at isSome
          exact ⟨⟨rfl, isSome⟩, fun equal => same (by cases equal; rfl), nofun⟩
    | filePart g part =>
        obtain ⟨other, here, has⟩ := owns
        rw [files] at here
        by_cases same : g = f
        · simp [same] at here
        · rw [Function.update_of_ne same] at here
          exact ⟨⟨other, here, has⟩, nofun, fun _ equal => same (by cases equal; rfl)⟩
    | dirStruct e =>
        obtain ⟨rfl, isSome⟩ := owns
        obtain ⟨other, here⟩ := Option.isSome_iff_exists.mp isSome
        obtain ⟨old, before, _⟩ := dirs_erased inDir dirs r other here
        exact ⟨⟨rfl, by simp [before]⟩, nofun, nofun⟩
    | dirArray e =>
        obtain ⟨other, here, holds⟩ := owns
        obtain ⟨old, before, array, _⟩ := dirs_erased inDir dirs e other here
        exact ⟨⟨old, before, array ▸ holds⟩, nofun, nofun⟩
  refine owned.release (fun a r owns => (older a r owns).1) fun a r owns used => ?_
  obtain ⟨old, notStruct, notPart⟩ := older a r owns
  refine kept r used ?_ ?_
  · rintro rfl
    exact notStruct (owned.unique old ⟨rfl, by simp [present]⟩)
  · intro part has
    exact notPart part (owned.unique old ⟨file, present, has⟩)

/-- A state without a file and its entry, with the frames of the file released. -/
theorem Tmpfs.Sound.remove {t t' : Tmpfs} {d f : Nat} {dir : TmpfsDir} {file : TmpfsFile}
    (sound : Tmpfs.Sound t) (inDir : t.dirs d = some dir) (member : TmpfsEntry.file f ∈ dir.files)
    (present : t.files f = some file) (files : t'.files = Function.update t.files f none)
    (dirs : t'.dirs = Function.update t.dirs d (some { dir with files := dir.files.erase (.file f) }))
    (total : t'.totalBlocks = t.totalBlocks - file.blockCount)
    (kept : ∀ r, Used t.frames r → r ≠ f → (∀ part, ¬ TmpfsFile.Has file part r) →
      Used t'.frames r) : Tmpfs.Sound t' := by
  have gone : (dir.files.erase (.file f)).count (.file f) = 0 := by
    rw [List.count_erase_self]
    have := sound.once d dir inDir f
    omega
  have origin := @dirs_erased t t' d f dir inDir dirs
  refine ⟨?_, ?_, ?_, ?_, ?_, ?_⟩
  · exact sound.owned.remove inDir present files dirs kept
  · intro g
    have linked : Tmpfs.Linked t' g ↔ Tmpfs.Linked t g ∧ g ≠ f := by
      constructor
      · rintro ⟨e, other, here, inOther⟩
        obtain ⟨old, before, _, sublist, atD⟩ := origin e other here
        refine ⟨⟨e, old, before, sublist.subset inOther⟩, ?_⟩
        rintro rfl
        have place := sound.placed g e old d dir before inDir (sublist.subset inOther) member
        rw [atD place] at inOther
        exact List.count_eq_zero.mp gone inOther
      · rintro ⟨⟨e, old, before, inOld⟩, different⟩
        by_cases same : e = d
        · subst same
          rw [inDir] at before
          cases before
          refine ⟨e, _, by rw [dirs]; exact Function.update_self .., ?_⟩
          exact (List.mem_erase_of_ne (fun equal => different (by cases equal; rfl))).mpr inOld
        · exact ⟨e, old, by rw [dirs, Function.update_of_ne same]; exact before, inOld⟩
    rw [linked, sound.listed g, files]
    by_cases same : g = f
    · simp [same]
    · simp [same]
  · intro e other here g
    obtain ⟨old, before, _, sublist, _⟩ := origin e other here
    exact Nat.le_trans (sublist.count_le _) (sound.once e old before g)
  · intro g a dirA b dirB hereA hereB memberA memberB
    obtain ⟨oldA, beforeA, _, sublistA, _⟩ := origin a dirA hereA
    obtain ⟨oldB, beforeB, _, sublistB, _⟩ := origin b dirB hereB
    exact sound.placed g a oldA b oldB beforeA beforeB (sublistA.subset memberA)
      (sublistB.subset memberB)
  · intro g other here
    rw [files] at here
    by_cases same : g = f
    · simp [same] at here
    · rw [Function.update_of_ne same] at here
      exact sound.fits g other here
  · obtain ⟨linked, complete, sum⟩ := sound.counted
    have inLinked : f ∈ linked := (complete f).mpr (by simp [present])
    refine ⟨linked.erase f, ?_, ?_⟩
    · intro g
      rw [Finset.mem_erase, complete g, files]
      by_cases same : g = f
      · simp [same]
      · simp [same]
    · have others : ∑ g ∈ linked.erase f, (Tmpfs.blocksOf t' g : Int) =
          ∑ g ∈ linked.erase f, (Tmpfs.blocksOf t g : Int) := by
        refine Finset.sum_congr rfl fun g inRest => ?_
        simp [Tmpfs.blocksOf, files, Finset.ne_of_mem_erase inRest]
      have split := Finset.add_sum_erase linked (fun g => (Tmpfs.blocksOf t g : Int)) inLinked
      simp only [blocksOf_present present] at split
      rw [others, total, sum, ← split]
      omega

/-- `unlink_tmpfs` changes nothing, or removes a file and its entry. -/
theorem unlinkTmpfs_shape {t t' : Tmpfs} {d : Nat} {name : CString} {result : Int}
    (unlinked : t.unlinkTmpfs d name = some (result, t')) :
    t' = t ∨ ∃ dir f file, t.dirs d = some dir ∧ TmpfsEntry.file f ∈ dir.files ∧ t.files f = some file ∧
      t'.files = Function.update t.files f none ∧
      t'.dirs = Function.update t.dirs d (some { dir with files := dir.files.erase (.file f) }) ∧
      t'.totalBlocks = t.totalBlocks - file.blockCount ∧
      ∀ r, Used t.frames r → r ≠ f → (∀ part, ¬ TmpfsFile.Has file part r) → Used t'.frames r := by
  unfold Tmpfs.unlinkTmpfs at unlinked
  split at unlinked
  · cases unlinked
  rename_i dir inDir
  split at unlinked
  · cases unlinked
    exact .inl rfl
  · cases unlinked
    exact .inl rfl
  rename_i f found
  split at unlinked
  · cases unlinked
  rename_i file present
  cases unlinked
  obtain ⟨m, shape, kept⟩ := freeFile_spec t file
  refine .inr ⟨dir, f, file, inDir, List.mem_of_find?_eq_some found, present, ?_, ?_, ?_, ?_⟩
  · simp only [setDir_files, shape]
  · simp only [setDir_dirs, shape]
  · simp only [setDir_totalBlocks, shape, TmpfsFile.blockCount]
  · intro r used notStruct notPart
    simp only [setDir_frames, shape]
    refine free_keeps (free_keeps (kept r used ?_ (notPart .target)) (notPart .name)) ?_
    · intro member
      obtain ⟨i, block⟩ := List.getElem?_of_mem member
      exact notPart (.block i) block
    · rintro ⟨low, high⟩
      have single : mallocPages fileSize = 1 := by decide
      change f ≤ r at low
      change r < f + mallocPages fileSize at high
      exact notStruct (by omega)

/-- `unlink_tmpfs` keeps the invariant. -/
theorem Tmpfs.Sound.unlink {t t' : Tmpfs} {d : Nat} {name : CString} {result : Int}
    (sound : Tmpfs.Sound t) (unlinked : t.unlinkTmpfs d name = some (result, t')) :
    Tmpfs.Sound t' := by
  obtain rfl | ⟨dir, f, file, inDir, member, present, files, dirs, total, kept⟩ := unlinkTmpfs_shape unlinked
  · exact sound
  · exact sound.remove inDir member present files dirs total kept

/-- So the frames keep their owners. -/
theorem Tmpfs.Owned.unlink {t t' : Tmpfs} {d : Nat} {name : CString} {result : Int}
    (owned : Tmpfs.Owned t) (unlinked : t.unlinkTmpfs d name = some (result, t')) : Tmpfs.Owned t' := by
  obtain rfl | ⟨dir, f, file, inDir, _, present, files, dirs, _, kept⟩ := unlinkTmpfs_shape unlinked
  · exact owned
  · exact owned.remove inDir present files dirs kept

/-! ## Runs -/

/-- A new tmpfs satisfies the invariant. -/
theorem tmpfsCreate_sound {frames : FrameMap} {phys : Nat → BitVec 8} {name : CString} {t : Tmpfs}
    (created : Tmpfs.tmpfsCreate frames phys name = some t) : Tmpfs.Sound t := by
  unfold Tmpfs.tmpfsCreate at created
  split at created
  · cases created
  rename_i root dir t₁ made
  obtain ⟨m, shape, new, _⟩ := newDir_spec made
  have empty : Tmpfs.Sound
      { frames := frames, files := fun _ => none, dirs := fun _ => none, tmpfsRoot := 0
        totalBlocks := 0, phys := phys } := by
    refine ⟨⟨?_, ?_⟩, ?_, ?_, ?_, ?_, ⟨∅, ?_, ?_⟩⟩
    · intro a b r owns
      cases a <;> simp [Tmpfs.Owns] at owns
    · intro a r owns
      cases a <;> simp [Tmpfs.Owns] at owns
    all_goals simp [Tmpfs.Linked]
  have named : NewDir
      { frames := frames, files := fun _ => none, dirs := fun _ => none, tmpfsRoot := 0
        totalBlocks := 0, phys := phys } root { dir with mask := 0o777 } m :=
    ⟨new.takes, new.apart, new.files⟩
  have sound := empty.addDir named
  cases created
  rw [shape]
  exact ⟨sound.owned, sound.listed, sound.once, sound.placed, sound.fits, sound.counted⟩

/-- Every call keeps the invariant. -/
theorem Tmpfs.Sound.step {t t' : Tmpfs} {call : TmpfsCall} (sound : Tmpfs.Sound t)
    (allowed : call.Allowed t) (stepped : call.step t = some t') : Tmpfs.Sound t' := by
  cases call with
  | create who d name mode =>
      obtain ⟨⟨_, _⟩, created, rfl⟩ := Option.map_eq_some_iff.mp stepped
      exact sound.create created
  | symlink who d target name =>
      obtain ⟨⟨_, _⟩, created, rfl⟩ := Option.map_eq_some_iff.mp stepped
      exact sound.symlink created
  | mkdir who d name mode =>
      obtain ⟨⟨_, _⟩, created, rfl⟩ := Option.map_eq_some_iff.mp stepped
      exact sound.mkdir created
  | write f offset size buffer =>
      obtain ⟨⟨_, _⟩, wrote, rfl⟩ := Option.map_eq_some_iff.mp stepped
      exact sound.write allowed.1 allowed.2 wrote
  | truncate f =>
      obtain ⟨⟨_, _⟩, truncated, rfl⟩ := Option.map_eq_some_iff.mp stepped
      exact sound.truncate allowed truncated
  | unlink d name =>
      obtain ⟨⟨_, _⟩, unlinked, rfl⟩ := Option.map_eq_some_iff.mp stepped
      exact sound.unlink unlinked

/-- Every state of a run satisfies the invariant. -/
theorem Tmpfs.Sound.run {t t' : Tmpfs} {calls : List TmpfsCall} (sound : Tmpfs.Sound t)
    (run : Run TmpfsCall.step (fun t call => call.Allowed t) t calls t') : Tmpfs.Sound t' :=
  run.invariant (fun _ _ _ allowed stepped sound => sound.step allowed stepped) sound

/-- The accounting of the blocks of the linked files. -/
structure Tmpfs.Accounted (t : Tmpfs) : Prop where
  present : ∀ f, Tmpfs.Linked t f → ∃ file, t.files f = some file
  fits : ∀ f file, Tmpfs.Linked t f → t.files f = some file → file.target = none →
    file.blockCount ≤ file.pointers ∧ file.length ≤ file.blockCount * blockSize
  distinct : ∀ (f g : Nat) (file other : TmpfsFile) (i j frame : Nat), Tmpfs.Linked t f →
    Tmpfs.Linked t g → t.files f = some file → t.files g = some other → file.blocks[i]? = some frame →
    other.blocks[j]? = some frame → f = g ∧ i = j
  locked : ∀ f file frame, Tmpfs.Linked t f → t.files f = some file → frame ∈ file.blocks →
    t.frames.locked frame = true
  counted : ∃ linked : Finset Nat, (∀ f, f ∈ linked ↔ Tmpfs.Linked t f) ∧
    t.totalBlocks = ∑ f ∈ linked, (Tmpfs.blocksOf t f : Int)

/-- The states that runs of allowed calls reach from a new tmpfs. -/
def Tmpfs.Reachable (t : Tmpfs) : Prop :=
  ∃ frames phys name start calls, Tmpfs.tmpfsCreate frames phys name = some start ∧
    Run TmpfsCall.step (fun t call => call.Allowed t) start calls t

theorem Tmpfs.Reachable.sound {t : Tmpfs} (reachable : Tmpfs.Reachable t) : Tmpfs.Sound t := by
  obtain ⟨_, _, _, _, _, created, run⟩ := reachable
  exact (tmpfsCreate_sound created).run run

/-- In every state that a run of calls reaches from a new tmpfs, regular files have room for their
lengths, the blocks of the linked files are distinct and locked, and the total counts them. -/
theorem tmpfs_blocks_sound {t : Tmpfs} (reachable : Tmpfs.Reachable t) : Tmpfs.Accounted t := by
  have sound := reachable.sound
  refine ⟨fun f => sound.linked_some, fun f file _ => sound.fits f file, ?_, ?_, ?_⟩
  · intro f g file other i j frame _ _ presentF presentG left right
    have same := @Exclusive.unique _ _ _ _ sound.owned (.filePart f (.block i)) (.filePart g (.block j))
      frame ⟨file, presentF, left⟩ ⟨other, presentG, right⟩
    cases same
    exact ⟨rfl, rfl⟩
  · intro f file frame _ present member
    obtain ⟨i, block⟩ := List.getElem?_of_mem member
    exact @Exclusive.inUse _ _ _ _ sound.owned (.filePart f (.block i)) frame ⟨file, present, block⟩
  · obtain ⟨linked, complete, sum⟩ := sound.counted
    exact ⟨linked, fun f => (complete f).trans (sound.listed f).symm, sum⟩

/-- Memory of 64 free frames. -/
def freeMemory : FrameMap := { nFrames := 64, locked := fun _ => false, lowestAvailable := 0 }

/-- A check that a call on files in one directory is allowed. -/
def TmpfsCall.check (d : Nat) (t : Tmpfs) : TmpfsCall → Bool
  | .write f offset size _ =>
      (t.dirs d).any (fun dir => dir.files.contains (.file f)) && decide (offset + size < 2 ^ 64)
  | .truncate f => (t.dirs d).any fun dir => dir.files.contains (.file f)
  | _ => true

theorem TmpfsCall.check_sound (d : Nat) (t : Tmpfs) (call : TmpfsCall) (checked : call.check d t = true) :
    call.Allowed t := by
  have linked : ∀ f, (t.dirs d).any (fun dir => dir.files.contains (.file f)) = true →
      Tmpfs.Linked t f := by
    intro f found
    rw [Option.any_eq_true] at found
    obtain ⟨dir, present, member⟩ := found
    exact ⟨d, dir, present, by simpa using member⟩
  cases call with
  | write f offset size buffer =>
      simp only [TmpfsCall.check, Bool.and_eq_true, decide_eq_true_eq] at checked
      exact ⟨linked f checked.1, checked.2⟩
  | truncate f => exact linked f checked
  | create => trivial
  | symlink => trivial
  | mkdir => trivial
  | unlink => trivial

/-- A run whose calls pass the check reaches a state. -/
theorem Tmpfs.Reachable.of_checked {d : Nat} {name : CString} {calls : List TmpfsCall}
    {facts : Tmpfs → Bool}
    (completes : ((Tmpfs.tmpfsCreate freeMemory (fun _ => 0) name).bind fun start =>
      Run.exec (fun t call => if TmpfsCall.check d t call then call.step t else none) start calls).any
        facts = true) : ∃ t, Tmpfs.Reachable t ∧ facts t = true := by
  obtain ⟨t, ran, holds⟩ := (Option.any_eq_true _ _).mp completes
  obtain ⟨start, created, executed⟩ := Option.bind_eq_some_iff.mp ran
  exact ⟨t, ⟨_, _, _, start, _, created, Run.of_checked (TmpfsCall.check_sound d) executed⟩, holds⟩

/-- A new tmpfs, a file in it, a write that takes the first block of the file, and a truncation. -/
theorem tmpfs_blocks_sound_example : ∃ t, Tmpfs.Reachable t ∧
    ((Tmpfs.tmpfsCreate freeMemory (fun _ => 0) []).bind fun start =>
      Run.exec TmpfsCall.step start
        [.create ⟨0, 0⟩ 0 [97] 0o644, .write 3 0 5 (fun i => BitVec.ofNat 8 i), .truncate 3]) = some t ∧
    Tmpfs.Accounted t := by
  have completes : ((Tmpfs.tmpfsCreate freeMemory (fun _ => 0) []).bind fun start =>
      Run.exec (fun t call => if TmpfsCall.check 0 t call then call.step t else none) start
        [.create ⟨0, 0⟩ 0 [97] 0o644, .write 3 0 5 (fun i => BitVec.ofNat 8 i), .truncate 3]).isSome := by
    decide
  obtain ⟨t, ran⟩ := Option.isSome_iff_exists.mp completes
  obtain ⟨start, created, executed⟩ := Option.bind_eq_some_iff.mp ran
  have run := Run.of_checked (TmpfsCall.check_sound 0) executed
  have reachable : Tmpfs.Reachable t := ⟨_, _, _, start, _, created, run⟩
  exact ⟨t, reachable, by rw [created]; exact run.executed, tmpfs_blocks_sound reachable⟩

end Voxel.Proofs
