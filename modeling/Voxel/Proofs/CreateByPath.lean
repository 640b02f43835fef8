/-
Module: Voxel.Proofs.CreateByPath
Layer: Proofs
Purpose: Whether `create_file`, `mkdir` and `symlink` make the entry that `kopen` finds under the same
  string. Both scan the string for its last component, but the loop of `kopen` takes the character behind
  a slash into the component whatever it is, and a string of slashes has no component at all.
Trusted boundary: none
Main exports: lastName, lastFilename_eq, pathSteps_last, kopen_added_iff, create_kopen_iff
-/
import Mathlib.Data.List.Find
import Voxel.Kernel.PathCreate
import Voxel.Proofs.PathWalk
import Voxel.Proofs.TmpfsAdds

namespace Voxel.Proofs

open Voxel.Lib Voxel.Kernel

/-! ## The last name -/

/-- What stands behind the last slash, slashes at the end apart. -/
def lastName (s : CString) : CString := (pathBody s).rtakeWhile (· ≠ slash)

/-- The last component that the loop of `kopen` cuts. -/
def lastRaw (s : CString) : CString := (rawComponents (pathBody s)).getLast?.getD []

/-- Without a slash in front of another character the scan finds nothing. -/
theorem scanFilename_plain (filename : CString) {base : CString} (noSlash : slash ∉ base) (k : Nat) :
    scanFilename filename (base ++ List.replicate k slash) = filename := by
  induction base with
  | nil =>
      rw [List.nil_append]
      induction k with
      | zero => rfl
      | succ k inductionHypothesis =>
          have next : charAt (List.replicate k slash) 0 = nul ∨
              charAt (List.replicate k slash) 0 = slash := by
            cases k with
            | zero => exact Or.inl rfl
            | succ k => exact Or.inr rfl
          rw [List.replicate_succ, scanFilename, if_neg ?_]
          · exact inductionHypothesis
          · rintro ⟨_, notNul, notSlash⟩
            exact next.elim notNul notSlash
  | cons c base inductionHypothesis =>
      have plain : c ≠ slash := fun same => noSlash (by rw [same]; exact List.mem_cons_self)
      rw [List.cons_append, scanFilename, if_neg fun found => plain found.1]
      exact inductionHypothesis fun member => noSlash (List.mem_cons_of_mem _ member)

/-- The scan ends with what stands behind the last slash that has a character behind it. -/
theorem scanFilename_last (filename before : CString) {base : CString} (noSlash : slash ∉ base)
    (notEmpty : base ≠ []) (isString : IsCString base) (k : Nat) :
    scanFilename filename (before ++ slash :: (base ++ List.replicate k slash)) =
      base ++ List.replicate k slash := by
  induction before generalizing filename with
  | nil =>
      obtain ⟨c, rest, rfl⟩ := List.exists_cons_of_ne_nil notEmpty
      have notNul : c ≠ nul := fun same => isString (by rw [same]; exact List.mem_cons_self)
      have notSlash : c ≠ slash := fun same => noSlash (by rw [same]; exact List.mem_cons_self)
      rw [List.nil_append, scanFilename, if_pos ⟨rfl, notNul, notSlash⟩]
      exact scanFilename_plain _ noSlash k
  | cons c before inductionHypothesis =>
      rw [List.cons_append, scanFilename]
      exact inductionHypothesis _

theorem rtakeWhile_behind (before more : CString) :
    (before ++ slash :: more).rtakeWhile (· ≠ slash) = more.rtakeWhile (· ≠ slash) := by
  rw [List.rtakeWhile, List.rtakeWhile, List.reverse_append, List.reverse_cons, List.append_assoc,
    List.takeWhile_append]
  split
  · rename_i whole
    have all : more.reverse.takeWhile (· ≠ slash) = more.reverse :=
      (List.takeWhile_prefix _).eq_of_length whole
    rw [all]
    simp
  · rfl

/-- The parts of a string with a body: what is in front of the last name, and the slashes behind it. -/
theorem lastName_split {s : CString} (notEmpty : pathBody s ≠ []) :
    ∃ front k, (front = [] ∨ ∃ before, front = before ++ [slash]) ∧
      s = front ++ (lastName s ++ List.replicate k slash) ∧ slash ∉ lastName s ∧ lastName s ≠ [] := by
  obtain ⟨k, split⟩ := path_split s
  refine ⟨pathLead s ++ (pathBody s).rdropWhile (· ≠ slash), k, ?_, ?_, ?_, ?_⟩
  · by_cases noFront : (pathBody s).rdropWhile (· ≠ slash) = []
    · rw [noFront, List.append_nil]
      rcases List.eq_nil_or_concat (pathLead s) with none | ⟨before, last, isLast⟩
      · exact Or.inl none
      · refine Or.inr ⟨before, ?_⟩
        have member : last ∈ pathLead s := by rw [isLast]; simp
        have isSlash : last = slash := by simpa using List.mem_takeWhile_imp member
        rw [isLast, isSlash, List.concat_eq_append]
    · have last := List.rdropWhile_last_not (fun c => decide (c ≠ slash)) (pathBody s) noFront
      have isSlash : ((pathBody s).rdropWhile (· ≠ slash)).getLast noFront = slash := by simpa using last
      have parts := List.dropLast_append_getLast noFront
      rw [isSlash] at parts
      exact Or.inr ⟨pathLead s ++ ((pathBody s).rdropWhile (· ≠ slash)).dropLast,
        by rw [List.append_assoc, parts]⟩
  · rw [List.append_assoc, ← List.append_assoc ((pathBody s).rdropWhile _), lastName,
      List.rdropWhile_append_rtakeWhile]
    exact split
  · intro member
    have plain := List.mem_rtakeWhile_imp member
    simp at plain
  · intro none
    have ends := List.rtakeWhile_eq_nil_iff.mp none notEmpty
    have plain := pathBody_ends s _ (List.getLast?_eq_some_getLast notEmpty)
    exact ends (by simpa using plain)

/-- `create_file` finds the last name, without an access outside the string. -/
theorem lastFilename_eq {s : CString} (isString : IsCString s) (notEmpty : pathBody s ≠ []) :
    lastFilename s = some (lastName s) := by
  obtain ⟨front, k, frontEnds, split, noSlash, nameEmpty⟩ := lastName_split notEmpty
  have nameString : IsCString (lastName s) := fun member => isString (by
    rw [split]
    exact List.mem_append_right _ (List.mem_append_left _ member))
  have scanned : scanFilename s s = lastName s ++ List.replicate k slash := by
    rcases frontEnds with rfl | ⟨before, rfl⟩
    · rw [List.nil_append] at split
      have whole := scanFilename_plain s noSlash k
      rw [← split] at whole
      rw [whole]
      exact split
    · rw [List.append_assoc, List.singleton_append] at split
      have last := scanFilename_last s before noSlash nameEmpty nameString k
      rwa [← split] at last
  obtain ⟨init, last, isLast⟩ := (List.eq_nil_or_concat (lastName s)).resolve_left nameEmpty
  rw [List.concat_eq_append] at isLast
  have plain : last ≠ slash := fun same => noSlash (by rw [isLast, same]; simp)
  have stripped := stripBack_run plain init k []
  have shape : ∀ c, init ++ last :: (List.replicate k c ++ []) = lastName s ++ List.replicate k c := by
    intro c
    rw [isLast]
    simp
  rw [shape, shape] at stripped
  have length : (lastName s ++ List.replicate k slash).length = init.length + 1 + k := by
    rw [isLast, List.length_append, List.length_append, List.length_replicate]
    rfl
  have read : cstringAt (lastName s ++ List.replicate k nul) 0 = lastName s := by
    cases k with
    | zero =>
        rw [List.replicate_zero, List.append_nil]
        exact @cstringAt_end [] _ nameString
    | succ k => exact @cstringAt_cut [] _ (List.replicate k nul) nameString
  unfold lastFilename
  dsimp only
  rw [scanned, length, stripped, Option.map_some, read]

/-- In a string of slashes it runs over the start. -/
theorem lastFilename_slashes {s : CString} (empty : pathBody s = []) : lastFilename s = none := by
  have slashes : s = List.replicate s.length slash := by
    have whole := pathBody_eq_nil empty
    refine List.eq_replicate_of_mem fun c member => ?_
    rw [whole] at member
    simpa using List.mem_takeWhile_imp member
  have scanned : scanFilename s s = s := by
    have plain := @scanFilename_plain s [] List.not_mem_nil s.length
    rw [List.nil_append, ← slashes] at plain
    exact plain
  unfold lastFilename
  dsimp only
  rw [scanned]
  have stripped := stripBack_all slash s.length []
  rw [List.append_nil, ← slashes] at stripped
  rw [stripped]
  rfl

/-! ## The last lookup of kopen -/

/-- The last component that `kopen` cuts is the last name, perhaps with a slash in front. -/
theorem rawSteps_last (before : CString) {body : CString} (notEmpty : body ≠ [])
    (ends : EndsPlain body) :
    ∃ init last, rawSteps before (rawComponents body) = init ++ [(before ++ body, last)] ∧
      (rawComponents body).getLast? = some last ∧
      (last = body.rtakeWhile (· ≠ slash) ∨ last = slash :: body.rtakeWhile (· ≠ slash)) := by
  induction size : body.length using Nat.strong_induction_on generalizing before body with
  | _ n inductionHypothesis =>
  obtain ⟨c, rest, rfl⟩ := List.exists_cons_of_ne_nil notEmpty
  by_cases slashes : slash ∈ rest
  · obtain ⟨t, more, rfl, noSlash⟩ := List.eq_append_cons_of_mem slashes
    have moreEmpty : more ≠ [] := by
      rintro rfl
      rw [← List.cons_append] at ends
      exact ends slash List.getLast?_concat rfl
    have endsMore : EndsPlain more := by
      rw [← List.cons_append, show (c :: t) ++ slash :: more = ((c :: t) ++ [slash]) ++ more by simp]
        at ends
      exact ends.of_append moreEmpty
    obtain ⟨init, last, steps, isLast, either⟩ := inductionHypothesis more.length
      (by rw [← size]; simp only [List.length_cons, List.length_append]; omega)
      (before ++ (c :: t) ++ [slash]) moreEmpty endsMore rfl
    have base := rtakeWhile_behind (c :: t) more
    rw [List.cons_append] at base
    refine ⟨(before ++ c :: t, c :: t) :: init, last, ?_, ?_, ?_⟩
    · rw [rawComponents_cons c noSlash, rawSteps, steps]
      simp
    · rw [rawComponents_cons c noSlash, List.getLast?_cons_of_ne_nil (rawComponents_ne_nil moreEmpty)]
      exact isLast
    · rw [base]
      exact either
  · refine ⟨[], c :: rest, ?_, ?_, ?_⟩
    · rw [rawComponents_last c slashes]
      rfl
    · rw [rawComponents_last c slashes]
      rfl
    · have plain : ∀ d ∈ rest, decide (d ≠ slash) = true := fun d member =>
        decide_eq_true fun same => slashes (same ▸ member)
      have wholeRest : rest.rtakeWhile (· ≠ slash) = rest := List.rtakeWhile_eq_self_iff.mpr plain
      by_cases isSlash : c = slash
      · have base := rtakeWhile_behind [] rest
        rw [List.nil_append] at base
        exact Or.inr (by rw [isSlash, base, wholeRest])
      · refine Or.inl (List.rtakeWhile_eq_self_iff.mpr fun d member => ?_).symm
        rcases List.mem_cons.mp member with rfl | member
        · exact decide_eq_true isSlash
        · exact plain d member

/-- The lookups for a string with a body: those for its parent, and the last one. -/
theorem pathSteps_last {s : CString} (notEmpty : pathBody s ≠ []) :
    pathSteps s = (pathSteps s).dropLast ++ [(pathLead s ++ pathBody s, lastRaw s)] ∧
      (lastRaw s = lastName s ∨ lastRaw s = slash :: lastName s) := by
  obtain ⟨init, last, steps, isLast, either⟩ := rawSteps_last (pathLead s) notEmpty (pathBody_ends s)
  have raw : lastRaw s = last := by rw [lastRaw, isLast, Option.getD_some]
  rw [pathSteps, steps, List.dropLast_concat, raw]
  exact ⟨rfl, either⟩

variable {Node : Type}

theorem walk_append (v : Vfs Node) (wd : Node) (steps more : List (CString × CString)) :
    walk v wd (steps ++ more) = (walk v wd steps).bind fun node => walk v node more := by
  induction steps generalizing wd with
  | nil => rfl
  | cons step steps inductionHypothesis =>
      rw [List.cons_append, walk, walk]
      cases lookup v wd step.1 step.2 with
      | none => rfl
      | some node => exact inductionHypothesis (v.follow node)

/-- The parent that `kopen` finds is where the lookups in front of the last one end. -/
theorem kopen_parent_walk {v : Vfs Node} (plain : ∀ node, v.ptr node = none) {p : CString}
    (isString : IsCString p) {root parent : Node} (rooted : v.fsRoot = some root)
    (notEmpty : pathBody p ≠ []) (opened : v.kopen p true = some (some parent)) :
    walk v root (pathSteps p).dropLast = some parent := by
  rw [kopen_parent_eq_walk v isString rooted, if_neg notEmpty] at opened
  obtain ⟨node, found, same⟩ := Option.map_eq_some_iff.mp (Option.some.inj opened)
  rw [Vfs.follow, plain] at same
  rw [found]
  exact congrArg some same

/-- From there the last component decides. -/
theorem kopen_last {v : Vfs Node} (plain : ∀ node, v.ptr node = none) {p : CString}
    (isString : IsCString p) {root parent : Node} (rooted : v.fsRoot = some root)
    (notEmpty : pathBody p ≠ []) (toParent : walk v root (pathSteps p).dropLast = some parent) :
    v.kopen p false = some (lookup v parent (pathLead p ++ pathBody p) (lastRaw p)) := by
  rw [kopen_eq_walk v isString rooted, (pathSteps_last notEmpty).1, walk_append, toParent,
    Option.bind_some, walk]
  cases lookup v parent (pathLead p ++ pathBody p) (lastRaw p) with
  | none => rfl
  | some node =>
      dsimp only
      rw [walk, Vfs.follow, plain]
      rfl

/-! ## The tree after an entry was added -/

section Added

variable {Foreign : Type} {s : FileSystem Foreign} {t' : Tmpfs} {d : Nat} {dir : TmpfsDir}
  {entry : TmpfsEntry}

/-- The file system with another tmpfs. -/
def FileSystem.withTmpfs (s : FileSystem Foreign) (t : Tmpfs) : FileSystem Foreign :=
  { s with tmpfs := t }

/-- A structure with a name has attributes. -/
theorem entryAttributes_of_name {t : Tmpfs} {e : TmpfsEntry} {name : CString}
    (named : t.entryName e = some name) : ∃ attributes, t.entryAttributes e = some attributes := by
  cases e with
  | file f =>
      obtain ⟨file, here, _⟩ := Option.map_eq_some_iff.mp named
      exact ⟨_, by rw [Tmpfs.entryAttributes, here, Option.map_some]⟩
  | dir e =>
      obtain ⟨other, here, _⟩ := Option.map_eq_some_iff.mp named
      exact ⟨_, by rw [Tmpfs.entryAttributes, here, Option.map_some]⟩

/-- A node that `finddir_tmpfs` makes. -/
theorem finddirNode_some_iff {e : Nat} {name : CString} {found : TmpfsEntry} :
    (∃ node, s.finddirNode e name = some node ∧ node.device = .tmpfs found) ↔
      name.length < nodeNameSize ∧ s.tmpfs.finddirTmpfs e name = some found := by
  unfold FileSystem.finddirNode
  cases here : s.tmpfs.finddirTmpfs e name with
  | none =>
      refine ⟨?_, fun both => nomatch both.2⟩
      rintro ⟨_, found, _⟩
      cases found
  | some other =>
      dsimp only
      by_cases short : name.length < nodeNameSize
      · have named : s.tmpfs.entryName other = some name := by
          obtain ⟨_, _, inDir⟩ := Option.bind_eq_some_iff.mp here
          simpa using List.find?_some inDir
        obtain ⟨attributes, has⟩ := entryAttributes_of_name named
        rw [if_pos short, has, Option.map_some]
        constructor
        · rintro ⟨_, ⟨⟩, same⟩
          cases same
          exact ⟨short, rfl⟩
        · rintro ⟨_, ⟨⟩⟩
          exact ⟨_, rfl, rfl⟩
      · rw [if_neg short]
        refine ⟨?_, fun both => absurd both.1 short⟩
        rintro ⟨_, found, _⟩
        cases found

/-- What `finddir_tmpfs` finds has the name. -/
theorem finddirTmpfs_named {t : Tmpfs} {e : Nat} {name : CString} {found : TmpfsEntry}
    (here : t.finddirTmpfs e name = some found) : t.entryName found = some name := by
  obtain ⟨_, _, inDir⟩ := Option.bind_eq_some_iff.mp here
  simpa using List.find?_some inDir

/-- The entries of a directory are found as before if their names are known. -/
theorem findEntry_kept {t : Tmpfs} {other other' : TmpfsDir} {name : CString} {found : TmpfsEntry}
    (known : ∀ e ∈ other.files, ∃ name, t.entryName e = some name) (kept : Kept t t' d)
    (files : ∃ more, other'.files = other.files ++ more) (here : t.findEntry other name = some found) :
    t'.findEntry other' name = some found := by
  obtain ⟨more, files⟩ := files
  have same : other.files.find? (fun e => t'.entryName e = some name) = some found := by
    rw [← here, Tmpfs.findEntry]
    refine List.find?_congr fun e member => ?_
    obtain ⟨eName, named⟩ := known e member
    rw [named, kept.entryName named]
  rw [Tmpfs.findEntry, files, List.find?_append, same, Option.some_or]

/-- What was found in a directory of tmpfs is found when an entry was added. -/
theorem finddirTmpfs_kept {e : Nat} {name : CString} {found : TmpfsEntry}
    (reachable : Tmpfs.Reachable s.tmpfs) (added : Added s.tmpfs t' d dir entry)
    (present : s.tmpfs.dirs d = some dir) (fresh : Fresh s.tmpfs entry)
    (here : s.tmpfs.finddirTmpfs e name = some found) : t'.finddirTmpfs e name = some found := by
  have kept := added.kept present fresh
  obtain ⟨other, inTmpfs, inDir⟩ := Option.bind_eq_some_iff.mp here
  have known := reachable.named inTmpfs
  by_cases same : e = d
  · subst same
    cases present.symm.trans inTmpfs
    obtain ⟨dir', after, files, _⟩ := added.parent
    rw [Tmpfs.finddirTmpfs, after]
    exact findEntry_kept known kept ⟨_, files⟩ inDir
  · rw [Tmpfs.finddirTmpfs, kept.dirs e other same inTmpfs]
    exact findEntry_kept known kept ⟨[], by rw [List.append_nil]⟩ inDir

/-- A lookup that succeeds does so when an entry was added, with a node of the same device. -/
theorem lookup_kept {wd wd' node : FsNode Foreign} {path name : CString}
    (reachable : Tmpfs.Reachable s.tmpfs) (added : Added s.tmpfs t' d dir entry)
    (present : s.tmpfs.dirs d = some dir) (fresh : Fresh s.tmpfs entry) (same : wd'.device = wd.device)
    (here : lookup s.vfs wd path name = some node) :
    ∃ node', lookup (FileSystem.withTmpfs s t').vfs wd' path name = some node' ∧
      node'.device = node.device := by
  unfold lookup at here ⊢
  have mounts : (FileSystem.withTmpfs s t').vfs.getMountpoint path = s.vfs.getMountpoint path := rfl
  rw [mounts]
  cases mounted : s.vfs.getMountpoint path with
  | some other =>
      rw [mounted] at here
      exact ⟨other, rfl, by rw [Option.some.inj here]⟩
  | none =>
      rw [mounted] at here
      dsimp only at here ⊢
      unfold Vfs.finddirFs FileSystem.vfs at here ⊢
      dsimp only at here ⊢
      rw [same]
      cases device : wd.device with
      | tmpfs e =>
          cases e with
          | file f =>
              rw [device] at here
              cases here
          | dir e =>
              rw [device] at here
              dsimp only at here ⊢
              have isTmpfs : ∃ found, node.device = .tmpfs found := by
                unfold FileSystem.finddirNode at here
                split at here
                · cases here
                split at here
                · obtain ⟨_, _, rfl⟩ := Option.map_eq_some_iff.mp here
                  exact ⟨_, rfl⟩
                · cases here
              obtain ⟨found, isFound⟩ := isTmpfs
              obtain ⟨short, inDir⟩ := finddirNode_some_iff.mp ⟨node, here, isFound⟩
              obtain ⟨node', here', isFound'⟩ :=
                (@finddirNode_some_iff _ (FileSystem.withTmpfs s t') e name found).mpr
                  ⟨short, finddirTmpfs_kept reachable added present fresh inDir⟩
              exact ⟨node', here', isFound'.trans isFound.symm⟩
      | foreign e =>
          rw [device] at here
          exact ⟨node, here, rfl⟩

/-- The walk to the parent, when an entry was added. -/
theorem walk_kept {steps : List (CString × CString)} {wd wd' node : FsNode Foreign}
    (reachable : Tmpfs.Reachable s.tmpfs) (added : Added s.tmpfs t' d dir entry)
    (present : s.tmpfs.dirs d = some dir) (fresh : Fresh s.tmpfs entry) (same : wd'.device = wd.device)
    (here : walk s.vfs wd steps = some node) :
    ∃ node', walk (FileSystem.withTmpfs s t').vfs wd' steps = some node' ∧
      node'.device = node.device := by
  induction steps generalizing wd wd' with
  | nil =>
      cases here
      exact ⟨wd', rfl, same⟩
  | cons step steps inductionHypothesis =>
      rw [walk] at here ⊢
      cases found : lookup s.vfs wd step.1 step.2 with
      | none =>
          rw [found] at here
          cases here
      | some next =>
          rw [found] at here
          obtain ⟨next', found', device⟩ := lookup_kept reachable added present fresh same found
          rw [found']
          exact inductionHypothesis device here

/-- The entry that was added is the only structure that is new. -/
theorem Added.unique {t : Tmpfs} {other : TmpfsEntry} {name : CString} (added : Added t t' d dir entry)
    (present : t.dirs d = some dir) (fresh : Fresh t other) (named : t'.entryName other = some name) :
    other = entry := by
  by_cases same : other = entry
  · exact same
  cases other with
  | file f =>
      have absent : t.files f = none := fresh
      rw [Tmpfs.entryName, added.otherFiles f same, absent] at named
      cases named
  | dir e =>
      have absent : t.dirs e = none := fresh
      have notParent : e ≠ d := by
        rintro rfl
        rw [absent] at present
        cases present
      rw [Tmpfs.entryName, added.otherDirs e notParent same, absent] at named
      cases named

/-- The place where `kopen` looks for the last component of a string: it has no slash, no other node is
mounted there, and the name fits in a node. -/
structure CutsWell (s : FileSystem Foreign) (p : CString) : Prop where
  noSlash : slash ∉ lastRaw p
  notMounted : s.vfs.getMountpoint (pathLead p ++ pathBody p) = none
  fits : (lastName p).length < nodeNameSize

/-- No structure is mounted that is not there. -/
def MountsPresent (s : FileSystem Foreign) : Prop :=
  ∀ path node, (path, node) ∈ s.mountpoints → ∀ e, node.device = .tmpfs e → ¬ Fresh s.tmpfs e

/-- When an entry was added, `kopen` comes to a node of the same parent. -/
theorem kopen_added {p : CString} {parent : FsNode Foreign} (isString : IsCString p)
    (notEmpty : pathBody p ≠ []) (reachable : Tmpfs.Reachable s.tmpfs)
    (opened : s.vfs.kopen p true = some (some parent)) (added : Added s.tmpfs t' d dir entry)
    (present : s.tmpfs.dirs d = some dir) (fresh : Fresh s.tmpfs entry) :
    ∃ parent', parent'.device = parent.device ∧ (FileSystem.withTmpfs s t').vfs.kopen p false =
      some (lookup (FileSystem.withTmpfs s t').vfs parent' (pathLead p ++ pathBody p) (lastRaw p)) := by
  have toParent := kopen_parent_walk (fun _ => rfl) isString rfl notEmpty opened
  obtain ⟨parent', toParent', device⟩ :=
    @walk_kept _ _ _ _ _ _ _ _ s.fsRoot _ reachable added present fresh rfl toParent
  exact ⟨parent', device, kopen_last (fun _ => rfl) isString rfl notEmpty toParent'⟩

/-- `kopen` finds the entry that was added under the last name exactly if it cuts the string well. -/
theorem kopen_added_iff {p : CString} {parent : FsNode Foreign} (isString : IsCString p)
    (notEmpty : pathBody p ≠ []) (reachable : Tmpfs.Reachable s.tmpfs) (mounts : MountsPresent s)
    (opened : s.vfs.kopen p true = some (some parent)) (inParent : parent.device = .tmpfs (.dir d))
    (added : Added s.tmpfs t' d dir entry) (present : s.tmpfs.dirs d = some dir)
    (fresh : Fresh s.tmpfs entry) (notThere : s.tmpfs.findEntry dir (lastName p) = none)
    (named : t'.entryName entry = some (lastName p)) :
    (∃ node, (FileSystem.withTmpfs s t').vfs.kopen p false = some (some node) ∧
      node.device = .tmpfs entry) ↔ CutsWell s p := by
  obtain ⟨_, either⟩ := pathSteps_last notEmpty
  obtain ⟨parent', device, result⟩ :=
    kopen_added isString notEmpty reachable opened added present fresh
  have newest : t'.finddirTmpfs d (lastName p) = some entry := by
    obtain ⟨dir', after, files, _⟩ := added.parent
    have kept := added.kept present fresh
    rw [Tmpfs.finddirTmpfs, after]
    refine findEntry_added (fun old member => ?_) named files
    obtain ⟨oldName, known⟩ := reachable.named present old member
    rw [kept.entryName known]
    intro same
    have missed := List.find?_eq_none.mp notThere old member
    rw [known, Option.some.inj same] at missed
    exact missed (by simp)
  have below : (FileSystem.withTmpfs s t').vfs.finddirFs parent' (lastRaw p) =
      (FileSystem.withTmpfs s t').finddirNode d (lastRaw p) := by
    unfold Vfs.finddirFs FileSystem.vfs
    dsimp only
    rw [device, inParent]
  have sameMount : ∀ path, (FileSystem.withTmpfs s t').vfs.getMountpoint path =
      s.vfs.getMountpoint path := fun _ => rfl
  rw [result]
  unfold lookup
  rw [sameMount]
  cases mounted : s.vfs.getMountpoint (pathLead p ++ pathBody p) with
  | some other =>
      constructor
      · rintro ⟨_, ⟨⟩, isEntry⟩
        obtain ⟨⟨path, node⟩, inTable, same⟩ := Option.map_eq_some_iff.mp mounted
        change node = other at same
        rw [← same] at isEntry
        exact absurd fresh (mounts path node (List.mem_of_find?_eq_some inTable) entry isEntry)
      · intro cuts
        have none := cuts.notMounted
        rw [mounted] at none
        cases none
  | none =>
      dsimp only
      rw [below]
      constructor
      · rintro ⟨node, found, isEntry⟩
        obtain ⟨short, inDir⟩ :=
          (@finddirNode_some_iff _ (FileSystem.withTmpfs s t') d (lastRaw p) entry).mp
            ⟨node, Option.some.inj found, isEntry⟩
        have same : lastRaw p = lastName p := by
          have other := finddirTmpfs_named inDir
          change t'.entryName entry = _ at other
          exact Option.some.inj (other.symm.trans named)
        obtain ⟨_, _, _, _, noSlash, _⟩ := lastName_split notEmpty
        exact ⟨by rw [same]; exact noSlash, mounted, by rw [← same]; exact short⟩
      · intro cuts
        have same : lastRaw p = lastName p := by
          rcases either with same | withSlash
          · exact same
          · exact absurd (by rw [withSlash]; exact List.mem_cons_self) cuts.noSlash
        obtain ⟨node, found, isEntry⟩ :=
          (@finddirNode_some_iff _ (FileSystem.withTmpfs s t') d (lastRaw p) entry).mpr
            ⟨by rw [same]; exact cuts.fits, by rw [same]; exact newest⟩
        exact ⟨node, congrArg some found, isEntry⟩

end Added

/-! ## create_file, mkdir and symlink -/

variable {Foreign : Type}

/-- One entry was inserted, with a name that is not empty and has no slash, and `kopen` returns it. -/
structure Inserted (s : FileSystem Foreign) (p : CString) (t' : Tmpfs) (entry : TmpfsEntry) : Prop where
  added : ∃ d dir, s.tmpfs.dirs d = some dir ∧ Added s.tmpfs t' d dir entry
  fresh : Fresh s.tmpfs entry
  named : ∃ name, t'.entryName entry = some name ∧ name ≠ [] ∧ slash ∉ name
  opened : ∃ node, (FileSystem.withTmpfs s t').vfs.kopen p false = some (some node) ∧
    node.device = .tmpfs entry

/-- A call stays inside its string, and it either fails and changes nothing or inserts one entry that
`kopen` finds. -/
def Creates (s : FileSystem Foreign) (p : CString) (called : Option (Option (Int × Tmpfs))) : Prop :=
  called ≠ none ∧ ∀ result t', called = some (some (result, t')) →
    (result ≠ 0 ∧ t' = s.tmpfs) ∨ (result = 0 ∧ ∃ entry, Inserted s p t' entry)

/-- If the parent is found and may be written to, the string has a last name; and if the parent is a
directory of tmpfs without that name, `kopen` cuts the string well. -/
def MayCreate (s : FileSystem Foreign) (who : Credentials) (p : CString) : Prop :=
  ∀ parent, s.vfs.kopen p true = some (some parent) →
    checkPermission who parent.attributes 0o2 = true →
      pathBody p ≠ [] ∧ ∀ d dir, parent.device = .tmpfs (.dir d) → s.tmpfs.dirs d = some dir →
        s.tmpfs.findEntry dir (lastName p) = none → CutsWell s p

theorem creates_failed {s : FileSystem Foreign} {p : CString} {result : Int} (failed : result ≠ 0) :
    Creates s p (some (some (result, s.tmpfs))) := by
  refine ⟨by simp, fun _ _ same => Or.inl ?_⟩
  cases same
  exact ⟨failed, rfl⟩

/-- What the three functions have in common. -/
theorem createAt_iff {s : FileSystem Foreign} {who : Credentials} {p : CString} {looks : Bool}
    {missing : Int} {callback : Tmpfs → Nat → CString → Option (Int × Tmpfs)} (isString : IsCString p)
    (reachable : Tmpfs.Reachable s.tmpfs) (mounts : MountsPresent s) (isError : missing ≠ 0)
    (outcome : ∀ d name result t', name ≠ [] → callback s.tmpfs d name = some (result, t') →
      Outcome s.tmpfs d name result t')
    (memory : s.createAt who p looks missing callback ≠ some none) :
    Creates s p (s.createAt who p looks missing callback) ↔ MayCreate s who p := by
  unfold FileSystem.createAt at memory ⊢
  obtain ⟨found, opened⟩ : ∃ found, s.vfs.kopen p true = some found :=
    ⟨_, kopen_parent_eq_walk s.vfs isString rfl⟩
  unfold MayCreate
  rw [opened] at memory ⊢
  cases found with
  | none => exact iff_of_true (creates_failed (by decide)) fun parent same => nomatch same
  | some parent =>
      dsimp only at memory ⊢
      by_cases allowed : checkPermission who parent.attributes 0o2 = false
      · rw [if_pos allowed]
        refine iff_of_true (creates_failed (by decide)) ?_
        rintro _ ⟨⟩ may
        rw [allowed] at may
        cases may
      rw [if_neg allowed] at memory ⊢
      have may : checkPermission who parent.attributes 0o2 = true := by simpa using allowed
      by_cases empty : pathBody p = []
      · rw [lastFilename_slashes empty]
        exact iff_of_false (fun creates => creates.1 rfl) fun holds => (holds parent rfl may).1 empty
      rw [lastFilename_eq isString empty] at memory ⊢
      dsimp only at memory ⊢
      obtain ⟨_, _, _, _, noSlash, nameEmpty⟩ := lastName_split empty
      by_cases there : looks = true ∧ (s.vfs.finddirFs parent (lastName p)).isSome
      · rw [if_pos there]
        refine iff_of_true (creates_failed (by decide)) ?_
        rintro _ ⟨⟩ _
        refine ⟨empty, fun d dir inParent present notThere => ?_⟩
        have nothing : s.vfs.finddirFs parent (lastName p) = none := by
          unfold Vfs.finddirFs FileSystem.vfs
          dsimp only
          rw [inParent]
          dsimp only
          rw [FileSystem.finddirNode, Tmpfs.finddirTmpfs, present, Option.bind_some, notThere]
        rw [nothing] at there
        exact Bool.noConfusion there.2
      rw [if_neg there] at memory ⊢
      cases device : parent.device with
      | foreign node =>
          refine iff_of_true (creates_failed isError) ?_
          rintro _ ⟨⟩ _
          exact ⟨empty, fun d dir inParent => by rw [device] at inParent; cases inParent⟩
      | tmpfs e =>
          cases e with
          | file f =>
              refine iff_of_true (creates_failed isError) ?_
              rintro _ ⟨⟩ _
              exact ⟨empty, fun d dir inParent => by rw [device] at inParent; cases inParent⟩
          | dir d =>
              rw [device] at memory
              dsimp only at memory ⊢
              cases called : callback s.tmpfs d (lastName p) with
              | none => exact absurd (by rw [called]) memory
              | some answer =>
                  obtain ⟨result, t'⟩ := answer
                  obtain ⟨dir, present, ⟨exists_, failed, rfl⟩ | ⟨notThere, rfl, entry, added, fresh,
                    named⟩⟩ :=
                    outcome d (lastName p) result t' nameEmpty called
                  · refine iff_of_true (creates_failed failed) ?_
                    rintro _ ⟨⟩ _
                    refine ⟨empty, fun d' dir' inParent present' notThere => ?_⟩
                    cases device.symm.trans inParent
                    cases present.symm.trans present'
                    exact absurd notThere exists_
                  · have opens := kopen_added_iff isString empty reachable mounts opened device added present
                      fresh notThere named
                    constructor
                    · rintro ⟨_, answers⟩ _ ⟨⟩ _
                      refine ⟨empty, fun d' dir' inParent present' _ => ?_⟩
                      rcases answers 0 t' rfl with ⟨failed, _⟩ | ⟨_, other, inserted⟩
                      · exact absurd rfl failed
                      · obtain ⟨name, otherNamed, _⟩ := inserted.named
                        have same := added.unique present inserted.fresh otherNamed
                        exact opens.mp (by rw [← same]; exact inserted.opened)
                    · intro holds
                      have cuts := (holds parent rfl may).2 d dir device present notThere
                      refine ⟨by simp, fun result' t'' same => Or.inr ?_⟩
                      cases same
                      exact ⟨rfl, entry, ⟨d, dir, present, added⟩, fresh,
                        ⟨lastName p, named, nameEmpty, noSlash⟩, opens.mpr cuts⟩

/-- The calls that create something under a path. -/
inductive Creation
  | createFile (mode : BitVec 32)
  | mkdir (mode : BitVec 32)
  | symlink (target : CString)

/-- The call. -/
def Creation.call (creation : Creation) (s : FileSystem Foreign) (who : Credentials) (p : CString) :
    Option (Option (Int × Tmpfs)) :=
  match creation with
  | .createFile mode => s.createFile who p mode
  | .mkdir mode => s.mkdir who p mode
  | .symlink target => s.symlink who target p

/-- The strings that a call refuses at once. -/
def Creation.Refuses : Creation → CString → Prop
  | .createFile _, p => p = [] ∨ p = [slash]
  | _, p => p = []

/-- A call that does not run out of memory stays inside its string, and fails without a change or inserts
the entry that `kopen` finds under the same string, exactly if it refuses the string at once or
`MayCreate` holds. -/
theorem create_kopen_iff (s : FileSystem Foreign) (who : Credentials) (p : CString) (creation : Creation)
    (isString : IsCString p) (reachable : Tmpfs.Reachable s.tmpfs) (mounts : MountsPresent s)
    (memory : creation.call s who p ≠ some none) :
    Creates s p (creation.call s who p) ↔ creation.Refuses p ∨ MayCreate s who p := by
  have owned := reachable.sound.owned
  cases creation with
  | createFile mode =>
      unfold Creation.call FileSystem.createFile at memory ⊢
      dsimp only at memory ⊢
      by_cases empty : p = []
      · rw [if_pos empty]
        exact iff_of_true (creates_failed (by decide)) (Or.inl (Or.inl empty))
      rw [if_neg empty] at memory ⊢
      by_cases single : p = [slash]
      · rw [if_pos single]
        exact iff_of_true (creates_failed (by decide)) (Or.inl (Or.inr single))
      rw [if_neg single] at memory ⊢
      rw [createAt_iff isString reachable mounts (by decide)
        (fun d name result t' _ created => createTmpfs_outcome owned created) memory]
      exact (or_iff_right (not_or.mpr ⟨empty, single⟩)).symm
  | mkdir mode =>
      unfold Creation.call FileSystem.mkdir at memory ⊢
      dsimp only at memory ⊢
      by_cases empty : p = []
      · rw [if_pos empty]
        exact iff_of_true (creates_failed (by decide)) (Or.inl empty)
      rw [if_neg empty] at memory ⊢
      rw [createAt_iff isString reachable mounts (by decide)
        (fun d name result t' notEmpty made => mkdirTmpfs_outcome owned notEmpty made) memory]
      exact (or_iff_right empty).symm
  | symlink target =>
      unfold Creation.call FileSystem.symlink at memory ⊢
      dsimp only at memory ⊢
      by_cases empty : p = []
      · rw [if_pos empty]
        exact iff_of_true (creates_failed (by decide)) (Or.inl empty)
      rw [if_neg empty] at memory ⊢
      rw [createAt_iff isString reachable mounts (by decide)
        (fun d name result t' _ linked => symlinkTmpfs_outcome owned linked) memory]
      exact (or_iff_right empty).symm

/-- A file system with nothing in it but tmpfs. -/
def plainSystem (t : Tmpfs) : FileSystem Empty where
  tmpfs := t
  fsRoot :=
    { device := .tmpfs (.dir t.tmpfsRoot), attributes := { mask := 0o777, uid := 0, gid := 0 } }
  mountpoints := []
  foreignFinddir node := nomatch node

/-- The string `//` makes `create_file` look in front of its copy. -/
theorem create_leaves_string :
    ∃ t : Tmpfs, Tmpfs.Reachable t ∧ MountsPresent (plainSystem t) ∧
      ¬ Creates (plainSystem t) [slash, slash]
        ((Creation.createFile 0o644).call (plainSystem t) ⟨0, 0⟩ [slash, slash]) := by
  obtain ⟨t, root, created, _, _, _⟩ :=
    @tmpfsCreate_progress freeMemory (fun _ => 0) [] 32 (Nat.zero_le _) freeMemory_available
  refine ⟨t, ⟨_, _, _, _, [], created, .refl _⟩, (fun path node member => nomatch member), ?_⟩
  rintro ⟨inside, _⟩
  exact inside rfl

/-- `create_file` of `/a` in an empty root. -/
theorem create_kopen_iff_example : ∃ t : Tmpfs, Tmpfs.Reachable t ∧
    (Creates (plainSystem t) [slash, 0x61]
        ((Creation.createFile 0o644).call (plainSystem t) ⟨0, 0⟩ [slash, 0x61]) ↔
      (Creation.createFile 0o644).Refuses [slash, 0x61] ∨
        MayCreate (plainSystem t) ⟨0, 0⟩ [slash, 0x61]) := by
  obtain ⟨t, root, created, present, empty, available⟩ :=
    @tmpfsCreate_progress freeMemory (fun _ => 0) [] 32 (Nat.zero_le _) freeMemory_available
  have reachable : Tmpfs.Reachable t := ⟨_, _, _, _, [], created, .refl _⟩
  refine ⟨t, reachable, create_kopen_iff (plainSystem t) ⟨0, 0⟩ [slash, 0x61] (.createFile 0o644)
    (by unfold IsCString; decide) reachable (fun path node member => nomatch member) ?_⟩
  have notThere : t.findEntry root [0x61] = none := by
    rw [Tmpfs.findEntry, empty]
    rfl
  obtain ⟨f, file, t', made, _⟩ := @createTmpfs_progress ⟨0, 0⟩ t t.tmpfsRoot 0 root [0x61] 0o644 present
    notThere (by decide) (by rw [empty]; exact Nat.zero_le _) reachable.sound.owned
    (available.mono (by rw [empty]; decide))
  have called : (Creation.createFile 0o644).call (plainSystem t) ⟨0, 0⟩ [slash, 0x61] =
      some (some (0, t')) := by
    have missed : (plainSystem t).tmpfs.finddirTmpfs t.tmpfsRoot [0x61] = none := by
      change t.finddirTmpfs t.tmpfsRoot [0x61] = none
      rw [Tmpfs.finddirTmpfs, present, Option.bind_some, notThere]
    have nothing : (plainSystem t).vfs.finddirFs (plainSystem t).fsRoot [0x61] = none := by
      change (plainSystem t).finddirNode t.tmpfsRoot [0x61] = none
      rw [FileSystem.finddirNode, missed]
    have opened : (plainSystem t).vfs.kopen [slash, 0x61] true = some (some (plainSystem t).fsRoot) := by
      have body : pathBody [slash, 0x61] = [0x61] := by decide
      rw [kopen_parent_eq_walk _ (by unfold IsCString; decide) rfl, pathSteps, body,
        rawComponents_last 0x61 List.not_mem_nil]
      rfl
    have last : lastFilename [slash, 0x61] = some [0x61] := by decide
    have allowed : checkPermission ⟨0, 0⟩ (plainSystem t).fsRoot.attributes 0o2 = true := rfl
    unfold Creation.call FileSystem.createFile FileSystem.createAt
    dsimp only
    rw [if_neg (by decide), if_neg (by decide), opened]
    dsimp only
    rw [allowed, if_neg (by decide), last]
    dsimp only
    rw [nothing, if_neg (by decide)]
    exact congrArg some made
  rw [called]
  simp

end Voxel.Proofs
