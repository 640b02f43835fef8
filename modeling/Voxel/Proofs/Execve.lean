/-
Module: Voxel.Proofs.Execve
Layer: Proofs
Purpose: What a call of `sys_execve` leaves that does not get into the loader. `kopen` gives back every block
  but the one of the node it returns, so a path without a node changes nothing; a file that `elf_exec`
  rejects costs the descriptors and the copies of the vectors, and the result is 0.
Trusted boundary: none
Main exports: kopenBlocks_spec, ExecFailure, failed_execve_iff
-/
import Voxel.Kernel.Execve
import Voxel.Proofs.HeldBlocks
import Voxel.Proofs.PathWalk
import Voxel.Proofs.RefCounts

namespace Voxel.Proofs

open Voxel.Kernel
open Voxel.Lib

/-! ## The blocks of kopen -/

section

variable {Node : Type} {start m : FrameMap}

theorem allocNode_holding {found : Option Node} {result : Option (Node × HeapBlock) × FrameMap}
    (allocated : allocNode m found = some result) :
    result.1.map Prod.fst = found ∧ Holding (result.1.map Prod.snd).toList m result.2 := by
  cases found with
  | none =>
      cases allocated
      exact ⟨rfl, Holding.refl m⟩
  | some node =>
      obtain ⟨block, taken, rfl⟩ := Option.map_eq_some_iff.mp allocated
      exact ⟨rfl, malloc_holding taken⟩

theorem follow_eq (t : NodeTree Node) (node : Node) : t.follow node = node := by
  rw [Vfs.follow, t.noPtr]
  rfl

/-- The block of a node that is not used is given back. -/
theorem Holding.freeIf {block : Option HeapBlock} {blocks : List HeapBlock}
    (holding : Holding (block.toList ++ blocks) start m) : Holding blocks start (freeIf m block) := by
  cases block with
  | none => exact holding
  | some block => exact Holding.free holding

/-- The node to go on with: a lookup of an empty name is given back, any other one replaces the node it was
done in. -/
def chooseNode (empty : Prop) [Decidable empty] (wd : Node × HeapBlock)
    (node : Option (Node × HeapBlock) × FrameMap) : Option (Node × HeapBlock) × FrameMap :=
  if empty then (some wd, freeIf node.2 (node.1.map Prod.snd)) else (node.1, free node.2 wd.2)

theorem chooseNode_holding {empty : Prop} [Decidable empty] {wd : Node × HeapBlock} {rest : List HeapBlock}
    {node : Option (Node × HeapBlock) × FrameMap} (holding : Holding (wd.2 :: rest) start m)
    (taken : Holding (node.1.map Prod.snd).toList m node.2) :
    (chooseNode empty wd node).1.map Prod.fst = (if empty then some wd.1 else node.1.map Prod.fst) ∧
      Holding (((chooseNode empty wd node).1.map Prod.snd).toList ++ rest) start
        (chooseNode empty wd node).2 := by
  have both := holding.trans taken
  unfold chooseNode
  by_cases isEmpty : empty
  · rw [if_pos isEmpty, if_pos isEmpty]
    exact ⟨rfl, (both.perm List.perm_append_comm).freeIf⟩
  · rw [if_neg isEmpty, if_neg isEmpty]
    exact ⟨rfl, Holding.free (both.perm (List.Perm.cons _ List.perm_append_comm))⟩

/-- The loop of `_kopen` behind a separator, with the node that was chosen. -/
def kopenNext (t : NodeTree Node) (last : Prop) [Decidable last] (rest : Nat) (name : CString) (p : Nat) :
    Option Node → Option (Option Node)
  | none => some none
  | some node =>
      if last then some (some node)
      else
        match rest with
        | 0 => none
        | rest + 1 => t.kopenLoop false rest name (p + 1) (p + 2) node

/-- The same with blocks. -/
def kopenNextBlocks (t : NodeTree Node) (nameBlock : HeapBlock) (last : Prop) [Decidable last] (rest : Nat)
    (name : CString) (p : Nat) (next : Option (Node × HeapBlock) × FrameMap) :
    Option (Option (Node × HeapBlock) × FrameMap) :=
  match next.1 with
  | none => some (none, free next.2 nameBlock)
  | some wd =>
      if last then some (some wd, free next.2 nameBlock)
      else
        match rest with
        | 0 => none
        | rest + 1 => t.kopenLoopBlocks nameBlock rest name (p + 1) (p + 2) wd next.2

theorem kopenLoop_separator (t : NodeTree Node) {name : CString} {nodename p rest : Nat} {wd : Node}
    (separator : charAt name p = slash ∨ charAt name p = nul) :
    t.kopenLoop false (rest + 1) name nodename p wd =
      kopenNext t (charAt name p = nul) rest ((name.set p nul).set p slash) p
        (if charAt (name.set p nul) nodename = nul then some wd
        else lookup t.toVfs wd (cstringAt (name.set p nul) 0) (cstringAt (name.set p nul) nodename)) := by
  rw [Vfs.kopenLoop]
  dsimp only
  rw [if_pos separator, if_neg (by simp), lookup]
  have tail : ∀ node, (if charAt name p = nul then some (some (t.follow node))
      else kopenNext t False rest ((name.set p nul).set p slash) p (some (t.follow node))) =
      kopenNext t (charAt name p = nul) rest ((name.set p nul).set p slash) p (some node) := by
    intro node
    rw [follow_eq]
    unfold kopenNext
    simp only [if_false]
  by_cases empty : charAt (name.set p nul) nodename = nul
  · simp only [if_pos empty]
    exact tail wd
  · simp only [if_neg empty]
    cases t.getMountpoint (cstringAt (name.set p nul) 0) with
    | some node => exact tail node
    | none =>
        cases t.finddirFs wd (cstringAt (name.set p nul) nodename) with
        | some node => exact tail node
        | none => rfl

theorem kopenLoopBlocks_separator (t : NodeTree Node) {nameBlock : HeapBlock} {name : CString}
    {nodename p rest : Nat} {wd : Node × HeapBlock}
    (separator : charAt name p = slash ∨ charAt name p = nul) :
    t.kopenLoopBlocks nameBlock (rest + 1) name nodename p wd m =
      (allocNode m (lookup t.toVfs wd.1 (cstringAt (name.set p nul) 0)
        (cstringAt (name.set p nul) nodename))).bind fun node =>
          kopenNextBlocks t nameBlock (charAt name p = nul) rest ((name.set p nul).set p slash) p
            (chooseNode (charAt (name.set p nul) nodename = nul) wd node) := by
  rw [NodeTree.kopenLoopBlocks]
  dsimp only
  rw [if_pos separator, lookup]
  cases t.getMountpoint (cstringAt (name.set p nul) 0) with
  | some node =>
      cases allocNode m (some node) with
      | none => rfl
      | some taken => rfl
  | none =>
      cases t.finddirFs wd.1 (cstringAt (name.set p nul) nodename) with
      | none => rfl
      | some node =>
          cases allocNode m (some node) with
          | none => rfl
          | some taken => rfl

/-- The loop returns the node of `kopen` and holds its block alone. -/
theorem kopenLoopBlocks_spec (t : NodeTree Node) (nameBlock : HeapBlock) (rest : Nat) :
    ∀ {name : CString} {nodename p : Nat} {wd : Node × HeapBlock} {m : FrameMap}
      {result : Option (Node × HeapBlock) × FrameMap}, Holding [wd.2, nameBlock] start m →
      t.kopenLoopBlocks nameBlock rest name nodename p wd m = some result →
      t.kopenLoop false rest name nodename p wd.1 = some (result.1.map Prod.fst) ∧
        Holding (result.1.map Prod.snd).toList start result.2 := by
  induction rest using Nat.strong_induction_on with
  | _ rest inductionHypothesis =>
    intro name nodename p wd m result holding looped
    cases rest with
    | zero =>
        rw [NodeTree.kopenLoopBlocks] at looped
        cases looped
    | succ rest =>
        by_cases separator : charAt name p = slash ∨ charAt name p = nul
        · rw [kopenLoopBlocks_separator t separator] at looped
          obtain ⟨node, allocated, looped⟩ := Option.bind_eq_some_iff.mp looped
          obtain ⟨found, taken⟩ := allocNode_holding allocated
          obtain ⟨chosen, holding⟩ :=
            @chooseNode_holding _ _ _ (charAt (name.set p nul) nodename = nul) _ wd _ node holding taken
          rw [kopenLoop_separator t separator, ← found, ← chosen]
          generalize chooseNode (charAt (name.set p nul) nodename = nul) wd node = next at looped holding ⊢
          rw [kopenNextBlocks] at looped
          cases choice : next.1 with
          | none =>
              rw [choice] at looped holding
              cases looped
              exact ⟨rfl, Holding.free holding⟩
          | some wd =>
              rw [choice] at looped holding
              unfold kopenNext
              dsimp only [Option.map_some] at looped ⊢
              split at looped
              · rename_i last
                cases looped
                rw [if_pos last]
                exact ⟨rfl, Holding.free (holding.perm (List.Perm.swap _ _ _))⟩
              · rename_i last
                rw [if_neg last]
                cases rest with
                | zero => cases looped
                | succ rest => exact inductionHypothesis rest (by omega) holding looped
        · rw [NodeTree.kopenLoopBlocks] at looped
          rw [Vfs.kopenLoop]
          dsimp only at looped ⊢
          rw [if_neg separator] at looped ⊢
          exact inductionHypothesis rest (Nat.lt_succ_self rest) holding looped

/-- `kopen` holds the block of the node that it returns and nothing else. -/
theorem kopenBlocks_spec (t : NodeTree Node) {filename : CString}
    {result : Option (Node × HeapBlock) × FrameMap}
    (opened : t.kopenBlocks m filename = some result) :
    t.kopen filename false = some (result.1.map Prod.fst) ∧
      Holding (result.1.map Prod.snd).toList m result.2 := by
  obtain ⟨name, nameFound, opened⟩ := Option.bind_eq_some_iff.mp opened
  have one := malloc_holding nameFound
  unfold Vfs.kopen Vfs.kopenFrom
  dsimp only at opened ⊢
  cases isRoot : t.fsRoot with
  | none =>
      rw [isRoot] at opened
      cases opened
      exact ⟨rfl, Holding.free one⟩
  | some root =>
      rw [isRoot] at opened
      obtain ⟨copy, copyFound, opened⟩ := Option.bind_eq_some_iff.mp opened
      have two := one.malloc copyFound
      dsimp only
      split at opened
      · rename_i empty
        cases opened
        rw [if_pos empty]
        exact ⟨rfl, Holding.free (two.perm (List.Perm.swap _ _ _))⟩
      · rename_i empty
        rw [if_neg empty]
        cases stripped : stripBack slash filename.length filename with
        | none =>
            rw [stripped] at opened
            cases opened
        | some buffer =>
            rw [stripped] at opened
            exact kopenLoopBlocks_spec t name.1 _ two opened

end

/-! ## Calls that do not get into the loader -/

/-- A negative error number, and everything is as it was: the descriptor table, the image, the address
space and the frames in use. -/
structure Undone (s : ExecState) (value : BitVec 64) (s' : ExecState) : Prop where
  negative : value.toInt < 0
  process : s'.process = s.process
  phys : s'.mmu.phys = s.mmu.phys
  refcounts : s'.mmu.memRefcounts = s.mmu.memRefcounts
  current : s'.mmu.currentPml = s.mmu.currentPml
  frames : ∀ f, s'.mmu.frames.locked f = s.mmu.frames.locked f

section

variable {Node : Type} {t : NodeTree Node} {stackBytes : Nat → BitVec 8} {memory : ByteMemory} {fuel : Nat}
  {s s' : ExecState} {file argv envp value : BitVec 64}

/-- `elf_exec` returns 0 for every file that it rejects. -/
theorem elfExec_returned {node : Node × HeapBlock} {kargv kenvp : KernelVector}
    (returned : elfExec t stackBytes node kargv kenvp s = .returned value s') :
    value = 0 ∧ s'.process = s.process := by
  unfold elfExec at returned
  dsimp only at returned
  split at returned
  · cases returned
    exact ⟨rfl, rfl⟩
  · split at returned
    · cases returned
      exact ⟨rfl, rfl⟩
    · split at returned
      · cases returned
        exact ⟨rfl, rfl⟩
      · cases returned

/-- How a call comes back: a null pointer, a path without a node, or a file that `elf_exec` rejects after the
descriptors were closed. -/
theorem sysExecve_returned (returned : sysExecve t stackBytes memory fuel s file argv envp =
    some (.returned value s')) :
    ((file = 0 ∨ argv = 0) ∧ value = negFault ∧ s' = s) ∨
      ¬ (file = 0 ∨ argv = 0) ∧ ∃ path opened, stringAt memory fuel file = some path ∧
        t.kopenBlocks s.mmu.frames path = some opened ∧
        ((opened.1 = none ∧ value = negNoentLong ∧ s' = s.setFrames opened.2) ∨
          ((∃ node, opened.1 = some node) ∧ value = 0 ∧
            s'.process = (closeDescriptors s.process s.mmu.frames).1)) := by
  unfold sysExecve at returned
  split at returned
  · rename_i null
    cases returned
    exact Or.inl ⟨null, rfl, rfl⟩
  rename_i nonNull
  obtain ⟨path, pathFound, returned⟩ := Option.bind_eq_some_iff.mp returned
  obtain ⟨opened, openedEq, returned⟩ := Option.bind_eq_some_iff.mp returned
  refine Or.inr ⟨nonNull, path, opened, pathFound, openedEq, ?_⟩
  cases node : opened.1 with
  | none =>
      rw [node] at returned
      cases returned
      exact Or.inl ⟨rfl, rfl, rfl⟩
  | some found =>
      rw [node] at returned
      obtain ⟨argc, -, returned⟩ := Option.bind_eq_some_iff.mp returned
      obtain ⟨envc, -, returned⟩ := Option.bind_eq_some_iff.mp returned
      obtain ⟨kargv, -, returned⟩ := Option.bind_eq_some_iff.mp returned
      obtain ⟨kenvp, -, rejected⟩ := Option.map_eq_some_iff.mp returned
      obtain ⟨zero, process⟩ := elfExec_returned rejected
      exact Or.inr ⟨⟨found, rfl⟩, zero, process⟩

/-- A call that comes back has undone everything exactly if it was given a null pointer or a path that
names no node. -/
theorem failed_execve_iff (returned : sysExecve t stackBytes memory fuel s file argv envp =
    some (.returned value s')) :
    Undone s value s' ↔
      file = 0 ∨ argv = 0 ∨ ∃ path, stringAt memory fuel file = some path ∧ t.kopen path false =
        some none := by
  rcases sysExecve_returned returned with ⟨null, rfl, rfl⟩ | ⟨nonNull, path, opened, pathFound,
    openedEq, outcome⟩
  · refine iff_of_true ⟨by decide, rfl, rfl, rfl, rfl, fun _ => rfl⟩ ?_
    rw [← or_assoc]
    exact Or.inl null
  · obtain ⟨resolved, holding⟩ := kopenBlocks_spec t openedEq
    rcases outcome with ⟨missing, rfl, rfl⟩ | ⟨⟨node, found⟩, rfl, -⟩
    · rw [missing] at resolved holding
      exact iff_of_true ⟨by decide, rfl, rfl, rfl, rfl, holding.same⟩
        (Or.inr (Or.inr ⟨path, pathFound, resolved⟩))
    · -- `return 0` is no error number
      rw [found] at resolved
      refine iff_of_false (fun undone => absurd undone.negative (by decide)) ?_
      rintro (null | null | ⟨path', pathFound', missing⟩)
      · exact nonNull (Or.inl null)
      · exact nonNull (Or.inr null)
      · obtain rfl := Option.some.inj (pathFound.symm.trans pathFound')
        rw [resolved] at missing
        cases missing

end

/-! ## A script

The root holds one file, a script with the name `x`; a process with four descriptors tries to execute it. -/

/-- The file tree: the directory is `false`. -/
def scriptTree : NodeTree Bool where
  fsRoot := some false
  mountpoints := []
  finddir node := if node then none else some fun name => if name = [0x78] then some true else none
  ptr _ := none
  noPtr _ := rfl
  read node _ _ := if node then [0x23, 0x21] else []

/-- The memory of the process: the paths `/x` and `/y`, and an empty vector. -/
def scriptMemory : ByteMemory := fun a =>
  if a = 0x1000 ∨ a = 0x2000 then slash else if a = 0x1001 then 0x78 else if a = 0x2001 then 0x79 else 0

/-- The process, in a machine with 64 frames. -/
def scriptState : ExecState where
  mmu := onePage 64
  process :=
    { fds := [none, none, none, some ⟨6, 1⟩]
      fdLength := 4
      image := ⟨0x400000, 0x500000, 0, 0x800000000000⟩
      pageDirectory := 1 }

/-- The call, for a path and an argument vector. -/
def scriptCall (file argv : BitVec 64) : Option (ExecResult Bool) :=
  sysExecve scriptTree (fun _ => 0) scriptMemory 4 scriptState file argv 0

/-- The value of a call that comes back. -/
def returnValue {Node : Type} : Option (ExecResult Node) → Option (BitVec 64)
  | some (.returned value _) => some value
  | _ => none

theorem returnValue_some {Node : Type} {result : Option (ExecResult Node)} {value : BitVec 64}
    (returns : returnValue result = some value) : ∃ s', result = some (.returned value s') := by
  unfold returnValue at returns
  split at returns
  · rename_i s'
    cases returns
    exact ⟨s', rfl⟩
  · cases returns

/-- The script is found and has no magic number: the call returns 0 and the last descriptor is gone. -/
theorem failed_execve_script : ∃ s', scriptCall 0x1000 0x3000 = some (.returned 0 s') ∧
    ¬ Undone scriptState 0 s' ∧ s'.process.fds = [none, none, none, none] := by
  obtain ⟨s', returned⟩ := returnValue_some (show returnValue (scriptCall 0x1000 0x3000) = some 0 by
    decide +kernel)
  refine ⟨s', returned, fun undone => absurd undone.negative (by decide), ?_⟩
  rcases sysExecve_returned returned with ⟨-, value, -⟩ | ⟨-, path, opened, -, -, outcome⟩
  · exact absurd value (by decide)
  · rcases outcome with ⟨-, value, -⟩ | ⟨-, -, process⟩
    · exact absurd value (by decide)
    · rw [process]
      rfl

/-- The other path names no node. -/
theorem failed_execve_iff_script : ∃ s', scriptCall 0x2000 0x3000 = some (.returned negNoentLong s') ∧
    Undone scriptState negNoentLong s' := by
  obtain ⟨s', returned⟩ := returnValue_some
    (show returnValue (scriptCall 0x2000 0x3000) = some negNoentLong by decide +kernel)
  exact ⟨s', returned, (failed_execve_iff returned).mpr
    (Or.inr (Or.inr ⟨[slash, 0x79], by decide, by decide +kernel⟩))⟩

end Voxel.Proofs
