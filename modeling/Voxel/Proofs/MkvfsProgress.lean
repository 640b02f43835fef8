/-
Module: Voxel.Proofs.MkvfsProgress
Layer: Proofs
Purpose: When the ramdisk tool ends. Skipping an entry restores the file, and nothing else: the loop stays at
  the record for ever. It ends exactly if no directory of the tree is without records or has an entry that is
  neither a regular file nor a directory.
Trusted boundary: none
Main exports: skipEntry_reserveEntry, createDirectoryLoop_settles_iff, PlainNode, PlainStream,
  mkvfs_ends_iff
-/
import Voxel.Tool.Mkvfs
import Voxel.Lib.Loop

namespace Voxel.Proofs

open Voxel.Lib Voxel.Kernel Voxel.Tool

variable {junk : Nat → Nat → BitVec 8}

/-- Skipping an entry restores the file. -/
theorem skipEntry_reserveEntry (f : OutFile) : skipEntry (reserveEntry f) = f := by
  unfold skipEntry reserveEntry OutFile.fseek
  rw [Nat.add_sub_cancel]

/-! ## The recursion over the tree -/

/-- The recursion over the records stores an entry as a round does. -/
theorem createEntries_cons (name : CString) (node : HostNode) (rest : HostStream) (written : Nat)
    (f : OutFile) (isProper : ¬IsSpecial name) :
    createEntries junk (.cons name node rest) written f =
      (createChild junk node (reserveEntry f)).bind fun child =>
        let put := putEntry junk name rest.more (cut32 f.pos) child.1 child.2.1 written child.2.2
        createEntries junk rest put.1 put.2 := by
  rw [createEntries, if_neg isProper]
  unfold reserveEntry
  cases createChild junk node (f.fseek (f.pos + entrySize)) with
  | none => rfl
  | some child => rfl

theorem createEntries_special {name : CString} (node : HostNode) (rest : HostStream) (written : Nat)
    (f : OutFile) (special : IsSpecial name) :
    createEntries junk (.cons name node rest) written f = createEntries junk rest written f := by
  rw [createEntries, if_pos special]

/-- A directory with records is their recursion. -/
theorem createChild_directory {stream : HostStream} (some_ : stream.more = true) (f : OutFile) :
    createChild junk (.directory stream) f =
      (createEntries junk stream 0 f).map fun child => (rdfsTypeDirectory, child.1, child.2) := by
  cases stream with
  | nil => cases some_
  | cons name node rest =>
      rw [createChild]
      cases createEntries junk (.cons name node rest) 0 f with
      | none => rfl
      | some child => rfl

/-! ## Rounds -/

section Rounds

variable {stream rest : HostStream} {fuel written : Nat} {f : OutFile} {r : Nat × OutFile}

/-- The loop ends here if `readdir` has returned no other record. -/
theorem nextRecord_result
    (goesOn : ∀ {written : Nat} {f : OutFile}, createDirectoryLoop junk fuel rest written f = some r →
      createEntries junk rest written f = some r)
    (ran : (if rest.more then createDirectoryLoop junk fuel rest written f else some (written, f)) = some r) :
    createEntries junk rest written f = some r := by
  cases rest with
  | nil => exact ran
  | cons name node rest => exact goesOn ran

/-- A loop that ends has done what the recursion over the records does. -/
theorem createDirectoryLoop_result (ran : createDirectoryLoop junk fuel stream written f = some r) :
    stream.more = true ∧ createEntries junk stream written f = some r := by
  induction fuel generalizing stream written f r with
  | zero => cases ran
  | succ fuel inductionHypothesis =>
      cases stream with
      | nil => cases ran
      | cons name node rest =>
          refine ⟨rfl, ?_⟩
          rw [createDirectoryLoop] at ran
          by_cases special : IsSpecial name
          · rw [if_pos special] at ran
            rw [createEntries_special node rest written f special]
            exact nextRecord_result (fun later => (inductionHypothesis later).2) ran
          · rw [if_neg special] at ran
            rw [createEntries_cons name node rest written f special]
            cases node with
            | regular bytes =>
                rw [createChild]
                exact nextRecord_result (fun later => (inductionHypothesis later).2) ran
            | directory stream =>
                obtain ⟨child, inside, later⟩ := Option.bind_eq_some_iff.mp ran
                obtain ⟨some_, done⟩ := inductionHypothesis inside
                rw [createChild_directory some_, done]
                exact nextRecord_result (fun later => (inductionHypothesis later).2) later
            | other =>
                -- the file is the one before, and the record is the same
                dsimp only at ran
                rw [skipEntry_reserveEntry] at ran
                have again := (inductionHypothesis ran).2
                rw [createEntries_cons name .other rest written f special, createChild] at again
                cases again

/-- The rounds for the records that are left, if there are any. -/
theorem nextRecord_settles
    (goesOn : ∀ {written : Nat} {f : OutFile}, createEntries junk rest written f = some r → rest.more = true →
      Settles (fun fuel => createDirectoryLoop junk fuel rest written f) r)
    (ran : createEntries junk rest written f = some r) :
    Settles (fun fuel => if rest.more then createDirectoryLoop junk fuel rest written f
      else some (written, f)) r := by
  cases rest with
  | nil =>
      rw [createEntries] at ran
      cases ran
      exact Settles.some _
  | cons name node rest => exact goesOn ran rfl

/-- The loop on a directory ends where the recursion does. -/
def NodeSettles (junk : Nat → Nat → BitVec 8) : HostNode → Prop
  | .directory stream => ∀ f r, createEntries junk stream 0 f = some r → stream.more = true →
      Settles (fun fuel => createDirectoryLoop junk fuel stream 0 f) r
  | _ => True

mutual

theorem nodeSettles : ∀ node : HostNode, NodeSettles junk node
  | .regular _ => trivial
  | .other => trivial
  | .directory stream => fun f r ran some_ => streamSettles stream 0 f r ran some_

theorem streamSettles : ∀ (stream : HostStream) (written : Nat) (f : OutFile) (r : Nat × OutFile),
    createEntries junk stream written f = some r → stream.more = true →
      Settles (fun fuel => createDirectoryLoop junk fuel stream written f) r
  | .nil, _, _, _, _, some_ => nomatch some_
  | .cons name node rest, written, f, r, ran, _ => by
      have later := fun {written : Nat} {f : OutFile} => streamSettles rest written f r
      by_cases special : IsSpecial name
      · rw [createEntries_special node rest written f special] at ran
        refine Settles.round (fun fuel => ?_) (nextRecord_settles later ran)
        rw [createDirectoryLoop, if_pos special]
      · rw [createEntries_cons name node rest written f special] at ran
        obtain ⟨child, inside, after⟩ := Option.bind_eq_some_iff.mp ran
        match node, inside with
        | .regular bytes, inside =>
            cases inside
            refine Settles.round (fun fuel => ?_) (nextRecord_settles later after)
            rw [createDirectoryLoop, if_neg special]
        | .directory stream, inside =>
            have some_ : stream.more = true := by
              cases stream with
              | nil => cases inside
              | cons _ _ _ => rfl
            rw [createChild_directory some_] at inside
            obtain ⟨⟨size, g⟩, done, rfl⟩ := Option.map_eq_some_iff.mp inside
            have below : NodeSettles junk (.directory stream) := nodeSettles (.directory stream)
            refine Settles.round (fun fuel => ?_) (@Settles.bind _ _ _ (fun child fuel =>
              let put := putEntry junk name rest.more (cut32 f.pos) rdfsTypeDirectory child.1 written child.2
              if rest.more then createDirectoryLoop junk fuel rest put.1 put.2 else some put)
              _ _ (below _ _ done some_) (nextRecord_settles later after))
            rw [createDirectoryLoop, if_neg special]
        | .other, inside => cases inside

end

/-- The loop on a directory ends exactly where the recursion over its records does. -/
theorem createDirectoryLoop_settles_iff :
    Settles (fun fuel => createDirectoryLoop junk fuel stream 0 f) r ↔
      createDirectory junk stream f = some r := by
  constructor
  · rintro ⟨enough, returns⟩
    obtain ⟨some_, done⟩ := createDirectoryLoop_result (returns enough (Nat.le_refl _))
    cases stream with
    | nil => cases some_
    | cons name node rest => exact done
  · intro done
    cases stream with
    | nil => cases done
    | cons name node rest => exact streamSettles _ _ _ _ done rfl

end Rounds

/-! ## Trees -/

mutual

/-- Regular files and directories, and records in every directory. -/
def PlainNode : HostNode → Prop
  | .regular _ => True
  | .directory stream => stream.more = true ∧ PlainStream stream
  | .other => False

/-- The records have such nodes, `.` and `..` apart. -/
def PlainStream : HostStream → Prop
  | .nil => True
  | .cons name node rest => (IsSpecial name ∨ PlainNode node) ∧ PlainStream rest

end

mutual

theorem createChild_isSome_iff : ∀ (node : HostNode) (f : OutFile),
    (createChild junk node f).isSome = true ↔ PlainNode node
  | .regular _, _ => iff_of_true rfl trivial
  | .other, _ => iff_of_false Bool.false_ne_true id
  | .directory .nil, _ => iff_of_false Bool.false_ne_true fun plain => Bool.false_ne_true plain.1
  | .directory (.cons name node rest), f => by
      rw [createChild_directory rfl, Option.isSome_map, createEntries_isSome_iff (.cons name node rest) 0 f]
      exact (and_iff_right rfl).symm

/-- The recursion over the records comes to an end exactly for such trees. -/
theorem createEntries_isSome_iff : ∀ (stream : HostStream) (written : Nat) (f : OutFile),
    (createEntries junk stream written f).isSome = true ↔ PlainStream stream
  | .nil, _, _ => iff_of_true rfl trivial
  | .cons name node rest, written, f => by
      by_cases special : IsSpecial name
      · rw [createEntries_special node rest written f special, createEntries_isSome_iff rest written f]
        exact ⟨fun plain => ⟨.inl special, plain⟩, fun plain => plain.2⟩
      · rw [createEntries_cons name node rest written f special]
        have here := createChild_isSome_iff node (reserveEntry f)
        cases child : createChild junk node (reserveEntry f) with
        | none =>
            rw [child] at here
            refine iff_of_false Bool.false_ne_true fun plain => ?_
            rcases plain.1 with isSpecial | isPlain
            · exact special isSpecial
            · exact Bool.false_ne_true (here.mpr isPlain)
        | some child' =>
            rw [child] at here
            rw [Option.bind_some]
            refine (createEntries_isSome_iff rest _ _).trans ?_
            exact ⟨fun plain => ⟨.inr (here.mp rfl), plain⟩, fun plain => plain.2⟩

end

/-- `create_directory` ends, and a skipped entry leaves the position before it. -/
def EndsWithoutTrace (junk : Nat → Nat → BitVec 8) (stream : HostStream) (f : OutFile) : Prop :=
  (∃ r, Settles (fun fuel => createDirectoryLoop junk fuel stream 0 f) r) ∧
    ∀ g : OutFile, skipEntry (reserveEntry g) = g

/-- For every tree and every order of its records, `create_directory` ends and skips without a trace exactly
if every directory has a record and every entry is a regular file or a directory. -/
theorem mkvfs_ends_iff (junk : Nat → Nat → BitVec 8) (stream : HostStream) (f : OutFile) :
    EndsWithoutTrace junk stream f ↔ PlainNode (.directory stream) := by
  have ends : (∃ r, Settles (fun fuel => createDirectoryLoop junk fuel stream 0 f) r) ↔
      (createDirectory junk stream f).isSome = true := by
    rw [Option.isSome_iff_exists]
    exact exists_congr fun r => createDirectoryLoop_settles_iff
  unfold EndsWithoutTrace
  rw [and_iff_left fun g => skipEntry_reserveEntry g, ends]
  cases stream with
  | nil => exact iff_of_false Bool.false_ne_true fun plain => Bool.false_ne_true plain.1
  | cons name node rest =>
      exact (createEntries_isSome_iff (.cons name node rest) 0 f).trans (and_iff_right rfl).symm

/-- A directory with a symbolic link. -/
def withLink : HostStream := .cons [0x61] .other .nil

theorem mkvfs_hangs_on_link : ¬EndsWithoutTrace (fun _ _ => 0) withLink OutFile.empty := by
  rintro ⟨⟨r, settles⟩, -⟩
  have ended := createDirectoryLoop_settles_iff.mp settles
  cases ended

end Voxel.Proofs
