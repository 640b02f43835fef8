/-
Module: Voxel.Proofs.PathResolution
Layer: Proofs
Purpose: `kopen` of a normalised absolute path is the fold over its components that looks at the mount
  table first and at the directory second.
Trusted boundary: none
Main exports: absolutePath, resolve, kopen_resolves
-/
import Voxel.Proofs.PathWalk

namespace Voxel.Proofs

open Voxel.Lib Voxel.Kernel

variable {Node : Type}

/-! ## What a path means -/

/-- A component of a normalised path. -/
structure IsComponent (c : CString) : Prop where
  notEmpty : c ≠ []
  noSlash : slash ∉ c
  isString : IsCString c

/-- The normalised absolute path with these components. -/
def absolutePath (components : List CString) : CString := components.flatMap (slash :: ·)

/-- The fold over the components: `done` are the ones before. The node mounted at the path so far comes
first, then the entry of the directory. -/
def resolve (v : Vfs Node) (node : Node) (done : List CString) : List CString → Option Node
  | [] => some node
  | c :: components =>
      match v.getMountpoint (absolutePath (done ++ [c])) with
      | some mounted => resolve v mounted (done ++ [c]) components
      | none =>
          match v.finddirFs node c with
          | some entry => resolve v entry (done ++ [c]) components
          | none => none

/-! ## The components of a normalised path -/

theorem absolutePath_snoc (done : List CString) (c : CString) :
    absolutePath (done ++ [c]) = absolutePath done ++ [slash] ++ c := by
  simp [absolutePath]

theorem absolutePath_isString {components : List CString}
    (proper : ∀ c ∈ components, IsComponent c) : IsCString (absolutePath components) := by
  intro member
  obtain ⟨c, isMember, inside⟩ := List.mem_flatMap.mp member
  rcases List.mem_cons.mp inside with isSlash | inside
  · exact absurd isSlash (by decide)
  · exact (proper c isMember).isString inside

/-- The loop cuts a normalised path at its components. -/
theorem rawComponents_join {c : CString} {components : List CString}
    (proper : ∀ d ∈ c :: components, IsComponent d) :
    rawComponents (c ++ absolutePath components) = c :: components := by
  induction components generalizing c with
  | nil =>
      obtain ⟨notEmpty, noSlash, -⟩ := proper c List.mem_cons_self
      obtain ⟨first, rest, rfl⟩ := List.exists_cons_of_ne_nil notEmpty
      rw [absolutePath, List.flatMap_nil, List.append_nil]
      exact rawComponents_last first fun member => noSlash (List.mem_cons_of_mem _ member)
  | cons d components inductionHypothesis =>
      obtain ⟨notEmpty, noSlash, -⟩ := proper c List.mem_cons_self
      obtain ⟨first, rest, rfl⟩ := List.exists_cons_of_ne_nil notEmpty
      have shape : (first :: rest) ++ absolutePath (d :: components) =
          first :: (rest ++ slash :: (d ++ absolutePath components)) := by
        simp [absolutePath]
      rw [shape, rawComponents_cons first fun member => noSlash (List.mem_cons_of_mem _ member),
        inductionHypothesis fun e member => proper e (List.mem_cons_of_mem _ member)]

/-- Nothing is stripped from a normalised path but its first slash. -/
theorem pathBody_absolute {c : CString} {components : List CString}
    (proper : ∀ d ∈ c :: components, IsComponent d) :
    pathLead (absolutePath (c :: components)) = [slash] ∧
      pathBody (absolutePath (c :: components)) = c ++ absolutePath components := by
  have shape : absolutePath (c :: components) = slash :: (c ++ absolutePath components) := by
    simp [absolutePath]
  have inner : ∀ (d : CString) (rest : List CString), (∀ e ∈ d :: rest, IsComponent e) →
      (d ++ absolutePath rest).rdropWhile (· = slash) = d ++ absolutePath rest := by
    intro d rest properRest
    rw [List.rdropWhile_eq_self_iff]
    intro notNil isSlash
    induction rest generalizing d with
    | nil =>
        have last : (d ++ absolutePath []) = d := List.append_nil d
        simp only [last, decide_eq_true_eq] at isSlash
        exact (properRest d List.mem_cons_self).noSlash (isSlash ▸ List.getLast_mem _)
    | cons e rest inductionHypothesis =>
        have tail : d ++ absolutePath (e :: rest) = (d ++ [slash]) ++ (e ++ absolutePath rest) := by
          simp [absolutePath]
        have restNil : e ++ absolutePath rest ≠ [] := fun empty =>
          (properRest e (by simp)).notEmpty (List.append_eq_nil_iff.mp empty).1
        simp only [tail, List.getLast_append_of_ne_nil _ restNil] at isSlash
        exact inductionHypothesis e (fun g member => properRest g (List.mem_cons_of_mem _ member))
          restNil isSlash
  obtain ⟨first, rest, isCons⟩ := List.exists_cons_of_ne_nil (proper c List.mem_cons_self).notEmpty
  have plain : first ≠ slash := fun isSlash =>
    (proper c List.mem_cons_self).noSlash (by rw [isCons, isSlash]; exact List.mem_cons_self)
  constructor
  · rw [pathLead, shape, isCons]
    simp [plain]
  · have dropped : (absolutePath (c :: components)).dropWhile (· = slash) =
        c ++ absolutePath components := by
      rw [shape, isCons]
      simp [plain]
    rw [pathBody, dropped, inner c components proper]

/-- The lookups for a normalised path. -/
theorem pathSteps_absolute {components : List CString} (notEmpty : components ≠ [])
    (proper : ∀ c ∈ components, IsComponent c) :
    pathSteps (absolutePath components) = rawSteps [slash] components := by
  obtain ⟨c, rest, rfl⟩ := List.exists_cons_of_ne_nil notEmpty
  obtain ⟨lead, body⟩ := pathBody_absolute proper
  rw [pathSteps, lead, body, rawComponents_join proper]

theorem rawSteps_dropLast (before : CString) (components : List CString) :
    (rawSteps before components).dropLast = rawSteps before components.dropLast := by
  induction components generalizing before with
  | nil => rfl
  | cons c components inductionHypothesis =>
      cases components with
      | nil => rfl
      | cons d components =>
          rw [rawSteps, List.dropLast_cons_of_ne_nil (rawSteps_ne_nil _ (List.cons_ne_nil d components)),
            inductionHypothesis]
          rfl

/-! ## Resolution -/

/-- The walk over the steps of a path is the fold over its components. -/
theorem walk_resolve {v : Vfs Node} (plain : ∀ node, v.ptr node = none) (node : Node)
    (done components : List CString) :
    walk v node (rawSteps (absolutePath done ++ [slash]) components) =
      resolve v node done components := by
  have follow : ∀ node, v.follow node = node := fun node => by rw [Vfs.follow, plain]; rfl
  induction components generalizing node done with
  | nil => rfl
  | cons c components inductionHypothesis =>
      rw [rawSteps, walk, resolve, lookup, ← absolutePath_snoc]
      cases v.getMountpoint (absolutePath (done ++ [c])) with
      | some mounted =>
          simp only [follow]
          exact inductionHypothesis mounted (done ++ [c])
      | none =>
          cases v.finddirFs node c with
          | some entry =>
              simp only [follow]
              exact inductionHypothesis entry (done ++ [c])
          | none => rfl

/-- `kopen` of a normalised path resolves all of its components, and with `OPEN_FLAG_PARENT` all but
the last one, whatever that one is. -/
theorem kopen_resolves (v : Vfs Node) {root : Node} (rooted : v.fsRoot = some root)
    (plain : ∀ node, v.ptr node = none) {components : List CString} (notEmpty : components ≠ [])
    (proper : ∀ c ∈ components, IsComponent c) :
    v.kopen (absolutePath components) false = some (resolve v root [] components) ∧
      v.kopen (absolutePath components) true = some (resolve v root [] components.dropLast) := by
  have isString := absolutePath_isString proper
  have steps := pathSteps_absolute notEmpty proper
  have body : pathBody (absolutePath components) ≠ [] := by
    obtain ⟨c, rest, rfl⟩ := List.exists_cons_of_ne_nil notEmpty
    rw [(pathBody_absolute proper).2]
    exact fun empty => (proper c List.mem_cons_self).notEmpty (List.append_eq_nil_iff.mp empty).1
  have follow : ∀ found : Option Node, found.map v.follow = found := by
    intro found
    cases found with
    | none => rfl
    | some node => rw [Option.map_some, Vfs.follow, plain]; rfl
  constructor
  · rw [kopen_eq_walk v isString rooted, steps]
    exact congrArg some (walk_resolve plain root [] components)
  · rw [kopen_parent_eq_walk v isString rooted, if_neg body, follow, steps, rawSteps_dropLast]
    exact congrArg some (walk_resolve plain root [] components.dropLast)

/-- A root directory 0 with an entry `a`, which is a directory 1 with an entry `b`; another node 9 is
mounted at `/a/b`. -/
def mountedTree : Vfs Nat where
  fsRoot := some 0
  mountpoints := [([0x2F, 0x61, 0x2F, 0x62], 9)]
  finddir node := some fun name =>
    if node = 0 ∧ name = [0x61] then some 1 else if node = 1 ∧ name = [0x62] then some 2 else none
  ptr _ := none

theorem kopen_resolves_example :
    mountedTree.kopen [0x2F, 0x61, 0x2F, 0x62] false = some (some 9) ∧
      mountedTree.kopen [0x2F, 0x61, 0x2F, 0x62] true = some (some 1) := by
  have proper : ∀ c ∈ [[0x61], [(0x62 : BitVec 8)]], IsComponent c := by
    intro c member
    simp only [List.mem_cons, List.not_mem_nil, or_false] at member
    rcases member with rfl | rfl
    · exact ⟨by decide, by decide, by unfold IsCString; decide⟩
    · exact ⟨by decide, by decide, by unfold IsCString; decide⟩
  exact kopen_resolves mountedTree rfl (fun _ => rfl) (by decide) proper

end Voxel.Proofs
