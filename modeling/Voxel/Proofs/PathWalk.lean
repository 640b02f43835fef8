/-
Module: Voxel.Proofs.PathWalk
Layer: Proofs
Purpose: What `_kopen` does with a string: the components it cuts, the prefix it looks up in the mount
  table for each, and the walk over both. Leading and trailing slashes are dropped; after an inner
  slash the next character always belongs to the component, also when it is a slash.
Trusted boundary: none
Main exports: rawComponents, pathSteps, walk, kopen_eq_walk, kopen_parent_eq_walk
-/
import Mathlib.Data.List.DropRight
import Voxel.Kernel.Vfs

namespace Voxel.Proofs

open Voxel.Lib Voxel.Kernel

/-! ## Cutting a path -/

/-- The components that the loop of `_kopen` cuts: the first character is taken as it is, the rest ends
at the next slash. -/
def rawComponents : CString → List CString
  | [] => []
  | c :: rest =>
      (c :: rest.takeWhile (· ≠ slash)) :: rawComponents ((rest.dropWhile (· ≠ slash)).drop 1)
termination_by s => s.length
decreasing_by
  have shorter : (rest.dropWhile (· ≠ slash)).length ≤ rest.length :=
    (List.dropWhile_suffix _).length_le
  simp only [List.length_drop, List.length_cons]
  omega

/-- Each component with the prefix of the string that ends with it. -/
def rawSteps (before : CString) : List CString → List (CString × CString)
  | [] => []
  | c :: components => (before ++ c, c) :: rawSteps (before ++ c ++ [slash]) components

/-- The slashes in front. -/
def pathLead (s : CString) : CString := s.takeWhile (· = slash)

/-- The string without its leading and trailing slashes. -/
def pathBody (s : CString) : CString := (s.dropWhile (· = slash)).rdropWhile (· = slash)

/-- The prefixes and components that `_kopen` looks up for a string. -/
def pathSteps (s : CString) : List (CString × CString) :=
  rawSteps (pathLead s) (rawComponents (pathBody s))

variable {Node : Type}

/-- One lookup: the mount table first. -/
def lookup (v : Vfs Node) (wd : Node) (path name : CString) : Option Node :=
  match v.getMountpoint path with
  | some node => some node
  | none => v.finddirFs wd name

/-- The walk over prefixes and components. -/
def walk (v : Vfs Node) (wd : Node) : List (CString × CString) → Option Node
  | [] => some wd
  | (path, name) :: steps =>
      match lookup v wd path name with
      | none => none
      | some node => walk v (v.follow node) steps

theorem takeWhile_ne_slash {t : CString} (noSlash : slash ∉ t) (more : CString) :
    (t ++ slash :: more).takeWhile (· ≠ slash) = t ∧
      (t ++ slash :: more).dropWhile (· ≠ slash) = slash :: more := by
  have plain : ∀ c ∈ t, decide (c ≠ slash) = true := fun c member =>
    decide_eq_true fun same => noSlash (same ▸ member)
  constructor
  · rw [List.takeWhile_append_of_pos plain]
    simp
  · rw [List.dropWhile_append_of_pos plain]
    simp

/-- Without a slash behind its first character a string is one component. -/
theorem rawComponents_last (c : BitVec 8) {t : CString} (noSlash : slash ∉ t) :
    rawComponents (c :: t) = [c :: t] := by
  have plain : ∀ c ∈ t, decide (c ≠ slash) = true := fun c member =>
    decide_eq_true fun same => noSlash (same ▸ member)
  rw [rawComponents, List.takeWhile_eq_self_iff.mpr plain, List.dropWhile_eq_nil_iff.mpr plain,
    List.drop_nil, rawComponents]

/-- The first slash behind the first character ends the first component. -/
theorem rawComponents_cons (c : BitVec 8) {t : CString} (noSlash : slash ∉ t) (more : CString) :
    rawComponents (c :: (t ++ slash :: more)) = (c :: t) :: rawComponents more := by
  obtain ⟨taken, dropped⟩ := takeWhile_ne_slash noSlash more
  rw [rawComponents, taken, dropped, List.drop_one, List.tail_cons]

theorem rawComponents_ne_nil {s : CString} (notEmpty : s ≠ []) : rawComponents s ≠ [] := by
  cases s with
  | nil => exact absurd rfl notEmpty
  | cons => simp [rawComponents]

theorem rawSteps_ne_nil (before : CString) {components : List CString} (notEmpty : components ≠ []) :
    rawSteps before components ≠ [] := by
  cases components with
  | nil => exact absurd rfl notEmpty
  | cons => simp [rawSteps]

/-! ## The loop -/

/-- Characters that are no separators are skipped. -/
theorem kopenLoop_skip (v : Vfs Node) (parent : Bool) {name : CString} {nodename : Nat} (wd : Node)
    (rest : Nat) {p k : Nat}
    (inside : ∀ j < k, charAt name (p + j) ≠ slash ∧ charAt name (p + j) ≠ nul) :
    v.kopenLoop parent (rest + k) name nodename p wd =
      v.kopenLoop parent rest name nodename (p + k) wd := by
  induction k generalizing p with
  | zero => rfl
  | succ k inductionHypothesis =>
      have here := inside 0 (Nat.succ_pos k)
      rw [Nat.add_zero] at here
      rw [show rest + (k + 1) = rest + k + 1 from rfl, Vfs.kopenLoop]
      rw [if_neg fun either => either.elim here.1 here.2, inductionHypothesis]
      · rw [show p + 1 + k = p + (k + 1) by omega]
      · intro j low
        have next := inside (j + 1) (by omega)
        rwa [show p + (j + 1) = p + 1 + j by omega] at next

/-- The characters of a component after its first one are skipped. -/
theorem kopenLoop_component (v : Vfs Node) (parent : Bool) {before t more : CString} {c : BitVec 8}
    (wd : Node) (rest : Nat) (noNul : nul ∉ t) (noSlash : slash ∉ t) :
    v.kopenLoop parent (rest + t.length) (before ++ c :: (t ++ more)) before.length
        (before.length + 1) wd =
      v.kopenLoop parent rest (before ++ c :: (t ++ more)) before.length
        (before.length + 1 + t.length) wd := by
  apply kopenLoop_skip
  intro j inside
  have here : charAt (before ++ c :: (t ++ more)) (before.length + 1 + j) = charAt t j := by
    rw [charAt_append_right (by omega), show before.length + 1 + j - before.length = j + 1 by omega]
    exact charAt_append_left inside
  rw [here]
  exact ⟨fun same => noSlash (same ▸ charAt_mem inside), fun same => noNul (same ▸ charAt_mem inside)⟩

/-- The last component. -/
theorem kopenLoop_last (v : Vfs Node) (parent : Bool) {before t : CString} {c : BitVec 8} (wd : Node)
    (k : Nat) (isString : IsCString (before ++ c :: t)) (noSlash : slash ∉ t) :
    v.kopenLoop parent ((c :: t).length + k) (before ++ c :: (t ++ List.replicate k nul))
        before.length (before.length + 1) wd =
      if parent then some (some (v.follow wd))
      else some ((lookup v wd (before ++ c :: t) (c :: t)).map v.follow) := by
  have cNul : c ≠ nul := fun same => isString (by simp [same])
  have noNul : nul ∉ t := fun member => isString (by simp [member])
  have component : IsCString (c :: t) := fun member => isString (List.mem_append_right _ member)
  rw [show (c :: t).length + k = k + 1 + t.length by simp only [List.length_cons]; omega,
    kopenLoop_component v parent wd _ noNul noSlash]
  -- the loop stands on the terminator
  have place : before.length + 1 + t.length = (before ++ c :: t).length := by
    simp only [List.length_append, List.length_cons]
    omega
  have shape : before ++ c :: (t ++ List.replicate k nul) =
      (before ++ c :: t) ++ List.replicate k nul := by
    simp
  have token : charAt ((before ++ c :: t) ++ List.replicate k nul) (before ++ c :: t).length = nul := by
    rw [charAt_append_right (Nat.le_refl _), Nat.sub_self]
    cases k <;> rfl
  have uncut : ((before ++ c :: t) ++ List.replicate k nul).set (before ++ c :: t).length nul =
      (before ++ c :: t) ++ List.replicate k nul := by
    rw [List.set_append_right _ _ (Nat.le_refl _), Nat.sub_self]
    cases k <;> rfl
  have whole : cstringAt ((before ++ c :: t) ++ List.replicate k nul) 0 = before ++ c :: t := by
    cases k with
    | zero =>
        rw [List.replicate_zero, List.append_nil]
        exact @cstringAt_end [] _ isString
    | succ k => exact @cstringAt_cut [] _ (List.replicate k nul) isString
  have last : cstringAt ((before ++ c :: t) ++ List.replicate k nul) before.length = c :: t := by
    rw [List.append_assoc]
    cases k with
    | zero =>
        rw [List.replicate_zero, List.append_nil]
        exact cstringAt_end component
    | succ k => exact cstringAt_cut (List.replicate k nul) component
  have head : charAt ((before ++ c :: t) ++ List.replicate k nul) before.length = c := by
    rw [List.append_assoc, charAt_append_right (Nat.le_refl _), Nat.sub_self]
    rfl
  rw [place, shape, Vfs.kopenLoop]
  simp only [token, uncut, whole, last, head, if_neg cNul]
  cases parent with
  | true => simp
  | false =>
      simp only [or_true, if_true, Bool.false_eq_true, and_false, if_false]
      rw [lookup]
      cases v.getMountpoint (before ++ c :: t) with
      | some node => rfl
      | none => cases v.finddirFs wd (c :: t) <;> rfl

/-- A component with a slash behind it. -/
theorem kopenLoop_next (v : Vfs Node) (parent : Bool) {before t more : CString} {c : BitVec 8}
    (wd : Node) (rest : Nat) (isString : IsCString (before ++ c :: t)) (noSlash : slash ∉ t) :
    v.kopenLoop parent (rest + 2 + t.length) (before ++ c :: (t ++ slash :: more))
        before.length (before.length + 1) wd =
      match lookup v wd (before ++ c :: t) (c :: t) with
      | none => some none
      | some node =>
          v.kopenLoop parent rest ((before ++ c :: t ++ [slash]) ++ more)
            (before ++ c :: t ++ [slash]).length ((before ++ c :: t ++ [slash]).length + 1)
            (v.follow node) := by
  have cNul : c ≠ nul := fun same => isString (by simp [same])
  have noNul : nul ∉ t := fun member => isString (by simp [member])
  have component : IsCString (c :: t) := fun member => isString (List.mem_append_right _ member)
  rw [kopenLoop_component v parent wd _ noNul noSlash]
  have place : before.length + 1 + t.length = (before ++ c :: t).length := by
    simp only [List.length_append, List.length_cons]
    omega
  have shape : before ++ c :: (t ++ slash :: more) = (before ++ c :: t) ++ slash :: more := by
    simp
  have token : charAt ((before ++ c :: t) ++ slash :: more) (before ++ c :: t).length = slash := by
    rw [charAt_append_right (Nat.le_refl _), Nat.sub_self]
    rfl
  have cut : ((before ++ c :: t) ++ slash :: more).set (before ++ c :: t).length nul =
      (before ++ c :: t) ++ nul :: more := by
    rw [List.set_append_right _ _ (Nat.le_refl _), Nat.sub_self, List.set_cons_zero]
  have uncut : ((before ++ c :: t) ++ nul :: more).set (before ++ c :: t).length slash =
      (before ++ c :: t) ++ slash :: more := by
    rw [List.set_append_right _ _ (Nat.le_refl _), Nat.sub_self, List.set_cons_zero]
  have whole : cstringAt ((before ++ c :: t) ++ nul :: more) 0 = before ++ c :: t :=
    @cstringAt_cut [] _ more isString
  have last : cstringAt ((before ++ c :: t) ++ nul :: more) before.length = c :: t := by
    rw [List.append_assoc]
    exact cstringAt_cut more component
  have head : charAt ((before ++ c :: t) ++ nul :: more) before.length = c := by
    rw [List.append_assoc, charAt_append_right (Nat.le_refl _), Nat.sub_self]
    rfl
  have different : slash ≠ nul := by decide
  have after : (before ++ c :: t ++ [slash]).length = (before ++ c :: t).length + 1 :=
    List.length_append
  have joined : (before ++ c :: t ++ [slash]) ++ more = (before ++ c :: t) ++ slash :: more := by
    rw [List.append_assoc, List.singleton_append]
  rw [after, joined, place, shape, show rest + 2 = rest + 1 + 1 from rfl, Vfs.kopenLoop]
  simp only [token, cut, uncut, whole, last, head, if_neg cNul, different, true_or, if_true, false_and,
    if_false]
  rewrite [lookup]
  cases v.getMountpoint (before ++ c :: t) with
  | some node => rfl
  | none => cases v.finddirFs wd (c :: t) <;> rfl

/-- A string that is not empty does not end in a slash. -/
def EndsPlain (s : CString) : Prop := ∀ last ∈ s.getLast?, last ≠ slash

theorem EndsPlain.of_append {s t : CString} (ends : EndsPlain (s ++ t)) (notEmpty : t ≠ []) :
    EndsPlain t := by
  rwa [EndsPlain, List.getLast?_append_of_ne_nil s notEmpty] at ends

/-- The loop from the first character of a component on walks the components that are left. -/
theorem kopenLoop_walk (v : Vfs Node) (parent : Bool) (k : Nat) {before body : CString} (wd : Node)
    (notEmpty : body ≠ []) (isString : IsCString (before ++ body)) (ends : EndsPlain body) :
    v.kopenLoop parent (body.length + k) (before ++ (body ++ List.replicate k nul)) before.length
        (before.length + 1) wd =
      some (if parent then (walk v wd (rawSteps before (rawComponents body)).dropLast).map v.follow
        else walk v wd (rawSteps before (rawComponents body))) := by
  induction size : body.length using Nat.strong_induction_on generalizing before body wd with
  | _ n inductionHypothesis =>
  obtain ⟨c, rest, rfl⟩ := List.exists_cons_of_ne_nil notEmpty
  by_cases slashes : slash ∈ rest
  · obtain ⟨t, more, rfl, noSlash⟩ := List.eq_append_cons_of_mem slashes
    have joined : before ++ c :: (t ++ slash :: more) = (before ++ c :: t ++ [slash]) ++ more := by
      simp
    have componentString : IsCString (before ++ c :: t) := by
      rw [joined, List.append_assoc, List.append_assoc] at isString
      rw [← List.append_assoc] at isString
      exact fun member => isString (List.mem_append_left _ member)
    have moreEmpty : more ≠ [] := by
      rintro rfl
      rw [← List.cons_append] at ends
      exact ends slash List.getLast?_concat rfl
    have endsMore : EndsPlain more := by
      rw [← List.cons_append, show (c :: t) ++ slash :: more = ((c :: t) ++ [slash]) ++ more by simp]
        at ends
      exact ends.of_append moreEmpty
    have room : (c :: (t ++ slash :: more)).length = more.length + 2 + t.length := by
      simp only [List.length_cons, List.length_append]
      omega
    have padded : c :: (t ++ slash :: more) ++ List.replicate k nul =
        c :: (t ++ slash :: (more ++ List.replicate k nul)) := by
      simp
    rw [← size, room, show more.length + 2 + t.length + k = more.length + k + 2 + t.length by omega,
      padded, kopenLoop_next v parent wd _ componentString noSlash, rawComponents_cons c noSlash,
      rawSteps, List.dropLast_cons_of_ne_nil (rawSteps_ne_nil _ (rawComponents_ne_nil moreEmpty))]
    simp only [walk]
    cases lookup v wd (before ++ c :: t) (c :: t) with
    | none => cases parent <;> rfl
    | some node =>
        exact inductionHypothesis more.length (by rw [← size, room]; omega) (v.follow node) moreEmpty
          (joined ▸ isString) endsMore rfl
  · rw [← size, List.cons_append, kopenLoop_last v parent wd k isString slashes,
      rawComponents_last c slashes]
    cases parent with
    | true => rfl
    | false =>
        simp only [Bool.false_eq_true, if_false, rawSteps, walk]
        cases lookup v wd (before ++ c :: rest) (c :: rest) <;> rfl

/-! ## kopen -/

/-- A string is its leading slashes, its body and its trailing slashes. -/
theorem path_split (s : CString) :
    ∃ k, s = pathLead s ++ (pathBody s ++ List.replicate k slash) := by
  refine ⟨((s.dropWhile (· = slash)).rtakeWhile (· = slash)).length, ?_⟩
  have trailing : (s.dropWhile (· = slash)).rtakeWhile (· = slash) =
      List.replicate ((s.dropWhile (· = slash)).rtakeWhile (· = slash)).length slash :=
    List.eq_replicate_of_mem fun c member => by simpa using List.mem_rtakeWhile_imp member
  rw [← trailing, pathBody, List.rdropWhile_append_rtakeWhile, pathLead,
    List.takeWhile_append_dropWhile]

/-- The first character of the body is no slash. -/
theorem pathBody_head {s rest : CString} {c : BitVec 8} (body : pathBody s = c :: rest) : c ≠ slash := by
  intro isSlash
  obtain ⟨tail, whole⟩ := List.rdropWhile_prefix (fun c => decide (c = slash))
    (s.dropWhile (· = slash))
  rw [← pathBody, body] at whole
  have first := List.head_dropWhile_not (fun c => decide (c = slash)) (l := s)
    (by rw [← whole]; simp)
  simp only [← whole, List.cons_append, List.head_cons, isSlash, decide_true] at first
  exact Bool.noConfusion first

theorem pathBody_ends (s : CString) : EndsPlain (pathBody s) := by
  intro last isLast isSlash
  obtain ⟨notEmpty, rfl⟩ := List.mem_getLast?_eq_getLast isLast
  exact List.rdropWhile_last_not _ _ notEmpty (decide_eq_true isSlash)

/-- A string of slashes only has no body. -/
theorem pathBody_eq_nil {s : CString} (empty : pathBody s = []) : s = pathLead s := by
  have slashes := List.rdropWhile_eq_nil_iff.mp empty
  cases behind : s.dropWhile (· = slash) with
  | nil =>
      have whole := List.takeWhile_append_dropWhile (p := (· = slash)) (l := s)
      rw [behind, List.append_nil] at whole
      exact whole.symm
  | cons c rest =>
      have first := List.head_dropWhile_not (fun c => decide (c = slash)) (l := s)
        (by rw [behind]; simp)
      simp only [behind, List.head_cons] at first
      have isSlash := slashes c (by rw [behind]; exact List.mem_cons_self)
      rw [first] at isSlash
      exact Bool.noConfusion isSlash

/-- What the trailing slashes become. -/
theorem stripBack_path {s : CString} {k : Nat} (notEmpty : pathBody s ≠ [])
    (split : s = pathLead s ++ (pathBody s ++ List.replicate k slash)) :
    stripBack slash s.length s = some (pathLead s ++ (pathBody s ++ List.replicate k nul)) := by
  obtain ⟨init, last, whole⟩ : ∃ init last, pathBody s = init ++ [last] :=
    ⟨_, _, (List.dropLast_append_getLast notEmpty).symm⟩
  have plain : last ≠ slash := pathBody_ends s last (by rw [whole]; exact List.getLast?_concat)
  have shape : ∀ c, pathLead s ++ (pathBody s ++ List.replicate k c) =
      (pathLead s ++ init) ++ last :: (List.replicate k c ++ []) := by
    intro c
    rw [whole]
    simp
  have size : s.length = (pathLead s ++ init).length + 1 + k := by
    have lengths := congrArg List.length (split.trans (shape slash))
    simp only [List.length_append, List.length_cons, List.length_replicate, List.length_nil]
      at lengths ⊢
    omega
  rw [size, shape nul]
  have stripped := stripBack_run plain (pathLead s ++ init) k []
  rwa [← shape slash, ← split] at stripped

/-- `_kopen` of a string with a body runs its loop from the first component on. -/
theorem kopen_loop (v : Vfs Node) (parent : Bool) {s : CString} (isString : IsCString s) {root : Node}
    (rooted : v.fsRoot = some root) (notEmpty : pathBody s ≠ []) :
    v.kopen s parent =
      some (if parent then (walk v root (pathSteps s).dropLast).map v.follow
        else walk v root (pathSteps s)) := by
  obtain ⟨k, split⟩ := path_split s
  obtain ⟨c, rest, body⟩ := List.exists_cons_of_ne_nil notEmpty
  have bodyString : IsCString (pathLead s ++ pathBody s) := by
    rw [split, ← List.append_assoc] at isString
    exact fun member => isString (List.mem_append_left _ member)
  have cNul : c ≠ nul := fun isNul => bodyString (by simp [body, isNul])
  have first : ∀ d, charAt (pathLead s ++ (pathBody s ++ List.replicate k d)) (pathLead s).length = c := by
    intro d
    rw [charAt_append_right (Nat.le_refl _), Nat.sub_self, body]
    rfl
  have token : charAt s (pathLead s).length = c := by
    have here := first slash
    rwa [← split] at here
  have room : s.length + 1 - (pathLead s).length = (pathBody s).length + k + 1 := by
    have lengths := congrArg List.length split
    simp only [List.length_append, List.length_replicate] at lengths
    omega
  rw [Vfs.kopen, rooted, Vfs.kopenFrom]
  simp only [show Vfs.leadingSlashes s = (pathLead s).length from rfl, token, if_neg cNul,
    stripBack_path notEmpty split, room]
  rw [kopenLoop_skip v parent root _ (k := 1), kopenLoop_walk v parent k root notEmpty bodyString
    (pathBody_ends s)]
  · rfl
  · intro j low
    rw [show j = 0 by omega, Nat.add_zero, first]
    exact ⟨pathBody_head body, cNul⟩

/-- `kopen` walks the prefixes and components of its string. -/
theorem kopen_eq_walk (v : Vfs Node) {s : CString} (isString : IsCString s) {root : Node}
    (rooted : v.fsRoot = some root) : v.kopen s false = some (walk v root (pathSteps s)) := by
  by_cases empty : pathBody s = []
  · have whole := pathBody_eq_nil empty
    rw [Vfs.kopen, rooted, Vfs.kopenFrom]
    simp only [show Vfs.leadingSlashes s = (pathLead s).length from rfl]
    rw [if_pos (by rw [← whole]; exact charAt_end s), pathSteps, empty, rawComponents]
    rfl
  · rw [kopen_loop v false isString rooted empty]
    rfl

/-- With `OPEN_FLAG_PARENT`, `kopen` leaves the last component out. -/
theorem kopen_parent_eq_walk (v : Vfs Node) {s : CString} (isString : IsCString s) {root : Node}
    (rooted : v.fsRoot = some root) :
    v.kopen s true =
      some (if pathBody s = [] then some root
        else (walk v root (pathSteps s).dropLast).map v.follow) := by
  by_cases empty : pathBody s = []
  · have whole := pathBody_eq_nil empty
    rw [Vfs.kopen, rooted, Vfs.kopenFrom]
    simp only [show Vfs.leadingSlashes s = (pathLead s).length from rfl]
    rw [if_pos (by rw [← whole]; exact charAt_end s), if_pos empty]
  · rw [kopen_loop v true isString rooted empty, if_neg empty]
    rfl

end Voxel.Proofs
