/-
Module: Voxel.Lib.Ownership
Layer: Lib
Purpose: Exclusive ownership of resources: every owned resource is in use and has one owner. The rules
  say how ownership survives an allocation, a release and the change of one owner's holdings. Then the
  order in time: a trace of what code does to the blocks of a heap reads live blocks only if every block
  that it reads was not freed, or was allocated again since.
Trusted boundary: human-reviewed spec
Main exports: Exclusive, Exclusive.take, Exclusive.release, Exclusive.exchange, Exclusive.handOver, Takes,
  Takes.trans, BlockAccess, freedAfter, ReadsLive, readsLive_read, readsLive_free, ReadsLive.append_iff
-/
import Mathlib.Logic.Basic

namespace Voxel.Lib

universe u v

variable {Owner : Type u} {Resource : Type v}

/-- No two owners share a resource, and what is owned is in use. -/
structure Exclusive (owns : Owner → Resource → Prop) (used : Resource → Prop) : Prop where
  unique : ∀ {a b r}, owns a r → owns b r → a = b
  inUse : ∀ {a r}, owns a r → used r

/-- An allocation: the resources taken were free and are in use afterwards; nothing else changes. -/
structure Takes (used used' : Resource → Prop) (taken : Resource → Prop) : Prop where
  fresh : ∀ {r}, taken r → ¬ used r
  after : ∀ {r}, used' r ↔ used r ∨ taken r

namespace Takes

variable {used used' used'' : Resource → Prop} {first second : Resource → Prop}

theorem none (used : Resource → Prop) : Takes used used fun _ => False :=
  ⟨False.elim, by simp⟩

/-- Two allocations, one after the other. -/
theorem trans (one : Takes used used' first) (two : Takes used' used'' second) :
    Takes used used'' fun r => first r ∨ second r where
  fresh := by
    rintro r (taken | taken)
    · exact one.fresh taken
    · exact fun inUse => two.fresh taken (one.after.mpr (Or.inl inUse))
  after := by
    intro r
    rw [two.after, one.after, or_assoc]

/-- The second allocation takes nothing that the first one took. -/
theorem apart (one : Takes used used' first) (two : Takes used' used'' second) {r : Resource}
    (inFirst : first r) : ¬ second r :=
  fun inSecond => two.fresh inSecond (one.after.mpr (Or.inr inFirst))

theorem congr {taken : Resource → Prop} (one : Takes used used' first)
    (same : ∀ r, taken r ↔ first r) : Takes used used' taken where
  fresh := fun held => one.fresh ((same _).mp held)
  after := by
    intro r
    rw [one.after, same]

theorem keeps (one : Takes used used' first) {r : Resource} (inUse : used r) : used' r :=
  one.after.mpr (Or.inl inUse)

end Takes

namespace Exclusive

variable {owns owns' : Owner → Resource → Prop} {used used' : Resource → Prop}
  {taken : Resource → Prop}

/-- What an allocation took is given to owners, no resource to two of them. -/
theorem take (exclusive : Exclusive owns used) (allocation : Takes used used' taken)
    (source : ∀ a r, owns' a r → owns a r ∨ taken r)
    (one : ∀ a b r, taken r → owns' a r → owns' b r → a = b) : Exclusive owns' used' where
  unique := by
    intro a b r left right
    by_cases new : taken r
    · exact one a b r new left right
    · exact exclusive.unique ((source a r left).resolve_right new)
        ((source b r right).resolve_right new)
  inUse := by
    intro a r holds
    rcases source a r holds with old | new
    · exact allocation.keeps (exclusive.inUse old)
    · exact allocation.after.mpr (Or.inr new)

/-- Owners may give up resources, and what none of them keeps may be released. -/
theorem release (exclusive : Exclusive owns used) (fewer : ∀ a r, owns' a r → owns a r)
    (kept : ∀ a r, owns' a r → used r → used' r) : Exclusive owns' used' where
  unique := fun left right => exclusive.unique (fewer _ _ left) (fewer _ _ right)
  inUse := fun holds => kept _ _ holds (exclusive.inUse (fewer _ _ holds))

/-- An allocation and then a release: `owner` gives up what it held of `gone`, and what was taken goes
to owners, no resource to two of them. -/
theorem exchange {used'' : Resource → Prop} {gone : Resource → Prop}
    (exclusive : Exclusive owns used) (allocation : Takes used used' taken) (owner : Owner)
    (held : ∀ r, gone r → owns owner r)
    (source : ∀ a r, owns' a r → (owns a r ∧ (a = owner → ¬ gone r)) ∨ taken r)
    (one : ∀ a b r, taken r → owns' a r → owns' b r → a = b)
    (kept : ∀ r, used' r → ¬ gone r → used'' r) : Exclusive owns' used'' := by
  have middle : Exclusive owns' used' :=
    exclusive.take allocation (fun a r holds => (source a r holds).imp And.left id) one
  refine middle.release (fun _ _ holds => holds) fun a r holds inUse => kept r inUse ?_
  intro given
  rcases source a r holds with ⟨old, stays⟩ | new
  · exact stays (exclusive.unique old (held r given)) given
  · exact allocation.fresh new (exclusive.inUse (held r given))

/-- The exchange in which a single owner takes what was allocated. -/
theorem handOver {used'' : Resource → Prop} {gone : Resource → Prop}
    (exclusive : Exclusive owns used) (allocation : Takes used used' taken) (giver taker : Owner)
    (held : ∀ r, gone r → owns giver r)
    (source : ∀ a r, owns' a r → (owns a r ∧ (a = giver → ¬ gone r)) ∨ (a = taker ∧ taken r))
    (kept : ∀ r, used' r → ¬ gone r → used'' r) : Exclusive owns' used'' := by
  refine exclusive.exchange allocation giver held
    (fun a r holds => (source a r holds).imp id And.right) ?_ kept
  intro a b r new left right
  have ofTaker : ∀ c, owns' c r → c = taker := by
    intro c holds
    rcases source c r holds with ⟨old, _⟩ | ⟨same, _⟩
    · exact absurd (exclusive.inUse old) (allocation.fresh new)
    · exact same
  rw [ofTaker a left, ofTaker b right]

end Exclusive

/-! ## Traces of blocks -/

/-- A step of the code on a block. -/
inductive BlockAccess (Block : Type*) where
  | read (block : Block)
  | write (block : Block)
  | alloc (block : Block)
  | free (block : Block)
  deriving Repr, DecidableEq

variable {Block : Type*}

/-- The blocks that are freed behind a step. -/
def BlockAccess.freed (freed : Block → Prop) : BlockAccess Block → Block → Prop
  | .read _, block => freed block
  | .write _, block => freed block
  | .alloc taken, block => freed block ∧ block ≠ taken
  | .free given, block => freed block ∨ block = given

/-- The blocks that are freed behind a trace. -/
def freedAfter (freed : Block → Prop) : List (BlockAccess Block) → Block → Prop
  | [] => freed
  | access :: rest => freedAfter (access.freed freed) rest

/-- No step reads a block that is freed. -/
def ReadsLive (freed : Block → Prop) : List (BlockAccess Block) → Prop
  | [] => True
  | access :: rest => (∀ block, access = .read block → ¬ freed block) ∧ ReadsLive (access.freed freed) rest

variable {freed : Block → Prop} {block : Block} {rest : List (BlockAccess Block)}

@[simp] theorem readsLive_nil : ReadsLive freed [] := trivial

@[simp] theorem readsLive_read :
    ReadsLive freed (.read block :: rest) ↔ ¬ freed block ∧ ReadsLive freed rest := by
  rw [ReadsLive]
  refine and_congr_left' ⟨fun live => live block rfl, fun live other isRead => ?_⟩
  cases isRead
  exact live

@[simp] theorem readsLive_write : ReadsLive freed (.write block :: rest) ↔ ReadsLive freed rest :=
  and_iff_right fun _ isRead => nomatch isRead

@[simp] theorem readsLive_alloc : ReadsLive freed (.alloc block :: rest) ↔
    ReadsLive (fun other => freed other ∧ other ≠ block) rest :=
  and_iff_right fun _ isRead => nomatch isRead

@[simp] theorem readsLive_free : ReadsLive freed (.free block :: rest) ↔
    ReadsLive (fun other => freed other ∨ other = block) rest :=
  and_iff_right fun _ isRead => nomatch isRead

/-- One trace behind another. -/
theorem ReadsLive.append_iff {first second : List (BlockAccess Block)} :
    ReadsLive freed (first ++ second) ↔ ReadsLive freed first ∧
      ReadsLive (freedAfter freed first) second := by
  induction first generalizing freed with
  | nil => exact ⟨fun live => ⟨trivial, live⟩, And.right⟩
  | cons access rest inductionHypothesis =>
      rw [List.cons_append, ReadsLive, ReadsLive, freedAfter, inductionHypothesis, and_assoc]

end Voxel.Lib
