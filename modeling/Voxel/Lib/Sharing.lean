/-
Module: Voxel.Lib.Sharing
Layer: Lib
Purpose: Reference counting for copy-on-write memory, over any type of roots, places and frames. A
  frame is free (nobody maps it, its count is 0), private (one writable mapping) or shared (its count
  is the number of mappings, all of them read-only and marked for copying). The rules say how the
  operations of a copy-on-write memory keep this and what they may assume.
Trusted boundary: none
Main exports: Mapping, FrameState, Counted, Counted.shareAgain, Counted.mapFresh,
  Counted.takeLast, Counted.move, Counted.dropWritable, Counted.dropShared, Counted.claim
-/
import Mathlib.Data.Set.Card
import Mathlib.Logic.Function.Basic

namespace Voxel.Lib

universe u v w

/-- What a place of an address space maps, with its access bits. -/
structure Mapping (Frame : Type w) where
  frame : Frame
  writable : Bool
  cow : Bool

variable {Root : Type u} {Place : Type v} {Frame : Type w}

/-- The state of a frame, read off its mappings, and the count that belongs to it. In the `strict`
discipline a private frame has count 0 and is not marked. -/
inductive FrameState (strict : Prop) (mapped : Root × Place → Option (Mapping Frame))
    (count : Nat) : Prop where
  | free (nobody : ∀ key, mapped key = none) (zero : count = 0)
  | owned (key : Root × Place) (mapping : Mapping Frame) (maps : mapped key = some mapping)
      (writable : mapping.writable = true) (alone : ∀ other, other ≠ key → mapped other = none)
      (plain : strict → count = 0 ∧ mapping.cow = false)
  | shared (positive : 0 < count) (counted : {key | mapped key ≠ none}.encard = count)
      (marked : ∀ key mapping, mapped key = some mapping →
        mapping.writable = false ∧ mapping.cow = true)

/-! ## Changing one mapping of a frame -/

section Change

variable [DecidableEq Root] [DecidableEq Place]

namespace FrameState

variable {strict : Prop} {mapped : Root × Place → Option (Mapping Frame)} {count : Nat}
  {key : Root × Place} {mapping : Mapping Frame}

/-- The domain after one place was set. -/
theorem domain_update_some (mapped : Root × Place → Option (Mapping Frame)) (key : Root × Place)
    (mapping : Mapping Frame) :
    {k | Function.update mapped key (some mapping) k ≠ none} =
      insert key {k | mapped k ≠ none} := by
  ext k
  by_cases isKey : k = key
  · simp [isKey]
  · simp [isKey]

theorem domain_update_none (mapped : Root × Place → Option (Mapping Frame)) (key : Root × Place) :
    {k | Function.update mapped key none k ≠ none} = {k | mapped k ≠ none} \ {key} := by
  ext k
  by_cases isKey : k = key
  · simp [isKey]
  · simp [isKey]

/-- The only mapping of a private frame becomes read-only. -/
theorem mark (state : FrameState strict mapped count) (maps : mapped key = some mapping)
    (writable : mapping.writable = true) {new : Mapping Frame} (readonly : new.writable = false)
    (cow : new.cow = true) : FrameState strict (Function.update mapped key (some new)) 1 := by
  have alone : ∀ other, other ≠ key → mapped other = none := by
    cases state with
    | free nobody => exact fun other _ => nobody other
    | owned owner ownerMapping maps' _ alone =>
        have isOwner : key = owner := by
          by_contra different
          rw [alone key different] at maps
          cases maps
        rw [isOwner]
        exact alone
    | shared _ _ marked =>
        rw [(marked key mapping maps).1] at writable
        cases writable
  refine .shared Nat.one_pos ?_ ?_
  · have only : insert key {k | mapped k ≠ none} = {key} := by
      ext k
      by_cases isKey : k = key
      · simp [isKey]
      · simp [isKey, alone k isKey]
    rw [domain_update_some, only, Set.encard_singleton]
    rfl
  · intro k m found
    by_cases isKey : k = key
    · rw [isKey, Function.update_self] at found
      cases found
      exact ⟨readonly, cow⟩
    · rw [Function.update_of_ne isKey, alone k isKey] at found
      cases found

/-- One more read-only mapping of a shared frame. -/
theorem add (state : FrameState strict mapped count) (maps : mapped key = some mapping)
    (readonly : mapping.writable = false) {other : Root × Place} (unmapped : mapped other = none)
    {new : Mapping Frame} (newReadonly : new.writable = false) (cow : new.cow = true) :
    FrameState strict (Function.update mapped other (some new)) (count + 1) := by
  cases state with
  | free nobody =>
      rw [nobody key] at maps
      cases maps
  | owned owner ownerMapping maps' writable alone =>
      have isOwner : key = owner := by
        by_contra different
        rw [alone key different] at maps
        cases maps
      rw [isOwner, maps'] at maps
      rw [Option.some.inj maps, readonly] at writable
      cases writable
  | shared positive encard marked =>
      refine .shared (Nat.succ_pos _) ?_ ?_
      · rw [domain_update_some, Set.encard_insert_of_notMem (by simp [unmapped]), encard]
        norm_cast
      · intro k m found
        by_cases isOther : k = other
        · rw [isOther, Function.update_self] at found
          cases found
          exact ⟨newReadonly, cow⟩
        · rw [Function.update_of_ne isOther] at found
          exact marked k m found

/-- A free frame gets its first, writable mapping. -/
theorem own (unmapped : ∀ k, mapped k = none) {new : Mapping Frame}
    (writable : new.writable = true) (unmarked : new.cow = false) :
    FrameState strict (Function.update mapped key (some new)) 0 :=
  .owned key new (Function.update_self ..) writable
    (fun other isOther => by rw [Function.update_of_ne isOther, unmapped])
    (fun _ => ⟨rfl, unmarked⟩)

/-- The last mapping of a shared frame gets its write access back. -/
theorem take (encard : {k | mapped k ≠ none}.encard = 1) (maps : mapped key = some mapping)
    {new : Mapping Frame} (writable : new.writable = true) (unmarked : new.cow = false) :
    FrameState strict (Function.update mapped key (some new)) 0 := by
  refine .owned key new (Function.update_self ..) writable (fun other isOther => ?_)
    (fun _ => ⟨rfl, unmarked⟩)
  rw [Function.update_of_ne isOther]
  obtain ⟨only, domain⟩ := Set.encard_eq_one.mp encard
  have isOnly : ∀ k, mapped k ≠ none → k = only := by
    intro k found
    have member : k ∈ ({k | mapped k ≠ none} : Set (Root × Place)) := found
    rwa [domain, Set.mem_singleton_iff] at member
  by_contra found
  exact isOther ((isOnly other found).trans (isOnly key (by simp [maps])).symm)

/-- A read-only mapping goes away. -/
theorem remove (state : FrameState strict mapped count) (maps : mapped key = some mapping)
    (readonly : mapping.writable = false) :
    FrameState strict (Function.update mapped key none) (count - 1) := by
  cases state with
  | free nobody =>
      rw [nobody key] at maps
      cases maps
  | owned owner ownerMapping maps' writable alone =>
      have isOwner : key = owner := by
        by_contra different
        rw [alone key different] at maps
        cases maps
      rw [isOwner, maps'] at maps
      rw [Option.some.inj maps, readonly] at writable
      cases writable
  | shared positive encard marked =>
      have member : key ∈ ({k | mapped k ≠ none} : Set (Root × Place)) := by simp [maps]
      have fewer : ({k | mapped k ≠ none} \ {key}).encard = (count - 1 : Nat) := by
        have whole := Set.encard_sdiff_singleton_add_one member
        rw [encard] at whole
        have finite : ((count - 1 : Nat) : ℕ∞) + 1 = count := by
          norm_cast
          omega
        exact (ENat.add_left_injective_of_ne_top ENat.one_ne_top) (whole.trans finite.symm)
      rcases Nat.lt_or_ge 1 count with many | one
      · refine .shared (by omega) (by rw [domain_update_none, fewer]) ?_
        intro k m found
        by_cases isKey : k = key
        · rw [isKey, Function.update_self] at found
          cases found
        · rw [Function.update_of_ne isKey] at found
          exact marked k m found
      · have zero : count - 1 = 0 := by omega
        refine .free (fun k => ?_) zero
        rw [zero, Nat.cast_zero, Set.encard_eq_zero, ← domain_update_none] at fewer
        by_contra found
        have inside : k ∈ ({k | Function.update mapped key none k ≠ none} : Set (Root × Place)) :=
          found
        rw [fewer] at inside
        exact inside

/-- A private frame loses its mapping. -/
theorem release (state : FrameState strict mapped count) (maps : mapped key = some mapping)
    (writable : mapping.writable = true) (zero : count = 0) :
    FrameState strict (Function.update mapped key none) count := by
  refine .free (fun k => ?_) zero
  by_cases isKey : k = key
  · rw [isKey, Function.update_self]
  · rw [Function.update_of_ne isKey]
    cases state with
    | free nobody => exact nobody k
    | owned owner ownerMapping maps' _ alone =>
        refine alone k fun isOwner => ?_
        have sameKey : key = owner := by
          by_contra different
          rw [alone key different] at maps
          cases maps
        exact isKey (isOwner.trans sameKey.symm)
    | shared _ _ marked =>
        rw [(marked key mapping maps).1] at writable
        cases writable

end FrameState

end Change

/-! ## Counts -/

variable [DecidableEq Frame]

/-- The mappings of one frame. -/
def uses (pages : Root × Place → Option (Mapping Frame)) (frame : Frame) (key : Root × Place) :
    Option (Mapping Frame) :=
  (pages key).filter fun mapping => mapping.frame = frame

/-- Every count fits its frame, and a frame that several roots map is mapped at the same place. -/
structure Counted (strict : Prop) (pages : Root × Place → Option (Mapping Frame))
    (refs : Frame → Nat) : Prop where
  state : ∀ frame, FrameState strict (uses pages frame) (refs frame)
  aligned : ∀ key other mapping mapping', pages key = some mapping → pages other = some mapping' →
    mapping.frame = mapping'.frame → key.2 = other.2

theorem uses_eq_some {pages : Root × Place → Option (Mapping Frame)} {frame : Frame}
    {key : Root × Place} {mapping : Mapping Frame} :
    uses pages frame key = some mapping ↔ pages key = some mapping ∧ mapping.frame = frame := by
  simp [uses, Option.filter_eq_some_iff]

theorem uses_of_maps {pages : Root × Place → Option (Mapping Frame)} {key : Root × Place}
    {mapping : Mapping Frame} (maps : pages key = some mapping) :
    uses pages mapping.frame key = some mapping :=
  uses_eq_some.mpr ⟨maps, rfl⟩

namespace Counted

variable {strict : Prop} {pages : Root × Place → Option (Mapping Frame)} {refs : Frame → Nat}

/-! ## What the counts say about a mapping -/

/-- A writable mapping is the only one of its frame. -/
theorem alone_of_writable (counted : Counted strict pages refs) {key : Root × Place}
    {mapping : Mapping Frame} (maps : pages key = some mapping) (writable : mapping.writable = true) :
    (strict → refs mapping.frame = 0 ∧ mapping.cow = false) ∧
      ∀ other mapping', pages other = some mapping' → mapping'.frame = mapping.frame →
        other = key := by
  have used := uses_of_maps maps
  cases counted.state mapping.frame with
  | free nobody =>
      rw [nobody key] at used
      cases used
  | owned owner ownerMapping maps' writable' alone plain =>
      have owns : ∀ k m, pages k = some m → m.frame = mapping.frame → k = owner := by
        intro k m kMaps kFrame
        by_contra different
        have absent := alone k different
        rw [uses_eq_some.mpr ⟨kMaps, kFrame⟩] at absent
        cases absent
      refine ⟨?_, fun other mapping' otherMaps same => ?_⟩
      · rw [owns key mapping maps rfl, maps'] at used
        rwa [Option.some.inj used] at plain
      · rw [owns other mapping' otherMaps same, owns key mapping maps rfl]
  | shared positive encard marked =>
      rw [(marked key mapping used).1] at writable
      cases writable

/-- A read-only mapping is marked, and the count of its frame is the number of its mappings. -/
theorem shared_of_readonly (counted : Counted strict pages refs) {key : Root × Place}
    {mapping : Mapping Frame} (maps : pages key = some mapping)
    (readonly : mapping.writable = false) :
    mapping.cow = true ∧ 0 < refs mapping.frame ∧
      {k | uses pages mapping.frame k ≠ none}.encard = refs mapping.frame ∧
      ∀ k m, pages k = some m → m.frame = mapping.frame → m.writable = false ∧ m.cow = true := by
  have used := uses_of_maps maps
  cases counted.state mapping.frame with
  | free nobody =>
      rw [nobody key] at used
      cases used
  | owned owner ownerMapping maps' writable' alone plain =>
      have isOwner : key = owner := by
        by_contra different
        rw [alone key different] at used
        cases used
      rw [isOwner, maps'] at used
      rw [Option.some.inj used, readonly] at writable'
      cases writable'
  | shared positive encard marked =>
      exact ⟨(marked key mapping used).2, positive, encard, fun k m kMaps kFrame =>
        marked k m (uses_eq_some.mpr ⟨kMaps, kFrame⟩)⟩

/-- A frame that nobody maps has count 0. -/
theorem zero_of_unmapped (counted : Counted strict pages refs) {frame : Frame}
    (unmapped : ∀ key mapping, pages key = some mapping → mapping.frame ≠ frame) :
    refs frame = 0 := by
  have nobody : ∀ key, uses pages frame key = none := by
    intro key
    cases maps : uses pages frame key with
    | none => rfl
    | some mapping =>
        obtain ⟨inPages, same⟩ := uses_eq_some.mp maps
        exact absurd same (unmapped key mapping inPages)
  cases counted.state frame with
  | free _ zero => exact zero
  | owned owner ownerMapping maps' =>
      rw [nobody owner] at maps'
      cases maps'
  | shared positive encard marked =>
      have none : {k | uses pages frame k ≠ none} = ∅ := by
        ext k
        simp [nobody k]
      rw [none, Set.encard_empty] at encard
      exact_mod_cast encard.symm

/-- A root maps a shared frame once, so the count is bounded by the number of roots. -/
theorem count_le_roots (counted : Counted strict pages refs) {key : Root × Place}
    {mapping : Mapping Frame} (maps : pages key = some mapping)
    (readonly : mapping.writable = false) {roots : Set Root}
    (within : ∀ k m, pages k = some m → k.1 ∈ roots) :
    (refs mapping.frame : ℕ∞) ≤ roots.encard := by
  obtain ⟨-, -, encard, -⟩ := counted.shared_of_readonly maps readonly
  rw [← encard]
  have inside : Set.MapsTo Prod.fst {k | uses pages mapping.frame k ≠ none} roots := by
    intro k member
    obtain ⟨m, used⟩ := Option.ne_none_iff_exists'.mp member
    exact within k m (uses_eq_some.mp used).1
  have injective : Set.InjOn Prod.fst {k | uses pages mapping.frame k ≠ none} := by
    intro k member k' member' same
    obtain ⟨m, used⟩ := Option.ne_none_iff_exists'.mp member
    obtain ⟨m', used'⟩ := Option.ne_none_iff_exists'.mp member'
    obtain ⟨inPages, frame⟩ := uses_eq_some.mp used
    obtain ⟨inPages', frame'⟩ := uses_eq_some.mp used'
    exact Prod.ext same (counted.aligned k k' m m' inPages inPages' (frame.trans frame'.symm))
  exact Set.encard_le_encard_of_injOn inside injective

end Counted

/-! ## Changing one place -/

variable [DecidableEq Root] [DecidableEq Place]

namespace Counted

variable {strict : Prop} {pages : Root × Place → Option (Mapping Frame)} {refs : Frame → Nat}
  {key : Root × Place} {mapping : Mapping Frame}

/-- The mappings of the frame that a changed place is about. -/
theorem uses_update {new : Option (Mapping Frame)} {frame : Frame}
    (about : ∀ m, new = some m → m.frame = frame) :
    uses (Function.update pages key new) frame = Function.update (uses pages frame) key new := by
  funext k
  by_cases isKey : k = key
  · subst isKey
    rw [uses, Function.update_self, Function.update_self]
    cases new with
    | none => rfl
    | some m => simp [about m rfl]
  · simp [uses, isKey]

/-- A change of one place that is about a single frame, before and after. -/
theorem update_place (counted : Counted strict pages refs) {new : Option (Mapping Frame)}
    {frame : Frame} {count : Nat} (before : ∀ m, pages key = some m → m.frame = frame)
    (after : ∀ m, new = some m → m.frame = frame)
    (fits : ∀ other m, new ≠ none → other ≠ key → pages other = some m → m.frame = frame →
      other.2 = key.2)
    (state : FrameState strict (Function.update (uses pages frame) key new) count) :
    Counted strict (Function.update pages key new) (Function.update refs frame count) := by
  constructor
  · intro f
    by_cases isFrame : f = frame
    · rw [isFrame, Function.update_self, uses_update after]
      exact state
    · have untouched : uses (Function.update pages key new) f = uses pages f := by
        funext k
        by_cases isKey : k = key
        · have old : uses pages f key = none := by
            cases used : uses pages f key with
            | none => rfl
            | some m =>
                obtain ⟨maps, inFrame⟩ := uses_eq_some.mp used
                exact absurd (inFrame.symm.trans (before m maps)) isFrame
          rw [isKey, old]
          cases used : uses (Function.update pages key new) f key with
          | none => rfl
          | some m =>
              obtain ⟨maps, inFrame⟩ := uses_eq_some.mp used
              rw [Function.update_self] at maps
              exact absurd (inFrame.symm.trans (after m maps)) isFrame
        · simp [uses, isKey]
      rw [Function.update_of_ne isFrame, untouched]
      exact counted.state f
  · intro k k' m m' maps maps' same
    by_cases isKey : k = key <;> by_cases isKey' : k' = key
    · rw [isKey, isKey']
    · rw [isKey, Function.update_self] at maps
      rw [Function.update_of_ne isKey'] at maps'
      rw [isKey, fits k' m' (by simp [maps]) isKey' maps' (same.symm.trans (after m maps))]
    · rw [Function.update_of_ne isKey] at maps
      rw [isKey', Function.update_self] at maps'
      rw [isKey', fits k m (by simp [maps']) isKey maps (same.trans (after m' maps'))]
    · rw [Function.update_of_ne isKey] at maps
      rw [Function.update_of_ne isKey'] at maps'
      exact counted.aligned k k' m m' maps maps' same

/-! ## The operations -/

theorem mark (counted : Counted strict pages refs) (maps : pages key = some mapping)
    (writable : mapping.writable = true) :
    Counted strict (Function.update pages key (some ⟨mapping.frame, false, true⟩))
      (Function.update refs mapping.frame 1) := by
  obtain ⟨-, alone⟩ := counted.alone_of_writable maps writable
  refine counted.update_place ?_ ?_ ?_ ?_
  · intro m found
    rw [maps] at found
    rw [Option.some.inj found]
  · intro m found
    rw [← Option.some.inj found]
  · intro other m _ isOther found inFrame
    exact absurd (alone other m found inFrame) isOther
  · exact (counted.state _).mark (uses_of_maps maps) writable rfl rfl

/-- One more root maps a shared frame, at the same place. -/
theorem shareAgain (counted : Counted strict pages refs) (maps : pages key = some mapping)
    (readonly : mapping.writable = false) {other : Root × Place} (unmapped : pages other = none)
    (samePlace : other.2 = key.2) :
    Counted strict (Function.update pages other (some mapping))
      (Function.update refs mapping.frame (refs mapping.frame + 1)) := by
  obtain ⟨cow, -⟩ := counted.shared_of_readonly maps readonly
  refine counted.update_place ?_ ?_ ?_ ?_
  · intro m found
    rw [unmapped] at found
    cases found
  · intro m found
    rw [← Option.some.inj found]
  · intro k m _ _ found inFrame
    exact (counted.aligned k key m mapping found maps inFrame).trans samePlace.symm
  · exact (counted.state _).add (uses_of_maps maps) readonly (by simp [uses, unmapped]) readonly cow

/-- A place that maps nothing gets a frame that nobody maps. -/
theorem mapFresh (counted : Counted strict pages refs) (unmapped : pages key = none)
    {new : Mapping Frame} (writable : new.writable = true) (unmarked : new.cow = false)
    (fresh : ∀ k m, pages k = some m → m.frame ≠ new.frame) :
    Counted strict (Function.update pages key (some new)) refs := by
  have zero := counted.zero_of_unmapped fresh
  have updated : Counted strict (Function.update pages key (some new))
      (Function.update refs new.frame 0) := counted.update_place
    (fun m found => by rw [unmapped] at found; cases found)
    (fun m found => by rw [← Option.some.inj found])
    (fun other m _ _ found inFrame => absurd inFrame (fresh other m found))
    (.own (fun k => ?_) writable unmarked)
  · rwa [← zero, Function.update_eq_self] at updated
  · cases used : uses pages new.frame k with
    | none => rfl
    | some m => exact absurd (uses_eq_some.mp used).2 (fresh k m (uses_eq_some.mp used).1)

/-- The last mapping of a frame gets its write access back. -/
theorem takeLast (counted : Counted strict pages refs) (maps : pages key = some mapping)
    (readonly : mapping.writable = false) (last : refs mapping.frame = 1) {new : Mapping Frame}
    (sameFrame : new.frame = mapping.frame) (writable : new.writable = true)
    (unmarked : new.cow = false) :
    Counted strict (Function.update pages key (some new))
      (Function.update refs mapping.frame 0) := by
  obtain ⟨-, -, encard, -⟩ := counted.shared_of_readonly maps readonly
  refine counted.update_place ?_ ?_ ?_ ?_
  · intro m found
    rw [maps] at found
    rw [Option.some.inj found]
  · intro m found
    rw [← Option.some.inj found, sameFrame]
  · intro other m _ _ found inFrame
    exact counted.aligned other key m mapping found maps inFrame
  · refine .take ?_ (uses_of_maps maps) writable unmarked
    rw [encard, last]
    rfl

/-- A read-only mapping goes away. -/
theorem dropShared (counted : Counted strict pages refs) (maps : pages key = some mapping)
    (readonly : mapping.writable = false) :
    Counted strict (Function.update pages key none)
      (Function.update refs mapping.frame (refs mapping.frame - 1)) := by
  refine counted.update_place ?_ (fun m found => by cases found)
    (fun other m absurdity => absurd rfl absurdity) ?_
  · intro m found
    rw [maps] at found
    rw [Option.some.inj found]
  · exact (counted.state _).remove (uses_of_maps maps) readonly

/-- A writable mapping goes away. -/
theorem dropWritable (counted : Counted strict pages refs) (disciplined : strict)
    (maps : pages key = some mapping) (writable : mapping.writable = true) :
    Counted strict (Function.update pages key none) refs := by
  have zero := ((counted.alone_of_writable maps writable).1 disciplined).1
  have updated : Counted strict (Function.update pages key none)
      (Function.update refs mapping.frame (refs mapping.frame)) := counted.update_place
    (fun m found => by rw [maps] at found; rw [Option.some.inj found])
    (fun m found => by cases found) (fun other m absurdity => absurd rfl absurdity)
    ((counted.state _).release (uses_of_maps maps) writable zero)
  rwa [Function.update_eq_self] at updated

/-- A read-only mapping moves to a frame that nobody maps. -/
theorem move (counted : Counted strict pages refs) (maps : pages key = some mapping)
    (readonly : mapping.writable = false) {new : Mapping Frame} (writable : new.writable = true)
    (unmarked : new.cow = false) (fresh : ∀ k m, pages k = some m → m.frame ≠ new.frame) :
    Counted strict (Function.update pages key (some new))
      (Function.update refs mapping.frame (refs mapping.frame - 1)) := by
  have dropped := counted.dropShared maps readonly
  have moved := @mapFresh _ _ _ _ _ _ _ _ _ key dropped (Function.update_self ..) new writable unmarked (by
    intro k m found
    by_cases isKey : k = key
    · rw [isKey, Function.update_self] at found
      cases found
    · rw [Function.update_of_ne isKey] at found
      exact fresh k m found)
  rwa [Function.update_idem] at moved

/-- A root that shares its frame with no other may take write access without the count. -/
theorem claim (counted : Counted strict pages refs) (relaxed : ¬ strict)
    (maps : pages key = some mapping)
    (alone : ∀ other m, pages other = some m → m.frame = mapping.frame → other = key)
    {new : Mapping Frame} (sameFrame : new.frame = mapping.frame) (writable : new.writable = true) :
    Counted strict (Function.update pages key (some new)) refs := by
  have updated : Counted strict (Function.update pages key (some new))
      (Function.update refs mapping.frame (refs mapping.frame)) := counted.update_place
    (fun m found => by rw [maps] at found; rw [Option.some.inj found])
    (fun m found => by rw [← Option.some.inj found, sameFrame])
    (fun other m _ isOther found inFrame => absurd (alone other m found inFrame) isOther)
    (.owned key new (Function.update_self ..) writable (fun other isOther => ?_)
      (fun disciplined => absurd disciplined relaxed))
  · rwa [Function.update_eq_self] at updated
  · rw [Function.update_of_ne isOther]
    cases used : uses pages mapping.frame other with
    | none => rfl
    | some m =>
        obtain ⟨found, inFrame⟩ := uses_eq_some.mp used
        exact absurd (alone other m found inFrame) isOther

end Counted

end Voxel.Lib
