/-
Module: Voxel.Proofs.Dup2
Layer: Proofs
Purpose: `process_dup2` on tables whose entries point to live nodes of their own. It keeps this
  invariant, and it does what its name says for all arguments but one: a descriptor that is duplicated
  onto itself is closed and freed first, and then its freed node is copied.
Trusted boundary: none
Main exports: NodeTable.Sound, Dup2Meets, dup2_sound, dup2_meets_iff
-/
import Mathlib.Data.List.Basic
import Voxel.Lib.Ownership
import Voxel.Kernel.Dup2

namespace Voxel.Proofs

open Voxel.Kernel
open Voxel.Lib

variable {Node Devices : Type} {s after cloned : NodeTable Node Devices} {hooks : NodeHooks Node Devices}
  {source target : BitVec 32} {clone node : Nat} {result : Int} {accesses : List (BlockAccess Nat)}

/-- The entries of a table point to live nodes, and no two of them to the same one. -/
structure NodeTable.Sound (s : NodeTable Node Devices) : Prop where
  live : ∀ {i block}, s.entry i = some block → s.live block = true
  distinct : ∀ {i j block}, s.entry i = some block → s.entry j = some block → i = j

/-- What the nodes share when the node in an entry, if there is one, was closed. -/
def devicesWithout (hooks : NodeHooks Node Devices) (s : NodeTable Node Devices) (i : Nat) : Devices :=
  (s.entry i).elim s.devices fun old => hooks.closeFs (s.contents old) s.devices

/-- What a call of `process_dup2` should do: nothing for a descriptor that is not open or a target that
is neither -1 nor an entry; a new descriptor for -1; nothing for a descriptor that is its own target;
and otherwise a copy in the place of what was closed. -/
structure Dup2Meets (hooks : NodeHooks Node Devices) (s : NodeTable Node Devices)
    (source target : BitVec 32)
    (clone : Nat) (result : Int) (accesses : List (BlockAccess Nat)) (after : NodeTable Node Devices) :
    Prop where
  refused : s.getProcessFd source = none ∨ target ≠ -1 ∧ ¬ s.IsSlot target →
    result = -1 ∧ accesses = [] ∧ after = s
  appended : ∀ {node}, s.getProcessFd source = some node → target = -1 →
    result = (BitVec.ofNat 32 s.fds.length).toInt ∧ after.fds = s.fds ++ [some clone] ∧
      after.contents clone = s.contents node ∧ after.live clone = true
  self : ∀ {node}, s.getProcessFd source = some node → target = source →
    result = target.toInt ∧ accesses = [] ∧ after = s
  replaced : ∀ {node}, s.getProcessFd source = some node → s.IsSlot target → target ≠ source →
    result = target.toInt ∧ after.fds = s.fds.set target.toNat (some clone) ∧
      after.contents clone = s.contents node ∧ after.live clone = true ∧
      after.devices = hooks.openFs (s.contents node) (devicesWithout hooks s target.toNat) ∧
      ∀ {old}, s.entry target.toNat = some old → old ≠ clone → after.live old = false
  others : ∀ {i}, i < s.fds.length → (s.IsSlot target → i ≠ target.toNat) →
    after.fds[i]? = s.fds[i]? ∧ ∀ {block}, s.entry i = some block →
      after.contents block = s.contents block ∧ after.live block = true
  stillOpen : ∀ {node}, s.getProcessFd source = some node → ∃ node',
    after.getProcessFd source = some node' ∧ after.contents node' = s.contents node ∧
      after.live node' = true
  readsLive : ReadsLive (fun block => s.live block = false) accesses

/-! ## The parts of the call -/

theorem getProcessFd_eq_some {fd : BitVec 32} :
    s.getProcessFd fd = some node ↔ s.IsSlot fd ∧ s.entry fd.toNat = some node := by
  unfold NodeTable.getProcessFd
  by_cases slot : s.IsSlot fd
  · rw [if_pos slot]
    exact ⟨fun found => ⟨slot, found⟩, And.right⟩
  · rw [if_neg slot]
    exact ⟨(by cases ·), fun found => absurd found.1 slot⟩

theorem not_slot_neg_one : ¬ s.IsSlot (-1) := fun slot => absurd slot.2 (by decide)

/-- What copying a node changes. -/
theorem cloneNode_spec (copied : s.cloneNode node clone = some (accesses, cloned)) :
    s.live clone = false ∧ accesses = [.alloc clone, .read node, .write clone] ∧
      cloned = { s with
        contents := Function.update s.contents clone (s.contents node)
        live := Function.update s.live clone true } := by
  unfold NodeTable.cloneNode at copied
  split at copied
  · cases copied
  · rename_i fresh
    cases copied
    exact ⟨by simpa using fresh, rfl, rfl⟩

/-- A call that is not refused: it appends, or it closes the target and replaces it. -/
theorem dup2_cases (isOpen : s.getProcessFd source = some node)
    (ran : s.processDup2 hooks source target clone = some (result, accesses, after)) :
    (target = -1 ∧ s.live clone = false ∧ result = (BitVec.ofNat 32 s.fds.length).toInt ∧
      accesses = [.alloc clone, .read node, .write clone, .read clone] ∧
      after.fds = s.fds ++ [some clone] ∧
      after.contents = Function.update s.contents clone (s.contents node) ∧
      after.live = Function.update s.live clone true ∧
      after.devices = hooks.openFs (s.contents node) s.devices) ∨
    (target ≠ -1 ∧ ¬ s.IsSlot target ∧ result = -1 ∧ accesses = [] ∧ after = s) ∨
    (s.IsSlot target ∧ (s.closeEntry hooks target.toNat).2.live clone = false ∧ result = target.toInt ∧
      accesses = (s.closeEntry hooks target.toNat).1 ++
      [.alloc clone, .read node, .write clone, .read clone] ∧
      after.fds = s.fds.set target.toNat (some clone) ∧
      after.contents = Function.update s.contents clone (s.contents node) ∧
      after.live = Function.update (s.closeEntry hooks target.toNat).2.live clone true ∧
      after.devices = hooks.openFs (s.contents node) (devicesWithout hooks s target.toNat)) := by
  unfold NodeTable.processDup2 at ran
  rw [isOpen] at ran
  dsimp only at ran
  by_cases toEnd : target = -1
  · rw [if_pos toEnd] at ran
    obtain ⟨⟨copy, cloned⟩, copied, same⟩ := Option.map_eq_some_iff.mp ran
    obtain ⟨fresh, rfl, rfl⟩ := cloneNode_spec copied
    cases same
    refine .inl ⟨toEnd, fresh, rfl, rfl, rfl, rfl, rfl, ?_⟩
    exact congrArg (hooks.openFs · s.devices) (Function.update_self ..)
  · rw [if_neg toEnd] at ran
    by_cases slot : s.IsSlot target
    · rw [if_neg (not_not_intro slot)] at ran
      obtain ⟨⟨copy, cloned⟩, copied, same⟩ := Option.map_eq_some_iff.mp ran
      obtain ⟨fresh, rfl, rfl⟩ := cloneNode_spec copied
      cases same
      have contents : (s.closeEntry hooks target.toNat).2.contents = s.contents := by
        unfold NodeTable.closeEntry
        cases s.entry target.toNat <;> rfl
      have fds : (s.closeEntry hooks target.toNat).2.fds = s.fds := by
        unfold NodeTable.closeEntry
        cases s.entry target.toNat <;> rfl
      have devices : (s.closeEntry hooks target.toNat).2.devices = devicesWithout hooks s target.toNat := by
        unfold NodeTable.closeEntry devicesWithout
        cases s.entry target.toNat <;> rfl
      refine .inr (.inr ⟨slot, fresh, rfl, rfl, ?_, ?_, rfl, ?_⟩)
      · exact congrArg (·.set target.toNat (some clone)) fds
      · exact congrArg (fun c => Function.update c clone (c node)) contents
      · rw [← devices, ← contents]
        exact congrArg (hooks.openFs · _) (Function.update_self ..)
    · rw [if_pos slot] at ran
      cases ran
      exact .inr (.inl ⟨toEnd, slot, rfl, rfl, rfl⟩)

/-- What closing an entry does to the blocks. -/
theorem closeEntry_none {i : Nat} (empty : s.entry i = none) :
    (s.closeEntry hooks i).1 = [] ∧ (s.closeEntry hooks i).2.live = s.live := by
  rw [NodeTable.closeEntry, empty]
  exact ⟨rfl, rfl⟩

theorem closeEntry_some {i old : Nat} (found : s.entry i = some old) :
    (s.closeEntry hooks i).1 = [.read old, .free old] ∧
      (s.closeEntry hooks i).2.live = Function.update s.live old false := by
  rw [NodeTable.closeEntry, found]
  exact ⟨rfl, rfl⟩

theorem entry_set {fds : List (Option Nat)} {i j : Nat} (inside : i < fds.length)
    (isSet : after.fds = fds.set i (some clone)) (entries : s.fds = fds) :
    after.entry j = if j = i then some clone else s.entry j := by
  rw [NodeTable.entry, NodeTable.entry, isSet, entries, List.getElem?_set]
  by_cases same : j = i
  · rw [if_pos same.symm, if_pos same, if_pos (same ▸ inside), Option.join_some]
  · rw [if_neg (Ne.symm same), if_neg same]

theorem entry_append {j : Nat} (isAppend : after.fds = s.fds ++ [some clone]) :
    after.entry j = if j = s.fds.length then some clone else s.entry j := by
  rw [NodeTable.entry, NodeTable.entry, isAppend]
  by_cases same : j = s.fds.length
  · rw [if_pos same, same, List.getElem?_concat_length, Option.join_some]
  · rw [if_neg same]
    rcases Nat.lt_or_gt_of_ne same with below | above
    · rw [List.getElem?_append_left below]
    · rw [List.getElem?_eq_none (by simpa using Nat.succ_le_of_lt above),
        List.getElem?_eq_none (Nat.le_of_lt above)]

/-! ## The invariant -/

/-- A block that is not live is in no entry but the one that was closed. -/
theorem NodeTable.Sound.fresh_after_close (sound : NodeTable.Sound s) {i j block : Nat}
    (fresh : (s.closeEntry hooks i).2.live clone = false) (other : j ≠ i) (found : s.entry j = some block) :
    block ≠ clone ∧ (s.closeEntry hooks i).2.live block = true := by
  have alive := sound.live found
  have stays : (s.closeEntry hooks i).2.live block = true := by
    cases closed : s.entry i with
    | none => rw [(closeEntry_none closed).2, alive]
    | some old =>
        rw [(closeEntry_some closed).2, Function.update_of_ne, alive]
        intro same
        exact other (sound.distinct found (same ▸ closed))
  refine ⟨?_, stays⟩
  rintro rfl
  rw [fresh] at stays
  cases stays

/-- `process_dup2` keeps the invariant of the table. -/
theorem dup2_sound (sound : NodeTable.Sound s)
    (ran : s.processDup2 hooks source target clone = some (result, accesses, after)) :
    NodeTable.Sound after := by
  cases isOpen : s.getProcessFd source with
  | none =>
      unfold NodeTable.processDup2 at ran
      rw [isOpen] at ran
      cases ran
      exact sound
  | some node =>
      rcases dup2_cases isOpen ran with ⟨-, fresh, -, -, fds, -, live, -⟩ | ⟨-, -, -, -, rfl⟩ |
        ⟨slot, fresh, -, -, fds, -, live, -⟩
      · have differs : ∀ {j block}, s.entry j = some block → block ≠ clone := by
          rintro j _ found rfl
          rw [sound.live found] at fresh
          cases fresh
        refine ⟨fun {i block} found => ?_, fun {i j block} one two => ?_⟩
        · rw [entry_append fds] at found
          rw [live]
          split at found
          · cases found
            exact Function.update_self ..
          · rw [Function.update_of_ne (differs found)]
            exact sound.live found
        · rw [entry_append fds] at one two
          split at one <;> split at two
          · rename_i first second
            rw [first, second]
          · cases one
            exact absurd rfl (differs two)
          · cases two
            exact absurd rfl (differs one)
          · exact sound.distinct one two
      · exact sound
      · refine ⟨fun {i block} found => ?_, fun {i j block} one two => ?_⟩
        · rw [entry_set slot.1 fds rfl] at found
          rw [live]
          split at found
          · cases found
            exact Function.update_self ..
          · rename_i other
            obtain ⟨differs, alive⟩ := sound.fresh_after_close fresh other found
            rw [Function.update_of_ne differs, alive]
        · rw [entry_set slot.1 fds rfl] at one two
          split at one <;> split at two
          · rename_i first second
            rw [first, second]
          · rename_i other
            cases one
            exact absurd rfl (sound.fresh_after_close fresh other two).1
          · rename_i other _
            cases two
            exact absurd rfl (sound.fresh_after_close fresh other one).1
          · exact sound.distinct one two

/-! ## The call -/

/-- The trace of a copy reads its source and then the copy. -/
theorem readsLive_copy {freed : Nat → Prop} (alive : ¬ freed node) :
    ReadsLive freed [.alloc clone, .read node, .write clone, .read clone] := by
  rw [readsLive_alloc, readsLive_read, readsLive_write, readsLive_read]
  exact ⟨fun dead => alive dead.1, fun dead => dead.2 rfl, readsLive_nil⟩

/-- A copy is appended. -/
theorem Dup2Meets.of_append (sound : NodeTable.Sound s) (isOpen : s.getProcessFd source = some node)
    (toEnd : target = -1) (fresh : s.live clone = false)
    (returns : result = (BitVec.ofNat 32 s.fds.length).toInt)
    (trace : accesses = [.alloc clone, .read node, .write clone, .read clone])
    (fds : after.fds = s.fds ++ [some clone])
    (contents : after.contents = Function.update s.contents clone (s.contents node))
    (live : after.live = Function.update s.live clone true) :
    Dup2Meets hooks s source target clone result accesses after := by
  obtain ⟨slot, found⟩ := getProcessFd_eq_some.mp isOpen
  have notSlot : ¬ s.IsSlot target := toEnd ▸ not_slot_neg_one
  have apart : target ≠ source := fun same => notSlot (same ▸ slot)
  have kept : ∀ {i block}, s.entry i = some block →
      after.contents block = s.contents block ∧ after.live block = true := by
    intro i block held
    have alive := sound.live held
    have differs : block ≠ clone := by
      rintro rfl
      rw [alive] at fresh
      cases fresh
    rw [contents, live, Function.update_of_ne differs, Function.update_of_ne differs]
    exact ⟨rfl, alive⟩
  constructor
  case refused =>
    rintro (closed | ⟨notEnd, -⟩)
    · rw [isOpen] at closed
      cases closed
    · exact absurd toEnd notEnd
  case appended =>
    intro node' isOpen' _
    cases isOpen.symm.trans isOpen'
    rw [contents, live, Function.update_self, Function.update_self]
    exact ⟨returns, fds, rfl, rfl⟩
  case self => exact fun _ same => absurd same apart
  case replaced => exact fun _ isSlot => absurd isSlot notSlot
  case others =>
    intro i inside _
    rw [fds, List.getElem?_append_left inside]
    exact ⟨rfl, kept⟩
  case stillOpen =>
    intro node' isOpen'
    cases isOpen.symm.trans isOpen'
    refine ⟨node, getProcessFd_eq_some.mpr ⟨⟨?_, slot.2⟩, ?_⟩, kept found⟩
    · rw [fds, List.length_append]
      exact Nat.lt_add_right _ slot.1
    · rw [entry_append fds, if_neg (Nat.ne_of_lt slot.1), found]
  case readsLive =>
    rw [trace]
    exact readsLive_copy fun dead => by rw [sound.live found] at dead; cases dead

/-- A copy takes the place of what was in another entry. -/
theorem Dup2Meets.of_replace (sound : NodeTable.Sound s) (isOpen : s.getProcessFd source = some node)
    (isSlot : s.IsSlot target) (apart : target ≠ source)
    (fresh : (s.closeEntry hooks target.toNat).2.live clone = false) (returns : result = target.toInt)
    (trace : accesses =
      (s.closeEntry hooks target.toNat).1 ++ [.alloc clone, .read node, .write clone, .read clone])
    (fds : after.fds = s.fds.set target.toNat (some clone))
    (contents : after.contents = Function.update s.contents clone (s.contents node))
    (live : after.live = Function.update (s.closeEntry hooks target.toNat).2.live clone true)
    (devices : after.devices = hooks.openFs (s.contents node) (devicesWithout hooks s target.toNat)) :
    Dup2Meets hooks s source target clone result accesses after := by
  obtain ⟨slot, found⟩ := getProcessFd_eq_some.mp isOpen
  have notEnd : target ≠ -1 := fun same => not_slot_neg_one (same ▸ isSlot)
  have elsewhere : source.toNat ≠ target.toNat := fun same => apart (BitVec.eq_of_toNat_eq same.symm)
  have kept : ∀ {i block}, i ≠ target.toNat → s.entry i = some block →
      after.contents block = s.contents block ∧ after.live block = true := by
    intro i block other held
    obtain ⟨differs, alive⟩ := sound.fresh_after_close fresh other held
    rw [contents, live, Function.update_of_ne differs, Function.update_of_ne differs]
    exact ⟨rfl, alive⟩
  constructor
  case refused =>
    rintro (closed | ⟨-, notSlot⟩)
    · rw [isOpen] at closed
      cases closed
    · exact absurd isSlot notSlot
  case appended => exact fun _ toEnd => absurd toEnd notEnd
  case self => exact fun _ same => absurd same apart
  case replaced =>
    intro node' isOpen' _ _
    cases isOpen.symm.trans isOpen'
    refine ⟨returns, fds, ?_, ?_, devices, fun {old} closed differs => ?_⟩
    · rw [contents, Function.update_self]
    · rw [live, Function.update_self]
    · rw [live, Function.update_of_ne differs, (closeEntry_some closed).2, Function.update_self]
  case others =>
    intro i _ other
    rw [fds, List.getElem?_set_ne (Ne.symm (other isSlot))]
    exact ⟨rfl, kept (other isSlot)⟩
  case stillOpen =>
    intro node' isOpen'
    cases isOpen.symm.trans isOpen'
    refine ⟨node, getProcessFd_eq_some.mpr ⟨⟨?_, slot.2⟩, ?_⟩, kept elsewhere found⟩
    · rw [fds, List.length_set]
      exact slot.1
    · rw [entry_set isSlot.1 fds rfl, if_neg elsewhere, found]
  case readsLive =>
    rw [trace]
    cases closed : s.entry target.toNat with
    | none =>
        rw [(closeEntry_none closed).1]
        exact readsLive_copy fun dead => by rw [sound.live found] at dead; cases dead
    | some old =>
        rw [(closeEntry_some closed).1]
        refine readsLive_read.mpr ⟨fun dead => ?_, readsLive_free.mpr (readsLive_copy ?_)⟩
        · rw [sound.live closed] at dead
          cases dead
        · rintro (dead | same)
          · rw [sound.live found] at dead
            cases dead
          · exact elsewhere (sound.distinct found (same ▸ closed))

/-- For every table, `process_dup2` does what it should unless an open descriptor is its own target. -/
theorem dup2_meets_iff (sound : NodeTable.Sound s)
    (ran : s.processDup2 hooks source target clone = some (result, accesses, after)) :
    Dup2Meets hooks s source target clone result accesses after ↔
      (target = source → s.getProcessFd source = none) := by
  cases isOpen : s.getProcessFd source with
  | none =>
      unfold NodeTable.processDup2 at ran
      rw [isOpen] at ran
      cases ran
      refine ⟨fun _ _ => rfl, fun _ => ?_⟩
      constructor
      case refused => exact fun _ => ⟨rfl, rfl, rfl⟩
      case others => exact fun _ _ => ⟨rfl, fun held => ⟨rfl, sound.live held⟩⟩
      case readsLive => exact trivial
      all_goals
        intro node found
        rw [isOpen] at found
        cases found
  | some node =>
      obtain ⟨slot, found⟩ := getProcessFd_eq_some.mp isOpen
      constructor
      · intro meets same
        -- The call has closed, freed and copied where it should have done nothing.
        have idle := (meets.self isOpen same).2.1
        subst same
        rcases dup2_cases isOpen ran with ⟨toEnd, -⟩ | ⟨-, notSlot, -⟩ | ⟨-, -, -, trace, -⟩
        · exact absurd slot (toEnd ▸ not_slot_neg_one)
        · exact absurd slot notSlot
        · rw [trace] at idle
          cases (List.append_eq_nil_iff.mp idle).2
      · intro apart
        have differs : target ≠ source := fun same => by cases apart same
        rcases dup2_cases isOpen ran with ⟨toEnd, fresh, returns, trace, fds, contents, live, -⟩ |
          ⟨notEnd, notSlot, returns, trace, same⟩ |
          ⟨isSlot, fresh, returns, trace, fds, contents, live, devices⟩
        · exact .of_append sound isOpen toEnd fresh returns trace fds contents live
        · subst same trace
          constructor
          case refused => exact fun _ => ⟨returns, rfl, rfl⟩
          case appended => exact fun _ toEnd => absurd toEnd notEnd
          case self => exact fun _ same => absurd same differs
          case replaced => exact fun _ isSlot => absurd isSlot notSlot
          case others => exact fun _ _ => ⟨rfl, fun held => ⟨rfl, sound.live held⟩⟩
          case stillOpen =>
            intro node' isOpen'
            exact ⟨node', isOpen', rfl, sound.live (getProcessFd_eq_some.mp isOpen').2⟩
          case readsLive => exact trivial
        · exact .of_replace sound isOpen isSlot differs fresh returns trace fds contents live devices

/-- Two descriptors of terminals 5 and 6, both of which are in the map. -/
def twoTerminals : NodeTable Int (List Int) where
  fds := [some 1, some 2]
  fdCapacity := 32
  contents block := if block = 1 then 5 else 6
  live block := block = 1 || block = 2
  devices := [5, 6]

theorem twoTerminals_sound : NodeTable.Sound twoTerminals := by
  have entries : ∀ {i block}, twoTerminals.entry i = some block → i < 2 ∧ block = i + 1 := by
    intro i block found
    match i with
    | 0 => cases found; exact ⟨by decide, rfl⟩
    | 1 => cases found; exact ⟨by decide, rfl⟩
    | i + 2 => cases found
  refine ⟨fun {i block} found => ?_, fun one two => ?_⟩
  · obtain ⟨small, rfl⟩ := entries found
    match i, small with
    | 0, _ => rfl
    | 1, _ => rfl
  · exact Nat.succ.inj ((entries one).2.symm.trans (entries two).2)

/-- The first terminal is put in the place of the second one, whose block `malloc` returns for the copy. -/
theorem dup2_meets_iff_example : ∃ result accesses after,
    twoTerminals.processDup2 ptyHooks 0 1 2 = some (result, accesses, after) ∧ result = 1 ∧
    after.devices = [5] ∧ Dup2Meets ptyHooks twoTerminals 0 1 2 result accesses after := by
  obtain ⟨done, ran⟩ := Option.isSome_iff_exists.mp
    (show (twoTerminals.processDup2 ptyHooks 0 1 2).isSome = true by decide)
  obtain ⟨result, accesses, after⟩ := done
  have meets := (dup2_meets_iff twoTerminals_sound ran).mpr (by decide)
  have isOpen : twoTerminals.getProcessFd 0 = some 1 := by decide
  obtain ⟨returns, -, -, -, devices, -⟩ := meets.replaced isOpen (by decide) (by decide)
  exact ⟨result, accesses, after, ran, returns.trans (by decide), devices.trans (by decide), meets⟩

/-- `dup2(0, 0)` takes the terminal 5 out of the map, and it copies the node from its freed block. -/
theorem dup2_self_reads_freed : ∃ after,
    twoTerminals.processDup2 ptyHooks 0 0 3 =
      some (0, [.read 1, .free 1, .alloc 3, .read 1, .write 3, .read 3], after) ∧
    after.devices = [6] ∧
    ¬ Dup2Meets ptyHooks twoTerminals 0 0 3 0 [.read 1, .free 1, .alloc 3, .read 1, .write 3,
      .read 3] after := by
  refine ⟨_, rfl, by decide, fun meets => ?_⟩
  have live := meets.readsLive
  rw [readsLive_read, readsLive_free, readsLive_alloc, readsLive_read] at live
  exact live.2.1 ⟨Or.inr rfl, by decide⟩

end Voxel.Proofs
