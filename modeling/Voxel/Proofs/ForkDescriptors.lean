/-
Module: Voxel.Proofs.ForkDescriptors
Layer: Proofs
Purpose: Which entries of a descriptor table `spawn_process` may read. An entry is written when the
  table first gets that long, so a fork copies written entries only exactly if the table of the parent
  was full once since it was allocated or last enlarged. The copies are private to the child.
Trusted boundary: none
Main exports: FdTableCall, FdHistory, ForkCopies, FdHistory.Sound, FdHistory.Sound.step, fork_copies_iff
-/
import Voxel.Kernel.FdTable
import Voxel.Lib.Run
import Voxel.Proofs.TmpfsFrames

namespace Voxel.Proofs

open Voxel.Lib Voxel.Kernel

/-! ## Calls -/

/-- A call that uses descriptor tables. `elsewhere` is what the rest of the kernel takes from the bitmap and
gives back. -/
inductive FdTableCall (Node : Type)
  | sysOpen (p : Nat) (opened : Option Node)
  | sysClose (p : Nat) (fd : BitVec 64)
  | processDup2 (p : Nat) (source target : BitVec 64)
  | sysExecve (p : Nat)
  | fork (parent child : Nat) (stale : Nat → Option Node)
  | elsewhere (frames : FrameMap)

/-- The tables, and the largest number of descriptors that the table of a process has had so far. -/
structure FdHistory (Node : Type) where
  state : FdTables Node
  peak : Nat → Nat

section

variable {Node : Type} {s s' : FdTables Node} {m m' : FrameMap} {t t' : FdTable Node}
  {h h' : FdHistory Node} {p q i f : Nat} {call : FdTableCall Node}

/-- The state after a call. -/
def FdTableCall.perform (s : FdTables Node) : FdTableCall Node → Option (FdTables Node)
  | .sysOpen p opened => s.sysOpen p opened
  | .sysClose p fd => s.sysClose p fd
  | .processDup2 p source target => s.processDup2 p source target
  | .sysExecve p => s.sysExecve p
  | .fork parent child stale => s.spawnProcess parent child stale
  | .elsewhere frames => some { s with frames := frames }

/-- `fd_length` of a process, and `fd_capacity`. -/
def fdLengthOf (s : FdTables Node) (p : Nat) : Nat := (s.tables p).elim 0 FdTable.fdLength

@[inherit_doc fdLengthOf]
def fdCapacityOf (s : FdTables Node) (p : Nat) : Nat := (s.tables p).elim 0 fun t => t.fds.length

/-- The largest numbers after a call. The loop that makes the table of a child fills it. -/
def FdTableCall.peak (s' : FdTables Node) (peak : Nat → Nat) : FdTableCall Node → Nat → Nat
  | .fork _ child _, q => if q = child then fdCapacityOf s' q else peak q
  | _, q => max (peak q) (fdLengthOf s' q)

/-- A call, and the largest numbers after it. -/
def FdHistory.step (h : FdHistory Node) (call : FdTableCall Node) : Option (FdHistory Node) :=
  (call.perform h.state).map fun s' => ⟨s', call.peak s' h.peak⟩

/-! ## Frames -/

/-- The frames of the node in an entry. -/
def slotOwns (slots : List (FdSlot Node)) (i f : Nat) : Prop :=
  ∃ block contents, slots[i]? = some (.node block contents) ∧ block.Holds f

/-- The frames of an array (`none`) and of the nodes in its entries. -/
def tableOwns (t : FdTable Node) : Option Nat → Nat → Prop
  | none, f => t.block.Holds f
  | some i, f => slotOwns t.fds i f

/-- The frames of a process and a part of its table. -/
def fdOwns (s : FdTables Node) (owner : Nat × Option Nat) (f : Nat) : Prop :=
  ∃ t, s.tables owner.1 = some t ∧ tableOwns t owner.2 f

/-- The rest of the kernel keeps the frames of the tables locked. -/
def KeepsTables (h : FdHistory Node) : FdTableCall Node → Prop
  | .elsewhere frames => ∀ owner f, fdOwns h.state owner f → Used frames f
  | _ => True

/-! ## What a fork copies -/

/-- An entry of a child: it is null, or a node with the contents of the parent's. -/
inductive SlotCopy : FdSlot Node → FdSlot Node → Prop
  | null : SlotCopy .null .null
  | node (block copy : HeapBlock) (contents : Node) : SlotCopy (.node block contents) (.node copy contents)

/-- Every entry that the loop reads was written before, and the table of the child has the same length and
private copies of the nodes. -/
structure ForkCopies (s s' : FdTables Node) (parent child : Nat) : Prop where
  parent_ : s'.tables parent = s.tables parent
  written : ∀ t, s.tables parent = some t → FdSlot.unassigned ∉ t.fds
  copies : ∀ t, s.tables parent = some t → ∃ t', s'.tables child = some t' ∧
    t'.fdLength = t.fdLength ∧ List.Forall₂ SlotCopy t.fds t'.fds
  private_ : ∀ part f owner, fdOwns s' (child, part) f → fdOwns s' owner f → owner = (child, part)

/-- A table is as long as it was used, and its entries are written up to the largest length that it had. -/
structure FdTableSound (t : FdTable Node) (peak : Nat) : Prop where
  used : t.fdLength ≤ peak
  room : peak ≤ t.fds.length
  written : ∀ i slot, t.fds[i]? = some slot → (slot = .unassigned ↔ peak ≤ i)

/-- Every frame of the tables is locked and has one owner, and the tables are sound. -/
structure FdHistory.Sound (h : FdHistory Node) : Prop where
  owned : Exclusive (fdOwns h.state) (Used h.state.frames)
  tables : ∀ p t, h.state.tables p = some t → FdTableSound t (h.peak p)

/-! ## Changes of one table -/

theorem fdOwns_setTable {owner : Nat × Option Nat} :
    fdOwns (s.setTable p t) owner f ↔
      if owner.1 = p then tableOwns t owner.2 f else fdOwns s owner f := by
  unfold fdOwns FdTables.setTable
  by_cases same : owner.1 = p
  · simp [same]
  · simp [same]

/-- A table changes; what a part of it has more was free. -/
theorem give_owned {taken : Nat → Prop} (part : Option Nat)
    (owned : Exclusive (fdOwns s) (Used s.frames)) (allocation : Takes (Used s.frames) (Used m) taken)
    (source : ∀ part' f, tableOwns t part' f → fdOwns s (p, part') f ∨ (part' = part ∧ taken f)) :
    Exclusive (fdOwns (({ s with frames := m } : FdTables Node).setTable p t)) (Used m) := by
  have origin : ∀ owner f, fdOwns (({ s with frames := m } : FdTables Node).setTable p t) owner f →
      fdOwns s owner f ∨ (owner = (p, part) ∧ taken f) := by
    rintro ⟨q, part'⟩ f has
    rw [fdOwns_setTable] at has
    split at has
    · rename_i same
      cases same
      exact (source part' f has).imp_right fun new => ⟨by rw [new.1], new.2⟩
    · exact Or.inl has
  refine owned.take allocation (fun owner f has => (origin owner f has).imp_right And.right) ?_
  intro a b f new left right
  have isNew : ∀ owner, fdOwns (({ s with frames := m } : FdTables Node).setTable p t) owner f →
      owner = (p, part) := by
    intro owner has
    rcases origin owner f has with old | ⟨same, _⟩
    · exact absurd (owned.inUse old) (allocation.fresh new)
    · exact same
  rw [isNew a left, isNew b right]

/-- A table gives up entries, whose frames may be released. -/
theorem release_owned (owned : Exclusive (fdOwns s) (Used s.frames))
    (fewer : ∀ part f, tableOwns t part f → fdOwns s (p, part) f)
    (kept : ∀ owner f, fdOwns (s.setTable p t) owner f → Used s.frames f → Used m f) :
    Exclusive (fdOwns (({ s with frames := m } : FdTables Node).setTable p t)) (Used m) := by
  refine owned.release ?_ kept
  rintro ⟨q, part⟩ f has
  rw [fdOwns_setTable] at has
  split at has
  · rename_i same
    cases same
    exact fewer part f has
  · exact has

/-- The array of a table is replaced by a larger one. -/
theorem realloc_owned {size : Nat} {fds : HeapBlock} (owned : Exclusive (fdOwns s) (Used s.frames))
    (present : s.tables p = some t) (grown : realloc s.frames t.block size = some (fds, m)) :
    Exclusive (fdOwns (({ s with frames := m } : FdTables Node).setTable p { t with block := fds }))
      (Used m) := by
  obtain ⟨⟨block, middle⟩, allocated, same⟩ := Option.map_eq_some_iff.mp grown
  cases same
  have old : ∀ f, t.block.Holds f → fdOwns s (p, none) f := fun f holds => ⟨t, present, holds⟩
  refine owned.handOver (malloc_takes allocated) (p, none) (p, none) old ?_ ?_
  · rintro ⟨q, part⟩ f has
    rw [fdOwns_setTable] at has
    split at has
    · rename_i same
      cases same
      cases part with
      | none => exact Or.inr ⟨rfl, has⟩
      | some i => exact Or.inl ⟨⟨t, present, has⟩, fun wrong => by cases wrong⟩
    · rename_i other
      exact Or.inl ⟨has, fun same => absurd (congrArg Prod.fst same) other⟩
  · intro f inUse outside
    rw [Used, free_of_not_mem _ outside]
    exact inUse

theorem fdCapacityOf_setTable : fdCapacityOf (s.setTable p t) p = t.fds.length := by
  rw [fdCapacityOf, FdTables.setTable]
  dsimp only
  rw [Function.update_self]
  rfl

/-! ## Entries -/

/-- An entry after one was written. -/
theorem set_slot {slots : List (FdSlot Node)} {j : Nat} {slot new : FdSlot Node}
    (there : (slots.set i new)[j]? = some slot) :
    (j = i ∧ i < slots.length ∧ slot = new) ∨ (j ≠ i ∧ slots[j]? = some slot) := by
  rw [List.getElem?_set] at there
  split at there
  · rename_i same
    split at there
    · rename_i inside
      exact Or.inl ⟨same.symm, inside, (Option.some.inj there).symm⟩
    · cases there
  · rename_i other
    exact Or.inr ⟨fun same => other same.symm, there⟩

/-- A new node in an entry. -/
theorem setNode_owned {node : HeapBlock} (contents : Node) {slots : List (FdSlot Node)}
    (owned : Exclusive (fdOwns s) (Used s.frames)) (present : s.tables p = some t)
    (allocated : malloc s.frames sizeofFsNode = some (node, m))
    (old : ∀ j block contents, j ≠ i → slots[j]? = some (.node block contents) →
      t.fds[j]? = some (.node block contents)) (length : Nat) :
    Exclusive (fdOwns (({ s with frames := m } : FdTables Node).setTable p
      { t with fds := slots.set i (.node node contents), fdLength := length })) (Used m) := by
  refine give_owned (some i) owned (malloc_takes allocated) fun part f has => ?_
  cases part with
  | none => exact Or.inl ⟨t, present, has⟩
  | some j =>
      obtain ⟨block, other, there, holds⟩ := has
      rcases set_slot there with ⟨rfl, _, same⟩ | ⟨different, before⟩
      · cases same
        exact Or.inr ⟨rfl, holds⟩
      · exact Or.inl ⟨t, present, block, other, old j block other different before, holds⟩

/-- A sound table whose entry is written. -/
theorem FdTableSound.set {peak : Nat} {slot : FdSlot Node} (sound : FdTableSound t peak)
    (inUse : i < t.fdLength) (isWritten : slot ≠ .unassigned) :
    FdTableSound { t with fds := t.fds.set i slot } peak where
  used := sound.used
  room := by
    rw [List.length_set]
    exact sound.room
  written := by
    intro j other there
    rcases set_slot there with ⟨rfl, _, rfl⟩ | ⟨_, before⟩
    · have used := sound.used
      exact iff_of_false isWritten (by omega)
    · exact sound.written j other before

/-! ## One call -/

/-- One table changes, and its largest length with it. -/
theorem FdHistory.Sound.change (sound : FdHistory.Sound h) (owned : Exclusive (fdOwns s') (Used s'.frames))
    (others : ∀ q, q ≠ p → s'.tables q = h.state.tables q)
    (own : ∀ t, s'.tables p = some t → FdTableSound t (max (h.peak p) t.fdLength)) :
    FdHistory.Sound ⟨s', fun q => max (h.peak q) (fdLengthOf s' q)⟩ where
  owned := owned
  tables := by
    intro q t present
    have length : fdLengthOf s' q = t.fdLength := by
      change s'.tables q = some t at present
      rw [fdLengthOf, present]
      rfl
    dsimp only
    rw [length]
    by_cases same : q = p
    · subst same
      exact own t present
    · have before := sound.tables q t ((others q same).symm.trans present)
      rw [Nat.max_eq_left before.used]
      exact before

/-- Nothing changes. -/
theorem FdHistory.Sound.unchanged (sound : FdHistory.Sound h) :
    FdHistory.Sound ⟨h.state, fun q => max (h.peak q) (fdLengthOf h.state q)⟩ :=
  @FdHistory.Sound.change _ h.state h 0 sound sound.owned (fun _ _ => rfl) fun t present => by
    have before := sound.tables 0 t present
    rw [Nat.max_eq_left before.used]
    exact before

/-- `append_process_fd`, with and without a larger array. -/
theorem appendProcessFd_cases {block : HeapBlock} {contents : Node} {fd : Nat}
    (appended : s.appendProcessFd p block contents = some (fd, s')) :
    ∃ t, s.tables p = some t ∧
      ((t.fdLength ≠ t.fds.length ∧ s' = s.setTable p
          { t with fds := t.fds.set t.fdLength (.node block contents), fdLength := t.fdLength + 1 }) ∨
        (t.fdLength = t.fds.length ∧ ∃ size fds frames, realloc s.frames t.block size = some (fds, frames) ∧
          s' = ({ s with frames := frames } : FdTables Node).setTable p
            { block := fds
              fds := (t.fds ++ List.replicate 64 FdSlot.unassigned).set t.fdLength (.node block contents)
              fdLength := t.fdLength + 1 })) := by
  unfold FdTables.appendProcessFd at appended
  split at appended
  · cases appended
  rename_i t present
  refine ⟨t, present, ?_⟩
  dsimp only at appended
  split at appended
  · rename_i isFull
    rw [Option.map_map, Option.map_eq_some_iff] at appended
    obtain ⟨⟨fds, frames⟩, grown, same⟩ := appended
    cases same
    exact Or.inr ⟨isFull, _, fds, frames, grown, rfl⟩
  · rename_i hasRoom
    cases appended
    exact Or.inl ⟨hasRoom, rfl⟩

/-- A table after an append, in an array that is long enough. -/
theorem FdTableSound.append {peak : Nat} (sound : FdTableSound t peak) (node : HeapBlock)
    (contents : Node) (block : HeapBlock) (more : Nat) (hasRoom : t.fdLength < t.fds.length + more) :
    FdTableSound { block := block
                   fds := (t.fds ++ List.replicate more FdSlot.unassigned).set t.fdLength
                     (.node node contents)
                   fdLength := t.fdLength + 1 } (max peak (t.fdLength + 1)) where
  used := Nat.le_max_right _ _
  room := by
    have room := sound.room
    rw [List.length_set, List.length_append, List.length_replicate]
    omega
  written := by
    intro j slot there
    have used := sound.used
    have room := sound.room
    rcases set_slot there with ⟨rfl, _, rfl⟩ | ⟨different, before⟩
    · exact iff_of_false (by simp) (by omega)
    · by_cases inArray : j < t.fds.length
      · rw [List.getElem?_append_left inArray] at before
        rw [sound.written j slot before]
        omega
      · rw [List.getElem?_append_right (Nat.le_of_not_lt inArray), List.getElem?_replicate] at before
        split at before
        · cases before
          exact iff_of_true rfl (by omega)
        · cases before

/-- A node gets a block and a descriptor. -/
theorem FdHistory.Sound.append (sound : FdHistory.Sound h) {node : HeapBlock} {contents : Node} {fd : Nat}
    (allocated : malloc h.state.frames sizeofFsNode = some (node, m))
    (appended : ({ h.state with frames := m } : FdTables Node).appendProcessFd p node contents =
      some (fd, s')) :
    FdHistory.Sound ⟨s', fun q => max (h.peak q) (fdLengthOf s' q)⟩ := by
  obtain ⟨t, present, ⟨hasRoom, rfl⟩ | ⟨isFull, size, fds, frames, grown, rfl⟩⟩ :=
    appendProcessFd_cases appended
  all_goals
    change h.state.tables p = some t at present
    have table := sound.tables p t present
  · refine sound.change (p := p)
      (setNode_owned contents sound.owned present allocated (fun _ _ _ _ there => there) _)
      (fun q other => Function.update_of_ne other _ _) ?_
    intro t' isNew
    cases (Function.update_self p _ _).symm.trans isNew
    have used := table.used
    have room := table.room
    have appended := table.append node contents t.block 0 (by omega)
    rwa [List.replicate_zero, List.append_nil] at appended
  · have old : ∀ j block other, j ≠ t.fdLength →
        (t.fds ++ List.replicate 64 FdSlot.unassigned)[j]? = some (.node block other) →
          t.fds[j]? = some (.node block other) := by
      intro j block other _ there
      by_cases inArray : j < t.fds.length
      · rwa [List.getElem?_append_left inArray] at there
      · rw [List.getElem?_append_right (Nat.le_of_not_lt inArray), List.getElem?_replicate] at there
        split at there <;> cases there
    have given := setNode_owned contents sound.owned present allocated old (t.fdLength + 1)
    have moved := realloc_owned (p := p) given (Function.update_self p _ _) grown
    refine sound.change (p := p) ?_ (fun q other => Function.update_of_ne other _ _) ?_
    · rw [FdTables.setTable, FdTables.setTable] at moved
      dsimp only at moved
      rw [Function.update_idem] at moved
      exact moved
    · intro t' isNew
      cases (Function.update_self p _ _).symm.trans isNew
      exact table.append node contents fds 64 (by omega)

/-- A table loses entries; the frames of those that stay are still locked. -/
theorem closeSlots_owned (slots : List (FdSlot Node)) (owned : Exclusive (fdOwns s) (Used s.frames))
    (present : s.tables p = some t)
    (fewer : ∀ (j : Nat) block contents, slots[j]? = some (FdSlot.node block contents) →
      t.fds[j]? = some (FdSlot.node block contents))
    (kept : ∀ f, Used s.frames f →
    (∀ (j : Nat) block contents, t.fds[j]? = some (FdSlot.node block contents) →
      block.Holds f → slots[j]? = some (FdSlot.node block contents)) → Used m f) (length : Nat) :
    Exclusive (fdOwns (({ s with frames := m } : FdTables Node).setTable p
      { t with fds := slots, fdLength := length })) (Used m) := by
  have before : ∀ part f, tableOwns { t with fds := slots, fdLength := length } part f →
      fdOwns s (p, part) f := by
    intro part f has
    cases part with
    | none => exact ⟨t, present, has⟩
    | some j =>
        obtain ⟨block, contents, there, holds⟩ := has
        exact ⟨t, present, block, contents, fewer j block contents there, holds⟩
  refine release_owned owned before fun owner f has inUse => kept f inUse ?_
  intro j block contents there holds
  have byEntry : fdOwns s (p, some j) f := ⟨t, present, block, contents, there, holds⟩
  rw [fdOwns_setTable] at has
  split at has
  · rename_i same
    obtain ⟨q, part⟩ := owner
    cases same
    cases owned.unique (before part f has) byEntry
    obtain ⟨other, otherContents, after, _⟩ := has
    rw [after, ← there, fewer j other otherContents after]
  · rename_i other
    exact absurd (congrArg Prod.fst (owned.unique has byEntry)) other

/-- An entry that `get_process_fd` returns. -/
theorem getProcessFd_entry {fd : BitVec 64} {block : HeapBlock} {contents : Node}
    (found : s.getProcessFd p fd = some (block, contents)) :
    ∃ t, s.tables p = some t ∧ (FdTables.intOf fd).toNat < t.fdLength ∧
      t.fds[(FdTables.intOf fd).toNat]? = some (FdSlot.node block contents) := by
  unfold FdTables.getProcessFd at found
  split at found
  · cases found
  rename_i t present
  split at found
  · cases found
  rename_i inTable
  split at found
  · rename_i there
    cases found
    exact ⟨t, present, by omega, there⟩
  · cases found

theorem store_cases {slot : FdSlot Node} (stored : s.store p i slot = some s') :
    ∃ t, s.tables p = some t ∧ i < t.fds.length ∧
      s' = s.setTable p { t with fds := t.fds.set i slot } := by
  unfold FdTables.store at stored
  split at stored
  · cases stored
  rename_i t present
  split at stored
  · rename_i inside
    cases stored
    exact ⟨t, present, inside, rfl⟩
  · cases stored

/-- `sys_close`. -/
theorem FdHistory.Sound.close (sound : FdHistory.Sound h) {fd : BitVec 64}
    (closed : h.state.sysClose p fd = some s') :
    FdHistory.Sound ⟨s', fun q => max (h.peak q) (fdLengthOf s' q)⟩ := by
  unfold FdTables.sysClose at closed
  split at closed
  · cases closed
    exact sound.unchanged
  rename_i block contents found
  split at closed
  · obtain ⟨t, present, inUse, there⟩ := getProcessFd_entry found
    obtain ⟨t', present', _, rfl⟩ := store_cases closed
    cases present.symm.trans present'
    refine sound.change (p := p) (closeSlots_owned _ sound.owned present ?_ ?_ t.fdLength)
      (fun q other => Function.update_of_ne other _ _) ?_
    · intro j other otherContents after
      rcases set_slot after with ⟨_, _, wrong⟩ | ⟨_, before⟩
      · cases wrong
      · exact before
    · intro f locked stays
      have outside : ¬ block.Holds f := by
        intro holds
        rcases set_slot (stays _ block contents there holds) with ⟨_, _, wrong⟩ | ⟨different, _⟩
        · cases wrong
        · exact different rfl
      rw [Used, free_of_not_mem _ outside]
      exact locked
    · intro t' isNew
      cases (Function.update_self p _ _).symm.trans isNew
      have table := sound.tables p t present
      dsimp only
      rw [Nat.max_eq_left table.used]
      exact table.set inUse (by simp)
  · cases closed

/-- The frame of no node keeps its lock. -/
theorem freeSlot_of_not_mem {slot : FdSlot Node}
    (outside : ∀ block contents, slot = .node block contents → ¬ block.Holds f) :
    (FdTables.freeSlot m slot).locked f = m.locked f := by
  cases slot with
  | node block contents => exact free_of_not_mem m (outside block contents rfl)
  | unassigned | null => rfl

theorem freeSlots_of_not_mem {slots : List (FdSlot Node)}
    (outside : ∀ block contents, FdSlot.node block contents ∈ slots → ¬ block.Holds f) :
    (slots.foldl FdTables.freeSlot m).locked f = m.locked f := by
  induction slots generalizing m with
  | nil => rfl
  | cons slot slots inductionHypothesis =>
      rw [List.foldl_cons, inductionHypothesis fun block contents member =>
        outside block contents (List.mem_cons_of_mem _ member)]
      exact freeSlot_of_not_mem fun block contents same => outside block contents (same ▸ List.mem_cons_self)

/-- `process_dup2`. -/
theorem FdHistory.Sound.dup2 (sound : FdHistory.Sound h) {source target : BitVec 64}
    (done : h.state.processDup2 p source target = some s') :
    FdHistory.Sound ⟨s', fun q => max (h.peak q) (fdLengthOf s' q)⟩ := by
  unfold FdTables.processDup2 at done
  split at done
  swap
  · cases done
    exact sound.unchanged
  rename_i block contents t found present
  split at done
  · obtain ⟨⟨node, m⟩, allocated, appended⟩ := Option.bind_eq_some_iff.mp done
    obtain ⟨⟨fd, _⟩, gave, rfl⟩ := Option.map_eq_some_iff.mp appended
    exact sound.append allocated gave
  split at done
  · cases done
    exact sound.unchanged
  rename_i inTable
  obtain ⟨⟨node, m⟩, allocated, stored⟩ := Option.bind_eq_some_iff.mp done
  obtain ⟨t', present', inside, rfl⟩ := store_cases stored
  cases present.symm.trans present'
  generalize target' : (FdTables.intOf target).toNat = i at *
  have inUse : i < t.fdLength := by omega
  -- first the old node goes, then the new one gets its frames
  have emptied := closeSlots_owned (m := FdTables.freeSlot h.state.frames (t.fds.getD i .null))
    (t.fds.set i .null) sound.owned present ?_ ?_ t.fdLength
  · have given := setNode_owned (p := p) (i := i) contents emptied (Function.update_self p _ _) allocated
      (fun _ _ _ _ there => there) t.fdLength
    refine sound.change (p := p) ?_ (fun q other => Function.update_of_ne other _ _) ?_
    · rw [FdTables.setTable, FdTables.setTable] at given
      dsimp only at given
      rw [Function.update_idem, List.set_set] at given
      exact given
    · intro t' isNew
      cases (Function.update_self p _ _).symm.trans isNew
      have table := sound.tables p t present
      dsimp only
      rw [Nat.max_eq_left table.used]
      exact table.set inUse (by simp)
  · intro j other otherContents after
    rcases set_slot after with ⟨_, _, wrong⟩ | ⟨_, before⟩
    · cases wrong
    · exact before
  · intro f locked stays
    rw [Used, freeSlot_of_not_mem]
    · exact locked
    · intro old oldContents same holds
      have there : t.fds[i]? = some (FdSlot.node old oldContents) := by
        rw [List.getD_eq_getElem?_getD] at same
        cases entry : t.fds[i]? with
        | none =>
            rw [entry] at same
            cases same
        | some slot =>
            rw [entry] at same
            exact congrArg some same
      rcases set_slot (stays i old oldContents there holds) with ⟨_, _, wrong⟩ | ⟨different, _⟩
      · cases wrong
      · exact different rfl

/-- A closed entry is no node, and it was written exactly if the old one was. -/
theorem closeSlot_spec (slot : FdSlot Node) :
    (∀ block contents, FdTables.closeSlot slot ≠ .node block contents) ∧
      (FdTables.closeSlot slot = .unassigned ↔ slot = .unassigned) := by
  cases slot <;> simp [FdTables.closeSlot]

/-- The loop of `sys_execve`. -/
theorem FdHistory.Sound.execve (sound : FdHistory.Sound h) (closed : h.state.sysExecve p = some s') :
    FdHistory.Sound ⟨s', fun q => max (h.peak q) (fdLengthOf s' q)⟩ := by
  unfold FdTables.sysExecve at closed
  split at closed
  · cases closed
  rename_i t present
  cases closed
  have table := sound.tables p t present
  have entries : ∀ (j : Nat) (slot : FdSlot Node),
      (t.fds.mapIdx fun i slot => if 3 ≤ i ∧ i < t.fdLength then FdTables.closeSlot slot else slot)[j]? =
        some slot → ∃ old, t.fds[j]? = some old ∧
          slot = if 3 ≤ j ∧ j < t.fdLength then FdTables.closeSlot old else old := by
    intro j slot there
    rw [List.getElem?_mapIdx, Option.map_eq_some_iff] at there
    obtain ⟨old, before, same⟩ := there
    exact ⟨old, before, same.symm⟩
  refine sound.change (p := p) (closeSlots_owned _ sound.owned present ?_ ?_ (min t.fdLength 3))
    (fun q other => Function.update_of_ne other _ _) ?_
  · intro j block contents after
    obtain ⟨old, before, same⟩ := entries j _ after
    split at same
    · exact absurd same.symm ((closeSlot_spec old).1 block contents)
    · rw [before, same]
  · intro f locked stays
    rw [Used, freeSlots_of_not_mem]
    · exact locked
    · intro block contents member holds
      obtain ⟨k, inside, there⟩ := List.mem_iff_getElem.mp member
      rw [List.length_drop, List.length_take] at inside
      rw [List.getElem_drop, List.getElem_take] at there
      have before : t.fds[3 + k]? = some (FdSlot.node block contents) :=
        List.getElem?_eq_some_iff.mpr ⟨by omega, there⟩
      obtain ⟨old, _, same⟩ := entries _ _ (stays (3 + k) block contents before holds)
      rw [if_pos ⟨by omega, by omega⟩] at same
      exact (closeSlot_spec old).1 block contents same.symm
  · intro t' isNew
    cases (Function.update_self p _ _).symm.trans isNew
    have used := table.used
    have room := table.room
    dsimp only
    rw [Nat.max_eq_left (by omega)]
    refine ⟨by dsimp only; omega, by rw [List.length_mapIdx]; exact room, fun j slot there => ?_⟩
    obtain ⟨old, before, rfl⟩ := entries j slot there
    rw [← table.written j old before]
    split
    · exact (closeSlot_spec old).2
    · exact Iff.rfl

/-! ## A fork -/

theorem slotOwns_null {slots : List (FdSlot Node)} (owns : slotOwns (.null :: slots) i f) :
    ∃ j, i = j + 1 ∧ slotOwns slots j f := by
  cases i with
  | zero =>
      obtain ⟨block, contents, there, _⟩ := owns
      cases there
  | succ j => exact ⟨j, rfl, owns⟩

theorem slotOwns_node {slots : List (FdSlot Node)} {block : HeapBlock} {contents : Node}
    (owns : slotOwns (.node block contents :: slots) i f) :
    (i = 0 ∧ block.Holds f) ∨ ∃ j, i = j + 1 ∧ slotOwns slots j f := by
  cases i with
  | zero =>
      obtain ⟨other, otherContents, there, holds⟩ := owns
      cases there
      exact Or.inl ⟨rfl, holds⟩
  | succ j => exact Or.inr ⟨j, rfl, owns⟩

/-- What the loop of `spawn_process` makes: every entry is written, the nodes are in blocks that were free,
each in one of its own, and the entries that were written are copied. -/
structure SlotsCopied (slots copies : List (FdSlot Node)) (m m' : FrameMap) : Prop where
  length : copies.length = slots.length
  written : FdSlot.unassigned ∉ copies
  takes : Takes (Used m) (Used m') fun f => ∃ i, slotOwns copies i f
  apart : ∀ i j f, slotOwns copies i f → slotOwns copies j f → i = j
  copies : FdSlot.unassigned ∉ slots → List.Forall₂ SlotCopy slots copies

theorem copySlots_spec {stale : Nat → Option Node} {slots copies : List (FdSlot Node)} {i : Nat}
    (copied : FdTables.copySlots stale i slots m = some (copies, m')) : SlotsCopied slots copies m m' := by
  induction slots generalizing i m copies with
  | nil =>
      cases copied
      refine ⟨rfl, List.not_mem_nil, (Takes.none _).congr fun f => iff_of_false ?_ id, ?_, fun _ => .nil⟩
      · rintro ⟨i, block, contents, there, _⟩
        cases there
      · rintro i j f ⟨block, contents, there, _⟩
        cases there
  | cons slot slots inductionHypothesis =>
      unfold FdTables.copySlots at copied
      dsimp only at copied
      split at copied
      · rename_i isNull
        obtain ⟨⟨rest, after⟩, made, same⟩ := Option.map_eq_some_iff.mp copied
        cases same
        have spec := inductionHypothesis made
        refine ⟨by simp [spec.length], by simp [spec.written], spec.takes.congr fun f => ?_, ?_, ?_⟩
        · constructor
          · rintro ⟨j, owns⟩
            obtain ⟨k, _, behind⟩ := slotOwns_null owns
            exact ⟨k, behind⟩
          · rintro ⟨k, owns⟩
            exact ⟨k + 1, owns⟩
        · intro j k f left right
          obtain ⟨j', rfl, left⟩ := slotOwns_null left
          obtain ⟨k', rfl, right⟩ := slotOwns_null right
          rw [spec.apart j' k' f left right]
        · intro written
          rw [List.mem_cons, not_or] at written
          refine .cons ?_ (spec.copies written.2)
          cases slot with
          | unassigned => exact absurd rfl written.1
          | null => exact .null
          | node block contents => cases isNull
      · rename_i contents isNode
        obtain ⟨⟨node, middle⟩, allocated, more⟩ := Option.bind_eq_some_iff.mp copied
        obtain ⟨⟨rest, after⟩, made, same⟩ := Option.map_eq_some_iff.mp more
        cases same
        have spec := inductionHypothesis made
        have first := malloc_takes allocated
        refine ⟨by simp [spec.length], by simp [spec.written],
          (first.trans spec.takes).congr fun f => ?_, ?_, ?_⟩
        · constructor
          · rintro ⟨j, owns⟩
            rcases slotOwns_node owns with ⟨_, holds⟩ | ⟨k, _, behind⟩
            · exact Or.inl holds
            · exact Or.inr ⟨k, behind⟩
          · rintro (holds | ⟨k, owns⟩)
            · exact ⟨0, node, contents, rfl, holds⟩
            · exact ⟨k + 1, owns⟩
        · intro j k f left right
          rcases slotOwns_node left with ⟨rfl, holds⟩ | ⟨j', rfl, left⟩
          · rcases slotOwns_node right with ⟨rfl, _⟩ | ⟨k', rfl, right⟩
            · rfl
            · exact absurd ⟨k', right⟩ (first.apart spec.takes holds)
          · rcases slotOwns_node right with ⟨rfl, holds⟩ | ⟨k', rfl, right⟩
            · exact absurd ⟨j', left⟩ (first.apart spec.takes holds)
            · rw [spec.apart j' k' f left right]
        · intro written
          rw [List.mem_cons, not_or] at written
          refine .cons ?_ (spec.copies written.2)
          cases slot with
          | unassigned => exact absurd rfl written.1
          | null => cases isNode
          | node block old =>
              cases isNode
              exact .node block node contents

/-- `spawn_process`. -/
theorem spawnProcess_cases {parent child : Nat} {stale : Nat → Option Node}
    (forked : s.spawnProcess parent child stale = some s') :
    ∃ t fds copies frames, s.tables parent = some t ∧ s.tables child = none ∧
      Takes (Used s.frames) (Used frames) (fun f => fds.Holds f ∨ ∃ i, slotOwns copies i f) ∧
      (∀ f, fds.Holds f → ¬ ∃ i, slotOwns copies i f) ∧ (∃ m, SlotsCopied t.fds copies m frames) ∧
      s' = ({ s with frames := frames } : FdTables Node).setTable child
        { block := fds, fds := copies, fdLength := t.fdLength } := by
  unfold FdTables.spawnProcess at forked
  split at forked
  · rename_i t present absent
    obtain ⟨⟨fds, middle⟩, allocated, more⟩ := Option.bind_eq_some_iff.mp forked
    obtain ⟨⟨copies, frames⟩, copied, rfl⟩ := Option.map_eq_some_iff.mp more
    have first := malloc_takes allocated
    have spec := copySlots_spec copied
    exact ⟨t, fds, copies, frames, present, absent, first.trans spec.takes,
      fun f holds => first.apart spec.takes holds, ⟨middle, spec⟩, rfl⟩
  · cases forked

/-- The tables after a fork. -/
theorem FdHistory.Sound.fork (sound : FdHistory.Sound h) {parent child : Nat} {stale : Nat → Option Node}
    (forked : h.state.spawnProcess parent child stale = some s') :
    FdHistory.Sound ⟨s', fun q => if q = child then fdCapacityOf s' q else h.peak q⟩ := by
  obtain ⟨t, fds, copies, frames, present, absent, takes, arrayApart, ⟨_, spec⟩, rfl⟩ :=
    spawnProcess_cases forked
  have origin : ∀ owner f, fdOwns (({ h.state with frames := frames } : FdTables Node).setTable child
      { block := fds, fds := copies, fdLength := t.fdLength }) owner f →
        fdOwns h.state owner f ∨ (owner = (child, none) ∧ fds.Holds f) ∨
          ∃ i, owner = (child, some i) ∧ slotOwns copies i f := by
    rintro ⟨q, part⟩ f has
    rw [fdOwns_setTable] at has
    split at has
    · rename_i same
      cases same
      cases part with
      | none => exact Or.inr (Or.inl ⟨rfl, has⟩)
      | some i => exact Or.inr (Or.inr ⟨i, rfl, has⟩)
    · exact Or.inl has
  refine ⟨sound.owned.take takes (fun owner f has => ?_) fun a b f new left right => ?_, ?_⟩
  · rcases origin owner f has with old | ⟨_, holds⟩ | ⟨i, _, owns⟩
    · exact Or.inl old
    · exact Or.inr (Or.inl holds)
    · exact Or.inr (Or.inr ⟨i, owns⟩)
  · have isFree : ∀ owner, ¬ fdOwns h.state owner f := fun owner old =>
      takes.fresh new (sound.owned.inUse old)
    rcases origin a f left with old | ⟨rfl, holds⟩ | ⟨i, rfl, owns⟩
    · exact absurd old (isFree a)
    · rcases origin b f right with old | ⟨rfl, _⟩ | ⟨j, rfl, owns⟩
      · exact absurd old (isFree b)
      · rfl
      · exact absurd ⟨j, owns⟩ (arrayApart f holds)
    · rcases origin b f right with old | ⟨rfl, holds⟩ | ⟨j, rfl, others⟩
      · exact absurd old (isFree b)
      · exact absurd ⟨i, owns⟩ (arrayApart f holds)
      · rw [spec.apart i j f owns others]
  · intro q t' isTable
    change Function.update h.state.tables child _ q = some t' at isTable
    dsimp only
    by_cases isChild : q = child
    · subst isChild
      rw [Function.update_self] at isTable
      cases isTable
      have table := sound.tables parent t present
      have used := table.used
      have room := table.room
      rw [if_pos rfl, fdCapacityOf_setTable]
      refine ⟨by dsimp only; rw [spec.length]; omega, Nat.le_refl _, fun i slot there => ?_⟩
      obtain ⟨inside, _⟩ := List.getElem?_eq_some_iff.mp there
      refine iff_of_false (fun same => spec.written ?_) (Nat.not_le_of_lt inside)
      rw [← same]
      exact List.mem_of_getElem? there
    · rw [Function.update_of_ne isChild] at isTable
      rw [if_neg isChild]
      exact sound.tables q t' isTable

/-- One call. -/
theorem FdHistory.Sound.step (sound : FdHistory.Sound h) (keeps : KeepsTables h call)
    (stepped : h.step call = some h') : FdHistory.Sound h' := by
  obtain ⟨s', performed, rfl⟩ := Option.map_eq_some_iff.mp stepped
  cases call with
  | sysOpen p opened =>
      cases opened with
      | none =>
          cases performed
          exact sound.unchanged
      | some contents =>
          obtain ⟨⟨node, m⟩, allocated, more⟩ := Option.bind_eq_some_iff.mp performed
          obtain ⟨⟨fd, _⟩, gave, rfl⟩ := Option.map_eq_some_iff.mp more
          exact sound.append allocated gave
  | sysClose p fd => exact sound.close performed
  | processDup2 p source target => exact sound.dup2 performed
  | sysExecve p => exact sound.execve performed
  | fork parent child stale => exact sound.fork performed
  | elsewhere frames =>
      cases performed
      refine sound.change (p := 0) (sound.owned.release (fun _ _ has => has) fun owner f has _ =>
        keeps owner f has) (fun _ _ => rfl) fun t present => ?_
      have before := sound.tables 0 t present
      rw [Nat.max_eq_left before.used]
      exact before

/-- The table that `spawn_init` makes. -/
theorem spawnInit_sound {start : FdTables Node} (started : FdTables.spawnInit m = some start) :
    FdHistory.Sound ⟨start, fun _ => 0⟩ := by
  obtain ⟨⟨fds, frames⟩, allocated, rfl⟩ := Option.map_eq_some_iff.mp started
  have only : ∀ (p : Nat) (t : FdTable Node),
      (Function.update (fun _ => none) 1 (some (FdTables.initTable fds)) : Nat → Option (FdTable Node)) p =
        some t → p = 1 ∧ t = FdTables.initTable fds := by
    intro p t present
    by_cases same : p = 1
    · subst same
      rw [Function.update_self] at present
      exact ⟨rfl, (Option.some.inj present).symm⟩
    · rw [Function.update_of_ne same] at present
      cases present
  have array : ∀ owner f, fdOwns (⟨frames, Function.update (fun _ => none) 1
      (some (FdTables.initTable fds))⟩ : FdTables Node) owner f → owner = (1, none) ∧ fds.Holds f := by
    rintro ⟨q, part⟩ f ⟨t, present, owns⟩
    obtain ⟨rfl, rfl⟩ := only q t present
    cases part with
    | none => exact ⟨rfl, owns⟩
    | some i =>
        obtain ⟨block, contents, there, _⟩ := owns
        rw [FdTables.initTable, List.getElem?_replicate] at there
        split at there <;> cases there
  refine ⟨⟨fun left right => ?_, fun has => ?_⟩, fun p t present => ?_⟩
  · rw [(array _ _ left).1, (array _ _ right).1]
  · exact (malloc_takes allocated).after.mpr (Or.inr (array _ _ has).2)
  · obtain ⟨rfl, rfl⟩ := only p t present
    refine ⟨Nat.le_refl _, Nat.zero_le _, fun i slot there => ?_⟩
    rw [FdTables.initTable, List.getElem?_replicate] at there
    split at there
    · cases there
      exact iff_of_true rfl (Nat.zero_le _)
    · cases there

/-- In every run from `spawn_init`, a fork reads written entries only and gives the child private copies
exactly if the largest number of descriptors that the table of the parent has had is its capacity. -/
theorem fork_copies_iff {start : FdTables Node} {calls : List (FdTableCall Node)} {parent child : Nat}
    {stale : Nat → Option Node} (started : FdTables.spawnInit m = some start)
    (run : Run FdHistory.step KeepsTables ⟨start, fun _ => 0⟩ calls h)
    (forked : h.state.spawnProcess parent child stale = some s') :
    ForkCopies h.state s' parent child ↔ h.peak parent = fdCapacityOf h.state parent := by
  have sound : FdHistory.Sound h :=
    run.invariant (fun _ _ _ keeps stepped sound => sound.step keeps stepped) (spawnInit_sound started)
  have after := sound.fork forked
  obtain ⟨t, fds, copies, frames, present, absent, _, _, ⟨_, spec⟩, rfl⟩ := spawnProcess_cases forked
  have table := sound.tables parent t present
  have capacity : fdCapacityOf h.state parent = t.fds.length := by
    rw [fdCapacityOf, present]
    rfl
  have room := table.room
  rw [capacity]
  constructor
  · intro sound
    by_contra different
    have inArray : h.peak parent < t.fds.length := by omega
    have isFresh := (table.written (h.peak parent) _ (List.getElem?_eq_getElem inArray)).mpr (Nat.le_refl _)
    refine sound.written t present ?_
    rw [← isFresh]
    exact List.getElem_mem inArray
  · intro isFull
    have written : FdSlot.unassigned ∉ t.fds := by
      intro member
      obtain ⟨i, there⟩ := List.mem_iff_getElem?.mp member
      obtain ⟨inside, _⟩ := List.getElem?_eq_some_iff.mp there
      have late := (table.written i _ there).mp rfl
      omega
    refine ⟨?_, ?_, ?_, fun part f owner left right => (after.owned.unique left right).symm⟩
    · refine Function.update_of_ne ?_ _ _
      rintro rfl
      rw [present] at absent
      cases absent
    · intro t' present'
      cases present.symm.trans present'
      exact written
    · intro t' present'
      cases present.symm.trans present'
      exact ⟨_, Function.update_self _ _ _, rfl, spec.copies written⟩

end

/-- 128 free frames. -/
def spareFrames : FrameMap := { nFrames := 128, locked := fun _ => false, lowestAvailable := 0 }

/-- A check of the calls of a process. -/
def FdTableCall.isOwn : FdTableCall Unit → Bool
  | .elsewhere _ => false
  | _ => true

theorem FdTableCall.isOwn_sound (h : FdHistory Unit) (call : FdTableCall Unit) (own : call.isOwn = true) :
    KeepsTables h call := by
  cases call with
  | elsewhere frames => cases own
  | sysOpen | sysClose | processDup2 | sysExecve | fork => trivial

/-- A run from `spawn_init`, and a fork after it, that end with some facts. -/
theorem fork_of_checked {calls : List (FdTableCall Unit)} {facts : FdHistory Unit → Bool}
    (completes : ((FdTables.spawnInit spareFrames).bind fun start =>
      Run.exec (fun h call => if FdTableCall.isOwn call then FdHistory.step h call else none)
        ⟨start, fun _ => 0⟩ calls).any (fun h =>
          (h.state.spawnProcess 1 2 fun _ => none).isSome && facts h) = true) :
    ∃ start h s', FdTables.spawnInit spareFrames = some start ∧
      Run FdHistory.step KeepsTables ⟨start, fun _ => 0⟩ calls h ∧
      h.state.spawnProcess 1 2 (fun _ => none) = some s' ∧ facts h = true := by
  obtain ⟨h, ran, holds⟩ := (Option.any_eq_true _ _).mp completes
  obtain ⟨start, started, executed⟩ := Option.bind_eq_some_iff.mp ran
  rw [Bool.and_eq_true] at holds
  obtain ⟨s', forked⟩ := Option.isSome_iff_exists.mp holds.1
  exact ⟨start, h, s', started, Run.of_checked FdTableCall.isOwn_sound executed, forked, holds.2⟩

/-- The first process opens 32 files, closes one, and forks. -/
theorem fork_copies_iff_example : ∃ (start : FdTables Unit) (h : FdHistory Unit) (s' : FdTables Unit),
    FdTables.spawnInit spareFrames = some start ∧
    Run FdHistory.step KeepsTables ⟨start, fun _ => 0⟩
      (List.replicate 32 (.sysOpen 1 (some ())) ++ [.sysClose 1 3]) h ∧
    h.state.spawnProcess 1 2 (fun _ => none) = some s' ∧ ForkCopies h.state s' 1 2 := by
  have completes : ((FdTables.spawnInit spareFrames).bind fun start =>
      Run.exec (fun h call => if FdTableCall.isOwn call then FdHistory.step h call else none)
        ⟨start, fun _ => 0⟩ (List.replicate 32 (.sysOpen 1 (some ())) ++ [.sysClose 1 3])).any (fun h =>
          (h.state.spawnProcess 1 2 fun _ => none).isSome &&
            decide (h.peak 1 = fdCapacityOf h.state 1)) = true := by
    decide +kernel
  obtain ⟨start, h, s', started, run, forked, isFull⟩ := fork_of_checked completes
  exact ⟨start, h, s', started, run, forked,
    (fork_copies_iff started run forked).mpr (of_decide_eq_true isFull)⟩

/-- The first process opens three files and forks: 29 entries were never written. -/
theorem fork_reads_unwritten : ∃ (start : FdTables Unit) (h : FdHistory Unit) (s' : FdTables Unit),
    FdTables.spawnInit spareFrames = some start ∧
    Run FdHistory.step KeepsTables ⟨start, fun _ => 0⟩ (List.replicate 3 (.sysOpen 1 (some ()))) h ∧
    h.state.spawnProcess 1 2 (fun _ => none) = some s' ∧ ¬ ForkCopies h.state s' 1 2 := by
  have completes : ((FdTables.spawnInit spareFrames).bind fun start =>
      Run.exec (fun h call => if FdTableCall.isOwn call then FdHistory.step h call else none)
        ⟨start, fun _ => 0⟩ (List.replicate 3 (.sysOpen 1 (some ())))).any (fun h =>
          (h.state.spawnProcess 1 2 fun _ => none).isSome &&
            (h.state.tables 1).any fun t => decide (FdSlot.unassigned ∈ t.fds)) = true := by
    decide +kernel
  obtain ⟨start, h, s', started, run, forked, ends⟩ := fork_of_checked completes
  obtain ⟨t, present, unwritten⟩ := (Option.any_eq_true _ _).mp ends
  exact ⟨start, h, s', started, run, forked, fun copies =>
    copies.written t present (of_decide_eq_true unwritten)⟩

end Voxel.Proofs
