/-
Module: Voxel.Proofs.TwinMemory
Layer: Proofs
Purpose: Two memories with the same page tables and the same locked frames, which differ in what is in the free
  frames and in the bytes at some addresses of one process. The operations on the page tables do the same on
  both: they read the entries of tables, and no table is among the bytes in which the two differ. A page that
  is mapped brings its bytes in, and a store takes one out.
Trusted boundary: none
Main exports: CellOf, Twins, Twins.sameTable, Twins.userRead_eq, ensureTable_twins, sbrkPage_twins,
  storeByte_twins, kernelStore_twins
-/
import Voxel.Lib.ByteMemory
import Voxel.Proofs.FreeTables
import Voxel.Proofs.LoadPages

namespace Voxel.Proofs

open Voxel.Lib Voxel.Kernel

/-- A byte of a frame is the one at an address of the process. -/
def CellOf (m : Mmu) (root : Nat) (left : BitVec 64 → Prop) (frame : Nat) (w : Fin 512) (b : Nat) : Prop :=
  ∃ a : BitVec 64, a.toNat < 0x800000000000 ∧ left a ∧ wordIndex a = w ∧ byteIndex a = b ∧
    frameAt m root (addrPath a) = some frame

/-- The memories differ in free frames, and in the bytes at some addresses of a process. -/
structure Twins (root : Nat) (left : BitVec 64 → Prop) (m n : Mmu) : Prop where
  frames : n.frames = m.frames
  refcounts : n.memRefcounts = m.memRefcounts
  current : n.currentPml = m.currentPml
  bytes : ∀ frame, m.frames.locked frame = true → ∀ w, ∀ b < 8, ¬CellOf m root left frame w b →
    readByte (n.phys frame w) b = readByte (m.phys frame w) b

section

variable {strict : Prop} {live : Set Nat} {m m' n n' : Mmu} {root table frame : Nat} {l w : Fin 512} {p : Path}
  {b : Nat} {left left' : BitVec 64 → Prop} {address : BitVec 64}

theorem CellOf.congr (cell : CellOf m root left frame w b)
    (same : ∀ v, UserPage v → frameAt m root v = some frame → frameAt m' root v = some frame) :
    CellOf m' root left frame w b := by
  obtain ⟨a, low, isLeft, word, byte, here⟩ := cell
  exact ⟨a, low, isLeft, word, byte, same _ (addrPath_user (pml4Entry_low low)) here⟩

/-- The bytes of a process are in no table. -/
theorem CellOf.noTable (cell : CellOf m root left frame w b) (spaces : AddressSpaces strict m live)
    (member : root ∈ live) : ¬IsTable m live frame := by
  obtain ⟨a, low, -, -, -, here⟩ := cell
  obtain ⟨e, maps, rfl⟩ := Option.map_eq_some_iff.mp here
  exact (spaces.mapped _ _ (pagesOf_of_page member (addrPath_user (pml4Entry_low low)) maps)).2.2.2

namespace Twins

theorem word (twins : Twins root left m n) (locked : m.frames.locked frame = true)
    (none_ : ∀ b, ¬CellOf m root left frame w b) : n.phys frame w = m.phys frame w :=
  word_ext fun b inside => twins.bytes frame locked w b inside (none_ b)

/-- The tables are the same. -/
theorem sameTable (twins : Twins root left m n) (spaces : AddressSpaces strict m live) (member : root ∈ live)
    (isTable : IsTable m live table) : n.phys table = m.phys table :=
  funext fun _ => twins.word (spaces.tables.locked _ isTable).1 fun _ cell =>
    cell.noTable spaces member isTable

/-- The address spaces of both are the same. -/
theorem content (twins : Twins root left m n) (spaces : AddressSpaces strict m live) (member : root ∈ live) :
    AddressSpaces strict n live ∧
      (∀ root' ∈ live, ∀ q, UserTable q → tableAt n root' q = tableAt m root' q) ∧
      ∀ root' ∈ live, ∀ v, UserPage v → pageAt n root' v = pageAt m root' v :=
  spaces.content twins.frames twins.refcounts fun _ isTable => twins.sameTable spaces member isTable

/-- A byte that is not among those in which they differ is read in both. -/
theorem userRead_eq (twins : Twins root left m n) (spaces : AddressSpaces strict m live) (member : root ∈ live)
    (low : address.toNat < 0x800000000000)
    (noCell : ∀ e, pageAt m root (addrPath address) = some e →
      ¬CellOf m root left e.page.toNat (wordIndex address) (byteIndex address)) :
    userRead n root address = userRead m root address := by
  have page := addrPath_user (pml4Entry_low low)
  rw [userRead, userRead, userEntry_eq, userEntry_eq, (twins.content spaces member).2.2 root member _ page]
  cases maps : pageAt m root (addrPath address) with
  | none => rfl
  | some e =>
      have locked : m.frames.locked e.page.toNat = true :=
        (spaces.mapped _ _ (pagesOf_of_page member page maps)).1
      have inside : byteIndex address < 8 := Nat.mod_lt _ (by decide)
      rw [Option.map_some, Option.map_some, twins.bytes _ locked _ _ inside (noCell e maps)]

/-- A change of both memories: a locked word is the same in both afterwards, or as it was before. -/
theorem change (twins : Twins root left m n) (frames : n'.frames = m'.frames)
    (refcounts : n'.memRefcounts = m'.memRefcounts) (current : n'.currentPml = m'.currentPml)
    (cells : ∀ frame w b, CellOf m root left frame w b → CellOf m' root left' frame w b)
    (words : ∀ frame, m'.frames.locked frame = true → ∀ w, n'.phys frame w = m'.phys frame w ∨
      (m.frames.locked frame = true ∧ m'.phys frame w = m.phys frame w ∧
        n'.phys frame w = n.phys frame w) ∨ ∀ b < 8, CellOf m' root left' frame w b) :
    Twins root left' m' n' := by
  refine ⟨frames, refcounts, current, fun frame locked w b inside noCell => ?_⟩
  rcases words frame locked w with same | ⟨before, old, old'⟩ | all
  · rw [same]
  · rw [old, old']
    exact twins.bytes frame before w b inside fun cell => noCell (cells _ _ _ cell)
  · exact absurd (all b inside) noCell

end Twins

/-! ## Tables -/

/-- What making a table does depends on the bitmap only. -/
theorem makeTable_same {newPage : Nat} (made : makeTable m table l = some (newPage, m'))
    (frames : n.frames = m.frames) :
    ∃ n', makeTable n table l = some (newPage, n') ∧ n'.frames = m'.frames := by
  unfold makeTable Mmu.requestFrame at made ⊢
  rw [frames]
  cases requested : mmuRequestFrame m.frames with
  | none =>
      rw [requested] at made
      cases made
  | some result =>
      rw [requested] at made
      cases made
      exact ⟨_, rfl, rfl⟩

/-- Nothing but free frames is different. -/
def SameLocked (m n : Mmu) : Prop := Twins m.currentPml (fun _ => False) m n

theorem CellOf.not_none (cell : CellOf m root (fun _ => False) frame w b) : False := by
  obtain ⟨a, -, isLeft, -⟩ := cell
  exact isLeft

theorem SameLocked.locked (same : SameLocked m n) (locked : m.frames.locked frame = true) :
    n.phys frame = m.phys frame :=
  funext fun _ => Twins.word same locked fun _ cell => cell.not_none

theorem SameLocked.of_words (frames : n.frames = m.frames) (refcounts : n.memRefcounts = m.memRefcounts)
    (current : n.currentPml = m.currentPml)
    (words : ∀ frame, m.frames.locked frame = true → n.phys frame = m.phys frame) : SameLocked m n :=
  ⟨frames, refcounts, current, fun frame locked w _ _ _ => by rw [words frame locked]⟩

/-- Two clones of a directory of `base`, side by side: the frames that were locked are as they were. -/
structure CloneTwins (base m n : Mmu) : Prop where
  same : SameLocked m n
  locks : ∀ f, base.frames.locked f = true → m.frames.locked f = true
  kept : ∀ f, base.frames.locked f = true → m.phys f = base.phys f

theorem CloneTwins.setWord {base : Mmu} {tableOut : Nat} {i : Fin 512} {word : BitVec 64}
    (twins : CloneTwins base m n) (new : base.frames.locked tableOut = false) :
    CloneTwins base (m.setWord tableOut i word) (n.setWord tableOut i word) := by
  refine ⟨.of_words twins.same.frames twins.same.refcounts twins.same.current fun f locked => ?_,
    twins.locks, fun f locked => ?_⟩
  · have same := twins.same.locked locked
    by_cases isOut : f = tableOut
    · subst isOut
      simp [Mmu.setWord, same]
    · rw [setWord_phys_frame _ _ isOut, setWord_phys_frame _ _ isOut, same]
  · have isOld : f ≠ tableOut := by
      rintro rfl
      rw [new] at locked
      cases locked
    rw [setWord_phys_frame _ _ isOld]
    exact twins.kept f locked

/-- A table is made for both. -/
theorem CloneTwins.makeTable {base : Mmu} {tableOut newPage : Nat} {i : Fin 512}
    (twins : CloneTwins base m n) (new : base.frames.locked tableOut = false)
    (out : m.frames.locked tableOut = true)
    (made : Kernel.makeTable m tableOut i = some (newPage, m')) :
    ∃ n', Kernel.makeTable n tableOut i = some (newPage, n') ∧ CloneTwins base m' n' ∧
      base.frames.locked newPage = false ∧ m'.frames.locked newPage = true ∧
      m'.frames.locked tableOut = true := by
  have linked := makeTable_spec made
  obtain ⟨n', made', frames⟩ := makeTable_same made twins.same.frames
  have linked' := makeTable_spec made'
  have fresh : base.frames.locked newPage = false := by
    rw [← Bool.not_eq_true]
    intro locked
    have free := linked.free
    rw [twins.locks newPage locked] at free
    cases free
  have different : newPage ≠ tableOut := by
    rintro rfl
    have free := linked.free
    rw [out] at free
    cases free
  refine ⟨n', made', ⟨.of_words frames ?_ ?_ fun f locked => ?_, fun f locked => linked.keeps (twins.locks f locked),
    fun f locked => ?_⟩, fresh, by rw [linked.locks, Function.update_self], linked.keeps out⟩
  · exact linked'.refcounts.trans (twins.same.refcounts.trans linked.refcounts.symm)
  · exact linked'.current.trans (twins.same.current.trans linked.current.symm)
  · funext w
    by_cases isNew : f = newPage
    · subst isNew
      rw [linked.cleared different, linked'.cleared different]
    · by_cases here : f = tableOut ∧ w = i
      · obtain ⟨rfl, rfl⟩ := here
        rw [linked.link, linked'.link]
      · have elsewhere : f ≠ tableOut ∨ w ≠ i := not_and_or.mp here
        rw [linked.locks, Function.update_of_ne isNew] at locked
        rw [linked.others _ _ isNew elsewhere, linked'.others _ _ isNew elsewhere, twins.same.locked locked]
  · have isOld : f ≠ newPage ∧ f ≠ tableOut := by
      constructor
      · rintro rfl
        rw [fresh] at locked
        cases locked
      · rintro rfl
        rw [new] at locked
        cases locked
    funext w
    rw [linked.others _ _ isOld.1 (.inl isOld.2), twins.kept f locked]

/-- Two states of `mmu_free`, side by side: no word has changed. -/
structure FreeTwins (start start' m n : Mmu) : Prop where
  phys : m.phys = start.phys
  phys' : n.phys = start'.phys
  frames : n.frames = m.frames
  refcounts : n.memRefcounts = m.memRefcounts
  current : n.currentPml = m.currentPml

/-- A frame is released in both. -/
theorem FreeTwins.releaseFrame {start start' : Mmu} (twins : FreeTwins start start' m n) (frame : Nat) :
    FreeTwins start start' (m.releaseFrame frame) (n.releaseFrame frame) :=
  ⟨twins.phys, twins.phys', by rw [Mmu.releaseFrame, twins.frames, Mmu.releaseFrame], twins.refcounts,
    twins.current⟩

/-- The count of a page is taken down in both. -/
theorem FreeTwins.decrease {start start' : Mmu} (twins : FreeTwins start start' m n) (frame : Nat) :
    (refcountDecrease n frame).1 = (refcountDecrease m frame).1 ∧
      FreeTwins start start' (refcountDecrease m frame).2 (refcountDecrease n frame).2 := by
  unfold refcountDecrease
  rw [twins.frames, twins.refcounts]
  split
  · exact ⟨rfl, twins⟩
  · split
    · exact ⟨rfl, twins⟩
    · refine ⟨rfl, twins.phys, twins.phys', twins.frames, ?_, twins.current⟩
      show Function.update n.memRefcounts _ _ = Function.update m.memRefcounts _ _
      rw [twins.refcounts]

theorem FreeTwins.freePage {start start' : Mmu} (twins : FreeTwins start start' m n)
    (word : start'.phys table l = start.phys table l) :
    FreeTwins start start' (Kernel.freePage m table l) (Kernel.freePage n table l) := by
  have entry : n.entry table l = m.entry table l :=
    entry_congr (by rw [twins.phys', twins.phys, word])
  unfold Kernel.freePage
  rw [entry]
  split
  · exact twins.releaseFrame _
  · obtain ⟨count, decreased⟩ := twins.decrease (m.entry table l).page.toNat
    dsimp only
    rw [count]
    split
    · exact decreased.releaseFrame _
    · exact decreased

end

end Voxel.Proofs
