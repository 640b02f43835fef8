/-
Module: Voxel.Proofs.FreeTables
Layer: Proofs
Purpose: What `mmu_free` does to the bitmap: it locks nothing, releases every table of the directory, and
  touches no frame but these tables and the frames of its pages.
Trusted boundary: none
Main exports: GivenBack, freeTable_givenBack, mmuFree_givenBack
-/
import Voxel.Proofs.CloneFrames
import Voxel.Proofs.Free
import Voxel.Proofs.AllocFailure

namespace Voxel.Proofs

open Voxel.Kernel
open Voxel.Lib

/-- The part `R` of a directory was given back. -/
structure GivenBack (start : Mmu) (root : Nat) (R : Path → Prop) (m : Mmu) : Prop where
  phys : m.phys = start.phys
  nFrames : m.frames.nFrames = start.frames.nFrames
  fewer : ∀ f, m.frames.locked f = true → start.frames.locked f = true
  tables : ∀ q f, UserTable q → R q → tableAt start root q = some f → m.frames.locked f = false
  others : ∀ f, start.frames.locked f = true →
    (∀ q, UserTable q → R q → tableAt start root q ≠ some f) →
    (∀ v, UserPage v → R v → frameAt start root v ≠ some f) → m.frames.locked f = true

section

variable {start m : Mmu} {live : Set Nat} {root table : Nat} {R S : Path → Prop} {p : Path}

/-- Places without tables and pages do not matter. -/
theorem GivenBack.congr (givenBack : GivenBack start root R m)
    (tables : ∀ q, UserTable q → tableAt start root q ≠ none → (R q ↔ S q))
    (pages : ∀ v, UserPage v → pageAt start root v ≠ none → (R v ↔ S v)) :
    GivenBack start root S m where
  phys := givenBack.phys
  nFrames := givenBack.nFrames
  fewer := givenBack.fewer
  tables := by
    intro q f user inside at_
    refine givenBack.tables q f user ((tables q user ?_).mpr inside) at_
    rw [at_]
    exact Option.some_ne_none f
  others := by
    intro f locked noTable noPage
    refine givenBack.others f locked (fun q user inside at_ => ?_) fun v page inside at_ => ?_
    · refine noTable q user ((tables q user ?_).mp inside) at_
      rw [at_]
      exact Option.some_ne_none f
    · refine noPage v page ((pages v page ?_).mp inside) at_
      intro missing
      rw [frameAt, missing] at at_
      cases at_

/-- Nothing but one frame is released. -/
structure Released (frame : Nat) (m m' : Mmu) : Prop where
  phys : m'.phys = m.phys
  nFrames : m'.frames.nFrames = m.frames.nFrames
  fewer : ∀ f, m'.frames.locked f = true → m.frames.locked f = true
  others : ∀ f, f ≠ frame → m'.frames.locked f = m.frames.locked f

theorem releaseFrame_released (m : Mmu) (frame : Nat) : Released frame m (m.releaseFrame frame) where
  phys := rfl
  nFrames := mmuReleaseFrame_nFrames _ _
  fewer := fun _ locked => ((mmuReleaseFrame_locked_iff _ _ _).mp locked).1
  others := fun _ other => mmuReleaseFrame_of_ne _ other

theorem freePage_released (m : Mmu) (table : Nat) (l : Fin 512) :
    Released (m.entry table l).page.toNat m (freePage m table l) := by
  have decreased : (refcountDecrease m (m.entry table l).page.toNat).2.phys = m.phys ∧
      (refcountDecrease m (m.entry table l).page.toNat).2.frames = m.frames := by
    unfold refcountDecrease
    split
    · exact ⟨rfl, rfl⟩
    · split
      · exact ⟨rfl, rfl⟩
      · exact ⟨rfl, rfl⟩
  unfold freePage
  dsimp only
  split
  · exact releaseFrame_released m _
  · obtain ⟨phys, frames⟩ := decreased
    have released := releaseFrame_released (refcountDecrease m (m.entry table l).page.toNat).2
      (m.entry table l).page.toNat
    split
    · refine ⟨released.phys.trans phys, released.nFrames.trans (by rw [frames]), fun f locked => ?_,
        fun f other => ?_⟩
      · have before := released.fewer f locked
        rwa [frames] at before
      · rw [released.others f other, frames]
    · exact ⟨phys, by rw [frames], fun f locked => by rwa [frames] at locked,
        fun f _ => by rw [frames]⟩

/-- A page is given back. -/
theorem GivenBack.givePage (givenBack : GivenBack start root R m) {m' : Mmu} {v : Path} {frame : Nat}
    (page : UserPage v) (maps : frameAt start root v = some frame) (released : Released frame m m') :
    GivenBack start root (fun q => R q ∨ q = v) m' where
  phys := released.phys.trans givenBack.phys
  nFrames := released.nFrames.trans givenBack.nFrames
  fewer := fun f locked => givenBack.fewer f (released.fewer f locked)
  tables := by
    rintro q f user (inside | rfl) at_
    · by_contra locked
      have before := released.fewer f (by simpa using locked)
      rw [givenBack.tables q f user inside at_] at before
      cases before
    · have long := page.1
      have short := user.1
      omega
  others := by
    intro f locked noTable noPage
    rw [released.others f fun same => noPage v page (Or.inr rfl) (by rw [maps, same])]
    exact givenBack.others f locked (fun q user inside => noTable q user (Or.inl inside))
      fun w page' inside => noPage w page' (Or.inl inside)

/-- A table is given back. -/
theorem GivenBack.giveTable (givenBack : GivenBack start root R m) {frame : Nat} {q : Path}
    (user : UserTable q)
    (inside : frame < start.frames.nFrames) (at_ : tableAt start root q = some frame) :
    GivenBack start root (fun q' => R q' ∨ q' = q) (m.releaseFrame frame) where
  phys := givenBack.phys
  nFrames := (releaseFrame_released m frame).nFrames.trans givenBack.nFrames
  fewer := fun f locked => givenBack.fewer f ((releaseFrame_released m frame).fewer f locked)
  tables := by
    rintro q' f user' (inside' | rfl) at_'
    · by_contra locked
      have before := (releaseFrame_released m frame).fewer f (by simpa using locked)
      rw [givenBack.tables q' f user' inside' at_'] at before
      cases before
    · rw [at_] at at_'
      obtain rfl := Option.some.inj at_'
      by_contra locked
      have locked : (mmuReleaseFrame m.frames frame).locked frame = true := by
        rwa [Bool.not_eq_false] at locked
      refine ((mmuReleaseFrame_locked_iff m.frames frame frame).mp locked).2 ⟨?_, rfl⟩
      rw [givenBack.nFrames]
      exact inside
  others := by
    intro f locked noTable noPage
    rw [(releaseFrame_released m frame).others f fun same =>
      noTable q user (Or.inr rfl) (by rw [at_, same])]
    exact givenBack.others f locked (fun q' user' inside' => noTable q' user' (Or.inl inside'))
      fun v page inside' => noPage v page (Or.inl inside')

/-- A loop over the entries of a table whose every iteration gives back what is below its entry. -/
theorem foldRange_givenBack {body : Nat → Mmu → Mmu} {count : Nat}
    (each : ∀ i b (Q : Path → Prop), i < count → GivenBack start root Q b →
      GivenBack start root (fun q => Q q ∨ (Fin.ofNat 512 i :: p) <:+ q) (body i b))
    (givenBack : GivenBack start root R m) :
    GivenBack start root (fun q => R q ∨ Below p count q) (foldRange body 0 count m) := by
  have whole := @foldRange_invariant _ body
    (fun i b => GivenBack start root (fun q => R q ∨ Below p i q) b) 0 count ?_ m ?_
  · rwa [Nat.zero_add] at whole
  · intro i b _ inside soFar
    rw [Nat.zero_add] at inside
    refine (each i b _ inside soFar).congr (fun q _ _ => ?_) fun v _ _ => ?_
    · rw [below_succ, or_assoc]
    · rw [below_succ, or_assoc]
  · have empty : ∀ {q}, ¬ Below p 0 q := fun below => Nat.not_lt_zero _ below.choose_spec.1
    exact givenBack.congr (fun q _ _ => (or_iff_left empty).symm) fun v _ _ => (or_iff_left empty).symm

/-- The nested loops of `mmu_free`, from the table at a path on. -/
theorem freeTable_givenBack (tables : Tables start live) (member : root ∈ live) :
    ∀ (level : Nat) {count table : Nat} {p : Path} {R : Path → Prop} {m : Mmu},
      p.length + level = 3 → IsUser p → (p = [] → count ≤ 256) →
      tableAt start root p = some table → GivenBack start root R m →
      GivenBack start root (fun q => R q ∨ Below p count q) (freeTable level count table m) := by
  intro level
  induction level with
  | zero =>
      intro count table p R m depth user low at_ givenBack
      rw [freeTable]
      refine foldRange_givenBack (fun i b Q inside givenBack => ?_) givenBack
      have page := @userPage_entry p i depth user
      have only : ∀ {v}, UserPage v → ((Fin.ofNat 512 i :: p) <:+ v ↔ v = Fin.ofNat 512 i :: p) :=
        fun page' => ⟨fun suffix => (suffix.eq_of_length (page.1.trans page'.1.symm)).symm,
          fun same => same ▸ List.suffix_refl _⟩
      have noTable : ∀ {q}, UserTable q → ¬ (Fin.ofNat 512 i :: p) <:+ q := by
        intro q user suffix
        have lengths := suffix.length_le
        have short := user.1
        rw [page.1] at lengths
        omega
      have entry : b.entry table (Fin.ofNat 512 i) = start.entry table (Fin.ofNat 512 i) := by
        rw [Mmu.entry, givenBack.phys, Mmu.entry]
      have maps := pageAt_cons at_ (Fin.ofNat 512 i)
      rw [entry]
      split
      · rename_i access
        rw [if_pos access] at maps
        refine (givenBack.givePage page (by rw [frameAt, maps]; rfl)
          (entry ▸ freePage_released b table (Fin.ofNat 512 i))).congr (fun q user _ => ?_)
          fun v page' _ => by rw [only page']
        exact or_congr_right ⟨fun same => same ▸ List.suffix_refl _,
          fun suffix => absurd suffix (noTable user)⟩
      · rename_i noAccess
        rw [if_neg noAccess] at maps
        refine givenBack.congr (fun q user _ => (or_iff_left (noTable user)).symm) fun v page' mapped =>
          (or_iff_left fun suffix => mapped ?_).symm
        rw [(only page').mp suffix, maps]
  | succ level inductionHypothesis =>
      intro count table p R m depth user low at_ givenBack
      rw [freeTable]
      refine foldRange_givenBack (fun i b Q inside givenBack => ?_) givenBack
      have userInner := userTable_entry depth user inside low
      have entry : b.entry table (Fin.ofNat 512 i) = start.entry table (Fin.ofNat 512 i) := by
        rw [Mmu.entry, givenBack.phys, Mmu.entry]
      dsimp only
      rw [entry]
      split
      · rename_i present
        have inner := tables.tableAt_present member userInner at_ present
        have frame := (tables.locked _ ⟨root, member, _, userInner, inner⟩).2.1
        have loop := @inductionHypothesis 512 _ _ _ _ (by simp only [List.length_cons]; omega)
          userInner.2 (fun empty => absurd empty (List.cons_ne_nil _ _)) inner givenBack
        have split : ∀ {q}, (Fin.ofNat 512 i :: p) <:+ q ↔
            Below (Fin.ofNat 512 i :: p) 512 q ∨ q = Fin.ofNat 512 i :: p := by
          intro q
          constructor
          · intro suffix
            rcases Nat.lt_or_ge (Fin.ofNat 512 i :: p).length q.length with longer | short
            · exact Or.inl (below_of_suffix suffix longer)
            · exact Or.inr (suffix.eq_of_length (Nat.le_antisymm suffix.length_le short)).symm
          · rintro (⟨j, -, suffix⟩ | rfl)
            · exact (List.suffix_cons _ _).trans suffix
            · exact List.suffix_refl _
        refine (loop.giveTable userInner frame inner).congr (fun q _ _ => ?_) fun v _ _ => ?_
        · rw [split, or_assoc]
        · rw [split, or_assoc]
      · rename_i absent
        have missing := tableAt_absent at_ (by simpa using absent)
        refine givenBack.congr (fun q _ found => (or_iff_left fun suffix => found ?_).symm)
          fun v page mapped => (or_iff_left fun suffix => mapped ?_).symm
        · exact tableAt_none_of_suffix missing suffix
        · refine pageAt_none_of_suffix missing suffix ?_
          rw [page.1]
          exact Nat.lt_succ_of_le userInner.1

/-- `mmu_free` gives back the whole directory. -/
theorem mmuFree_givenBack (tables : Tables start live) (member : root ∈ live) :
    GivenBack start root (fun _ => True) (mmuFree start (some root)) := by
  have initially : GivenBack start root (fun _ => False) start :=
    ⟨rfl, rfl, fun _ locked => locked, fun _ _ _ inside => absurd inside id, fun _ locked _ _ => locked⟩
  have frame := (tables.locked root ⟨root, member, [], ⟨Nat.zero_le _, trivial⟩, rfl⟩).2.1
  have loop := freeTable_givenBack tables member 3 (p := []) rfl trivial (fun _ => Nat.le_refl 256) rfl
    initially
  have isRoot : UserTable [] := ⟨Nat.zero_le _, trivial⟩
  refine (loop.giveTable isRoot frame rfl).congr (fun q user _ => ?_) fun v page _ => ?_
  · rcases userTable_below user with rfl | below
    · simp
    · simp [below]
  · simp [below_root page]

end

end Voxel.Proofs
