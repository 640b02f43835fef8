/-
Module: Voxel.Proofs.UserCount
Layer: Proofs
Purpose: What `mmu_count_user` counts. It takes the directory for the present entry `j` of a directory
  pointer table from entry `j` of the root, so that it counts every directory pointer table and every
  directory of the user half, but below these the tables and pages of other directories. Its result is the
  number of user tables and pages exactly if these directories hold as many together as the right ones.
Trusted boundary: none
Main exports: reachedTables, reachedPages, reachedTables_ncard, mmuCountUser_eq, count_user_iff
-/
import Mathlib.Data.Set.Finite.List
import Voxel.Lib.SuffixCount
import Voxel.Proofs.CloneFrames
import Voxel.Proofs.RefCounts

namespace Voxel.Proofs

open Voxel.Kernel
open Voxel.Lib

variable {m : Mmu} {pml table : Nat} {p : Path}

/-! ## What there is to count -/

/-- The user tables below the root, by the paths that lead to them. -/
def reachedTables (m : Mmu) (pml : Nat) : Set Path :=
  {q | q ≠ [] ∧ UserTable q ∧ (tableAt m pml q).isSome}

/-- The present user pages, by the paths that lead to them. -/
def reachedPages (m : Mmu) (pml : Nat) : Set Path := {v | UserPage v ∧ (pageAt m pml v).isSome}

/-- No present entry of a directory pointer table or a directory of the user half is a large page. -/
def NoLargePages (m : Mmu) (pml : Nat) : Prop :=
  ∀ i p table, UserTable (i :: p) → p ≠ [] → tableAt m pml p = some table →
    (m.entry table i).present = true → (m.entry table i).size = false

/-- The number of user pages below a table of the user half. -/
def pagesBelow (m : Mmu) : Nat → Nat → Nat → Nat
  | 0, count, table =>
      ∑ i ∈ Finset.range count,
        if (m.entry table (Fin.ofNat 512 i)).present && (m.entry table (Fin.ofNat 512 i)).user then 1 else 0
  | level + 1, count, table =>
      ∑ i ∈ Finset.range count,
        if (m.entry table (Fin.ofNat 512 i)).present then
          pagesBelow m level 512 (m.entry table (Fin.ofNat 512 i)).page.toNat
        else 0

/-- The page tables and the user pages below a directory. -/
def contents (m : Mmu) (pd : Nat) : Nat := tablesBelow m 1 512 pd + pagesBelow m 1 512 pd

/-- The present entries of the directory pointer tables of the user half, each by its index into the root
and its index into the table. -/
def directories (m : Mmu) (pml : Nat) : Finset (Nat × Nat) :=
  (Finset.range 256 ×ˢ Finset.range 512).filter fun d =>
    (m.entry pml (Fin.ofNat 512 d.1)).present ∧
      (m.entry (m.entry pml (Fin.ofNat 512 d.1)).page.toNat (Fin.ofNat 512 d.2)).present

/-- Over all of these, the frames that the root names at the second index hold as many page tables and user
pages as the directories. -/
def SameContents (m : Mmu) (pml : Nat) : Prop :=
  ∑ d ∈ directories m pml, contents m (m.entry pml (Fin.ofNat 512 d.2)).page.toNat =
    ∑ d ∈ directories m pml,
      contents m (m.entry (m.entry pml (Fin.ofNat 512 d.1)).page.toNat (Fin.ofNat 512 d.2)).page.toNat

/-! ## Counting paths -/

theorem reachedTables_finite : (reachedTables m pml).Finite :=
  (List.finite_length_le (Fin 512) 3).subset fun _ reached => reached.2.1.1

theorem reachedPages_finite : (reachedPages m pml).Finite :=
  (List.finite_length_le (Fin 512) 4).subset fun _ reached => reached.1.1.le

/-- The next steps as indices. -/
theorem ncard_under_range {R : Set Path} (finite : R.Finite) (p : Path) [Decidable (p ∈ R)] :
    (under R p).ncard = (if p ∈ R then 1 else 0) +
      ∑ i ∈ Finset.range 512, (under R (Fin.ofNat 512 i :: p)).ncard := by
  rw [ncard_under finite, Finset.sum_range]
  simp only [Fin.ofNat_val_eq_self]

/-- Nothing is reached below an entry that leads nowhere. -/
theorem under_empty {R : Set Path} (none_ : ∀ q ∈ R, ¬p <:+ q) : (under R p).ncard = 0 := by
  rw [Set.ncard_eq_zero (Set.Finite.subset Set.finite_empty fun q both => none_ q both.1 both.2)]
  exact Set.eq_empty_of_forall_notMem fun q both => none_ q both.1 both.2

/-- A set of user paths lies below the first 256 entries of the root. -/
theorem ncard_user {R : Set Path} (finite : R.Finite) (user : ∀ q ∈ R, q ≠ [] ∧ IsUser q) :
    R.ncard = ∑ i ∈ Finset.range 256, (under R [Fin.ofNat 512 i]).ncard := by
  classical
  have noRoot : ([] : Path) ∉ R := fun member => (user [] member).1 rfl
  rw [← under_nil (R := R), ncard_under_range finite, if_neg noRoot, Nat.zero_add, under_nil]
  refine (Finset.sum_subset (Finset.range_mono (by decide)) fun i inside outside => ?_).symm
  refine under_empty fun q member below => outside (Finset.mem_range.mpr ?_)
  have low : IsUser [Fin.ofNat 512 i] := (user q member).2.suffix below
  rw [IsUser, Fin.val_ofNat, Nat.mod_eq_of_lt (Finset.mem_range.mp inside)] at low
  exact low

/-- The table behind a present entry. -/
theorem NoLargePages.tableAt (noLarge : NoLargePages m pml) {i : Fin 512} (user : UserTable (i :: p))
    (at_ : tableAt m pml p = some table) (present : (m.entry table i).present = true) :
    Proofs.tableAt m pml (i :: p) = some (m.entry table i).page.toNat := by
  rw [tableAt_cons at_, child, present]
  cases p with
  | nil => rfl
  | cons j p =>
      rw [noLarge i (j :: p) table user (List.cons_ne_nil j p) at_ present]
      rfl

/-- The tables below a table. -/
theorem tables_under (noLarge : NoLargePages m pml) :
    ∀ (level : Nat) {count table : Nat} {p : Path}, p.length + level = 3 → IsUser p →
      (p = [] → count ≤ 256) → tableAt m pml p = some table →
      ∑ i ∈ Finset.range count, (under (reachedTables m pml) (Fin.ofNat 512 i :: p)).ncard =
        tablesBelow m level count table := by
  classical
  intro level
  induction level with
  | zero =>
      intro count table p depth _ _ _
      rw [tablesBelow]
      refine Finset.sum_eq_zero fun i _ => under_empty fun q reached below => ?_
      have longer := below.length_le
      have short := reached.2.1.1
      rw [List.length_cons] at longer
      omega
  | succ level inductionHypothesis =>
      intro count table p depth user low at_
      rw [tablesBelow]
      refine Finset.sum_congr rfl fun i inside => ?_
      have inner := userTable_entry depth user (Finset.mem_range.mp inside) low
      split
      · rename_i present
        have there := noLarge.tableAt inner at_ present
        have reached : Fin.ofNat 512 i :: p ∈ reachedTables m pml :=
          ⟨List.cons_ne_nil _ _, inner, by rw [there]; rfl⟩
        rw [ncard_under_range reachedTables_finite, if_pos reached,
          inductionHypothesis (by simp only [List.length_cons]; omega) inner.2
            (fun empty => absurd empty (List.cons_ne_nil _ _)) there]
      · rename_i absent
        have missing := tableAt_absent at_ (by simpa using absent)
        refine under_empty fun q reached below => ?_
        have found := reached.2.2
        rw [tableAt_none_of_suffix missing below] at found
        cases found

/-- The pages below a table. -/
theorem pages_under (noLarge : NoLargePages m pml) :
    ∀ (level : Nat) {count table : Nat} {p : Path}, p.length + level = 3 → IsUser p →
      (p = [] → count ≤ 256) → tableAt m pml p = some table →
      ∑ i ∈ Finset.range count, (under (reachedPages m pml) (Fin.ofNat 512 i :: p)).ncard =
        pagesBelow m level count table := by
  classical
  intro level
  induction level with
  | zero =>
      intro count table p depth user _ at_
      rw [pagesBelow]
      refine Finset.sum_congr rfl fun i _ => ?_
      have page := @userPage_entry p i depth user
      have deepest : ∑ j ∈ Finset.range 512,
          (under (reachedPages m pml) (Fin.ofNat 512 j :: Fin.ofNat 512 i :: p)).ncard = 0 := by
        refine Finset.sum_eq_zero fun j _ => under_empty fun q reached below => ?_
        have longer := below.length_le
        rw [reached.1.1, List.length_cons, page.1] at longer
        omega
      rw [ncard_under_range reachedPages_finite, deepest, Nat.add_zero]
      refine if_congr ?_ rfl rfl
      show UserPage _ ∧ (pageAt m pml _).isSome ↔ _
      rw [pageAt_cons at_, Option.isSome_ite]
      exact and_iff_right page
  | succ level inductionHypothesis =>
      intro count table p depth user low at_
      rw [pagesBelow]
      refine Finset.sum_congr rfl fun i inside => ?_
      have inner := userTable_entry depth user (Finset.mem_range.mp inside) low
      split
      · rename_i present
        have there := noLarge.tableAt inner at_ present
        have upper : Fin.ofNat 512 i :: p ∉ reachedPages m pml := by
          intro reached
          have short := inner.1
          rw [reached.1.1] at short
          omega
        rw [ncard_under_range reachedPages_finite, if_neg upper, Nat.zero_add,
          inductionHypothesis (by simp only [List.length_cons]; omega) inner.2
            (fun empty => absurd empty (List.cons_ne_nil _ _)) there]
      · rename_i absent
        have missing := tableAt_absent at_ (by simpa using absent)
        refine under_empty fun q reached below => ?_
        have found := reached.2
        have deeper : (Fin.ofNat 512 i :: p).length < q.length := by
          rw [reached.1.1]
          exact Nat.lt_succ_of_le inner.1
        rw [pageAt_none_of_suffix missing below deeper] at found
        cases found

/-- The tables that there are. -/
theorem reachedTables_ncard (noLarge : NoLargePages m pml) :
    (reachedTables m pml).ncard = tablesBelow m 3 256 pml := by
  rw [ncard_user reachedTables_finite fun q reached => ⟨reached.1, reached.2.1.2⟩]
  exact tables_under noLarge 3 (p := []) rfl trivial (fun _ => Nat.le_refl _) rfl

/-- The pages that there are. -/
theorem reachedPages_ncard (noLarge : NoLargePages m pml) :
    (reachedPages m pml).ncard = pagesBelow m 3 256 pml := by
  rw [ncard_user reachedPages_finite fun v reached => ⟨?_, reached.1.2⟩]
  · exact pages_under noLarge 3 (p := []) rfl trivial (fun _ => Nat.le_refl _) rfl
  · rintro rfl
    cases reached.1.1

/-! ## What the loops add -/

/-- A counting loop whose body adds to the result. -/
theorem foldRange_sum {body : Nat → Nat → Nat} {f : Nat → Nat} (adds : ∀ i out, body i out = out + f i)
    (start count out : Nat) :
    foldRange body start count out = out + ∑ i ∈ Finset.range count, f (start + i) := by
  induction count generalizing start out with
  | zero => rfl
  | succ count inductionHypothesis =>
      have shifted : ∀ i, start + 1 + i = start + (i + 1) := fun i => by omega
      rw [foldRange, adds, inductionHypothesis, Finset.sum_range_succ']
      simp only [shifted, Nat.add_zero]
      omega

/-- A loop that adds to the result where an entry leads on. -/
theorem foldRange_where {leads : Nat → Prop} [DecidablePred leads] {inner : Nat → Nat → Nat}
    {f : Nat → Nat} (adds : ∀ i out, inner i out = out + f i) (count out : Nat) :
    foldRange (fun i out => if leads i then inner i out else out) 0 count out =
      out + ∑ i ∈ Finset.range count, if leads i then f i else 0 := by
  rw [foldRange_sum (f := fun i => if leads i then f i else 0) fun i out => ?_]
  · simp only [Nat.zero_add]
  · split
    · exact adds i out
    · rfl

/-- The innermost loop. -/
theorem countPages_eq (m : Mmu) (pt out : Nat) :
    foldRange (fun l out =>
      if (m.entry pt (Fin.ofNat 512 l)).present && (m.entry pt (Fin.ofNat 512 l)).user then out + 1
      else out) 0 512 out = out + pagesBelow m 0 512 pt :=
  foldRange_where (fun _ _ => rfl) 512 out

theorem contents_eq (m : Mmu) (pd : Nat) :
    contents m pd = ∑ k ∈ Finset.range 512,
      if (m.entry pd (Fin.ofNat 512 k)).present then
        1 + pagesBelow m 0 512 (m.entry pd (Fin.ofNat 512 k)).page.toNat
      else 0 := by
  rw [contents, tablesBelow, pagesBelow, ← Finset.sum_add_distrib]
  refine Finset.sum_congr rfl fun k _ => ?_
  split
  · rw [tablesBelow, Nat.add_zero]
  · rfl

/-- The loop over a directory. -/
theorem countContents_eq (m : Mmu) (pd out : Nat) :
    foldRange (fun k out =>
      if (m.entry pd (Fin.ofNat 512 k)).present then
        foldRange (fun l out =>
          if (m.entry (m.entry pd (Fin.ofNat 512 k)).page.toNat (Fin.ofNat 512 l)).present &&
              (m.entry (m.entry pd (Fin.ofNat 512 k)).page.toNat (Fin.ofNat 512 l)).user then
            out + 1
          else out) 0 512 (out + 1)
      else out) 0 512 out = out + contents m pd := by
  rw [contents_eq]
  refine foldRange_where (f := fun k => 1 + pagesBelow m 0 512 (m.entry pd (Fin.ofNat 512 k)).page.toNat)
    (fun k out => ?_) 512 out
  rw [countPages_eq, Nat.add_assoc]

/-- The result: the contents of the frames that the root names, for the present directories. -/
theorem mmuCountUser_eq (m : Mmu) (pml : Nat) :
    mmuCountUser m pml = ∑ i ∈ Finset.range 256,
      if (m.entry pml (Fin.ofNat 512 i)).present then
        1 + ∑ j ∈ Finset.range 512,
          if (m.entry (m.entry pml (Fin.ofNat 512 i)).page.toNat (Fin.ofNat 512 j)).present then
            1 + contents m (m.entry pml (Fin.ofNat 512 j)).page.toNat
          else 0
      else 0 := by
  rw [← Nat.zero_add (Finset.sum _ _)]
  unfold mmuCountUser
  refine foldRange_where (f := fun i => 1 + ∑ j ∈ Finset.range 512,
    if (m.entry (m.entry pml (Fin.ofNat 512 i)).page.toNat (Fin.ofNat 512 j)).present then
      1 + contents m (m.entry pml (Fin.ofNat 512 j)).page.toNat
    else 0) (fun i out => ?_) 256 0
  rw [← Nat.add_assoc]
  refine foldRange_where (f := fun j => 1 + contents m (m.entry pml (Fin.ofNat 512 j)).page.toNat)
    (fun j out => ?_) 512 (out + 1)
  rw [countContents_eq, Nat.add_assoc]

/-- The number of user tables and pages, in the same shape. -/
theorem reached_eq (m : Mmu) (pml : Nat) :
    tablesBelow m 3 256 pml + pagesBelow m 3 256 pml = ∑ i ∈ Finset.range 256,
      if (m.entry pml (Fin.ofNat 512 i)).present then
        1 + ∑ j ∈ Finset.range 512,
          if (m.entry (m.entry pml (Fin.ofNat 512 i)).page.toNat (Fin.ofNat 512 j)).present then
            1 + contents m (m.entry (m.entry pml (Fin.ofNat 512 i)).page.toNat (Fin.ofNat 512 j)).page.toNat
          else 0
      else 0 := by
  rw [tablesBelow, pagesBelow, ← Finset.sum_add_distrib]
  refine Finset.sum_congr rfl fun i _ => ?_
  split
  · rw [tablesBelow, pagesBelow, Nat.add_assoc, ← Finset.sum_add_distrib]
    refine congrArg (1 + ·) (Finset.sum_congr rfl fun j _ => ?_)
    split
    · rw [contents, Nat.add_assoc]
    · rfl
  · rfl

/-- Such a sum is the number of the directory pointer tables and the directories, and what is added for
each directory. -/
theorem directories_sum (m : Mmu) (pml : Nat) (f : Nat → Nat → Nat) :
    (∑ i ∈ Finset.range 256,
      if (m.entry pml (Fin.ofNat 512 i)).present then
        1 + ∑ j ∈ Finset.range 512,
          if (m.entry (m.entry pml (Fin.ofNat 512 i)).page.toNat (Fin.ofNat 512 j)).present then 1 + f i j
          else 0
      else 0) =
      (∑ i ∈ Finset.range 256, if (m.entry pml (Fin.ofNat 512 i)).present then 1 else 0) +
        (directories m pml).card + ∑ d ∈ directories m pml, f d.1 d.2 := by
  rw [Finset.card_eq_sum_ones, Nat.add_assoc, ← Finset.sum_add_distrib, directories, Finset.sum_filter,
    Finset.sum_product, ← Finset.sum_add_distrib]
  refine Finset.sum_congr rfl fun i _ => ?_
  split
  · rename_i present
    refine congrArg (1 + ·) (Finset.sum_congr rfl fun j _ => ?_)
    exact if_congr (and_iff_right present).symm rfl rfl
  · rename_i absent
    rw [Finset.sum_eq_zero fun j _ => if_neg fun both => absent both.1, Nat.add_zero]

/-- The property, in sums. -/
theorem count_user_sums (noLarge : NoLargePages m pml) :
    mmuCountUser m pml = (reachedTables m pml).ncard + (reachedPages m pml).ncard ↔ SameContents m pml := by
  rw [reachedTables_ncard noLarge, reachedPages_ncard noLarge, reached_eq, mmuCountUser_eq,
    directories_sum m pml fun _ j => contents m (m.entry pml (Fin.ofNat 512 j)).page.toNat,
    directories_sum m pml fun i j =>
      contents m (m.entry (m.entry pml (Fin.ofNat 512 i)).page.toNat (Fin.ofNat 512 j)).page.toNat]
  exact Nat.add_left_cancel_iff

/-- For a directory without large pages in the user half `mmu_count_user` returns the number of user tables
below the root, as many as `mmu_clone` makes besides the new root, and of present user pages, exactly if the
frames that the root names hold as much as the directories. -/
theorem count_user_iff (m : Mmu) (pml : Nat) (noLarge : NoLargePages m pml) :
    (reachedTables m pml).ncard = tablesBelow m 3 256 pml ∧
    (mmuCountUser m pml = (reachedTables m pml).ncard + (reachedPages m pml).ncard ↔
      SameContents m pml) :=
  ⟨reachedTables_ncard noLarge, count_user_sums noLarge⟩

/-! ## A page at 1 GiB -/

/-- A process whose only page is the first one above 1 GiB: its directory hangs from entry 1 of the
directory pointer table, and entry 1 of the root is empty. -/
def pageAboveOneGiB : Mmu :=
  { onePage 2048 with
    phys := Function.update (onePage 2048).phys 2 fun i => if i = 1 then tableWord 3 else 0 }

theorem pageAboveOneGiB_noLarge : NoLargePages pageAboveOneGiB 1 := by
  intro i p table _ _ _ _
  have small : ∀ frame < 6, (PagemapEntry.ofWord (tableWord frame)).size = false := fun frame few =>
    (tableWord_entry (by omega)).2.1
  have empty : (PagemapEntry.ofWord 0).size = false := rfl
  unfold Mmu.entry pageAboveOneGiB
  dsimp only
  rcases eq_or_ne table 2 with rfl | other
  · rw [Function.update_self]
    split
    · exact small 3 (by decide)
    · exact empty
  · rw [Function.update_of_ne other]
    unfold onePage onePageOf
    dsimp only
    split_ifs
    · unfold only
      split
      · exact small 2 (by decide)
      · exact empty
    · unfold only
      split
      · exact small 4 (by decide)
      · exact empty
    · unfold only
      split
      · exact small 5 (by decide)
      · exact empty
    · exact empty

theorem pageAboveOneGiB_root {i : Nat} (inside : i < 512)
    (present : (pageAboveOneGiB.entry 1 (Fin.ofNat 512 i)).present = true) : i = 0 := by
  by_contra later
  have single : pageAboveOneGiB.phys 1 = only (tableWord 2) := rfl
  rw [only_absent single (later_ne_zero (Nat.pos_of_ne_zero later) inside)] at present
  cases present

theorem pageAboveOneGiB_pointers {j : Nat} (inside : j < 512)
    (present : (pageAboveOneGiB.entry 2 (Fin.ofNat 512 j)).present = true) : j = 1 := by
  by_contra other
  have different : Fin.ofNat 512 j ≠ 1 := by
    intro same
    have value := congrArg Fin.val same
    rw [Fin.val_ofNat, Nat.mod_eq_of_lt inside] at value
    exact other value
  have absent : pageAboveOneGiB.phys 2 (Fin.ofNat 512 j) = 0 := by
    unfold pageAboveOneGiB
    dsimp only
    rw [Function.update_self, if_neg different]
  rw [Mmu.entry, absent] at present
  cases present

/-- The directory of this process. -/
theorem pageAboveOneGiB_directories : directories pageAboveOneGiB 1 = {(0, 1)} := by
  have first : (pageAboveOneGiB.entry 1 (Fin.ofNat 512 0)).page.toNat = 2 :=
    (tableWord_entry (by decide)).2.2
  ext ⟨i, j⟩
  rw [directories, Finset.mem_filter, Finset.mem_product, Finset.mem_range, Finset.mem_range,
    Finset.mem_singleton]
  constructor
  · rintro ⟨⟨low, inside⟩, present, present'⟩
    obtain rfl := pageAboveOneGiB_root (Nat.lt_trans low (by decide)) present
    rw [first] at present'
    obtain rfl : j = 1 := pageAboveOneGiB_pointers inside present'
    rfl
  · rintro same
    cases same
    refine ⟨⟨by decide, by decide⟩, (@tableWord_entry 2 (by decide)).1, ?_⟩
    rw [first]
    exact (@tableWord_entry 3 (by decide)).1

/-- The frame that the root names for it holds nothing, and the directory a page table: the page table and
the page are not counted. -/
theorem count_user_misses_page :
    NoLargePages pageAboveOneGiB 1 ∧
      mmuCountUser pageAboveOneGiB 1 ≠
        (reachedTables pageAboveOneGiB 1).ncard + (reachedPages pageAboveOneGiB 1).ncard := by
  refine ⟨pageAboveOneGiB_noLarge, fun counted => ?_⟩
  have same := (count_user_sums pageAboveOneGiB_noLarge).mp counted
  have first : (pageAboveOneGiB.entry 1 (Fin.ofNat 512 0)).page.toNat = 2 :=
    (tableWord_entry (by decide)).2.2
  have second : (pageAboveOneGiB.entry 2 (Fin.ofNat 512 1)).page.toNat = 3 :=
    (tableWord_entry (by decide)).2.2
  have wrong : (pageAboveOneGiB.entry 1 (Fin.ofNat 512 1)).page.toNat = 0 := rfl
  rw [SameContents, pageAboveOneGiB_directories, Finset.sum_singleton, Finset.sum_singleton, wrong, first,
    second, contents_eq, contents_eq] at same
  have nothing : ∀ k : Nat, ¬(pageAboveOneGiB.entry 0 (Fin.ofNat 512 k)).present = true := by
    intro k
    have word : pageAboveOneGiB.phys 0 (Fin.ofNat 512 k) = 0 := rfl
    rw [Mmu.entry, word]
    decide
  have there : (pageAboveOneGiB.entry 3 (Fin.ofNat 512 0)).present = true :=
    (@tableWord_entry 4 (by decide)).1
  rw [Finset.sum_eq_zero fun k _ => if_neg (nothing k)] at same
  have table := Finset.sum_eq_zero_iff.mp same.symm 0 (Finset.mem_range.mpr (by decide))
  rw [if_pos there] at table
  omega

/-- The theorem at this process. -/
theorem count_user_iff_page :
    (reachedTables pageAboveOneGiB 1).ncard = tablesBelow pageAboveOneGiB 3 256 1 ∧
    (mmuCountUser pageAboveOneGiB 1 =
        (reachedTables pageAboveOneGiB 1).ncard + (reachedPages pageAboveOneGiB 1).ncard ↔
      SameContents pageAboveOneGiB 1) :=
  count_user_iff pageAboveOneGiB 1 pageAboveOneGiB_noLarge

end Voxel.Proofs
