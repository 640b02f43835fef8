/-
Module: Voxel.Proofs.TerminalPaths
Layer: Proofs
Purpose: What `kopen` finds at the path of a terminal. `atoi` takes back the number that `itoa` has written,
  so the path leads through the mounted `/dev/pts` to the first entry of `pty_map` with this name.
Trusted boundary: none
Main exports: atoi_itoa, itoaText_ten, itoa_component, ptyGet_ptyRemove, PtsMounted, kopen_pts,
  kopen_pts_device
-/
import Voxel.Kernel.Terminals
import Voxel.Proofs.ItoaAtoi
import Voxel.Proofs.PathResolution

namespace Voxel.Proofs

open Voxel.Lib Voxel.Kernel

/-! ## Numbers -/

/-- `itoa` in base ten makes the digits of the number. -/
theorem itoaLoop_numeral {rounds n : Nat} (some_ : 0 < rounds) (fits : n < 10 ^ rounds) :
    (itoaLoop rounds n).reverse = numeral 10 alphabetDigit (digitCount 10 n) n := by
  have characters : ∀ d < 10, BitVec.ofNat 8 (0x30 + d) = alphabetDigit d := by decide
  induction rounds generalizing n with
  | zero => cases some_
  | succ rounds inductionHypothesis =>
      rw [itoaLoop, List.reverse_cons, characters _ (Nat.mod_lt _ (by decide))]
      by_cases single : n < 10
      · rw [if_pos (Nat.div_eq_of_lt single), digitCount_of_lt single]
        rfl
      · have more : n / 10 ≠ 0 := by omega
        have fewer : n / 10 < 10 ^ rounds := by
          rw [Nat.div_lt_iff_lt_mul (by decide)]
          rwa [Nat.pow_succ] at fits
        have someRounds : 0 < rounds := by
          rcases Nat.eq_zero_or_pos rounds with rfl | some_
          · rw [Nat.zero_add, Nat.pow_one] at fits
            exact absurd fits single
          · exact some_
        rw [if_neg more, inductionHypothesis someRounds fewer,
          digitCount_of_le (by decide) (Nat.le_of_not_lt single), numeral]

/-- `atoi` takes back what `itoa` has written. -/
theorem atoi_itoa {target : Int} (small : target.natAbs < 10 ^ 20) :
    atoi (itoa target) 10 = BitVec.ofInt 64 target := by
  unfold atoi itoa
  have digits := fun sign => @atoiLoop_numeral 10 (by decide) (by decide)
    _ _ (lt_pow_digitCount (by decide) target.natAbs) [] sign
  simp only [List.append_nil] at digits
  rw [if_neg (by decide), List.reverse_append, itoaLoop_numeral (by decide) small]
  split
  · rename_i negative
    have minus : atoiLoop 10 ([0x2D].reverse ++
        numeral 10 alphabetDigit (digitCount 10 target.natAbs) target.natAbs) false 0 =
          atoiLoop 10 (numeral 10 alphabetDigit (digitCount 10 target.natAbs) target.natAbs) true 0 := rfl
    rw [minus, digits, atoiLoop, if_pos rfl, ← BitVec.ofInt_natCast, ← BitVec.ofInt_neg]
    congr 1
    omega
  · rename_i positive
    rw [List.reverse_nil, List.nil_append, digits, atoiLoop, if_neg (by decide), ← BitVec.ofInt_natCast]
    congr 1
    omega

/-- In base ten `itoa` writes the text that it writes in every radix. -/
theorem itoaText_ten (target : BitVec 64) : itoaText 10 target = itoa target.toInt := by
  have least := BitVec.le_toInt target
  have most := BitVec.toInt_lt (x := target)
  have digits := @itoaLoop_numeral 20 target.toInt.natAbs (by decide) (by omega)
  unfold itoaText itoa
  rw [List.reverse_append, digits, digitsOf]
  by_cases negative : target.toInt < 0
  · rw [if_pos (slt_zero_iff.mpr negative), if_pos negative]
    rfl
  · rw [if_neg (mt slt_zero_iff.mp negative), if_neg negative]
    rfl

/-- The name that a terminal has in `/dev/pts`. -/
theorem atoi_index (index : BitVec 32) : (atoi (itoa index.toInt) 10).toInt = index.toInt := by
  have low := BitVec.le_toInt index
  have high := BitVec.toInt_lt (x := index)
  rw [atoi_itoa (by omega), BitVec.toInt_ofInt]
  apply Int.bmod_eq_of_le <;> omega

/-- The characters of a number. -/
theorem itoaLoop_digits {rounds n : Nat} {c : BitVec 8} (member : c ∈ itoaLoop rounds n) :
    ∃ d < 10, c = BitVec.ofNat 8 (0x30 + d) := by
  induction rounds generalizing n with
  | zero => cases member
  | succ rounds inductionHypothesis =>
      rw [itoaLoop] at member
      rcases List.mem_cons.mp member with rfl | later
      · exact ⟨n % 10, Nat.mod_lt _ (by decide), rfl⟩
      · split at later
        · cases later
        · exact inductionHypothesis later

theorem itoaLoop_length (rounds n : Nat) : (itoaLoop rounds n).length ≤ rounds := by
  induction rounds generalizing n with
  | zero => exact Nat.le_refl 0
  | succ rounds inductionHypothesis =>
      rw [itoaLoop, List.length_cons]
      split
      · exact Nat.succ_le_succ (Nat.zero_le _)
      · exact Nat.succ_le_succ (inductionHypothesis _)

/-- A number is at most 21 characters long. -/
theorem itoa_length (target : Int) : (itoa target).length ≤ 21 := by
  have digits := itoaLoop_length 20 target.natAbs
  unfold itoa
  rw [List.length_reverse, List.length_append]
  split
  · exact Nat.add_le_add digits (Nat.le_refl 1)
  · exact Nat.add_le_add digits (Nat.zero_le 1)

/-- A number is one component of a path. -/
theorem itoa_component (target : Int) : IsComponent (itoa target) := by
  have digit : ∀ d < 10, BitVec.ofNat 8 (0x30 + d) ≠ slash ∧ BitVec.ofNat 8 (0x30 + d) ≠ nul := by decide
  have plain : ∀ c ∈ itoa target, c ≠ slash ∧ c ≠ nul := by
    intro c member
    unfold itoa at member
    rcases List.mem_append.mp (List.mem_reverse.mp member) with isDigit | isSign
    · obtain ⟨d, small, rfl⟩ := itoaLoop_digits isDigit
      exact digit d small
    · split at isSign
      · rw [List.mem_singleton.mp isSign]
        decide
      · cases isSign
  refine ⟨?_, fun member => (plain _ member).1 rfl, fun member => (plain _ member).2 rfl⟩
  unfold itoa
  rw [Ne, List.reverse_eq_nil_iff, List.append_eq_nil_iff, itoaLoop]
  exact fun empty => List.cons_ne_nil _ _ empty.1

/-! ## pty_map -/

section Map

variable {ptyMap : List PtyMapEntry} {index : Int} {pty : Terminal}

/-- Another name is found as before. -/
theorem ptyGet_ptyRemove {other : Int} (different : other ≠ index) :
    ptyGet (ptyRemove ptyMap other) index = ptyGet ptyMap index := by
  unfold ptyGet ptyRemove
  congr 1
  induction ptyMap with
  | nil => rfl
  | cons entry rest inductionHypothesis =>
      rw [List.eraseP_cons]
      by_cases removed : entry.index = other
      · rw [decide_eq_true removed, cond_true, List.find?_cons_of_neg]
        rw [decide_eq_true_eq, removed]
        exact different
      · rw [decide_eq_false removed, cond_false, List.find?_cons, List.find?_cons, inductionHypothesis]

/-- A terminal that is found has an entry. -/
theorem ptyGet_member (found : ptyGet ptyMap index = some pty) :
    ∃ entry ∈ ptyMap, entry.index = index ∧ entry.pty = pty := by
  obtain ⟨entry, isFound, same⟩ := Option.map_eq_some_iff.mp found
  have chosen : decide (entry.index = index) = true :=
    @List.find?_some _ (fun entry : PtyMapEntry => decide (entry.index = index)) _ _ isFound
  exact ⟨entry, List.mem_of_find?_eq_some isFound, of_decide_eq_true chosen, same⟩

end Map

/-! ## kopen -/

/-- The components of the path of a terminal. -/
def devComponent : CString := "dev".toList.map chr

def ptsComponent : CString := "pts".toList.map chr

/-- `/dev` is there, `/dev/pts` is mounted, and nothing is mounted below it. -/
structure PtsMounted {Other : Type} (files : OpenFiles (TerminalNode Other)) : Prop where
  dev : files.system.vfs.getMountpoint (absolutePath [devComponent]) ≠ none ∨
    files.system.finddirNode files.mounts.root devComponent ≠ none
  pts : ∃ attributes, files.system.vfs.getMountpoint (absolutePath [devComponent, ptsComponent]) =
    some { device := .foreign .ptyDir, attributes := attributes }
  free : ∀ index, files.system.vfs.getMountpoint (ptsPath index) = none

section Kopen

variable {Other : Type} {s : TerminalFiles Other}

theorem ptsPath_front :
    "/dev/pts/".toList.map chr = slash :: devComponent ++ slash :: ptsComponent ++ [slash] := rfl

theorem ptsPath_eq (index : BitVec 32) :
    ptsPath index = absolutePath [devComponent, ptsComponent, itoa index.toInt] := by
  have path : ptsPath index = slash :: devComponent ++ slash :: ptsComponent ++ [slash] ++ itoa index.toInt :=
    congrArg (· ++ itoa index.toInt) ptsPath_front
  refine path.trans ?_
  simp only [absolutePath, List.flatMap_cons, List.flatMap_nil, List.append_nil, List.cons_append,
    List.append_assoc, List.nil_append]

/-- The components of the path of a terminal are proper. -/
theorem ptsPath_components (index : BitVec 32) :
    ∀ c ∈ [devComponent, ptsComponent, itoa index.toInt], IsComponent c := by
  intro c member
  simp only [List.mem_cons, List.not_mem_nil, or_false] at member
  rcases member with rfl | rfl | rfl
  · exact ⟨by decide, by decide, by unfold IsCString; decide⟩
  · exact ⟨by decide, by decide, by unfold IsCString; decide⟩
  · exact itoa_component _

/-- The path leads to `/dev/pts`, and from there through `finddir_pty`. -/
theorem resolve_pts (mounted : PtsMounted s.files) (index : BitVec 32) :
    ∃ attributes, resolve s.view.system.vfs s.view.system.fsRoot [] [devComponent, ptsComponent] =
        some { device := .foreign .ptyDir, attributes := attributes } ∧
      resolve s.view.system.vfs s.view.system.fsRoot []
          [devComponent, ptsComponent, itoa index.toInt] =
        (ptyGet s.ptyMap index.toInt).map fun pty =>
          { device := .foreign (.slave pty), attributes := pty.slave } := by
  obtain ⟨attributes, pts⟩ := mounted.pts
  have ptsHere : s.view.system.vfs.getMountpoint (absolutePath [devComponent, ptsComponent]) =
      some { device := .foreign .ptyDir, attributes := attributes } := pts
  have free : s.view.system.vfs.getMountpoint
      (absolutePath [devComponent, ptsComponent, itoa index.toInt]) = none := by
    rw [← ptsPath_eq]
    exact mounted.free index
  -- behind /dev, whatever it is
  have behind : ∀ (node : FsNode (TerminalNode Other)) (more : List CString),
      resolve s.view.system.vfs node [devComponent] (ptsComponent :: more) =
        resolve s.view.system.vfs { device := .foreign .ptyDir, attributes := attributes }
          [devComponent, ptsComponent] more := by
    intro node more
    rw [resolve, List.singleton_append, ptsHere]
  have through : ∀ more : List CString,
      resolve s.view.system.vfs s.view.system.fsRoot [] (devComponent :: ptsComponent :: more) =
        resolve s.view.system.vfs { device := .foreign .ptyDir, attributes := attributes }
          [devComponent, ptsComponent] more := by
    intro more
    rw [resolve, List.nil_append]
    cases atDev : s.view.system.vfs.getMountpoint (absolutePath [devComponent]) with
    | some node =>
        dsimp only
        exact behind node more
    | none =>
        dsimp only
        cases inRoot : s.view.system.vfs.finddirFs s.view.system.fsRoot devComponent with
        | some node =>
            dsimp only
            exact behind node more
        | none =>
            rcases mounted.dev with mount | entry
            · exact absurd atDev mount
            · exact absurd inRoot entry
  refine ⟨attributes, through [], ?_⟩
  rw [through, resolve, show [devComponent, ptsComponent] ++ [itoa index.toInt] =
    [devComponent, ptsComponent, itoa index.toInt] from rfl, free]
  have looks : s.view.system.vfs.finddirFs { device := .foreign .ptyDir, attributes := attributes }
      (itoa index.toInt) = (finddirPty s.ptyMap (itoa index.toInt)).map fun pty =>
        { device := .foreign (.slave pty), attributes := pty.slave } := by
    change ((finddirPty s.ptyMap (itoa index.toInt)).map fun pty => _).map _ = _
    rw [Option.map_map]
    rfl
  have notEmpty : ¬ (itoa index.toInt).length < 1 := by
    have := List.length_pos_of_ne_nil (itoa_component index.toInt).notEmpty
    omega
  dsimp only
  rw [looks, finddirPty, if_neg notEmpty, atoi_index]
  cases ptyGet s.ptyMap index.toInt <;> rfl

/-- The path with and without its last component. -/
theorem kopen_resolve_pts (s : TerminalFiles Other) (index : BitVec 32) :
    s.view.system.vfs.kopen (ptsPath index) false =
        some (resolve s.view.system.vfs s.view.system.fsRoot []
          [devComponent, ptsComponent, itoa index.toInt]) ∧
      s.view.system.vfs.kopen (ptsPath index) true =
        some (resolve s.view.system.vfs s.view.system.fsRoot [] [devComponent, ptsComponent]) := by
  rw [ptsPath_eq]
  exact kopen_resolves s.view.system.vfs rfl (fun _ => rfl) (List.cons_ne_nil _ _) (ptsPath_components index)

/-- `kopen` of the path of a terminal finds the terminal that has this name now. With `OPEN_FLAG_PARENT` it
finds `/dev/pts`. -/
theorem kopen_pts (mounted : PtsMounted s.files) (index : BitVec 32) (flags : BitVec 64) :
    ∃ attributes, s.kopen (ptsPath index) flags =
      if flagSet flags openFlagParent = true then
        some (some (s.view.openNode { device := .foreign .ptyDir, attributes := attributes }))
      else
        some ((ptyGet s.ptyMap index.toInt).map fun pty =>
          s.view.openNode { device := .foreign (.slave pty), attributes := pty.slave }) := by
  obtain ⟨attributes, directory, terminal⟩ := resolve_pts mounted index
  obtain ⟨whole, parent⟩ := kopen_resolve_pts s index
  refine ⟨attributes, ?_⟩
  unfold TerminalFiles.kopen OpenFiles.kopen
  cases flagSet flags openFlagParent with
  | true =>
      rw [parent, if_pos rfl]
      exact congrArg (fun found : Option _ => some (found.map s.view.openNode)) directory
  | false =>
      rw [whole, if_neg (by decide), terminal, Option.map_some, Option.map_map]
      rfl

/-- What `kopen` finds at the path of a terminal is not of tmpfs; a slave is the terminal of this name. -/
theorem kopen_pts_device (mounted : PtsMounted s.files) {index : BitVec 32} {flags : BitVec 64}
    {node : OpenNode (TerminalNode Other)} (found : s.kopen (ptsPath index) flags = some (some node)) :
    node.device = .foreign .ptyDir ∨
      ∃ pty, node.device = .foreign (.slave pty) ∧ ptyGet s.ptyMap index.toInt = some pty := by
  obtain ⟨attributes, finds⟩ := kopen_pts mounted index flags
  rw [finds] at found
  split at found
  · cases found
    exact Or.inl rfl
  · obtain ⟨pty, isPty, rfl⟩ := Option.map_eq_some_iff.mp (Option.some.inj found)
    exact Or.inr ⟨pty, rfl, isPty⟩

end Kopen

end Voxel.Proofs
