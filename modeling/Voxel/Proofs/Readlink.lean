/-
Module: Voxel.Proofs.Readlink
Layer: Proofs
Purpose: What `sys_readlink` stores for a link of tmpfs and for `/dev/tty`. A target that fits with its
  terminator is copied whole by both. Of a longer one `/dev/tty` copies as much as has room; tmpfs
  reports one byte too few, and with a buffer of no bytes both store outside of it.
Trusted boundary: none
Main exports: RespectsBuffer, HasRoom, readlink_respects_iff
-/
import Voxel.Lib.TracedMemory
import Voxel.Kernel.Readlink

namespace Voxel.Proofs

open Voxel.Kernel
open Voxel.Lib
open Voxel.Lib.TracedMemory

/-- All stores lie in the buffer, and a result that is no error counts the bytes of the target that are
in the buffer: all of them, or as many as leave room for a terminator. -/
structure RespectsBuffer (t : CString) (buf n result : BitVec 64) (m : TracedMemory) : Prop where
  inside : ∀ a, m.stored a → (a - buf).toNat < n.toNat
  bytes : 0 ≤ result.toInt → result.toNat ≤ t.length ∧
    ∀ i < result.toNat, m.mem (buf + BitVec.ofNat 64 i) = charAt t i
  counts : 0 ≤ result.toInt → n ≠ 0 → result.toNat = min t.length (n.toNat - 1)

/-- The sizes for which a call is right: for tmpfs one byte, or the target with its terminator; for
`/dev/tty` any but none. -/
def HasRoom (t : CString) (n : BitVec 64) : LinkNode → Prop
  | .tmpfs _ => n = 1 ∨ t.length < n.toNat
  | .devTty => n ≠ 0

variable {t : CString} {behind : Nat → BitVec 8} {buf n : BitVec 64} {mem : ByteMemory}

/-! ## Sizes -/

theorem toNat_strlen (short : t.length + 1 < 2 ^ 64) : (strlen t).toNat = t.length := by
  rw [strlen, BitVec.toNat_ofNat]
  exact Nat.mod_eq_of_lt (by omega)

theorem toNat_strlen_add_one (short : t.length + 1 < 2 ^ 64) : (strlen t + 1).toNat = t.length + 1 := by
  rw [BitVec.toNat_add, toNat_strlen short]
  exact Nat.mod_eq_of_lt short

theorem lt_strlen_iff (short : t.length + 1 < 2 ^ 64) : n < strlen t + 1 ↔ n.toNat ≤ t.length := by
  rw [BitVec.lt_def, toNat_strlen_add_one short, Nat.lt_succ_iff]

/-- A size that is not negative as a `long`. -/
theorem toNat_small (nonneg : 0 ≤ n.toInt) : n.toNat < 2 ^ 63 := by
  rw [BitVec.toInt_eq_toNat_cond] at nonneg
  have := n.isLt
  split at nonneg <;> omega

theorem toNat_sub_small {k : Nat} (enough : k ≤ n.toNat) : (n - BitVec.ofNat 64 k).toNat = n.toNat - k := by
  have := n.isLt
  rw [BitVec.toNat_sub, BitVec.toNat_ofNat]
  omega

theorem toInt_nonneg_of_small {k : BitVec 64} (small : k.toNat < 2 ^ 63) : 0 ≤ k.toInt := by
  rw [BitVec.toInt_eq_toNat_of_lt (by omega)]
  omega

/-! ## The copies -/

/-- A target that fits is copied with its terminator. -/
theorem whole_respects (short : t.length + 1 < 2 ^ 64) (fits : t.length < n.toNat) :
    RespectsBuffer t buf n (strlen t) ((start mem).memcpy buf (stringBytes t behind) (strlen t + 1)) where
  inside a isStored := by
    have near := isStored.resolve_left stored_start
    rw [BitVec.lt_def, toNat_strlen_add_one short] at near
    omega
  bytes _ := by
    rw [toNat_strlen short]
    refine ⟨Nat.le_refl _, fun i below => ?_⟩
    rw [mem_memcpy _ _ _ _ (by rw [toNat_strlen_add_one short]; omega), stringBytes,
      if_pos (Nat.le_of_lt below)]
  counts _ _ := by
    rw [toNat_strlen short]
    omega

/-- Of a target that does not fit, a copy of `count` bytes with a terminator in the last byte of the
buffer. -/
theorem cut_inside {count : BitVec 64} (some : n ≠ 0) (small : count.toNat ≤ n.toNat) (a : BitVec 64)
    (isStored : (((start mem).memcpy buf (stringBytes t behind) count).put (buf + (n - 1)) nul).stored a) :
    (a - buf).toNat < n.toNat := by
  have positive : 1 ≤ n.toNat := Nat.one_le_iff_ne_zero.mpr fun zero => some (BitVec.eq_of_toNat_eq zero)
  rcases isStored with (isFirst | near) | last
  · exact isFirst.elim
  · exact Nat.lt_of_lt_of_le near small
  · rw [last, BitVec.add_comm, BitVec.add_sub_cancel, show (1 : BitVec 64) = BitVec.ofNat 64 1 from rfl,
      toNat_sub_small positive]
    omega

/-- Without a buffer the terminator goes to the byte before it. -/
theorem cut_outside {m : TracedMemory}
    (inside : ∀ a, (m.put (buf + (0 - 1)) nul).stored a → (a - buf).toNat < (0 : BitVec 64).toNat) :
    False :=
  Nat.not_lt_zero _ (inside _ (.inr rfl))

/-- What `/dev/tty` does with a target that does not fit. -/
theorem tty_cut_respects (nonneg : 0 ≤ n.toInt) (some : n ≠ 0) (long : n.toNat ≤ t.length) :
    RespectsBuffer t buf n (n - 1)
      (((start mem).memcpy buf (stringBytes t behind) n).put (buf + (n - 1)) nul) := by
  have small := toNat_small nonneg
  have positive : 1 ≤ n.toNat := Nat.one_le_iff_ne_zero.mpr fun zero => some (BitVec.eq_of_toNat_eq zero)
  have length : (n - 1).toNat = n.toNat - 1 := toNat_sub_small positive
  refine ⟨cut_inside some (Nat.le_refl _), fun _ => ?_, fun _ _ => ?_⟩
  · rw [length]
    refine ⟨by omega, fun i below => ?_⟩
    rw [mem_put_of_ne, mem_memcpy _ _ _ _ (by omega), stringBytes, if_pos (by omega)]
    rw [show n - 1 = BitVec.ofNat 64 (n.toNat - 1) from
      BitVec.eq_of_toNat_eq (by rw [length, BitVec.toNat_ofNat, Nat.mod_eq_of_lt (by omega)])]
    exact offset_ne buf (by omega) (by omega) (by omega)
  · rw [length]
    omega

/-- What tmpfs does with a target that does not fit is right for one byte only. -/
theorem tmpfs_cut_iff (nonneg : 0 ≤ n.toInt) (long : n.toNat ≤ t.length) :
    RespectsBuffer t buf n (n - 2)
      (((start mem).memcpy buf (stringBytes t behind) (n - 1)).put (buf + (n - 1)) nul) ↔ n = 1 := by
  have small := toNat_small nonneg
  constructor
  · intro respects
    by_contra notOne
    by_cases none : n = 0
    · subst none
      exact cut_outside respects.inside
    · -- Two bytes or more: the result is one less than it should be.
      have one : n.toNat ≠ 1 := fun isOne => notOne (BitVec.eq_of_toNat_eq isOne)
      have zero : n.toNat ≠ 0 := fun isZero => none (BitVec.eq_of_toNat_eq isZero)
      have length : (n - 2).toNat = n.toNat - 2 := toNat_sub_small (show 2 ≤ n.toNat by omega)
      have counts := respects.counts (toInt_nonneg_of_small (by omega)) none
      omega
  · rintro rfl
    refine ⟨cut_inside (by decide) (by decide), fun nonneg => ?_, fun nonneg => ?_⟩
    · exact absurd nonneg (by decide)
    · exact absurd nonneg (by decide)

/-! ## The call -/

/-- For every target and every size that is not negative, the call respects the buffer exactly if the
range of the buffer is refused or there is room. -/
theorem readlink_respects_iff {node : LinkNode} {fds : List (Option DescriptorType)} (valid : Bool)
    (behind : Nat → BitVec 8) (buf : BitVec 64) (mem : ByteMemory) (isTarget : node.target fds = some t)
    (short : t.length + 1 < 2 ^ 64) (nonneg : 0 ≤ n.toInt) :
    RespectsBuffer t buf n (sysReadlink valid (some node) fds behind buf n (start mem)).1
        (sysReadlink valid (some node) fds behind buf n (start mem)).2 ↔
      (valid = true → HasRoom t n node) := by
  cases valid with
  | false =>
      have refused : ¬ 0 ≤ negFault.toInt := by decide
      exact iff_of_true ⟨fun a isStored => isStored.elim, fun nonneg => absurd nonneg refused,
        fun nonneg => absurd nonneg refused⟩ fun isTrue => by cases isTrue
  | true =>
      refine Iff.trans ?_ (forall_prop_of_true rfl).symm
      change RespectsBuffer t buf n (readlinkFs fds behind buf n (start mem) node).1
        (readlinkFs fds behind buf n (start mem) node).2 ↔ _
      cases node with
      | tmpfs f =>
          obtain ⟨⟨target, block⟩, isLink, rfl⟩ := Option.map_eq_some_iff.mp isTarget
          dsimp only at short ⊢
          rw [readlinkFs, readlinkTmpfs, isLink]
          dsimp only
          by_cases long : n.toNat ≤ target.length
          · rw [if_pos ((lt_strlen_iff short).mpr long)]
            refine (tmpfs_cut_iff nonneg long).trans ?_
            rw [HasRoom, or_iff_left (Nat.not_lt.mpr long)]
          · have fits := Nat.lt_of_not_le long
            rw [if_neg fun less => long ((lt_strlen_iff short).mp less)]
            exact iff_of_true (whole_respects short fits) (.inr fits)
      | devTty =>
          cases isTarget
          rw [readlinkFs, readlinkDevTty]
          by_cases long : n.toNat ≤ (ttyLinkName fds).length
          · rw [if_pos ((lt_strlen_iff short).mpr long)]
            refine ⟨fun respects none => ?_, fun some => tty_cut_respects nonneg some long⟩
            subst none
            exact cut_outside respects.inside
          · have fits := Nat.lt_of_not_le long
            rw [if_neg fun less => long ((lt_strlen_iff short).mp less), BitVec.add_sub_cancel]
            refine iff_of_true (whole_respects short fits) ?_
            rintro rfl
            exact absurd fits (Nat.not_lt_zero _)

/-- A link of tmpfs to `/bin`. -/
def binLink : TmpfsFile where
  name := "link".toList.map chr
  mask := 0o777
  uid := 0
  gid := 0
  length := 4
  blocks := []
  pointers := 0
  target := some ("/bin".toList.map chr, ⟨0, 0⟩)
  nameAt := ⟨0, 0⟩
  blocksAt := ⟨0, 0⟩

/-- The link is read into five bytes, and `/dev/tty` without a terminal into three. -/
theorem readlink_respects_iff_example :
    RespectsBuffer ("/bin".toList.map chr) 0x1000 5
      (sysReadlink true (some (.tmpfs binLink)) [] (fun _ => 0) 0x1000 5 (start fun _ => 0)).1
      (sysReadlink true (some (.tmpfs binLink)) [] (fun _ => 0) 0x1000 5 (start fun _ => 0)).2 ∧
    RespectsBuffer ("/dev/null".toList.map chr) 0x1000 3
      (sysReadlink true (some .devTty) [] (fun _ => 0) 0x1000 3 (start fun _ => 0)).1
      (sysReadlink true (some .devTty) [] (fun _ => 0) 0x1000 3 (start fun _ => 0)).2 :=
  ⟨(readlink_respects_iff true _ _ _ rfl (by decide) (by decide)).mpr fun _ => .inr (by decide),
    (readlink_respects_iff true _ _ _ rfl (by decide) (by decide)).mpr fun _ =>
      show (3 : BitVec 64) ≠ 0 by decide⟩

/-- Three bytes for `/bin` hold two of its bytes, but one is reported; and a size of 0 stores in front
of the buffer. -/
theorem readlink_overruns :
    (sysReadlink true (some (.tmpfs binLink)) [] (fun _ => 0) 0x1000 3 (start fun _ => 0)).1 = 1 ∧
    ¬ RespectsBuffer ("/bin".toList.map chr) 0x1000 3
      (sysReadlink true (some (.tmpfs binLink)) [] (fun _ => 0) 0x1000 3 (start fun _ => 0)).1
      (sysReadlink true (some (.tmpfs binLink)) [] (fun _ => 0) 0x1000 3 (start fun _ => 0)).2 ∧
    (sysReadlink true (some (.tmpfs binLink)) [] (fun _ => 0) 0x1000 0 (start fun _ => 0)).2.stored 0xFFF ∧
    (sysReadlink true (some .devTty) [] (fun _ => 0) 0x1000 0 (start fun _ => 0)).2.stored 0xFFF := by
  refine ⟨by decide, fun respects => ?_, .inr rfl, .inr rfl⟩
  have counts := respects.counts (by decide) (by decide)
  exact absurd counts (by decide)

end Voxel.Proofs
