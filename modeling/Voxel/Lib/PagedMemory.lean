/-
Module: Voxel.Lib.PagedMemory
Layer: Lib
Purpose: What a program does with a memory of pages: it maps the page of an address, or it stores a byte. A
  program is in order if it stores on pages that it has mapped before; what it leaves in the memory is then
  the last byte that it stores at each address. The bytes of a new page on which it stores nothing are left
  out.
Trusted boundary: human-reviewed spec
Main exports: PageAction, PageAction.address, PageAction.isMap, MappedFirst, mappedFirst_append,
  mappedFirst_maps, mappedFirst_stores, unstored, lastStore, lastStore_eq
-/
import Mathlib.Data.List.Basic

namespace Voxel.Lib

universe u v

/-- What a program does with its memory. -/
inductive PageAction (Address : Type u) where
  | mapPage (address : Address)
  | store (address : Address) (value : BitVec 8)
deriving Repr, DecidableEq

/-- The address of an action. -/
def PageAction.address {Address : Type u} : PageAction Address → Address
  | .mapPage address => address
  | .store address _ => address

/-- The action maps a page. -/
def PageAction.isMap {Address : Type u} : PageAction Address → Bool
  | .mapPage _ => true
  | .store _ _ => false

section Order

variable {Address : Type u} {Page : Type v} {pageOf : Address → Page} {known : Page → Prop}
  {xs ys : List (PageAction Address)}

/-- Every byte is stored on a page that is known at first or was mapped before. -/
def MappedFirst (pageOf : Address → Page) : (Page → Prop) → List (PageAction Address) → Prop
  | _, [] => True
  | known, .mapPage address :: rest => MappedFirst pageOf (fun page => known page ∨ page = pageOf address) rest
  | known, .store address _ :: rest => known (pageOf address) ∧ MappedFirst pageOf known rest

/-- The page of one of the addresses that a program maps. -/
def MapsPage (pageOf : Address → Page) (actions : List (PageAction Address)) (page : Page) : Prop :=
  ∃ address, .mapPage address ∈ actions ∧ page = pageOf address

/-- The second part of a program knows the pages that the first part maps. -/
theorem mappedFirst_append : MappedFirst pageOf known (xs ++ ys) ↔
    MappedFirst pageOf known xs ∧
      MappedFirst pageOf (fun page => known page ∨ MapsPage pageOf xs page) ys := by
  induction xs generalizing known with
  | nil =>
      have none_ : ∀ page, (known page ∨ MapsPage pageOf [] page) ↔ known page := fun page =>
        or_iff_left fun ⟨_, member, _⟩ => absurd member List.not_mem_nil
      simp only [List.nil_append, none_]
      exact (and_iff_right trivial).symm
  | cons action xs inductionHypothesis =>
      cases action with
      | mapPage address =>
          have same : ∀ page, ((known page ∨ page = pageOf address) ∨ MapsPage pageOf xs page) ↔
              (known page ∨ MapsPage pageOf (.mapPage address :: xs) page) := by
            intro page
            rw [or_assoc]
            refine or_congr_right ⟨?_, ?_⟩
            · rintro (here | ⟨other, member, isPage⟩)
              · exact ⟨address, List.mem_cons_self, here⟩
              · exact ⟨other, List.mem_cons_of_mem _ member, isPage⟩
            · rintro ⟨other, member, isPage⟩
              rcases List.mem_cons.mp member with here | later
              · cases here
                exact .inl isPage
              · exact .inr ⟨other, later, isPage⟩
          rw [List.cons_append, MappedFirst, inductionHypothesis, MappedFirst]
          simp only [same]
      | store address value =>
          have same : ∀ page, MapsPage pageOf (.store address value :: xs) page ↔ MapsPage pageOf xs page := by
            intro page
            refine exists_congr fun other => and_congr_left fun _ => ⟨fun member => ?_, List.mem_cons_of_mem _⟩
            exact (List.mem_cons.mp member).resolve_left fun isStore => by cases isStore
          rw [List.cons_append, MappedFirst, inductionHypothesis, MappedFirst, and_assoc]
          simp only [same]

/-- Mapping alone is always in order. -/
theorem mappedFirst_maps (maps : ∀ action ∈ xs, ∃ address, action = .mapPage address) :
    MappedFirst pageOf known xs := by
  induction xs generalizing known with
  | nil => trivial
  | cons action xs inductionHypothesis =>
      obtain ⟨address, rfl⟩ := maps action List.mem_cons_self
      exact inductionHypothesis fun other member => maps other (List.mem_cons_of_mem _ member)

/-- Stores alone are in order if all their pages are known. -/
theorem mappedFirst_stores (stores : ∀ action ∈ xs, ∃ address value, action = .store address value) :
    MappedFirst pageOf known xs ↔ ∀ address value, .store address value ∈ xs → known (pageOf address) := by
  induction xs with
  | nil => exact iff_of_true trivial fun _ _ member => absurd member List.not_mem_nil
  | cons action xs inductionHypothesis =>
      obtain ⟨first, byte, rfl⟩ := stores action List.mem_cons_self
      rw [MappedFirst, inductionHypothesis fun other member => stores other (List.mem_cons_of_mem _ member)]
      constructor
      · rintro ⟨here, later⟩ address value member
        rcases List.mem_cons.mp member with same | member
        · cases same
          exact here
        · exact later address value member
      · intro all
        exact ⟨all first byte List.mem_cons_self,
          fun address value member => all address value (List.mem_cons_of_mem _ member)⟩

end Order

/-! ## What is left in the memory -/

section Stores

variable {Address : Type u} [DecidableEq Address] {actions : List (PageAction Address)} {address : Address}
  {value : BitVec 8}

/-- The last byte that is stored at an address. -/
def lastStore : List (PageAction Address) → Address → Option (BitVec 8)
  | [], _ => none
  | .mapPage _ :: rest, address => lastStore rest address
  | .store place value :: rest, address =>
      (lastStore rest address).or (if place = address then some value else none)

theorem lastStore_none_of (without : ∀ value, .store address value ∉ actions) :
    lastStore actions address = none := by
  induction actions with
  | nil => rfl
  | cons action rest inductionHypothesis =>
      have later := inductionHypothesis fun value member => without value (List.mem_cons_of_mem _ member)
      cases action with
      | mapPage place => exact later
      | store place value =>
          have other : place ≠ address := by
            rintro rfl
            exact without value List.mem_cons_self
          rw [lastStore, later, if_neg other]
          rfl

/-- Where every store at an address is of one byte, this byte is left. -/
theorem lastStore_eq (member : .store address value ∈ actions)
    (one : ∀ other, .store address other ∈ actions → other = value) :
    lastStore actions address = some value := by
  induction actions with
  | nil => cases member
  | cons action rest inductionHypothesis =>
      have oneLater := fun other inRest => one other (List.mem_cons_of_mem action inRest)
      cases action with
      | mapPage place =>
          refine inductionHypothesis ?_ oneLater
          exact (List.mem_cons.mp member).resolve_left fun isMap => by cases isMap
      | store place byte =>
          rw [lastStore]
          by_cases later : .store address value ∈ rest
          · rw [inductionHypothesis later oneLater]
            rfl
          · have here := (List.mem_cons.mp member).resolve_right later
            have none_ : lastStore rest address = none := by
              refine lastStore_none_of fun other inRest => later ?_
              rw [← oneLater other inRest]
              exact inRest
            cases here
            rw [none_, if_pos rfl]
            rfl

end Stores

end Voxel.Lib
