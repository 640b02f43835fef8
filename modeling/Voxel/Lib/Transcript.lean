/-
Module: Voxel.Lib.Transcript
Layer: Lib
Purpose: Machines that answer every command, and may get stuck. The transcript of a run is the list of its
  answers. Two machines whose related states answer alike as long as a condition holds, and never when it
  fails, have the same transcript exactly in the runs whose every step meets the condition.
Trusted boundary: none
Main exports: Follows, Labelled, transcript, Throughout, transcript_agree_iff
-/
import Mathlib.Logic.Basic

namespace Voxel.Lib

universe u v w x

section Follows

variable {α : Type u} {β : Type v} {γ : Type w} {δ : Type x}

/-- Whenever the first computation has a result, the second one has a related result. -/
def Follows (Relates : α → β → Prop) (first : Option α) (second : Option β) : Prop :=
  ∀ a, first = some a → ∃ b, second = some b ∧ Relates a b

/-- Results with the same answer and related states. -/
inductive Labelled {Answer : Type*} (Relates : α → β → Prop) : Answer × α → Answer × β → Prop where
  | mk {answer : Answer} {a : α} {b : β} (related : Relates a b) : Labelled Relates (answer, a) (answer, b)

namespace Follows

variable {Relates : α → β → Prop} {Relates' : γ → δ → Prop} {first : Option α} {second : Option β}

theorem of_none : Follows Relates none second := by
  intro a wrong
  cases wrong

theorem of_some {a : α} {b : β} (related : Relates a b) : Follows Relates (some a) (some b) := by
  intro a' same
  cases same
  exact ⟨b, rfl, related⟩

/-- Computations in sequence. -/
theorem bind {f : α → Option γ} {g : β → Option δ} (follows : Follows Relates first second)
    (rest : ∀ a b, Relates a b → Follows Relates' (f a) (g b)) :
    Follows Relates' (first.bind f) (second.bind g) := by
  intro c result
  obtain ⟨a, ran, finished⟩ := Option.bind_eq_some_iff.mp result
  obtain ⟨b, ran', related⟩ := follows a ran
  obtain ⟨d, finished', related'⟩ := rest a b related c finished
  exact ⟨d, Option.bind_eq_some_iff.mpr ⟨b, ran', finished'⟩, related'⟩

theorem map {f : α → γ} {g : β → δ} (follows : Follows Relates first second)
    (rest : ∀ a b, Relates a b → Relates' (f a) (g b)) :
    Follows Relates' (first.map f) (second.map g) := by
  intro c result
  obtain ⟨a, ran, rfl⟩ := Option.map_eq_some_iff.mp result
  obtain ⟨b, rfl, related⟩ := follows a ran
  exact ⟨g b, rfl, rest a b related⟩

/-- A branch that both computations take alike. -/
theorem ite {c : Prop} [Decidable c] {first' : Option α} {second' : Option β}
    (yes : c → Follows Relates first second) (no : ¬c → Follows Relates first' second') :
    Follows Relates (if c then first else first') (if c then second else second') := by
  by_cases holds : c
  · rw [if_pos holds, if_pos holds]
    exact yes holds
  · rw [if_neg holds, if_neg holds]
    exact no holds

end Follows

/-- Computations that always have a result. -/
theorem Labelled.follows {Answer Answer' : Type*} {Relates : α → β → Prop} {first : Answer × α}
    {second : Answer × β} (labelled : Labelled Relates first second) (f : Answer → Answer') :
    Follows (Labelled Relates) (some (f first.1, first.2)) (some (f second.1, second.2)) := by
  cases labelled with
  | mk related => exact .of_some ⟨related⟩

end Follows

variable {State : Type u} {Other : Type v} {Command : Type w} {Answer : Type x}

/-- The answers to the commands in order, if none of them gets stuck. -/
def transcript (step : State → Command → Option (Answer × State)) :
    State → List Command → Option (List Answer)
  | _, [] => some []
  | s, command :: commands =>
      match step s command with
      | none => none
      | some (answer, next) => (transcript step next commands).map (answer :: ·)

/-- The condition holds before every step of a run that does not get stuck. -/
def Throughout (step : State → Command → Option (Answer × State)) (ok : State → Command → Prop) :
    State → List Command → Prop
  | _, [] => True
  | s, command :: commands =>
      ok s command ∧ ∀ answer next, step s command = some (answer, next) →
        Throughout step ok next commands

/-- Two machines with the same transcript. -/
theorem transcript_agree_iff {step : State → Command → Option (Answer × State)}
    {other : Other → Command → Option (Answer × Other)} {ok : State → Command → Prop}
    {Relates : State → Other → Prop}
    (follows : ∀ s t command, Relates s t → ok s command →
      Follows (Labelled Relates) (step s command) (other t command))
    (apart : ∀ s t command answer next, Relates s t → ¬ok s command →
      step s command = some (answer, next) → ∀ next', other t command ≠ some (answer, next'))
    {s : State} {t : Other} (related : Relates s t) {commands : List Command} {answers : List Answer}
    (ran : transcript step s commands = some answers) :
    transcript other t commands = some answers ↔ Throughout step ok s commands := by
  induction commands generalizing s t answers with
  | nil =>
      cases ran
      exact ⟨fun _ => trivial, fun _ => rfl⟩
  | cons command commands inductionHypothesis =>
      rw [transcript] at ran
      cases stepped : step s command with
      | none =>
          rw [stepped] at ran
          cases ran
      | some result =>
          obtain ⟨answer, next⟩ := result
          rw [stepped] at ran
          obtain ⟨rest, ranRest, rfl⟩ := Option.map_eq_some_iff.mp ran
          by_cases allowed : ok s command
          · -- The other machine gives the same answer, and the rest is the induction hypothesis.
            obtain ⟨_, followed, ⟨related'⟩⟩ := follows s t command related allowed _ stepped
            have agree := inductionHypothesis related' ranRest
            constructor
            · intro matches_
              rw [transcript, followed] at matches_
              obtain ⟨rest', ranRest', same⟩ := Option.map_eq_some_iff.mp matches_
              cases same
              refine ⟨allowed, fun answer'' next'' again => ?_⟩
              rw [stepped] at again
              cases again
              exact agree.mp ranRest'
            · intro throughout
              rw [transcript, followed]
              exact Option.map_eq_some_iff.mpr ⟨rest, agree.mpr (throughout.2 _ _ stepped), rfl⟩
          · constructor
            · intro matches_
              rw [transcript] at matches_
              cases answered : other t command with
              | none =>
                  rw [answered] at matches_
                  cases matches_
              | some result =>
                  rw [answered] at matches_
                  obtain ⟨rest', -, same⟩ := Option.map_eq_some_iff.mp matches_
                  cases same
                  exact absurd answered (apart s t command _ next related allowed stepped _)
            · exact fun throughout => absurd throughout.1 allowed

end Voxel.Lib
