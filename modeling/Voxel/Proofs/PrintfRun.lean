/-
Module: Voxel.Proofs.PrintfRun
Layer: Proofs
Purpose: A run of `_printf` hands over the texts of what it finds in the format, one behind the other,
  and returns their length. For `%s` it takes the width for a second precision and pads to the right in
  every case, so that a field is right only if it is wide enough and the side of the padding does not
  show.
Trusted boundary: none
Main exports: InRange, PrintfCall, itemText, emitItems_eq, printf_eq, printf_counts,
  padded, replicate_append_comm_iff, string_prints_iff
-/
import Voxel.Proofs.PrintfText

namespace Voxel.Proofs

open Voxel.Lib Voxel.Libc

/-- A directive whose width and precision are in range, and that converts no double. -/
def InRange : Item → Prop
  | .char _ => True
  | .directive d conversion _ =>
      d.argw.toNat < 2 ^ 31 ∧ (d.precision = -1 ∨ d.precision.toNat ≤ 100) ∧
        isDoubleConversion conversion = false

/-- A format that does not end inside a directive, with arguments that keep the widths and precisions in
range. -/
structure PrintfCall (fmt : CString) (args : VaList) : Prop where
  isString : IsCString fmt
  complete : Complete skipPrefix EndsCall fmt
  inRange : ∀ items, printfItems fmt args = some items → ∀ item ∈ items, InRange item

/-- The text of what `_printf` finds in a format. -/
def itemText (strings : BitVec 64 → CString) : Item → List (BitVec 8)
  | .char c => [c]
  | .directive d conversion argument => directiveText strings d conversion (argument.getD 0)

variable {strings : BitVec 64 → CString} {fmt : CString} {args : VaList}

/-- One turn of the loop puts the text of one item. -/
theorem emitItem_eq {item : Item} (inRange : InRange item) (o : Output) :
    emitItem strings o item = some (o.putAll (itemText strings item)) := by
  cases item with
  | char c => rfl
  | directive d conversion argument =>
      obtain ⟨small, precision, noDouble⟩ := inRange
      rw [emitItem, directiveOutput_eq strings small precision noDouble, Option.map_some, append_putAll,
        itemText]

/-- The loop puts the texts of all items. -/
theorem emitItems_eq {items : List Item} (inRange : ∀ item ∈ items, InRange item) (o : Output) :
    items.foldlM (emitItem strings) o = some (o.putAll (items.flatMap (itemText strings))) := by
  induction items generalizing o with
  | nil => rfl
  | cons item items inductionHypothesis =>
      rw [List.foldlM_cons, emitItem_eq (inRange item List.mem_cons_self), Option.bind_eq_bind,
        Option.bind_some,
        inductionHypothesis fun other member => inRange other (List.mem_cons_of_mem item member),
        putAll_putAll,
        List.flatMap_cons]

/-- A call of `_printf` finds its items and puts their texts. -/
theorem printf_eq (strings : BitVec 64 → CString) (call : PrintfCall fmt args) :
    ∃ items, printfItems fmt args = some items ∧
      printf strings fmt args = some (Output.start.putAll (items.flatMap (itemText strings))) := by
  obtain ⟨items, found⟩ :=
    Option.isSome_iff_exists.mp ((printfItems_isSome args call.isString).mpr call.complete)
  refine ⟨items, found, ?_⟩
  rw [printf, found, Option.bind_some, emitItems_eq (call.inRange items found)]

/-- What `_printf` finds in `%5ld`. -/
theorem numberFormat_items :
    printfItems numberFormat zeroArgs =
      some [.directive { Directive.start with argw := 5, big := 1 } (chr 'd') (some 0)] := by
  have scanned : scanDirective zeroArgs [chr '5', chr 'l', chr 'd', nul] =
      some ({ Directive.start with argw := 5, big := 1 }, zeroArgs, [chr 'd', nul]) := rfl
  have looped := printfLoop_directive scanned
  rw [if_neg (by decide), printfLoop_end] at looped
  exact looped

theorem numberFormat_call : PrintfCall numberFormat zeroArgs where
  isString := by
    rw [IsCString]
    decide
  complete := @Complete.directive _ _ (chr 'd') _ [] (by decide) .nil
  inRange items found item member := by
    cases numberFormat_items.symm.trans found
    cases List.mem_singleton.mp member
    exact ⟨by decide, .inl rfl, by decide⟩

theorem numberFormat_printed :
    printf (fun _ => []) numberFormat zeroArgs =
      some { emitted := "    0".toList.map chr, written := 5 } := by
  rw [printf, numberFormat_items, Option.bind_some]
  decide

/-- A text in a field: spaces before it, or behind it with the `-` flag. -/
def padded (width : Nat) (align : Bool) (text : List (BitVec 8)) : List (BitVec 8) :=
  let spaces := List.replicate (width - text.length) (chr ' ')
  if align then spaces ++ text else text ++ spaces

/-- A run of one character commutes with a text exactly if there is no run, or nothing else in the text. -/
theorem replicate_append_comm_iff {Symbol : Type*} {c : Symbol} {k : Nat} {text : List Symbol} :
    List.replicate k c ++ text = text ++ List.replicate k c ↔ k = 0 ∨ ∀ x ∈ text, x = c := by
  constructor
  · intro same
    induction text with
    | nil => exact .inr fun x member => absurd member List.not_mem_nil
    | cons x text inductionHypothesis =>
        cases k with
        | zero => exact .inl rfl
        | succ k =>
            rw [List.replicate_succ, List.cons_append, List.cons_append, List.cons.injEq] at same
            obtain ⟨rfl, same⟩ := same
            -- The first character of the text moves behind the run.
            rw [List.append_cons, ← List.replicate_succ', ← List.replicate_succ] at same
            refine .inr fun y member => ?_
            rcases List.mem_cons.mp member with rfl | member
            · rfl
            · exact (inductionHypothesis same).resolve_left (Nat.succ_ne_zero k) y member
  · rintro (rfl | all)
    · rw [List.replicate_zero, List.nil_append, List.append_nil]
    · rw [List.eq_replicate_of_mem all, List.replicate_append_replicate,
        List.replicate_append_replicate, Nat.add_comm]

/-- `%s` shows a string as it should exactly if there is no width, or one that the text does not exceed
and for which the padding has to be on the right, or is none, or does not show. -/
theorem string_prints_iff (strings : BitVec 64 → CString) (d : Directive) (word : BitVec 64) :
    ∃ o, directiveOutput strings d (chr 's') word = some o ∧
      let text := limited d.limit (stringAt strings word)
      (o.emitted = padded d.argw.toNat d.align text ↔
        d.argw = 0 ∨ text.length ≤ d.argw.toNat ∧
          (d.align = false ∨ text.length = d.argw.toNat ∨ ∀ c ∈ text, c = chr ' ')) := by
  have printed : directiveOutput strings d (chr 's') word =
      some (Output.start.putAll (stringText d (stringAt strings word))) := by
    rw [directiveOutput, if_pos rfl, printString_eq]
  refine ⟨_, printed, ?_⟩
  rw [putAll_emitted, start_emitted, List.nil_append, stringText]
  generalize limited d.limit (stringAt strings word) = text
  generalize d.align = align
  dsimp only
  by_cases free : d.argw = 0
  · rw [if_pos free, free, padded]
    refine iff_of_true ?_ (.inl rfl)
    cases align <;> simp
  rw [if_neg free, or_iff_right free, padded]
  generalize width : d.argw.toNat = w
  by_cases fits : text.length ≤ w
  · rw [List.take_of_length_le fits, and_iff_right fits]
    cases align with
    | false => exact iff_of_true rfl (.inl rfl)
    | true =>
        have notLeft : ¬ true = false := fun wrong => by cases wrong
        rw [if_pos rfl, eq_comm, replicate_append_comm_iff, or_iff_right notLeft]
        exact or_congr_left (by omega)
  · -- The width cuts the text off.
    refine iff_of_false (fun same => ?_) fun right => fits right.1
    have lengths := congrArg List.length same
    cases align <;> simp at lengths <;> omega

/-- `%2s` shortens `hello`. -/
theorem string_shortened :
    directiveOutput (fun _ => "hello".toList.map chr) { Directive.start with argw := 2 } (chr 's') 1 =
      some { emitted := "he".toList.map chr, written := 2 } ∧
    limited Directive.start.limit (stringAt (fun _ => "hello".toList.map chr) 1) = "hello".toList.map chr ∧
    "he".toList.map chr ≠ padded 2 true ("hello".toList.map chr) := by
  decide

end Voxel.Proofs
