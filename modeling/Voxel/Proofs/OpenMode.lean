/-
Module: Voxel.Proofs.OpenMode
Layer: Proofs
Purpose: What `fopen` and `freopen` ask `open` for. Their loops run over the path where the mode is
  meant, so the flags and the mask come from the letters of the path. They are those of the mode exactly
  if path and mode have the same opening letters.
Trusted boundary: none
Main exports: recorder, Requests, OpensByMode, SameLetters, openRequest_eq, open_by_mode_iff
-/
import Mathlib.Data.List.Infix
import Voxel.Lib.Format
import Voxel.Libc.OpenStreams

namespace Voxel.Proofs

open Voxel.Lib Voxel.Libc

/-! ## Requests -/

/-- A path with flags and a mask. -/
abbrev OpenRequest := CString × BitVec 32 × BitVec 32

/-- System calls that keep the requests for `open`, and answer all of them with `fd`. -/
def recorder (fd : Int) : OpenCalls (List OpenRequest) where
  seek w _ _ _ := (0, w)
  read w _ _ := (.ok [], w)
  write w _ _ := w
  close w _ := (0, w)
  read_le w _ count bytes read := by
    cases read
    exact Nat.zero_le _
  openPath w path flags mask := (fd, w ++ [(path, flags, mask)])

/-- `fopen` and `freopen` of a path, with any mode, make one request for it, with these flags and this
mask. The mode is no argument of the model: neither of them reads it. -/
structure Requests (path : CString) (flags mask : BitVec 32) : Prop where
  fopen : ∀ {fd : Int} {block : Nat} {readJunk writeJunk : Nat → BitVec 8}
    {s after : Stdio (List OpenRequest)}
    {stream : Option Nat}, s.fopen (recorder fd) path block readJunk writeJunk = some (stream, after) →
    after.world = s.world ++ [(cstringAt path 0, flags, mask)]
  freopen : ∀ {fd : Int} {s after : Stream (List OpenRequest)} {given : Bool},
    freopen (recorder fd) (some path) s = (given, after) →
    after.world = s.world ++ [(cstringAt path 0, flags, mask)]

/-- The flags that a mode denotes: `a`, `w` and `+` act in the order in which they stand there. -/
def denotedFlags (mode : CString) : BitVec 32 :=
  mode.foldl (fun flags c =>
    if c = chr 'a' then flags ||| (oWronly ||| oAppend ||| oCreat)
    else if c = chr 'w' then flags ||| (oWronly ||| oCreat ||| oTrunc)
    else if c = chr '+' then (flags ||| oRdwr) &&& ~~~oAppend
    else flags) 0

/-- Two paths are opened with the same flags and the same mask, and the flags are those of the mode. -/
def OpensByMode (path path' mode : CString) : Prop :=
  ∃ flags mask, Requests path flags mask ∧ Requests path' flags mask ∧
    flags = denotedFlags (cstringAt mode 0)

/-! ## Letters -/

/-- An `a` stands behind the last `+`. -/
def AppendsLast (s : CString) : Prop := ∃ before after, s = before ++ chr 'a' :: after ∧ chr '+' ∉ after

/-- The same of the letters that open, create, truncate and update, and an `a` behind the last `+` in
both or in none. -/
structure SameLetters (s t : CString) : Prop where
  creates : chr 'a' ∈ s ∨ chr 'w' ∈ s ↔ chr 'a' ∈ t ∨ chr 'w' ∈ t
  truncates : chr 'w' ∈ s ↔ chr 'w' ∈ t
  updates : chr '+' ∈ s ↔ chr '+' ∈ t
  appends : AppendsLast s ↔ AppendsLast t

theorem appendsLast_concat (s : CString) (c : BitVec 8) :
    AppendsLast (s ++ [c]) ↔ c = chr 'a' ∨ c ≠ chr '+' ∧ AppendsLast s := by
  constructor
  · rintro ⟨before, after, split, none⟩
    rcases List.eq_nil_or_concat after with rfl | ⟨rest, last, rfl⟩
    · exact .inl (List.singleton_inj.mp (List.append_inj' split rfl).2)
    · rw [List.concat_eq_append] at split none
      rw [← List.cons_append, ← List.append_assoc] at split
      obtain ⟨rfl, same⟩ := List.append_inj' split rfl
      cases same
      refine .inr ⟨fun isPlus => none (by simp [isPlus]), before, rest, rfl, fun member => none ?_⟩
      exact List.mem_append_left _ member
  · rintro (rfl | ⟨notPlus, before, after, rfl, none⟩)
    · exact ⟨s, [], rfl, List.not_mem_nil⟩
    · refine ⟨before, after ++ [c], by simp, fun member => ?_⟩
      rcases List.mem_append.mp member with inside | last
      · exact none inside
      · exact notPlus (List.mem_singleton.mp last).symm

/-- What the letters of a string are, as truth values. -/
structure LettersAre (s : CString) (creates truncates updates appends : Bool) : Prop where
  creates : creates = true ↔ chr 'a' ∈ s ∨ chr 'w' ∈ s
  truncates : truncates = true ↔ chr 'w' ∈ s
  updates : updates = true ↔ chr '+' ∈ s
  appends : appends = true ↔ AppendsLast s

/-- The flags for these truth values. -/
def flagsFor (creates truncates updates appends : Bool) : BitVec 32 :=
  (if creates then oWronly ||| oCreat else 0) ||| (if truncates then oTrunc else 0) |||
    (if updates then oRdwr else 0) ||| (if appends then oAppend else 0)

/-- The mask. -/
def maskFor (truncates : Bool) : BitVec 32 := if truncates then 0o666 else 0o644

theorem flagsFor_injective : ∀ c t u a c' t' u' a' : Bool, flagsFor c t u a = flagsFor c' t' u' a' →
    c = c' ∧ t = t' ∧ u = u' ∧ a = a' := by
  decide +kernel

theorem LettersAre.same_iff {s t : CString} {c r u a c' r' u' a' : Bool} (one : LettersAre s c r u a)
    (two : LettersAre t c' r' u' a') : SameLetters s t ↔ c = c' ∧ r = r' ∧ u = u' ∧ a = a' := by
  constructor
  · rintro ⟨creates, truncates, updates, appends⟩
    rw [← one.creates, ← two.creates] at creates
    rw [← one.truncates, ← two.truncates] at truncates
    rw [← one.updates, ← two.updates] at updates
    rw [← one.appends, ← two.appends] at appends
    exact ⟨Bool.eq_iff_iff.mpr creates, Bool.eq_iff_iff.mpr truncates, Bool.eq_iff_iff.mpr updates,
      Bool.eq_iff_iff.mpr appends⟩
  · rintro ⟨rfl, rfl, rfl, rfl⟩
    exact ⟨one.creates.symm.trans two.creates, one.truncates.symm.trans two.truncates,
      one.updates.symm.trans two.updates, one.appends.symm.trans two.appends⟩

/-- One character more. -/
theorem LettersAre.concat {s : CString} {creates truncates updates appends : Bool}
    (letters : LettersAre s creates truncates updates appends) (c : BitVec 8) :
    LettersAre (s ++ [c]) (creates || c = chr 'a' || c = chr 'w') (truncates || c = chr 'w')
      (updates || c = chr '+') (c = chr 'a' || c ≠ chr '+' && appends) where
  creates := by
    simp only [Bool.or_eq_true, decide_eq_true_eq, letters.creates, List.mem_append, List.mem_singleton]
    rw [eq_comm (a := c), eq_comm (a := c)]
    tauto
  truncates := by
    simp only [Bool.or_eq_true, decide_eq_true_eq, letters.truncates, List.mem_append, List.mem_singleton]
    rw [eq_comm (a := c)]
  updates := by
    simp only [Bool.or_eq_true, decide_eq_true_eq, letters.updates, List.mem_append, List.mem_singleton]
    rw [eq_comm (a := c)]
  appends := by
    rw [appendsLast_concat, ← letters.appends]
    simp

theorem openChar_letters (flags mask : BitVec 32) (c : BitVec 8) :
    openChar (flags, mask) c =
      if c = chr 'a' then (flags ||| oWronly ||| oAppend ||| oCreat, mask)
      else if c = chr 'w' then (flags ||| oWronly ||| oCreat ||| oTrunc, 0o666)
      else if c = chr '+' then ((flags ||| oRdwr) &&& ~~~oAppend, mask)
      else (flags, mask) := rfl

/-- One character in the loop. -/
theorem openChar_flagsFor (creates truncates updates appends : Bool) (c : BitVec 8) :
    openChar (flagsFor creates truncates updates appends, maskFor truncates) c =
      (flagsFor (creates || c = chr 'a' || c = chr 'w') (truncates || c = chr 'w') (updates || c = chr '+')
        (c = chr 'a' || c ≠ chr '+' && appends), maskFor (truncates || c = chr 'w')) := by
  by_cases isA : c = chr 'a'
  · subst isA
    cases creates <;> cases truncates <;> cases updates <;> cases appends <;> decide
  · by_cases isW : c = chr 'w'
    · subst isW
      cases creates <;> cases truncates <;> cases updates <;> cases appends <;> decide
    · by_cases isPlus : c = chr '+'
      · subst isPlus
        cases creates <;> cases truncates <;> cases updates <;> cases appends <;> decide
      · rw [openChar_letters, if_neg isA, if_neg isW, if_neg isPlus]
        simp [isA, isW, isPlus]

/-- The loop turns the letters of a string into flags and a mask. -/
theorem openLoop_eq (s : CString) : ∃ creates truncates updates appends,
    LettersAre s creates truncates updates appends ∧
      s.foldl openChar (0, 0o644) = (flagsFor creates truncates updates appends, maskFor truncates) := by
  induction s using List.reverseRecOn with
  | nil =>
      refine ⟨false, false, false, false, ⟨by simp, by simp, by simp, ?_⟩, rfl⟩
      simp [AppendsLast]
  | append_singleton s c inductionHypothesis =>
      obtain ⟨creates, truncates, updates, appends, letters, looped⟩ := inductionHypothesis
      refine ⟨_, _, _, _, letters.concat c, ?_⟩
      rw [List.foldl_append, looped]
      exact openChar_flagsFor creates truncates updates appends c

theorem denotedFlags_eq (mode : CString) (mask : BitVec 32) :
    denotedFlags mode = (mode.foldl openChar (0, mask)).1 := by
  induction mode using List.reverseRecOn with
  | nil => rfl
  | append_singleton mode c inductionHypothesis =>
      rw [denotedFlags, List.foldl_append, List.foldl_append, ← denotedFlags, inductionHypothesis]
      obtain ⟨flags, rest⟩ := mode.foldl openChar (0, mask)
      rw [List.foldl_cons, List.foldl_nil, List.foldl_cons, List.foldl_nil, openChar_letters]
      split
      · exact (congrArg (· ||| oCreat) (BitVec.or_assoc ..)).trans (BitVec.or_assoc ..) |>.symm
      · split
        · exact (congrArg (· ||| oTrunc) (BitVec.or_assoc ..)).trans (BitVec.or_assoc ..) |>.symm
        · split <;> rfl

/-! ## The calls -/

variable {W : Type}

theorem modify_world {s after : Stdio W} {stream : Nat} {change : FileRecord → FileRecord}
    (changed : s.modify stream change = some after) : after.world = s.world := by
  unfold Stdio.modify at changed
  cases record : s.records stream with
  | none =>
      rw [record] at changed
      cases changed
  | some r =>
      rw [record] at changed
      cases changed
      rfl

theorem modifyIf_world {s after : Stdio W} {pointer : Option Nat} {change : FileRecord → FileRecord}
    (changed : s.modifyIf pointer change = some after) : after.world = s.world := by
  cases pointer with
  | none =>
      cases changed
      rfl
  | some stream => exact modify_world changed

/-- A new record is no system call. -/
theorem enter_world {s after : Stdio W} {block : Nat} {file : File}
    (entered : s.enter block file = some after) : after.world = s.world := by
  obtain ⟨first, changed, entered⟩ := Option.bind_eq_some_iff.mp entered
  obtain ⟨second, linked, same⟩ := Option.bind_eq_some_iff.mp entered
  cases same
  have worlds := (modifyIf_world linked).trans (modify_world changed)
  exact worlds

/-- Flushing makes no request. -/
theorem fflush_requests (fd : Int) (s : Stream (List OpenRequest)) :
    (fflush (recorder fd).toSysCalls s).2.world = s.world := by
  unfold fflush
  cases s.file.writeBuf with
  | none => rfl
  | some buf =>
      dsimp only
      split <;> rfl

/-- `freopen` makes one request. -/
theorem freopen_requests (fd : Int) (path : CString) (s : Stream (List OpenRequest)) :
    (freopen (recorder fd) (some path) s).2.world = s.world ++ [(cstringAt path 0, openRequest path)] := by
  rw [← fflush_requests fd s]
  unfold freopen
  dsimp only
  split <;> rfl

/-- Both calls make the request that `openRequest` has for the path. -/
theorem requests_iff (path : CString) (flags mask : BitVec 32) :
    Requests path flags mask ↔ openRequest path = (flags, mask) := by
  constructor
  · intro requests
    -- A call that fails makes the request as well.
    have made := @requests.freopen (-1) ⟨Libc.fopen 0 (fun _ => 0) fun _ => 0, 0, []⟩ _ _ rfl
    have same := (Prod.mk.inj (List.singleton_inj.mp made)).2
    exact same
  · intro request
    constructor
    · intro fd block readJunk writeJunk s after stream opened
      rw [Stdio.fopen, request] at opened
      dsimp only [recorder] at opened
      split at opened
      · cases opened
        rfl
      · obtain ⟨entered, isEntered, same⟩ := Option.map_eq_some_iff.mp opened
        cases same
        exact enter_world isEntered
    · intro fd s after given opened
      have made := freopen_requests fd path s
      rw [opened, request] at made
      exact made

/-- For any two paths and every mode: the paths are opened as the mode says exactly if both have its opening
letters. -/
theorem open_by_mode_iff (path path' mode : CString) :
    OpensByMode path path' mode ↔
      SameLetters (cstringAt path 0) (cstringAt mode 0) ∧
        SameLetters (cstringAt path' 0) (cstringAt mode 0) := by
  obtain ⟨c, r, u, a, letters, looped⟩ := openLoop_eq (cstringAt path 0)
  obtain ⟨c', r', u', a', letters', looped'⟩ := openLoop_eq (cstringAt path' 0)
  obtain ⟨c'', r'', u'', a'', letters'', looped''⟩ := openLoop_eq (cstringAt mode 0)
  have denoted : denotedFlags (cstringAt mode 0) = flagsFor c'' r'' u'' a'' := by
    rw [denotedFlags_eq _ 0o644, looped'']
  rw [letters.same_iff letters'', letters'.same_iff letters'', OpensByMode]
  simp only [requests_iff, openRequest, looped, looped', denoted]
  constructor
  · rintro ⟨flags, mask, one, two, rfl⟩
    exact ⟨flagsFor_injective _ _ _ _ _ _ _ _ (Prod.mk.inj one).1,
      flagsFor_injective _ _ _ _ _ _ _ _ (Prod.mk.inj two).1⟩
  · rintro ⟨⟨rfl, rfl, rfl, rfl⟩, rfl, rfl, rfl, rfl⟩
    exact ⟨_, _, rfl, rfl, rfl⟩

/-- `fopen` of `/data` and of `/log` with the mode `r`: the first path is opened to append, and created. -/
theorem open_by_path : openRequest ("/data".toList.map chr) = (oWronly ||| oAppend ||| oCreat, 0o644) ∧
    openRequest ("/log".toList.map chr) = (0, 0o644) ∧
    ¬ OpensByMode ("/data".toList.map chr) ("/log".toList.map chr) ("r".toList.map chr) := by
  have data : openRequest ("/data".toList.map chr) = (oWronly ||| oAppend ||| oCreat, 0o644) := by decide
  have log : openRequest ("/log".toList.map chr) = (0, 0o644) := by decide
  refine ⟨data, log, ?_⟩
  rintro ⟨flags, mask, one, two, -⟩
  rw [requests_iff, data] at one
  rw [requests_iff, log, ← one] at two
  exact absurd two (by decide)

end Voxel.Proofs
