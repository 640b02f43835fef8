/-
Module: Voxel.Proofs.StrtokWords
Layer: Proofs
Purpose: The tokens that `strtok_r` returns for a string are its words, the maximal runs of characters that
  are not delimiters, in their order. Each one is terminated in place, from when it is returned on, and
  nothing behind the terminator of the string is accessed. A call that returns on a memory returns the same
  where something lies behind it, and leaves that as it is.
Trusted boundary: none
Main exports: InWord, strspn_terminated, strcspn_terminated, StandsIn, GoesOnAt, strtokR_none, strtokR_some,
  Splits, strtokCalls_splits, strtokCalls_first, strtok_words, behind,
  strtokR_steps, strtokR_behind, strtokCalls_behind, strtokCalls_length
-/
import Voxel.Lib.Format
import Voxel.Lib.Loop
import Voxel.Lib.MaximalRun
import Voxel.Libc.Strtok

namespace Voxel.Proofs

open Voxel.Lib Voxel.Libc

/-- A character of a word is not a delimiter. -/
abbrev InWord (delim : CString) (c : BitVec 8) : Prop := c ∉ delim

/-! ## The scans -/

section Scans

variable {s delim : CString}

/-- The inner loops look the character up. -/
theorem strspnInner_terminated (c : BitVec 8) (isDelim : IsCString delim) :
    strspnInner c (terminated delim) = some (decide (c ∈ delim)) := by
  induction delim with
  | nil => rfl
  | cons d rest inductionHypothesis =>
      rw [terminated_cons, strspnInner, if_neg isDelim.head_ne, inductionHypothesis isDelim.tail]
      by_cases same : c = d <;> simp [same]

theorem strcspn_terminated (isString : IsCString s) (isDelim : IsCString delim) :
    strcspn (terminated s) (terminated delim) = some (s.findIdx fun c => !decide (InWord delim c)) := by
  induction s with
  | nil => rfl
  | cons c rest inductionHypothesis =>
      rw [terminated_cons, strcspn, if_neg isString.head_ne, strspnInner_terminated c isDelim,
        inductionHypothesis isString.tail, List.findIdx_cons]
      by_cases member : c ∈ delim <;> simp [member]

/-- A single delimiter is found without a look at the terminator, which it is not. -/
theorem strspnSingle_terminated {d : BitVec 8} (isDelim : d ≠ nul) :
    strspnSingle d (terminated s) = some (s.findIdx fun c => decide (InWord [d] c)) := by
  induction s with
  | nil =>
      show strspnSingle d (nul :: []) = some 0
      rw [strspnSingle, if_neg isDelim.symm]
  | cons c rest inductionHypothesis =>
      rw [terminated_cons, strspnSingle, inductionHypothesis, List.findIdx_cons]
      by_cases same : c = d <;> simp [same]

theorem strspnLoop_terminated (isString : IsCString s) (isDelim : IsCString delim) :
    strspnLoop (terminated s) (terminated delim) = some (s.findIdx fun c => decide (InWord delim c)) := by
  induction s with
  | nil => rfl
  | cons c rest inductionHypothesis =>
      rw [terminated_cons, strspnLoop, if_neg isString.head_ne, strspnInner_terminated c isDelim,
        inductionHypothesis isString.tail, List.findIdx_cons]
      by_cases member : c ∈ delim <;> simp [member]

/-- The special cases of `strspn` are none. -/
theorem strspn_terminated (isString : IsCString s) (isDelim : IsCString delim) :
    strspn (terminated s) (terminated delim) = some (s.findIdx fun c => decide (InWord delim c)) := by
  match delim, isDelim with
  | [], _ =>
      have first : s.findIdx (fun c => decide (InWord [] c)) = 0 := by
        cases s <;> simp [List.findIdx_cons]
      rw [first]
      rfl
  | [d], isDelim =>
      have loop := strspnSingle_terminated (s := s) isDelim.head_ne
      show (if d = nul then some 0 else strspnSingle d (terminated s)) = _
      rw [if_neg isDelim.head_ne, loop]
  | d :: e :: rest, isDelim =>
      have loop := strspnLoop_terminated isString isDelim
      show (if d = nul then some 0
        else if e = nul then strspnSingle d (terminated s)
        else strspnLoop (terminated s) (terminated (d :: e :: rest))) = _
      rw [if_neg isDelim.head_ne, if_neg isDelim.tail.head_ne, loop]

/-- The character that `strpbrk` asks for is the terminator exactly if there is no delimiter. -/
theorem strpbrk_terminated (isString : IsCString s) (isDelim : IsCString delim) {n : Nat}
    (scan : n = s.findIdx fun c => !decide (InWord delim c)) :
    strpbrk (terminated s) (terminated delim) = some (if n < s.length then some n else none) := by
  have inside : n ≤ s.length := scan ▸ List.findIdx_le_length
  rw [strpbrk, strcspn_terminated isString isDelim, ← scan]
  show ((terminated s)[n]?.bind fun c => some (if c = nul then none else some n)) = _
  rcases Nat.eq_or_lt_of_le inside with atEnd | before
  · rw [atEnd, terminated_length, Option.bind_some, if_pos rfl, if_neg (Nat.lt_irrefl _)]
  · have other : s[n] ≠ nul := fun isNul => isString (isNul ▸ List.getElem_mem before)
    rw [terminated_getElem before, Option.bind_some, if_neg other, if_pos before]

theorem strchr_terminated (isString : IsCString s) : strchr 0 (terminated s) = some (some s.length) := by
  induction s with
  | nil => rfl
  | cons c rest inductionHypothesis =>
      have other : c ≠ 0 := isString.head_ne
      rw [terminated_cons, strchr, if_neg other, if_neg isString.head_ne,
        inductionHypothesis isString.tail]
      rfl

end Scans

/-! ## One call -/

/-- The run stands in the memory as a string of its own. -/
def StandsIn (str : CString) (buf : List (BitVec 8)) (p n : Nat) : Prop :=
  (buf.drop p).take (n + 1) = terminated ((str.drop p).take n)

/-- The calls go on at a place: the memory is the string from there on, and no word that goes on there
began before. -/
structure GoesOnAt (delim str : CString) (place : Nat) (buf : List (BitVec 8)) : Prop where
  inside : place ≤ str.length
  ahead : buf.drop place = (terminated str).drop place
  boundary : place < str.length → AtBoundary (InWord delim) str place

section Calls

variable {delim str : CString} {place p n : Nat} {buf buf' : List (BitVec 8)}

namespace GoesOnAt

theorem drop {q : Nat} (goesOn : GoesOnAt delim str place buf) (after : place ≤ q) :
    buf.drop q = (terminated str).drop q := by
  obtain ⟨k, rfl⟩ := Nat.exists_eq_add_of_le after
  rw [← List.drop_drop, goesOn.ahead, List.drop_drop]

theorem getElem {q : Nat} (goesOn : GoesOnAt delim str place buf) (after : place ≤ q) :
    buf[q]? = (terminated str)[q]? := by
  have first : (buf.drop q)[0]? = ((terminated str).drop q)[0]? := by rw [goesOn.drop after]
  simpa only [List.getElem?_drop, Nat.add_zero] using first

/-- A call once its scan has skipped the delimiters. -/
theorem strtokR_eq (goesOn : GoesOnAt delim str place buf) (isString : IsCString str)
    (isDelim : IsCString delim) :
    strtokR (terminated delim) none ⟨buf, some place⟩ =
      ((terminated str)[runStart (InWord delim) str place]?).bind fun c =>
        if c = nul then some (none, ⟨buf, some (runStart (InWord delim) str place)⟩)
        else (terminateToken (terminated delim) (runStart (InWord delim) str place) ⟨buf, some place⟩).map
          (some (runStart (InWord delim) str place), ·) := by
  have scan : strspn (buf.drop place) (terminated delim) =
      some ((str.drop place).findIdx fun c => decide (InWord delim c)) := by
    rw [goesOn.ahead, drop_terminated goesOn.inside]
    exact strspn_terminated (isString.suffix (List.drop_suffix _ _)) isDelim
  have here : buf[runStart (InWord delim) str place]? =
      (terminated str)[runStart (InWord delim) str place]? := goesOn.getElem le_scanTo
  rw [← here, strtokR]
  show ((strspn (buf.drop place) (terminated delim)).bind fun skipped => (buf[place + skipped]?).bind _) = _
  rw [scan, Option.bind_some]
  refine congrArg _ (funext fun c => ?_)
  by_cases isEnd : c = nul
  · rw [if_pos isEnd, if_pos isEnd]
    rfl
  · rw [if_neg isEnd, if_neg isEnd, Option.map_eq_bind]
    rfl

end GoesOnAt

/-- The second half of a call, at the start of a word of `n` characters. -/
structure Terminates (delim str : CString) (p n place : Nat) (buf buf' : List (BitVec 8)) : Prop where
  before : p + n ≤ place
  behind : place ≤ p + n + 1
  goesOn : GoesOnAt delim str place buf'
  stands : StandsIn str buf' p n
  frame : buf'.take (p + n) = buf.take (p + n)

theorem terminateToken_word (isString : IsCString str) (isDelim : IsCString delim)
    (goesOn : GoesOnAt delim str place buf) (after : place ≤ p) (inside : p ≤ str.length)
    (length : p + n = runEnd (InWord delim) str p) (closes : ¬HoldsAt (InWord delim) str (p + n)) :
    ∃ place' buf', terminateToken (terminated delim) p ⟨buf, some place⟩ = some ⟨buf', some place'⟩ ∧
      Terminates delim str p n place' buf buf' := by
  have ahead : buf.drop p = terminated (str.drop p) :=
    (goesOn.drop after).trans (drop_terminated inside)
  have isRest : IsCString (str.drop p) := isString.suffix (List.drop_suffix _ _)
  have scan : n = (str.drop p).findIdx fun c => !decide (InWord delim c) := Nat.add_left_cancel length
  have restLength : (str.drop p).length = str.length - p := List.length_drop
  have within : n ≤ (str.drop p).length := scan ▸ List.findIdx_le_length
  rw [terminateToken]
  show ∃ place' buf', ((strpbrk (buf.drop p) (terminated delim)).bind _) = _ ∧ _
  rw [ahead, strpbrk_terminated isRest isDelim scan, Option.bind_some]
  rcases Nat.eq_or_lt_of_le within with atEnd | earlier
  · -- The word ends with the string, whose terminator serves for it.
    have reached : p + n = str.length := by omega
    refine ⟨p + n, buf, ?_, Nat.le_refl _, Nat.le_succ _, ?_, ?_, rfl⟩
    · rw [if_neg (by omega)]
      show ((strchr 0 (terminated (str.drop p))).bind _) = _
      rw [strchr_terminated isRest, atEnd]
      rfl
    · exact ⟨Nat.le_of_eq reached, goesOn.drop (by omega), fun more => absurd reached (Nat.ne_of_lt more)⟩
    · rw [StandsIn, ahead, atEnd, List.take_length, List.take_of_length_le (by simp [terminated])]
  · have size : ¬buf.length ≤ p + n := by
      have lengths := congrArg List.length ahead
      rw [List.length_drop, terminated, List.length_append, restLength] at lengths
      omega
    refine ⟨p + n + 1, buf.set (p + n) nul, ?_, Nat.le_succ _, Nat.le_refl _, ⟨?_, ?_, ?_⟩, ?_, ?_⟩
    · rw [if_pos earlier]
      exact if_neg size
    · omega
    · rw [List.drop_set_of_lt (Nat.lt_succ_self _)]
      exact goesOn.drop (by omega)
    · intro _ i next
      cases next
      exact closes
    · have inner : ¬p + n < p := by omega
      rw [StandsIn, List.drop_set, if_neg inner, Nat.add_sub_cancel_left, ahead]
      exact take_set_terminated within
    · exact List.take_set_of_le (Nat.le_refl _)

/-- Behind the last word a call returns the null pointer. -/
theorem strtokR_none (isString : IsCString str) (isDelim : IsCString delim)
    (goesOn : GoesOnAt delim str place buf) (ended : runStart (InWord delim) str place = str.length) :
    strtokR (terminated delim) none ⟨buf, some place⟩ = some (none, ⟨buf, some str.length⟩) := by
  rw [goesOn.strtokR_eq isString isDelim, ended, terminated_length, Option.bind_some, if_pos rfl]

/-- Before it a call returns the next word. -/
theorem strtokR_some (isString : IsCString str) (isDelim : IsCString delim)
    (goesOn : GoesOnAt delim str place buf) (start : p = runStart (InWord delim) str place)
    (more : p < str.length) :
    ∃ n place' buf', strtokR (terminated delim) none ⟨buf, some place⟩ = some (some p, ⟨buf', some place'⟩) ∧
      MaximalRun (InWord delim) str p n ∧ Terminates delim str p n place' buf buf' := by
  have after : place ≤ p := start ▸ le_scanTo
  obtain ⟨n, length⟩ := Nat.exists_eq_add_of_le (le_scanTo : p ≤ runEnd (InWord delim) str p)
  have boundary := goesOn.boundary (Nat.lt_of_le_of_lt after more)
  have run : MaximalRun (InWord delim) str p n := maximalRun_scan boundary n start more length.symm
  obtain ⟨place', buf', returns, terminates⟩ := terminateToken_word isString isDelim goesOn after
    (Nat.le_of_lt more) length.symm run.closes
  refine ⟨n, place', buf', ?_, run, terminates⟩
  have other : str[p] ≠ nul := fun isNul => isString (isNul ▸ List.getElem_mem more)
  rw [goesOn.strtokR_eq isString isDelim, ← start, terminated_getElem more, Option.bind_some, if_neg other,
    returns]
  rfl

/-! ## All calls -/

/-- What the calls from a place on return: the words from there on, in their order. Each stands in the memory
when it is returned and in the end. -/
structure Splits (delim str : CString) (place : Nat) (buf : List (BitVec 8))
    (tokens : List (Nat × List (BitVec 8))) (final : List (BitVec 8)) : Prop where
  ordered : (tokens.map Prod.fst).Pairwise (· < ·)
  words : ∀ q, q ∈ tokens.map Prod.fst ↔ place ≤ q ∧ ∃ m, MaximalRun (InWord delim) str q m
  returned : ∀ q b m, (q, b) ∈ tokens → MaximalRun (InWord delim) str q m → StandsIn str b q m
  stays : ∀ q m, place ≤ q → MaximalRun (InWord delim) str q m → StandsIn str final q m
  frame : final.take (place + 1) = buf.take (place + 1)

theorem take_eq_of_le {α : Type*} {s t : List α} {i j : Nat} (same : s.take j = t.take j) (le : i ≤ j) :
    s.take i = t.take i := by
  have both := congrArg (List.take i) same
  rwa [List.take_take, List.take_take, Nat.min_eq_left le] at both

theorem StandsIn.of_take (stands : StandsIn str buf p n)
    (same : buf'.take (p + n + 1) = buf.take (p + n + 1)) : StandsIn str buf' p n := by
  have dropped := congrArg (List.drop p) same
  rw [List.drop_take, List.drop_take, show p + n + 1 - p = n + 1 by omega] at dropped
  exact dropped.trans stands

theorem splits_nil (ended : runStart (InWord delim) str place = str.length) :
    Splits delim str place buf [] buf := by
  have noWord : ∀ q m, place ≤ q → ¬MaximalRun (InWord delim) str q m := by
    intro q m after run
    have late : runStart (InWord delim) str place ≤ q := run.start_of_scan after
    have inside := run.start.lt_length
    omega
  refine ⟨.nil, fun q => ⟨fun member => ?_, ?_⟩, fun q b m member => ?_, fun q m after run => ?_, rfl⟩
  · cases member
  · rintro ⟨after, m, run⟩
    exact absurd run (noWord q m after)
  · cases member
  · exact absurd run (noWord q m after)

theorem splits_cons {place' : Nat} {tokens : List (Nat × List (BitVec 8))} {final : List (BitVec 8)}
    (start : p = runStart (InWord delim) str place) (run : MaximalRun (InWord delim) str p n)
    (terminates : Terminates delim str p n place' buf buf')
    (rest : Splits delim str place' buf' tokens final) :
    Splits delim str place buf ((p, buf') :: tokens) final := by
  have some_ := run.nonempty
  have after : place ≤ p := start ▸ le_scanTo
  have before := terminates.before
  -- A word from the place on is this one or one of the rest.
  have either : ∀ q m, place ≤ q → MaximalRun (InWord delim) str q m → q = p ∨ place' ≤ q := by
    intro q m later other
    have late : p ≤ q := start ▸ other.start_of_scan later
    rcases Nat.lt_or_ge (p + n) q with far | near
    · exact .inr (Nat.le_trans terminates.behind far)
    · exact .inl (run.start_eq other late near)
  refine ⟨?_, fun q => ⟨fun member => ?_, ?_⟩, fun q b m member other => ?_, fun q m later other => ?_, ?_⟩
  · refine List.pairwise_cons.mpr ⟨fun q member => ?_, rest.ordered⟩
    have later := ((rest.words q).mp member).1
    omega
  · rcases List.mem_cons.mp member with same | member
    · cases same
      exact ⟨after, n, run⟩
    · obtain ⟨later, other⟩ := (rest.words q).mp member
      exact ⟨by omega, other⟩
  · rintro ⟨later, m, other⟩
    rcases either q m later other with same | later
    · exact List.mem_cons.mpr (.inl same)
    · exact List.mem_cons_of_mem _ ((rest.words q).mpr ⟨later, m, other⟩)
  · rcases List.mem_cons.mp member with same | member
    · cases same
      exact run.length_eq other ▸ terminates.stands
    · exact rest.returned q b m member other
  · rcases either q m later other with same | later
    · subst same
      rw [← run.length_eq other]
      exact terminates.stands.of_take (take_eq_of_le rest.frame (by omega))
    · exact rest.stays q m later other
  · have first := take_eq_of_le rest.frame (show place + 1 ≤ place' + 1 by omega)
    exact first.trans (take_eq_of_le terminates.frame (by omega))

/-- The calls come to an end, and return the words that are ahead. -/
theorem strtokCalls_splits (isString : IsCString str) (isDelim : IsCString delim)
    (goesOn : GoesOnAt delim str place buf) :
    ∃ tokens last, Settles (fun fuel => strtokCalls (terminated delim) fuel none ⟨buf, some place⟩)
      (tokens, last) ∧ Splits delim str place buf tokens last.buf := by
  induction left : str.length - place using Nat.strongRecOn generalizing place buf with
  | ind left' inductionHypothesis =>
      obtain ⟨p, start⟩ : ∃ p, p = runStart (InWord delim) str place := ⟨_, rfl⟩
      have within : p ≤ str.length := start ▸ scanTo_le_length goesOn.inside
      have after : place ≤ p := start ▸ le_scanTo
      rcases Nat.eq_or_lt_of_le within with atEnd | more
      · have ended := start.symm.trans atEnd
        refine ⟨[], ⟨buf, some str.length⟩, ⟨1, fun fuel enough => ?_⟩, splits_nil ended⟩
        obtain ⟨fuel, rfl⟩ := Nat.exists_eq_add_of_le' enough
        show strtokCalls _ (fuel + 1) _ _ = _
        rw [strtokCalls, strtokR_none isString isDelim goesOn ended]
        rfl
      · obtain ⟨n, place', buf', returns, run, terminates⟩ :=
          strtokR_some isString isDelim goesOn start more
        have some_ := run.nonempty
        have before := terminates.before
        obtain ⟨tokens, last, settles, rest⟩ :=
          inductionHypothesis (str.length - place') (by omega) terminates.goesOn rfl
        refine ⟨(p, buf') :: tokens, last, ?_, splits_cons start run terminates rest⟩
        refine Settles.round (fun fuel => ?_) (settles.map fun rest => ((p, buf') :: rest.1, rest.2))
        rw [strtokCalls, returns]
        rfl

end Calls

/-- The first call gets the string instead of the saved pointer. -/
theorem strtokCalls_first (delim buf : List (BitVec 8)) (fuel : Nat) (save : Option Nat) :
    strtokCalls delim fuel (some 0) ⟨buf, save⟩ = strtokCalls delim fuel none ⟨buf, some 0⟩ := by
  cases fuel <;> rfl

theorem goesOnAt_zero (delim str : CString) : GoesOnAt delim str 0 (terminated str) :=
  ⟨Nat.zero_le _, rfl, fun _ => atBoundary_zero⟩

/-- The calls of `strtok_r` on a string return its words, in their order: the tokens are the starts of the
maximal runs of characters that are not delimiters. Each one is terminated in place, when it is returned and
in the end. The memory ends with the terminator of the string. -/
theorem strtok_words {delim str : CString} (save : Option Nat) (isString : IsCString str)
    (isDelim : IsCString delim) :
    ∃ tokens last, Settles (fun fuel => strtokCalls (terminated delim) fuel (some 0) ⟨terminated str, save⟩)
      (tokens, last) ∧
      (tokens.map Prod.fst).Pairwise (· < ·) ∧
      (∀ p, p ∈ tokens.map Prod.fst ↔ ∃ n, MaximalRun (InWord delim) str p n) ∧
      ∀ p n, MaximalRun (InWord delim) str p n →
        (∀ buf, (p, buf) ∈ tokens → StandsIn str buf p n) ∧ StandsIn str last.buf p n := by
  obtain ⟨tokens, last, ⟨enough, returns⟩, splits⟩ :=
    strtokCalls_splits isString isDelim (goesOnAt_zero delim str)
  refine ⟨tokens, last, ⟨enough, fun fuel more => ?_⟩, splits.ordered, fun p => ?_, fun p n run => ⟨?_, ?_⟩⟩
  · exact (strtokCalls_first _ _ fuel save).trans (returns fuel more)
  · exact (splits.words p).trans (and_iff_right (Nat.zero_le p))
  · exact fun buf member => splits.returned p buf n member run
  · exact splits.stays p n (Nat.zero_le p) run

/-- Two words between blanks and a comma. -/
theorem strtok_words_two :
    ∃ tokens last, Settles
      (fun fuel => strtokCalls (terminated [0x20, 0x2C]) fuel (some 0)
        ⟨terminated [0x20, 0x61, 0x62, 0x2C, 0x20, 0x63], none⟩) (tokens, last) ∧
      (tokens.map Prod.fst).Pairwise (· < ·) ∧
      (∀ p, p ∈ tokens.map Prod.fst ↔
        ∃ n, MaximalRun (InWord [0x20, 0x2C]) [0x20, 0x61, 0x62, 0x2C, 0x20, 0x63] p n) ∧
      ∀ p n, MaximalRun (InWord [0x20, 0x2C]) [0x20, 0x61, 0x62, 0x2C, 0x20, 0x63] p n →
        (∀ buf, (p, buf) ∈ tokens → StandsIn [0x20, 0x61, 0x62, 0x2C, 0x20, 0x63] buf p n) ∧
          StandsIn [0x20, 0x61, 0x62, 0x2C, 0x20, 0x63] last.buf p n :=
  strtok_words none (by unfold IsCString; decide) (by unfold IsCString; decide)

/-! ## The scans in a longer memory -/

section Scans

variable {s delim : List (BitVec 8)} (u : List (BitVec 8))

theorem strchr_append {c : BitVec 8} {found : Option Nat} (returns : strchr c s = some found) :
    strchr c (s ++ u) = some found := by
  induction s generalizing found with
  | nil => cases returns
  | cons d s inductionHypothesis =>
      rw [List.cons_append]
      rw [strchr] at returns ⊢
      by_cases same : d = c
      · rwa [if_pos same] at returns ⊢
      rw [if_neg same] at returns ⊢
      by_cases ended : d = nul
      · rwa [if_pos ended] at returns ⊢
      rw [if_neg ended] at returns ⊢
      obtain ⟨later, returned, rfl⟩ := Option.map_eq_some_iff.mp returns
      rw [inductionHypothesis returned]
      rfl

theorem strcspn_append {n : Nat} (returns : strcspn s delim = some n) :
    strcspn (s ++ u) delim = some n := by
  induction s generalizing n with
  | nil => cases returns
  | cons c s inductionHypothesis =>
      rw [List.cons_append]
      rw [strcspn] at returns ⊢
      by_cases ended : c = nul
      · rwa [if_pos ended] at returns ⊢
      rw [if_neg ended] at returns ⊢
      obtain ⟨found, inner, returns⟩ := Option.bind_eq_some_iff.mp returns
      rw [inner, Option.bind_some]
      cases found with
      | true => exact returns
      | false =>
          obtain ⟨later, returned, rfl⟩ := Option.map_eq_some_iff.mp returns
          exact congrArg (Option.map _) (inductionHypothesis returned)

theorem strspnSingle_append {d : BitVec 8} {n : Nat} (returns : strspnSingle d s = some n) :
    strspnSingle d (s ++ u) = some n := by
  induction s generalizing n with
  | nil => cases returns
  | cons c s inductionHypothesis =>
      rw [List.cons_append]
      rw [strspnSingle] at returns ⊢
      by_cases same : c = d
      · rw [if_pos same] at returns ⊢
        obtain ⟨later, returned, rfl⟩ := Option.map_eq_some_iff.mp returns
        exact congrArg (Option.map _) (inductionHypothesis returned)
      · rwa [if_neg same] at returns ⊢

theorem strspnLoop_append {n : Nat} (returns : strspnLoop s delim = some n) :
    strspnLoop (s ++ u) delim = some n := by
  induction s generalizing n with
  | nil => cases returns
  | cons c s inductionHypothesis =>
      rw [List.cons_append]
      rw [strspnLoop] at returns ⊢
      by_cases ended : c = nul
      · rwa [if_pos ended] at returns ⊢
      rw [if_neg ended] at returns ⊢
      obtain ⟨found, inner, returns⟩ := Option.bind_eq_some_iff.mp returns
      rw [inner, Option.bind_some]
      cases found with
      | false => exact returns
      | true =>
          obtain ⟨later, returned, rfl⟩ := Option.map_eq_some_iff.mp returns
          exact congrArg (Option.map _) (inductionHypothesis returned)

theorem strspn_append {n : Nat} (returns : strspn s delim = some n) : strspn (s ++ u) delim = some n := by
  obtain ⟨first, here, returns⟩ := Option.bind_eq_some_iff.mp returns
  rw [strspn, here]
  show (if first = nul then some 0 else _) = _
  by_cases ended : first = nul
  · rwa [if_pos ended] at returns ⊢
  rw [if_neg ended] at returns ⊢
  obtain ⟨second, next, returns⟩ := Option.bind_eq_some_iff.mp returns
  rw [next]
  show (if second = nul then _ else _) = _
  by_cases single : second = nul
  · rw [if_pos single] at returns ⊢
    exact strspnSingle_append u returns
  · rw [if_neg single] at returns ⊢
    exact strspnLoop_append u returns

theorem strpbrk_append {found : Option Nat} (returns : strpbrk s delim = some found) :
    strpbrk (s ++ u) delim = some found := by
  obtain ⟨n, scan, returns⟩ := Option.bind_eq_some_iff.mp returns
  obtain ⟨c, here, returns⟩ := Option.bind_eq_some_iff.mp returns
  have inside : n < s.length := (List.getElem?_eq_some_iff.mp here).1
  rw [strpbrk, strcspn_append u scan]
  show ((s ++ u)[n]?).bind _ = _
  rw [List.getElem?_append_left inside, here]
  exact returns

end Scans

/-! ## The calls in a longer memory -/

/-- The same string with something behind its memory. -/
def behind (u : List (BitVec 8)) (t : Strtok) : Strtok := { t with buf := t.buf ++ u }

section Calls

variable {delim : List (BitVec 8)} {t t' : Strtok} {token : Nat} (u : List (BitVec 8))

/-- What lies at a place of the longer memory. -/
theorem drop_behind {s : List (BitVec 8)} {place : Nat} (inside : place ≤ s.length) :
    (s ++ u).drop place = s.drop place ++ u := List.drop_append_of_le_length inside

theorem terminateToken_behind (inside : token ≤ t.buf.length)
    (returns : terminateToken delim token t = some t') :
    terminateToken delim token (behind u t) = some (behind u t') := by
  obtain ⟨found, scan, returns⟩ := Option.bind_eq_some_iff.mp returns
  rw [terminateToken]
  show ((strpbrk ((t.buf ++ u).drop token) delim).bind _) = _
  rw [drop_behind u inside, strpbrk_append u scan, Option.bind_some]
  cases found with
  | none =>
      obtain ⟨end_, scanned, returns⟩ := Option.bind_eq_some_iff.mp returns
      cases returns
      show ((strchr 0 ((t.buf ++ u).drop token)).bind _) = _
      rw [drop_behind u inside, strchr_append u scanned]
      rfl
  | some n =>
      obtain ⟨within, returned⟩ : ¬t.buf.length ≤ token + n ∧
          some ⟨t.buf.set (token + n) nul, some (token + n + 1)⟩ = some t' := by
        by_cases outside : t.buf.length ≤ token + n
        · cases (if_pos outside).symm.trans returns
        · exact ⟨outside, (if_neg outside).symm.trans returns⟩
      cases returned
      have longer : ¬(t.buf ++ u).length ≤ token + n := by
        rw [List.length_append]
        omega
      refine (if_neg longer).trans ?_
      have same : (t.buf ++ u).set (token + n) nul = t.buf.set (token + n) nul ++ u :=
        List.set_append_left _ _ (Nat.not_le.mp within)
      show some (Strtok.mk ((t.buf ++ u).set (token + n) nul) (some (token + n + 1))) = _
      rw [same]
      rfl

/-- The steps of a call. -/
theorem strtokR_steps (str : Option Nat) :
    strtokR delim str t =
      (str <|> t.out).bind fun place => (strspn (t.buf.drop place) delim).bind fun skipped =>
        (t.buf[place + skipped]?).bind fun c =>
          if c = nul then some (none, { t with out := some (place + skipped) })
          else (terminateToken delim (place + skipped) t).map (some (place + skipped), ·) := by
  simp only [Option.map_eq_bind]
  rfl

theorem strtokR_behind {str found : Option Nat} (returns : strtokR delim str t = some (found, t')) :
    strtokR delim str (behind u t) = some (found, behind u t') := by
  rw [strtokR_steps] at returns ⊢
  obtain ⟨place, given, returns⟩ := Option.bind_eq_some_iff.mp returns
  obtain ⟨skipped, scan, returns⟩ := Option.bind_eq_some_iff.mp returns
  obtain ⟨c, here, returns⟩ := Option.bind_eq_some_iff.mp returns
  have inside : place + skipped < t.buf.length := (List.getElem?_eq_some_iff.mp here).1
  show ((str <|> t.out).bind fun place => (strspn ((t.buf ++ u).drop place) delim).bind fun skipped =>
    ((t.buf ++ u)[place + skipped]?).bind _) = _
  rw [given, Option.bind_some, drop_behind u (by omega), strspn_append u scan, Option.bind_some,
    List.getElem?_append_left inside, here, Option.bind_some]
  by_cases ended : c = nul
  · rw [if_pos ended] at returns ⊢
    cases returns
    rfl
  · rw [if_neg ended] at returns ⊢
    obtain ⟨t'', returned, same⟩ := Option.map_eq_some_iff.mp returns
    cases same
    rw [terminateToken_behind u (Nat.le_of_lt inside) returned]
    rfl

/-- The calls on a string at the front of a longer memory are those on the string. -/
theorem strtokCalls_behind {fuel : Nat} {str : Option Nat} {tokens : List (Nat × List (BitVec 8))}
    (returns : strtokCalls delim fuel str t = some (tokens, t')) :
    strtokCalls delim fuel str (behind u t) =
      some (tokens.map fun token => (token.1, token.2 ++ u), behind u t') := by
  induction fuel generalizing str t tokens with
  | zero => cases returns
  | succ fuel inductionHypothesis =>
      rw [strtokCalls] at returns ⊢
      obtain ⟨⟨found, middle⟩, returned, returns⟩ := Option.bind_eq_some_iff.mp returns
      rw [strtokR_behind u returned, Option.bind_some]
      cases found with
      | none =>
          cases returns
          rfl
      | some token =>
          obtain ⟨⟨rest, last⟩, others, same⟩ := Option.map_eq_some_iff.mp returns
          cases same
          exact congrArg (Option.map _) (inductionHypothesis others)

/-! ## The size of the memory -/

theorem terminateToken_length (returns : terminateToken delim token t = some t') :
    t'.buf.length = t.buf.length := by
  obtain ⟨found, -, returns⟩ := Option.bind_eq_some_iff.mp returns
  cases found with
  | none =>
      obtain ⟨end_, -, returns⟩ := Option.bind_eq_some_iff.mp returns
      cases returns
      rfl
  | some n =>
      by_cases outside : t.buf.length ≤ token + n
      · cases (if_pos outside).symm.trans returns
      · cases (if_neg outside).symm.trans returns
        exact List.length_set

theorem strtokR_length {str found : Option Nat} (returns : strtokR delim str t = some (found, t')) :
    t'.buf.length = t.buf.length := by
  rw [strtokR_steps] at returns
  obtain ⟨place, -, returns⟩ := Option.bind_eq_some_iff.mp returns
  obtain ⟨skipped, -, returns⟩ := Option.bind_eq_some_iff.mp returns
  obtain ⟨c, -, returns⟩ := Option.bind_eq_some_iff.mp returns
  by_cases ended : c = nul
  · rw [if_pos ended] at returns
    cases returns
    rfl
  · rw [if_neg ended] at returns
    obtain ⟨t'', returned, same⟩ := Option.map_eq_some_iff.mp returns
    cases same
    exact terminateToken_length returned

theorem strtokCalls_length {fuel : Nat} {str : Option Nat} {tokens : List (Nat × List (BitVec 8))}
    (returns : strtokCalls delim fuel str t = some (tokens, t')) : t'.buf.length = t.buf.length := by
  induction fuel generalizing str t tokens with
  | zero => cases returns
  | succ fuel inductionHypothesis =>
      rw [strtokCalls] at returns
      obtain ⟨⟨found, middle⟩, returned, returns⟩ := Option.bind_eq_some_iff.mp returns
      cases found with
      | none =>
          cases returns
          exact strtokR_length returned
      | some token =>
          obtain ⟨⟨rest, last⟩, others, same⟩ := Option.map_eq_some_iff.mp returns
          cases same
          exact (inductionHypothesis others).trans (strtokR_length returned)

end Calls

end Voxel.Proofs
