/-
Module: Voxel.Proofs.ShellRounds
Layer: Proofs
Purpose: When a round of the shell is safe: it stays inside of its arrays, and what a child passes to `execv`
  is the words of the line. The calls of `strtok_r` find at most 511 words in the buffer, so that the vector
  with the null pointer behind them fits. A line that starts with a zero byte has no last character, and the
  terminator that should replace it is stored far away from the buffer; a zero byte further on ends the line
  early, so that the round is safe only if it does not come to `execv`.
Trusted boundary: none
Main exports: wordsOf, strtokCalls_words, storeTokens_eq, argvOf_places, RoundOutcome, runTokens_outcome,
  runCommand_settles, Sized, shStep_sized, Typed, Overlong, RoundSafe, ReadableInput, roundSafe_iff,
  shell_round_safe_iff, shell_leaves_array
-/
import Voxel.Lib.Run
import Voxel.Proofs.ShellLine
import Voxel.Proofs.StrtokWords
import Voxel.Proofs.StringFunctions

namespace Voxel.Proofs

open Voxel.Lib Voxel.Libc Voxel.Userspace

/-- The characters between blanks. -/
abbrev NotBlank (c : BitVec 8) : Prop := c ≠ chr ' '

/-- The words of a text that is separated by blanks. -/
def wordsOf (text : CString) : List CString := runs NotBlank text

theorem inWord_blank : InWord [chr ' '] = NotBlank :=
  funext fun _ => propext (not_congr List.mem_singleton)

/-- A text of at most 1022 characters has at most 511 words. -/
theorem runStarts_few {text : CString} (short : text.length ≤ 1022) :
    (runStarts NotBlank text).length ≤ 511 := by
  have few := @runs_length_le _ NotBlank text _
  rw [runs, List.length_map] at few
  omega

/-- No word is empty, and none holds a terminator if the text does not. -/
theorem wordsOf_string {text word : CString} (isString : IsCString text) (member : word ∈ wordsOf text) :
    word ≠ [] ∧ IsCString word := by
  refine ⟨fun empty => ?_, fun inWord => isString (mem_of_mem_runs member inWord)⟩
  obtain ⟨p, n, run, rfl⟩ := mem_runs.mp member
  have inside := run.start.lt_length
  have some_ := run.nonempty
  have length := congrArg List.length empty
  rw [List.length_take, List.length_drop, List.length_nil] at length
  omega

/-! ## The tokens -/

/-- A string that stands in the memory is the string at its place. -/
theorem StandsIn.stringAt {text : CString} {buf : List (BitVec 8)} {p n : Nat} (isString : IsCString text)
    (stands : StandsIn text buf p n) (more : List (BitVec 8)) :
    stringAt (buf ++ more) p = some ((text.drop p).take n) := by
  have cut : buf.drop p = terminated ((text.drop p).take n) ++ (buf.drop p).drop (n + 1) := by
    rw [← show (buf.drop p).take (n + 1) = _ from stands, List.take_append_drop]
  have inside : p ≤ buf.length := by
    have longer := congrArg List.length cut
    rw [terminated, List.length_append, List.length_append, List.length_singleton, List.length_drop] at longer
    omega
  have word : IsCString ((text.drop p).take n) :=
    fun member => isString (List.mem_of_mem_drop (List.mem_of_mem_take member))
  refine stringAt_terminated word ((buf.drop p).drop (n + 1) ++ more) ?_
  rw [drop_behind more inside, cut, terminated, List.append_assoc, List.append_assoc]
  rw [← terminated, ← cut]
  rfl

/-- The calls on the text at the front of the buffer return the starts of its words, each of which is then a
string of its own. -/
theorem strtokCalls_words {text : CString} (isString : IsCString text) (more : List (BitVec 8)) :
    ∃ found buf out,
      Settles (fun fuel => strtokCalls (terminated [chr ' ']) fuel (some 0) ⟨terminated text ++ more, none⟩)
        (found, ⟨buf ++ more, out⟩) ∧
      found.map Prod.fst = runStarts NotBlank text ∧
      ∀ p ∈ runStarts NotBlank text,
        stringAt (buf ++ more) p = some ((text.drop p).takeWhile fun c => decide (NotBlank c)) := by
  have isDelim : IsCString [chr ' '] := by unfold IsCString; decide
  obtain ⟨tokens, last, ⟨enough, returns⟩, splits⟩ :=
    strtokCalls_splits isString isDelim (goesOnAt_zero [chr ' '] text)
  have ⟨ordered, words, _, stays, _⟩ := splits
  rw [inWord_blank] at words stays
  refine ⟨tokens.map fun token => (token.1, token.2 ++ more), last.buf, last.out,
    ⟨enough, fun fuel later => ?_⟩, ?_, fun p member => ?_⟩
  · exact (strtokCalls_first _ _ fuel none).trans (strtokCalls_behind more (returns fuel later))
  · rw [List.map_map]
    exact eq_runStarts ordered fun p => (words p).trans (and_iff_right (Nat.zero_le p))
  · obtain ⟨n, run⟩ := mem_runStarts.mp member
    rw [run.takeWhile_eq]
    exact (stays p n (Nat.zero_le p) run).stringAt isString more

/-! ## The vector -/

/-- The loop stores the tokens behind those that are stored already. -/
theorem storeTokens_eq {i : Nat} (front back : List (Option Nat)) (places : List Nat)
    (filled : i = front.length) (few : i + places.length ≤ 511) (room : places.length ≤ back.length) :
    storeTokens i places (front ++ back) =
      some (i + places.length, front ++ (places.map some ++ back.drop places.length)) := by
  induction places generalizing i front back with
  | nil => rfl
  | cons p places inductionHypothesis =>
      rw [List.length_cons] at few room
      obtain ⟨old, back, rfl⟩ := List.exists_cons_of_length_pos (Nat.zero_lt_of_lt room)
      rw [List.length_cons] at room
      have next : front ++ some p :: back = (front ++ [some p]) ++ back := by rw [List.append_assoc]; rfl
      have longer : i + 1 = (front ++ [some p]).length := by
        rw [List.length_append, List.length_singleton, filled]
      rw [storeTokens, if_pos (by omega), store_append front old back (some p) filled, Option.bind_some,
        next, inductionHypothesis _ back longer (by omega) (by omega), List.append_assoc, List.length_cons,
        Nat.add_assoc, Nat.add_comm 1]
      rfl

/-- The vector with its null pointer. -/
theorem vector_terminated {tokens : List (Option Nat)} (places : List Nat) (few : places.length ≤ 511)
    (room : tokens.length = 512) :
    ∃ stored back, storeTokens 0 places tokens = some (places.length, stored) ∧
      store stored places.length none = some (places.map some ++ none :: back) := by
  have left : 0 < (tokens.drop places.length).length := by
    rw [List.length_drop]
    omega
  obtain ⟨old, back, rest⟩ := List.exists_cons_of_length_pos left
  have stored := @storeTokens_eq 0 [] tokens places rfl (by omega) (by omega)
  rw [Nat.zero_add, rest] at stored
  exact ⟨_, back, stored, store_append _ old back none (List.length_map some).symm⟩

/-- `execv` finds the strings of the vector. -/
theorem argvOf_places {command : List (BitVec 8)} {word : Nat → CString} (places : List Nat)
    (back : List (Option Nat)) (stands : ∀ p ∈ places, stringAt command p = some (word p)) :
    argvOf command (places.map some ++ none :: back) = some (places.map word) := by
  induction places with
  | nil => rfl
  | cons p places inductionHypothesis =>
      have rest := inductionHypothesis fun q member => stands q (List.mem_cons_of_mem p member)
      rw [List.map_cons, List.cons_append, argvOf, stands p List.mem_cons_self, Option.bind_some, rest]
      rfl

/-! ## The round -/

/-- How a round ends that found `words` in the line: if it calls `execv`, then with all of them. -/
inductive RoundOutcome (access : CString → Bool) : List CString → ShRound → Prop where
  | blank (next : ShState) : RoundOutcome access [] (.again next)
  | leaves (rest : List CString) : RoundOutcome access (exitName :: rest) .leaves
  | missing {word : CString} (rest : List CString) (next : ShState) (other : word ≠ exitName)
      (fails : access word = true) : RoundOutcome access (word :: rest) (.again next)
  | execs {word : CString} (rest : List CString) (path : CString) (next : ShState)
      (other : word ≠ exitName) : RoundOutcome access (word :: rest) (.execs path (word :: rest) next)

theorem findCommand_returns {command : List (BitVec 8)} {token : CString} (access : CString → Bool)
    (isString : IsCString token) (terminates : nul ∈ command) :
    ∃ found, findCommand access command token = some found ∧ (found = none → access token = true) := by
  cases fails : access token with
  | false =>
      obtain ⟨path, stands⟩ := @exists_stringAt command 0 terminates
      refine ⟨some path, ?_, fun missing => absurd missing (Option.some_ne_none path)⟩
      rw [findCommand, fails, stands]
      rfl
  | true =>
      have isSlash : IsCString [chr '/'] := by unfold IsCString; decide
      obtain ⟨found, returned, -⟩ := strstr_returns isString isSlash
      have searched : Libc.strstr (terminated token) (terminated [chr '/']) = some found := returned
      rw [findCommand, if_pos fails, searched]
      exact ⟨_, rfl, fun _ => rfl⟩

theorem runTokens_outcome {s : ShState} {word : Nat → CString} (places : List Nat)
    (back : List (Option Nat)) (access : CString → Bool) (vector : s.tokens = places.map some ++ none :: back)
    (stands : ∀ p ∈ places, stringAt s.command p = some (word p)) (terminates : nul ∈ s.command)
    (strings : ∀ w ∈ places.map word, w ≠ [] ∧ IsCString w) :
    ∃ r, runTokens access s = some r ∧ RoundOutcome access (places.map word) r := by
  cases places with
  | nil =>
      refine ⟨.again s, ?_, .blank s⟩
      rw [runTokens, vector]
      rfl
  | cons p places =>
      have argv := argvOf_places (p :: places) back stands
      obtain ⟨nonempty, isString⟩ := strings (word p) List.mem_cons_self
      have some_ := List.length_pos_of_ne_nil nonempty
      have first : runTokens access s = if word p = exitName then some .leaves
          else (findCommand access s.command (word p)).bind (execFound s) := by
        rw [runTokens, vector]
        show (stringAt s.command p).bind _ = _
        rw [stands p List.mem_cons_self, Option.bind_some, if_neg (by omega)]
      rw [first]
      by_cases exits : word p = exitName
      · rw [if_pos exits, List.map_cons, exits]
        exact ⟨_, rfl, .leaves _⟩
      rw [if_neg exits]
      obtain ⟨found, returned, fails⟩ := findCommand_returns access isString terminates
      rw [returned, Option.bind_some]
      cases found with
      | none => exact ⟨_, rfl, .missing _ s exits (fails rfl)⟩
      | some path =>
          refine ⟨.execs path ((p :: places).map word) s, ?_, .execs _ path s exits⟩
          show (argvOf s.command s.tokens).map _ = _
          rw [vector, argv]
          rfl

/-- A round on a string that has a last character. -/
theorem runCommand_settles {s : ShState} {text more : List (BitVec 8)} (access : CString → Bool)
    (isString : IsCString text) (nonempty : text ≠ []) (short : text.length ≤ 1023)
    (line : s.command = text ++ nul :: more) (room : s.tokens.length = 512) :
    ∃ r, Settles (fun fuel => runCommand access fuel s) r ∧
      RoundOutcome access (wordsOf text.dropLast) r := by
  have cut : IsCString text.dropLast := fun member => isString (List.dropLast_subset text member)
  have size : text.dropLast.length ≤ 1022 := by
    rw [List.length_dropLast]
    omega
  obtain ⟨found, buf, out, ⟨enough, returns⟩, starts, stands⟩ := strtokCalls_words cut (nul :: more)
  have few : (found.map Prod.fst).length ≤ 511 := starts ▸ runStarts_few size
  obtain ⟨stored, back, stores, vector⟩ := vector_terminated (found.map Prod.fst) few room
  have strings : ∀ w ∈ (found.map Prod.fst).map fun p =>
      (text.dropLast.drop p).takeWhile fun c => decide (NotBlank c), w ≠ [] ∧ IsCString w := by
    rw [starts]
    exact fun w member => wordsOf_string cut member
  obtain ⟨r, ends, outcome⟩ := @runTokens_outcome
    { s with command := buf ++ nul :: more, tokens := (found.map Prod.fst).map some ++ none :: back } _
    (found.map Prod.fst) back access rfl (starts ▸ stands) (List.mem_append_right buf List.mem_cons_self)
    strings
  refine ⟨r, ⟨enough, fun fuel later => ?_⟩, ?_⟩
  · show (cutLast s.command).bind _ = _
    rw [line, cutLast_terminated isString nonempty more (by omega), Option.bind_some]
    have called : strtokCalls (terminated [chr ' ']) fuel (some 0)
        ⟨terminated text.dropLast ++ nul :: more, none⟩ = _ := returns fuel later
    show (strtokCalls _ fuel _ _).bind _ = _
    rw [called, Option.bind_some]
    show (storeTokens 0 (found.map Prod.fst) s.tokens).bind _ = _
    rw [stores, Option.bind_some]
    show (store stored (found.map Prod.fst).length none).bind _ = _
    rw [vector, Option.bind_some]
    exact ends
  · rw [starts] at outcome
    exact outcome

/-! ## The sizes of the arrays -/

/-- The arrays are those of the source. -/
structure Sized (s : ShState) : Prop where
  command : s.command.length = 1024
  tokens : s.tokens.length = 512

theorem cutLast_length {command command' : List (BitVec 8)} (cut : cutLast command = some command') :
    command'.length = command.length := by
  obtain ⟨len, -, stored⟩ := Option.bind_eq_some_iff.mp cut
  exact store_length stored

theorem storeTokens_length {i j : Nat} {places : List Nat} {tokens tokens' : List (Option Nat)}
    (stores : storeTokens i places tokens = some (j, tokens')) : tokens'.length = tokens.length := by
  induction places generalizing i tokens with
  | nil =>
      cases stores
      rfl
  | cons p places inductionHypothesis =>
      rw [storeTokens] at stores
      split at stores
      · obtain ⟨middle, stored, rest⟩ := Option.bind_eq_some_iff.mp stores
        exact (inductionHypothesis rest).trans (store_length stored)
      · exact inductionHypothesis stores

/-- The end of a round does not change the arrays. -/
theorem runTokens_next {access : CString → Bool} {s next : ShState} {r : ShRound}
    (ends : runTokens access s = some r) (goesOn : r.next? = some next) : next = s := by
  obtain ⟨pointer, -, ends⟩ := Option.bind_eq_some_iff.mp ends
  cases pointer with
  | none =>
      cases ends
      exact (Option.some.inj goesOn).symm
  | some first =>
      obtain ⟨token, -, ends⟩ := Option.bind_eq_some_iff.mp ends
      split at ends
      · cases ends
        exact (Option.some.inj goesOn).symm
      split at ends
      · cases ends
        cases goesOn
      obtain ⟨found, -, ends⟩ := Option.bind_eq_some_iff.mp ends
      cases found with
      | none =>
          cases ends
          exact (Option.some.inj goesOn).symm
      | some path =>
          obtain ⟨argv, -, same⟩ := Option.map_eq_some_iff.mp ends
          cases same
          exact (Option.some.inj goesOn).symm

theorem runCommand_sized {access : CString → Bool} {fuel : Nat} {s next : ShState} {r : ShRound}
    (sized : Sized s) (ends : runCommand access fuel s = some r) (goesOn : r.next? = some next) :
    Sized next := by
  obtain ⟨command, cut, ends⟩ := Option.bind_eq_some_iff.mp ends
  obtain ⟨⟨found, last⟩, called, ends⟩ := Option.bind_eq_some_iff.mp ends
  obtain ⟨⟨i, tokens⟩, stores, ends⟩ := Option.bind_eq_some_iff.mp ends
  obtain ⟨tokens', stored, ends⟩ := Option.bind_eq_some_iff.mp ends
  cases runTokens_next ends goesOn
  exact ⟨(strtokCalls_length called).trans ((cutLast_length cut).trans sized.command),
    (store_length stored).trans ((storeTokens_length stores).trans sized.tokens)⟩

/-- The arrays keep their sizes in every step. -/
theorem shStep_sized {fuel : Nat} {s next : ShState} {access : CString → Bool} (sized : Sized s)
    (taken : shStep fuel s access = some next) : Sized next := by
  obtain ⟨r, ends, goesOn⟩ := Option.bind_eq_some_iff.mp taken
  obtain ⟨read, line, ends⟩ := Option.bind_eq_some_iff.mp ends
  cases read with
  | waits =>
      cases ends
      cases goesOn
  | line command input =>
      have size : command.length = 1024 := (readlineLoop_length line).trans sized.command
      exact @runCommand_sized _ _ { s with command := command, input := input } _ _ ⟨size, sized.tokens⟩ ends
        goesOn

/-! ## Safe rounds -/

/-- The input starts with a line of at most 1022 characters before its newline. -/
structure Typed (input line rest : List (BitVec 8)) : Prop where
  whole : input = line ++ newline :: rest
  ends : newline ∉ line
  short : line.length ≤ 1022

/-- The input starts with more characters without a newline than the buffer takes. -/
def Overlong (input : List (BitVec 8)) : Prop := 1023 ≤ input.length ∧ newline ∉ input.take 1023

/-- The round comes to an end without an access outside of the arrays, and if it calls `execv`, then with the
words of the line. -/
def RoundSafe (s : ShState) : Prop :=
  ∀ access, ∃ r, Settles (fun fuel => shRound access fuel s) r ∧
    ∀ path argv next line rest, r = .execs path argv next → Typed s.input line rest → argv = wordsOf line

/-- The words that the shell finds in a line with a zero byte: those before it, without the last character. -/
def wordsBeforeNul (line : List (BitVec 8)) : List CString := wordsOf (line.takeWhile (· ≠ nul)).dropLast

/-- A line with a zero byte does not start with it, and before it is no command, or the command to leave the
shell. An overlong line does not start with a zero byte. -/
structure ReadableInput (input : List (BitVec 8)) : Prop where
  line : ∀ line rest, Typed input line rest → nul ∈ line →
    line.head? ≠ some nul ∧ ∀ word ∈ (wordsBeforeNul line).head?, word = exitName
  overlong : Overlong input → input.head? ≠ some nul

section Rounds

variable {s : ShState} {input line rest content : List (BitVec 8)}

theorem Typed.takeLine (typed : Typed input line rest) :
    takeLine newline 1023 input = some (line ++ [newline], rest) := by
  rw [typed.whole]
  exact takeLine_line rest typed.ends (Nat.lt_succ_of_le typed.short)

theorem Overlong.takeLine (overlong : Overlong input) :
    takeLine newline 1023 input = some (input.take 1023, input.drop 1023) :=
  takeLine_full overlong.1 overlong.2

/-- A round waits, or it reads a typed line, or the front of an overlong one. -/
theorem takeLine_typed (taken : takeLine newline 1023 input = some (content, rest)) :
    (∃ line, content = line ++ [newline] ∧ Typed input line rest) ∨
      (Overlong input ∧ content = input.take 1023 ∧ newline ∉ content) := by
  rcases takeLine_cases taken with ⟨line, shape, ends, short, whole⟩ | ⟨full, ends, whole⟩
  · exact .inl ⟨line, shape, whole, ends, Nat.le_of_lt_succ short⟩
  · have front : input.take 1023 = content := by rw [whole, ← full, List.take_left]
    refine .inr ⟨⟨?_, front ▸ ends⟩, front.symm, ends⟩
    rw [whole, List.length_append, full]
    exact Nat.le_add_right _ _

/-- A round does not go on before it has read something. -/
theorem content_ne_nil (taken : takeLine newline 1023 input = some (content, rest)) : content ≠ [] := by
  rcases takeLine_cases taken with ⟨line, rfl, -⟩ | ⟨full, -⟩
  · exact List.append_ne_nil_of_right_ne_nil line (List.cons_ne_nil _ _)
  · exact List.ne_nil_of_length_pos (full ▸ Nat.succ_pos 1022)

/-- The line in the buffer. -/
theorem shRound_line (sized : Sized s) (taken : takeLine newline 1023 s.input = some (content, rest))
    (access : CString → Bool) (fuel : Nat) :
    shRound access fuel s = runCommand access fuel
      { s with command := content ++ nul :: s.command.drop (content.length + 1), input := rest } := by
  rw [shRound, readline_eq s.input sized.command, taken]
  rfl

/-- A round on a line that does not start with a zero byte comes to an end. -/
theorem shRound_settles (sized : Sized s) (taken : takeLine newline 1023 s.input = some (content, rest))
    (starts : content.head? ≠ some nul) (access : CString → Bool) :
    ∃ r, Settles (fun fuel => shRound access fuel s) r ∧
      RoundOutcome access (wordsOf (content.takeWhile (· ≠ nul)).dropLast) r := by
  obtain ⟨more, line⟩ := exists_behind_text content (s.command.drop (content.length + 1))
  have short : (content.takeWhile (· ≠ nul)).length ≤ 1023 :=
    (List.takeWhile_sublist _).length_le.trans (takeLine_length taken)
  have nonempty : content.takeWhile (· ≠ nul) ≠ [] := by
    obtain ⟨c, tail, rfl⟩ := List.exists_cons_of_ne_nil (content_ne_nil taken)
    have keeps : decide (c ≠ nul) = true := decide_eq_true fun isNul => starts (congrArg some isNul)
    rw [List.takeWhile_cons, if_pos keeps]
    exact List.cons_ne_nil _ _
  obtain ⟨r, settles, outcome⟩ := @runCommand_settles
    { s with command := content ++ nul :: s.command.drop (content.length + 1), input := rest } _ more access
    (text_isCString content) nonempty short line sized.tokens
  refine ⟨r, ?_, outcome⟩
  simp only [shRound_line sized taken]
  exact settles

/-- A round on a line that starts with a zero byte stores in front of the buffer. -/
theorem shRound_none (sized : Sized s) (taken : takeLine newline 1023 s.input = some (content, rest))
    (starts : content.head? = some nul) (access : CString → Bool) (fuel : Nat) :
    shRound access fuel s = none := by
  obtain ⟨tail, rfl⟩ := List.head?_eq_some_iff.mp starts
  have length := takeLine_length taken
  have small : (tail ++ nul :: s.command.drop ((nul :: tail).length + 1)).length < 2 ^ 64 - 1 := by
    rw [List.length_append, List.length_cons, List.length_drop, sized.command]
    rw [List.length_cons] at length
    omega
  rw [shRound_line sized taken]
  show (cutLast (nul :: (tail ++ nul :: s.command.drop ((nul :: tail).length + 1)))).bind _ = none
  rw [cutLast_empty small]
  rfl

/-- Every word before a zero byte is without one, and a word of the whole line has it. -/
theorem wordsBeforeNul_ne (member : nul ∈ line) : wordsBeforeNul line ≠ wordsOf line := by
  intro same
  obtain ⟨word, inWords, inWord⟩ := @exists_mem_runs _ NotBlank line _ _ member (by decide)
  have before : IsCString (line.takeWhile (· ≠ nul)).dropLast :=
    fun inside => text_isCString line (List.dropLast_subset _ inside)
  exact (wordsOf_string before (same ▸ inWords : word ∈ wordsBeforeNul line)).2 inWord

/-- The string of a line without a zero byte is the line with its newline. -/
theorem text_of_string (isString : nul ∉ line) :
    ((line ++ [newline]).takeWhile (· ≠ nul)).dropLast = line := by
  have whole : (line ++ [newline]).takeWhile (· ≠ nul) = line ++ [newline] := by
    refine List.takeWhile_eq_self_iff.mpr fun c member => decide_eq_true fun isNul => ?_
    rcases List.mem_append.mp member with inLine | last
    · exact isString (isNul ▸ inLine)
    · exact absurd (isNul.symm.trans (List.mem_singleton.mp last)) (by decide)
  rw [whole, List.dropLast_concat]

/-- A zero byte comes before the newline. -/
theorem text_of_cut (member : nul ∈ line) :
    (line ++ [newline]).takeWhile (· ≠ nul) = line.takeWhile (· ≠ nul) := by
  have cut : (line.takeWhile (· ≠ nul)).length ≠ line.length := by
    intro full
    have same := (List.takeWhile_sublist _).eq_of_length full
    exact text_isCString line (same.symm ▸ member)
  rw [List.takeWhile_append, if_neg cut]

theorem Overlong.not_typed (overlong : Overlong input) : ¬Typed input line rest := by
  intro typed
  have front : input.take 1023 = line ++ [newline] :=
    congrArg Prod.fst (Option.some.inj (overlong.takeLine.symm.trans typed.takeLine))
  refine overlong.2 ?_
  rw [front]
  exact List.mem_append_right line List.mem_cons_self

/-- A round that reads a line which starts with a zero byte is not safe. -/
theorem RoundSafe.head_ne (safe : RoundSafe s) (sized : Sized s)
    (taken : takeLine newline 1023 s.input = some (content, rest)) : content.head? ≠ some nul := by
  intro starts
  obtain ⟨r, ⟨enough, returns⟩, -⟩ := safe fun _ => false
  have returned := returns enough (Nat.le_refl enough)
  exact Option.some_ne_none r (returned.symm.trans (shRound_none sized taken starts _ enough))

/-- A round whose words are those of the line is safe, and so is one that does not come to `execv`. -/
theorem roundSafe_of_words (sized : Sized s) (taken : takeLine newline 1023 s.input = some (content, rest))
    (starts : content.head? ≠ some nul)
    (words : ∀ line rest, Typed s.input line rest →
      wordsOf (content.takeWhile (· ≠ nul)).dropLast = wordsOf line ∨
        ∀ word ∈ (wordsOf (content.takeWhile (· ≠ nul)).dropLast).head?, word = exitName) : RoundSafe s := by
  intro access
  obtain ⟨r, settles, outcome⟩ := shRound_settles sized taken starts access
  refine ⟨r, settles, fun path argv next line rest execs typed => ?_⟩
  subst execs
  generalize found : wordsOf (content.takeWhile (· ≠ nul)).dropLast = ws at outcome words
  cases outcome with
  | execs others _ _ other =>
      rcases words line rest typed with same | quiet
      · exact same
      · exact absurd (quiet _ rfl) other

/-- On a line with a zero byte a safe round does not come to `execv`, which would get other words. -/
theorem RoundSafe.quiet (safe : RoundSafe s) (sized : Sized s) (typed : Typed s.input line rest)
    (member : nul ∈ line) : ∀ word ∈ (wordsBeforeNul line).head?, word = exitName := by
  intro word first
  by_contra other
  obtain ⟨r, settles, outcome⟩ :=
    shRound_settles sized typed.takeLine (safe.head_ne sized typed.takeLine) fun _ => false
  rw [text_of_cut member, ← wordsBeforeNul] at outcome
  obtain ⟨others, found⟩ := List.head?_eq_some_iff.mp first
  rw [found] at outcome
  cases outcome with
  | leaves => exact other rfl
  | missing _ _ _ fails => cases fails
  | execs _ path next _ =>
      obtain ⟨r', settles', meets⟩ := safe fun _ => false
      have same := meets path (word :: others) next line rest (settles'.unique settles) typed
      exact wordsBeforeNul_ne member (found.trans same)

/-- A round is safe exactly if what it reads is readable. -/
theorem roundSafe_iff (sized : Sized s) : RoundSafe s ↔ ReadableInput s.input := by
  constructor
  · intro safe
    refine ⟨fun line rest typed member => ⟨fun starts => ?_, safe.quiet sized typed member⟩,
      fun overlong starts => ?_⟩
    · obtain ⟨tail, rfl⟩ := List.head?_eq_some_iff.mp starts
      exact safe.head_ne sized typed.takeLine rfl
    · obtain ⟨tail, whole⟩ := List.head?_eq_some_iff.mp starts
      refine safe.head_ne sized overlong.takeLine ?_
      rw [whole]
      rfl
  · intro readable
    cases taken : takeLine newline 1023 s.input with
    | none =>
        refine fun access => ⟨.waits, ⟨0, fun fuel _ => ?_⟩, fun path argv next line rest execs => ?_⟩
        · show shRound access fuel s = _
          rw [shRound, readline_eq s.input sized.command, taken]
          rfl
        · cases execs
    | some read =>
        obtain ⟨content, rest⟩ := read
        rcases takeLine_typed taken with ⟨line, rfl, typed⟩ | ⟨overlong, rfl, -⟩
        · by_cases member : nul ∈ line
          · obtain ⟨starts, quiet⟩ := readable.line line rest typed member
            obtain ⟨c, tail, rfl⟩ := List.exists_cons_of_ne_nil (List.ne_nil_of_mem member)
            refine roundSafe_of_words sized taken starts fun _ _ _ => .inr ?_
            rw [text_of_cut member]
            exact quiet
          · refine roundSafe_of_words sized taken (fun starts => ?_) fun line' rest' typed' => .inl ?_
            · rcases List.mem_append.mp (List.mem_of_mem_head? starts) with inLine | last
              · exact member inLine
              · exact absurd (List.mem_singleton.mp last) (by decide)
            · have same : line ++ [newline] = line' ++ [newline] :=
                congrArg Prod.fst (Option.some.inj (taken.symm.trans typed'.takeLine))
              rw [text_of_string member, List.append_cancel_right same]
        · refine roundSafe_of_words sized taken (fun starts => ?_) fun line' rest' typed' =>
            absurd typed' overlong.not_typed
          obtain ⟨tail, front⟩ := List.head?_eq_some_iff.mp starts
          have whole := List.take_append_drop 1023 s.input
          rw [front] at whole
          exact readable.overlong overlong (whole ▸ rfl)

end Rounds

/-- In every run of the shell, from any contents of its arrays and for every input, a round is safe exactly if
what is left of the input is readable. -/
theorem shell_round_safe_iff {command input : List (BitVec 8)} {tokens : List (Option Nat)}
    {answers : List (CString → Bool)} {fuel : Nat} {s : ShState} (commandSize : command.length = 1024)
    (tokensSize : tokens.length = 512)
    (run : Run (shStep fuel) (fun _ _ => True) ⟨command, tokens, input⟩ answers s) :
    RoundSafe s ↔ ReadableInput s.input := by
  have start : Sized ⟨command, tokens, input⟩ := ⟨commandSize, tokensSize⟩
  exact roundSafe_iff (run.invariant (fun _ _ _ _ taken sized => shStep_sized sized taken) start)

/-- The first round on the line `ls`. -/
theorem shell_round_safe_iff_listing :
    RoundSafe ⟨List.replicate 1024 0, List.replicate 512 none, [chr 'l', chr 's', newline]⟩ ↔
      ReadableInput [chr 'l', chr 's', newline] :=
  @shell_round_safe_iff (List.replicate 1024 0) [chr 'l', chr 's', newline] (List.replicate 512 none) [] 0
    ⟨List.replicate 1024 0, List.replicate 512 none, [chr 'l', chr 's', newline]⟩ List.length_replicate
    List.length_replicate (.refl _)

/-- On a line of nothing but a zero byte the shell stores in front of its buffer. -/
theorem shell_leaves_array :
    (∀ access fuel,
      shRound access fuel ⟨List.replicate 1024 0, List.replicate 512 none, [nul, newline]⟩ = none) ∧
      ¬RoundSafe ⟨List.replicate 1024 0, List.replicate 512 none, [nul, newline]⟩ := by
  have sized : Sized ⟨List.replicate 1024 0, List.replicate 512 none, [nul, newline]⟩ :=
    ⟨List.length_replicate, List.length_replicate⟩
  have typed : Typed [nul, newline] [nul] [] := ⟨rfl, by decide, by decide⟩
  exact ⟨fun access fuel => shRound_none sized typed.takeLine rfl access fuel,
    fun safe => safe.head_ne sized typed.takeLine rfl⟩

end Voxel.Proofs
