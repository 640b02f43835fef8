/-
Module: Voxel.Proofs.FormatScan
Layer: Proofs
Purpose: `_printf` and `kvprintf` read a format no further than to its terminator exactly if the end of the
  format cuts off none of the directives that they come to. Every part of a directive ends at the latest
  at the terminator; only the step over the conversion passes it.
Trusted boundary: none
Main exports: skipPrefix, EndsCall, kSkipPrefix, scanDirective_spec, kScanDirective_spec, formats_read_iff
-/
import Voxel.Lib.Format
import Voxel.Libc.Printf
import Voxel.Kernel.Kprintf

namespace Voxel.Proofs

open Voxel.Lib Voxel.Libc Voxel.Kernel

variable {s : CString}

/-! ## `_printf` -/

/-- One of the flags of `_printf`. -/
def isFlag (c : BitVec 8) : Bool :=
  [chr '-', chr '#', chr '*', chr '0', chr '+', chr ' '].contains c

/-- What lies behind a precision. -/
def skipPrecision : CString → CString
  | [] => []
  | c :: s =>
      if c = chr '.' then
        match s with
        | [] => []
        | c :: s => if c = chr '*' then s else (c :: s).dropWhile isDigitChar
      else c :: s

/-- What lies behind `l` or `ll`. -/
def skipLong (s : CString) : CString :=
  if s.head? = some (chr 'l') then skipOne (· == chr 'l') s.tail else s

/-- What lies behind a length. -/
def skipLength (s : CString) : CString :=
  skipOne (· == chr 't') (skipOne (· == chr 'z') (skipOne (· == chr 'j') (skipLong s)))

/-- What lies behind the flags, the width and the precision of a directive. -/
def skipNumbers (s : CString) : CString := skipPrecision ((s.dropWhile isFlag).dropWhile isDigitChar)

/-- What lies behind everything but the conversion of a directive of `_printf`. -/
def skipPrefix (s : CString) : CString := skipLength (skipNumbers s)

/-- A directive at which `_printf` returns: `s` with a length. -/
def EndsCall (s : CString) : Prop :=
  (skipPrefix s).head? = some (chr 's') ∧
    (skipNumbers s).head? ∈ [some (chr 'l'), some (chr 'j'), some (chr 'z'), some (chr 't')]

theorem flagsLoop_spec (d : Directive) (args : VaList) (s : CString) :
    ∃ d' args', flagsLoop d args (terminated s) = some (d', args', terminated (s.dropWhile isFlag)) ∧
      d'.big = d.big := by
  induction s generalizing d args with
  | nil => exact ⟨d, args, rfl, rfl⟩
  | cons c s inductionHypothesis =>
      show ∃ d' args', flagsLoop d args (c :: terminated s) = _ ∧ _
      rw [flagsLoop, List.dropWhile_cons]
      by_cases flag : isFlag c = true
      · rw [if_pos flag]
        have among := List.contains_iff_mem.mp flag
        simp only [List.mem_cons, List.not_mem_nil, or_false] at among
        rcases among with rfl | rfl | rfl | rfl | rfl | rfl
        · exact inductionHypothesis { d with align := false } args
        · exact inductionHypothesis { d with alt := true } args
        · exact inductionHypothesis { d with argw := args.word.1.setWidth 32 } args.word.2
        · exact inductionHypothesis { d with fzero := true } args
        · exact inductionHypothesis { d with asign := 1 } args
        · exact inductionHypothesis { d with asign := 2 } args
      · rw [if_neg flag]
        simp only [isFlag, List.contains_iff_mem, List.mem_cons, List.not_mem_nil, or_false, not_or] at flag
        obtain ⟨one, two, three, four, five, six⟩ := flag
        rw [if_neg one, if_neg two, if_neg three, if_neg four, if_neg five, if_neg six]
        exact ⟨d, args, rfl, rfl⟩

theorem digitsLoop_spec (number : BitVec 32) (s : CString) :
    ∃ number', digitsLoop number (terminated s) = some (number', terminated (s.dropWhile isDigitChar)) := by
  induction s generalizing number with
  | nil => exact ⟨number, rfl⟩
  | cons c s inductionHypothesis =>
      show ∃ number', digitsLoop number (c :: terminated s) = _
      rw [digitsLoop, List.dropWhile_cons]
      by_cases digit : isDigitChar c = true
      · rw [if_pos digit, if_pos digit]
        exact inductionHypothesis _
      · rw [if_neg digit, if_neg digit]
        exact ⟨number, rfl⟩

theorem scanWidth_spec (d : Directive) (s : CString) :
    ∃ d', scanWidth d (terminated s) = some (d', terminated (s.dropWhile isDigitChar)) ∧ d'.big = d.big := by
  obtain ⟨number, looped⟩ := digitsLoop_spec d.argw s
  exact ⟨{ d with argw := number }, by rw [scanWidth, looped]; rfl, rfl⟩

theorem scanPrecision_spec (d : Directive) (args : VaList) (s : CString) :
    ∃ d' args', scanPrecision d args (terminated s) = some (d', args', terminated (skipPrecision s)) ∧
      d'.big = d.big := by
  cases s with
  | nil => exact ⟨d, args, rfl, rfl⟩
  | cons c s =>
      show ∃ d' args', scanPrecision d args (c :: terminated s) = _ ∧ _
      unfold scanPrecision skipPrecision
      dsimp only
      by_cases point : c = chr '.'
      · rw [if_pos point, if_pos point]
        cases s with
        | nil => exact ⟨{ d with precision := 0 }, args, rfl, rfl⟩
        | cons c s =>
            show ∃ d' args', (if c = chr '*' then _ else _) = _ ∧ _
            dsimp only
            by_cases star : c = chr '*'
            · rw [if_pos star, if_pos star]
              exact ⟨{ d with precision := args.word.1.setWidth 32 }, args.word.2, rfl, rfl⟩
            · rw [if_neg star, if_neg star]
              obtain ⟨precision, looped⟩ := digitsLoop_spec 0 (c :: s)
              refine ⟨{ d with precision := precision }, args, ?_, rfl⟩
              show (digitsLoop 0 (terminated (c :: s))).bind _ = _
              rw [looped]
              rfl
      · rw [if_neg point, if_neg point]
        exact ⟨d, args, rfl, rfl⟩

/-- The length modifiers set `big` if there are any. -/
theorem scanLong_spec (d : Directive) (s : CString) :
    ∃ d', scanLong d (terminated s) = some (d', terminated (skipLong s)) ∧
      (d'.big ≠ 0 ↔ d.big ≠ 0 ∨ s.head? = some (chr 'l')) := by
  cases s with
  | nil => exact ⟨d, rfl, by simp⟩
  | cons c s =>
      show ∃ d', scanLong d (c :: terminated s) = _ ∧ _
      unfold scanLong skipLong
      rw [List.head?_cons, List.tail_cons]
      dsimp only
      by_cases letter : c = chr 'l'
      · rw [if_pos letter, if_pos (congrArg some letter)]
        cases s with
        | nil => exact ⟨{ d with big := 1 }, rfl, by simp [letter]⟩
        | cons c' s =>
            show ∃ d', (if c' = chr 'l' then _ else _) = _ ∧ _
            rw [skipOne]
            by_cases twice : c' = chr 'l'
            · rw [if_pos twice, if_pos (beq_iff_eq.mpr twice)]
              exact ⟨{ d with big := 2 }, rfl, by simp [letter]⟩
            · rw [if_neg twice, if_neg (fun same => twice (beq_iff_eq.mp same))]
              exact ⟨{ d with big := 1 }, rfl, by simp [letter]⟩
      · rw [if_neg letter, if_neg fun same => letter (Option.some.inj same)]
        exact ⟨d, rfl, by simp [letter]⟩

theorem scanSize_spec {letter : BitVec 8} (notEnd : letter ≠ nul) (d : Directive) (s : CString) :
    ∃ d', scanSize letter d (terminated s) = some (d', terminated (skipOne (· == letter) s)) ∧
      (d'.big ≠ 0 ↔ d.big ≠ 0 ∨ s.head? = some letter) := by
  cases s with
  | nil =>
      refine ⟨d, ?_, by simp⟩
      show scanSize letter d [nul] = _
      rw [scanSize, if_neg (Ne.symm notEnd)]
      rfl
  | cons c s =>
      show ∃ d', scanSize letter d (c :: terminated s) = _ ∧ _
      rw [scanSize, skipOne, List.head?_cons]
      by_cases same : c = letter
      · rw [if_pos same, if_pos (beq_iff_eq.mpr same)]
        exact ⟨{ d with big := 2 }, rfl, by simp [same]⟩
      · rw [if_neg same, if_neg fun eq => same (beq_iff_eq.mp eq)]
        exact ⟨d, rfl, by simp [same]⟩

/-- A string that does not begin with the letter. -/
theorem skipOne_of_ne {letter : BitVec 8} {s : CString} (other : s.head? ≠ some letter) :
    skipOne (· == letter) s = s := by
  cases s with
  | nil => rfl
  | cons c s =>
      rw [skipOne, if_neg]
      intro same
      exact other (congrArg some (beq_iff_eq.mp same))

theorem scanLength_spec (d : Directive) (s : CString) :
    ∃ d', scanLength d (terminated s) = some (d', terminated (skipLength s)) ∧
      (d'.big ≠ 0 ↔ d.big ≠ 0 ∨
        s.head? ∈ [some (chr 'l'), some (chr 'j'), some (chr 'z'), some (chr 't')]) := by
  obtain ⟨d₁, long, big₁⟩ := scanLong_spec d s
  obtain ⟨d₂, max, big₂⟩ := @scanSize_spec (chr 'j') (by decide) d₁ (skipLong s)
  obtain ⟨d₃, size, big₃⟩ := @scanSize_spec (chr 'z') (by decide) d₂ (skipOne (· == chr 'j') (skipLong s))
  obtain ⟨d₄, diff, big₄⟩ := @scanSize_spec (chr 't') (by decide) d₃
    (skipOne (· == chr 'z') (skipOne (· == chr 'j') (skipLong s)))
  refine ⟨d₄, ?_, ?_⟩
  · rw [scanLength, long]
    show (scanSize (chr 'j') d₁ _).bind _ = _
    rw [max]
    show (scanSize (chr 'z') d₂ _).bind _ = _
    rw [size]
    exact diff
  · rw [big₄, big₃, big₂, big₁]
    simp only [List.mem_cons, List.not_mem_nil, or_false]
    -- A letter can only come to the front of the string if those before it are not there.
    by_cases isLong : s.head? = some (chr 'l')
    · simp [isLong]
    have long' : skipLong s = s := if_neg isLong
    rw [long']
    by_cases isMax : s.head? = some (chr 'j')
    · simp [isMax]
    rw [skipOne_of_ne isMax]
    by_cases isSize : s.head? = some (chr 'z')
    · simp [isSize]
    rw [skipOne_of_ne isSize]
    simp only [isLong, isMax, isSize, or_false, false_or]

/-- A directive of a string ends at the latest at its terminator. -/
theorem scanDirective_spec (args : VaList) (s : CString) :
    ∃ d args', scanDirective args (terminated s) = some (d, args', terminated (skipPrefix s)) ∧
      (d.big ≠ 0 ↔
        (skipNumbers s).head? ∈ [some (chr 'l'), some (chr 'j'), some (chr 'z'), some (chr 't')]) := by
  obtain ⟨d₁, args₁, flags, big₁⟩ := flagsLoop_spec .start args s
  obtain ⟨d₂, width, big₂⟩ := scanWidth_spec d₁ (s.dropWhile isFlag)
  obtain ⟨d₃, args₃, precision, big₃⟩ :=
    scanPrecision_spec d₂ args₁ ((s.dropWhile isFlag).dropWhile isDigitChar)
  obtain ⟨d₄, length, big₄⟩ := scanLength_spec d₃ (skipNumbers s)
  refine ⟨d₄, args₃, ?_, ?_⟩
  · rw [scanDirective, flags]
    show (scanWidth d₁ _).bind _ = _
    rw [width]
    show (scanPrecision d₂ args₁ _).bind _ = _
    rw [precision]
    show (scanLength d₃ (terminated (skipNumbers s))).bind _ = _
    rw [length]
    rfl
  · rw [big₄, big₃, big₂, big₁]
    exact or_iff_right fun wrong => wrong rfl

/-! ## `kvprintf` -/

/-- One of the flags of `kvprintf`. -/
def kIsFlag (c : BitVec 8) : Bool := [chr '-', chr '+', chr '#', chr ' ', chr '0'].contains c

/-- What lies behind a number. -/
def kSkipNumber (s : CString) : CString := skipOne (· == chr '*') (s.dropWhile isDigitChar)

/-- What lies behind a precision. -/
def kSkipPrecision (s : CString) : CString := if s.head? = some (chr '.') then kSkipNumber s.tail else s

/-- What lies behind a length. -/
def kSkipLength : CString → CString
  | [] => []
  | c :: s => if isLengthChar c then skipOne (· == chr 'l') s else c :: s

/-- What lies behind everything but the specifier of a directive of `kvprintf`. -/
def kSkipPrefix (s : CString) : CString := kSkipLength (kSkipPrecision (kSkipNumber (s.dropWhile kIsFlag)))

theorem kFlagsLoop_spec (d : FormatSpec) (s : CString) :
    ∃ d', kFlagsLoop d (terminated s) = some (d', terminated (s.dropWhile kIsFlag)) := by
  induction s generalizing d with
  | nil => exact ⟨d, rfl⟩
  | cons c s inductionHypothesis =>
      show ∃ d', kFlagsLoop d (c :: terminated s) = _
      rw [kFlagsLoop, List.dropWhile_cons]
      by_cases flag : kIsFlag c = true
      · rw [if_pos flag]
        have among := List.contains_iff_mem.mp flag
        simp only [List.mem_cons, List.not_mem_nil, or_false] at among
        rcases among with rfl | rfl | rfl | rfl | rfl
        · exact inductionHypothesis { d with leftJustify := true }
        · exact inductionHypothesis { d with plusSign := true }
        · exact inductionHypothesis { d with altForm := true }
        · exact inductionHypothesis { d with spaceNoSign := true }
        · exact inductionHypothesis { d with zeroPad := true }
      · rw [if_neg flag]
        simp only [kIsFlag, List.contains_iff_mem, List.mem_cons, List.not_mem_nil, or_false, not_or] at flag
        obtain ⟨one, two, three, four, five⟩ := flag
        rw [if_neg one, if_neg two, if_neg three, if_neg four, if_neg five]
        exact ⟨d, rfl⟩

theorem kScanNumber_spec (args : VaList) (s : CString) :
    ∃ number args', kScanNumber args (terminated s) = some (number, args', terminated (kSkipNumber s)) := by
  obtain ⟨number, looped⟩ := digitsLoop_spec 0 s
  rw [kScanNumber, looped, kSkipNumber]
  cases s.dropWhile isDigitChar with
  | nil => exact ⟨number, args, rfl⟩
  | cons c s =>
      show ∃ number' args', (if c = chr '*' then some (args.word.1.setWidth 32, args.word.2, terminated s)
        else some (number, args, c :: terminated s)) = _
      rw [skipOne]
      by_cases star : c = chr '*'
      · rw [if_pos star, if_pos (beq_iff_eq.mpr star)]
        exact ⟨_, _, rfl⟩
      · rw [if_neg star, if_neg fun same => star (beq_iff_eq.mp same)]
        exact ⟨_, _, rfl⟩

theorem kScanPrecision_spec (d : FormatSpec) (args : VaList) (s : CString) :
    ∃ d' args', kScanPrecision d args (terminated s) = some (d', args', terminated (kSkipPrecision s)) := by
  cases s with
  | nil => exact ⟨{ d with precSpec := 6 }, args, rfl⟩
  | cons c s =>
      show ∃ d' args', kScanPrecision d args (c :: terminated s) = _
      rw [kScanPrecision, kSkipPrecision, List.head?_cons, List.tail_cons]
      by_cases point : c = chr '.'
      · rw [if_pos point, if_pos (congrArg some point)]
        obtain ⟨number, args', scanned⟩ := kScanNumber_spec args s
        exact ⟨{ d with precSpec := number }, args', by rw [scanned]; rfl⟩
      · rw [if_neg point, if_neg fun same => point (Option.some.inj same)]
        exact ⟨{ d with precSpec := 6 }, args, rfl⟩

theorem kScanLength_spec (d : FormatSpec) (s : CString) :
    ∃ d', kScanLength d (terminated s) = some (d', terminated (kSkipLength s)) := by
  cases s with
  | nil => exact ⟨d, rfl⟩
  | cons c s =>
      show ∃ d', kScanLength d (c :: terminated s) = _
      unfold kScanLength kSkipLength
      dsimp only
      by_cases letter : isLengthChar c = true
      · rw [if_pos letter, if_pos letter]
        cases s with
        | nil => exact ⟨{ d with length := c }, rfl⟩
        | cons c' s =>
            show ∃ d', (if c' = chr 'h' then _ else if c' = chr 'l' then _ else _) = _
            rw [skipOne]
            by_cases short : c' = chr 'h'
            · subst short
              exact ⟨{ d with length := chr 'H' }, rfl⟩
            · rw [if_neg short]
              by_cases long : c' = chr 'l'
              · rw [if_pos long, if_pos (beq_iff_eq.mpr long)]
                exact ⟨{ d with length := chr 'q' }, rfl⟩
              · rw [if_neg long, if_neg fun same => long (beq_iff_eq.mp same)]
                exact ⟨{ d with length := c }, rfl⟩
      · rw [if_neg letter, if_neg letter]
        exact ⟨d, rfl⟩

/-- A directive of a string ends at the latest at its terminator. -/
theorem kScanDirective_spec (args : VaList) (s : CString) :
    ∃ d args', kScanDirective args (terminated s) = some (d, args', terminated (kSkipPrefix s)) := by
  obtain ⟨d₁, flags⟩ := kFlagsLoop_spec .start s
  obtain ⟨number, args₂, width⟩ := kScanNumber_spec args (s.dropWhile kIsFlag)
  obtain ⟨d₃, args₃, precision⟩ := kScanPrecision_spec { d₁ with lengthSpec := number } args₂
    (kSkipNumber (s.dropWhile kIsFlag))
  obtain ⟨d₄, length⟩ := kScanLength_spec d₃ (kSkipPrecision (kSkipNumber (s.dropWhile kIsFlag)))
  refine ⟨d₄, args₃, ?_⟩
  rw [kScanDirective, flags]
  show (kScanWidth d₁ args _).bind _ = _
  rw [kScanWidth, width]
  show (kScanPrecision { d₁ with lengthSpec := number } args₂ _).bind _ = _
  rw [precision]
  show (kScanLength d₃ _).bind _ = _
  rw [length]
  rfl

/-! ## What is left of a string -/

theorem skipPrecision_suffix (s : CString) : skipPrecision s <:+ s := by
  cases s with
  | nil => exact List.suffix_refl _
  | cons c s =>
      unfold skipPrecision
      dsimp only
      split
      · cases s with
        | nil => exact List.nil_suffix
        | cons c' s =>
            dsimp only
            split
            · exact (List.suffix_cons c' s).trans (List.suffix_cons c _)
            · exact (List.dropWhile_suffix _).trans (List.suffix_cons c _)
      · exact List.suffix_refl _

theorem skipLong_suffix (s : CString) : skipLong s <:+ s := by
  rw [skipLong]
  split
  · exact (skipOne_suffix _ _).trans (List.tail_suffix s)
  · exact List.suffix_refl _

theorem skipPrefix_suffix (s : CString) : skipPrefix s <:+ s := by
  have numbers : skipNumbers s <:+ s :=
    (skipPrecision_suffix _).trans ((List.dropWhile_suffix _).trans (List.dropWhile_suffix _))
  have length : skipLength (skipNumbers s) <:+ skipNumbers s :=
    (skipOne_suffix _ _).trans ((skipOne_suffix _ _).trans ((skipOne_suffix _ _).trans (skipLong_suffix _)))
  exact length.trans numbers

theorem kSkipNumber_suffix (s : CString) : kSkipNumber s <:+ s :=
  (skipOne_suffix _ _).trans (List.dropWhile_suffix _)

theorem kSkipPrecision_suffix (s : CString) : kSkipPrecision s <:+ s := by
  rw [kSkipPrecision]
  split
  · exact (kSkipNumber_suffix _).trans (List.tail_suffix s)
  · exact List.suffix_refl _

theorem kSkipLength_suffix (s : CString) : kSkipLength s <:+ s := by
  cases s with
  | nil => exact List.suffix_refl _
  | cons c s =>
      rw [kSkipLength]
      split
      · exact (skipOne_suffix _ _).trans (List.suffix_cons c s)
      · exact List.suffix_refl _

theorem kSkipPrefix_suffix (s : CString) : kSkipPrefix s <:+ s :=
  (kSkipLength_suffix _).trans ((kSkipPrecision_suffix _).trans ((kSkipNumber_suffix _).trans
    (List.dropWhile_suffix _)))

/-! ## The loops -/

theorem printfLoop_end (args : VaList) (rest : List (BitVec 8)) :
    printfLoop args (nul :: rest) = some [] := by
  rw [printfLoop, if_pos rfl]

theorem printfLoop_text (args : VaList) {c : BitVec 8} (rest : List (BitVec 8)) (notEnd : c ≠ nul)
    (other : c ≠ chr '%') :
    printfLoop args (c :: rest) = (printfLoop args rest).map (.char c :: ·) := by
  rw [printfLoop, if_neg notEnd, if_pos other]

theorem printfLoop_directive {args args' : VaList} {f rest : List (BitVec 8)} {d : Directive}
    {conversion : BitVec 8} (scanned : scanDirective args f = some (d, args', conversion :: rest)) :
    printfLoop args (chr '%' :: f) =
      if conversion = chr 's' ∧ d.big ≠ 0 then some []
      else (printfLoop (takeArgument conversion args').2 rest).map
        (.directive d conversion (takeArgument conversion args').1 :: ·) := by
  rw [printfLoop, if_neg (by decide), if_neg (by decide)]
  split
  · rename_i none_
    cases scanned.symm.trans none_
  · rename_i empty
    cases scanned.symm.trans empty
  · rename_i again
    cases scanned.symm.trans again
    rfl

theorem kvprintfLoop_text (args : VaList) {c : BitVec 8} (rest : List (BitVec 8)) (notEnd : c ≠ nul)
    (other : c ≠ chr '%') :
    kvprintfLoop args (c :: rest) = (kvprintfLoop args rest).map (.char c :: ·) := by
  rw [kvprintfLoop, if_neg notEnd, if_pos other]

theorem kvprintfLoop_directive {args args' : VaList} {f rest : List (BitVec 8)} {d : FormatSpec}
    {specifier : BitVec 8} (scanned : kScanDirective args f = some (d, args', specifier :: rest)) :
    kvprintfLoop args (chr '%' :: f) =
      (kvprintfLoop (kTakeArgument d specifier args').2 rest).map
        (.directive d specifier (kTakeArgument d specifier args').1 :: ·) := by
  rw [kvprintfLoop, if_neg (by decide), if_neg (by decide)]
  split
  · rename_i none_
    cases scanned.symm.trans none_
  · rename_i empty
    cases scanned.symm.trans empty
  · rename_i again
    cases scanned.symm.trans again
    rfl

theorem terminated_ne_nil (s : CString) : terminated s ≠ [] := List.append_ne_nil_of_right_ne_nil _ (by simp)

/-- The first character of a string, or its terminator. -/
theorem head_terminated {s : CString} {c : BitVec 8} {rest : List (BitVec 8)} (eq : terminated s = c :: rest)
    {letter : BitVec 8} (notEnd : letter ≠ nul) : c = letter ↔ s.head? = some letter := by
  cases s with
  | nil =>
      cases eq
      exact ⟨fun same => absurd same.symm notEnd, fun wrong => by cases wrong⟩
  | cons c' s =>
      cases eq
      rw [List.head?_cons, Option.some_inj]

/-- `_printf` reads a format no further than to its terminator exactly if the format is complete. -/
theorem printfItems_isSome (args : VaList) {fmt : CString} (isString : IsCString fmt) :
    (printfItems fmt args).isSome ↔ Complete skipPrefix EndsCall fmt := by
  refine @complete_iff _ _ _ (fun args f => (printfLoop args f).isSome = true) skipPrefix_suffix
    (fun args => ?_) (fun args => ?_) (fun args c rest notEnd other => ?_) (fun args s => ?_) args _ isString
  · rw [printfLoop]
    exact Bool.false_ne_true
  · rw [printfLoop_end]
    rfl
  · rw [printfLoop_text args rest notEnd other, Option.isSome_map]
  · obtain ⟨d, args', scanned, big⟩ := scanDirective_spec args s
    cases behind : terminated (skipPrefix s) with
    | nil => exact absurd behind (terminated_ne_nil _)
    | cons conversion rest =>
        rw [behind] at scanned
        refine ⟨(takeArgument conversion args').2, ?_⟩
        have ends : EndsCall s ↔ conversion = chr 's' ∧ d.big ≠ 0 := by
          rw [EndsCall, big, head_terminated behind (by decide)]
        rw [printfLoop_directive scanned, ends]
        by_cases stops : conversion = chr 's' ∧ d.big ≠ 0
        · rw [if_pos stops]
          exact ⟨fun _ => .inl stops, fun _ => rfl⟩
        · rw [if_neg stops, Option.isSome_map]
          refine ⟨fun more => .inr ⟨conversion, rest, rfl, more⟩, ?_⟩
          rintro (wrong | ⟨c, rest', same, more⟩)
          · exact absurd wrong stops
          · cases same
            exact more

/-- So does `kvprintf`, in its own format language. -/
theorem kvprintfItems_isSome (args : VaList) {format : CString} (isString : IsCString format) :
    (kvprintfItems format args).isSome ↔ Complete kSkipPrefix (fun _ => False) format := by
  refine @complete_iff _ _ _ (fun args f => (kvprintfLoop args f).isSome = true) kSkipPrefix_suffix
    (fun args => ?_) (fun args => ?_) (fun args c rest notEnd other => ?_) (fun args s => ?_) args _ isString
  · rw [kvprintfLoop]
    exact Bool.false_ne_true
  · rw [kvprintfLoop, if_pos rfl]
    rfl
  · rw [kvprintfLoop_text args rest notEnd other, Option.isSome_map]
  · obtain ⟨d, args', scanned⟩ := kScanDirective_spec args s
    cases behind : terminated (kSkipPrefix s) with
    | nil => exact absurd behind (terminated_ne_nil _)
    | cons specifier rest =>
        rw [behind] at scanned
        refine ⟨(kTakeArgument d specifier args').2, ?_⟩
        rw [kvprintfLoop_directive scanned, Option.isSome_map]
        refine ⟨fun more => .inr ⟨specifier, rest, rfl, more⟩, ?_⟩
        rintro (wrong | ⟨c, rest', same, more⟩)
        · exact wrong.elim
        · cases same
          exact more

/-- `_printf` and `kvprintf` examine a format only up to its terminator and then stop exactly if the end
of the format cuts off none of the directives that they come to, whatever the arguments are. -/
theorem formats_read_iff (fmt : CString) (isString : IsCString fmt) (args : VaList) :
    ((printfItems fmt args).isSome ↔ Complete skipPrefix EndsCall fmt) ∧
      ((kvprintfItems fmt args).isSome ↔ Complete kSkipPrefix (fun _ => False) fmt) :=
  ⟨printfItems_isSome args isString, kvprintfItems_isSome args isString⟩

/-- No arguments but zeros. -/
def zeroArgs : VaList := ⟨fun _ => 0, fun _ => 0⟩

/-- The format `%5ld`. -/
def numberFormat : CString := [chr '%', chr '5', chr 'l', chr 'd']

theorem formats_read_iff_example :
    (printfItems numberFormat zeroArgs).isSome ∧ (kvprintfItems numberFormat zeroArgs).isSome := by
  have reads := formats_read_iff numberFormat (by unfold IsCString; decide) zeroArgs
  exact ⟨reads.1.mpr (@Complete.directive _ _ (chr 'd') _ [] (by decide) .nil),
    reads.2.mpr (@Complete.directive _ _ (chr 'd') _ [] (by decide) .nil)⟩

/-- A lone `%`: both functions step over the terminator and read what lies behind it. -/
theorem percent_read_behind :
    printfItems [chr '%'] zeroArgs = none ∧ kvprintfItems [chr '%'] zeroArgs = none := by
  obtain ⟨d, args, scanned, big⟩ := scanDirective_spec zeroArgs []
  obtain ⟨d', args', scanned'⟩ := kScanDirective_spec zeroArgs []
  constructor
  · show printfLoop zeroArgs (chr '%' :: terminated []) = none
    rw [@printfLoop_directive _ _ _ [] _ nul scanned, if_neg (fun both => absurd both.1 (by decide)),
      printfLoop]
    rfl
  · show kvprintfLoop zeroArgs (chr '%' :: terminated []) = none
    rw [@kvprintfLoop_directive _ _ _ [] _ nul scanned', kvprintfLoop]
    rfl

end Voxel.Proofs
