/-
Module: Voxel.Proofs.LineInput
Layer: Proofs
Purpose: `fgets` on a stream whose descriptor delivers some content in pieces of any size. The remaining
  input of the stream is what waits in it and then this content; `fgetc` takes its first byte. `fgets`
  reads one line of it as it should exactly if the line and a terminator fit and no byte of the line is
  zero.
Trusted boundary: none
Main exports: InputCalls, remaining, fgetc_next, lineOf, FgetsMeets, fgets_meets_iff
-/
import Voxel.Libc.Stdio
import Voxel.Proofs.BufferedRead

namespace Voxel.Proofs

open Voxel.Lib Voxel.Libc

variable {World : Type}

/-- System calls on descriptors that have a content: `read` takes a first part of it, which is empty
only at its end, and asking for the position takes nothing. -/
structure InputCalls (World : Type) extends SysCalls World where
  content : World → Int → List (BitVec 8)
  seek_content : ∀ world fd, content (seek world fd 0 seekCur).2 fd = content world fd
  read_content : ∀ world fd count, 0 < count → ∃ bytes, (read world fd count).1 = .ok bytes ∧
    content world fd = bytes ++ content (read world fd count).2 fd ∧ (bytes = [] → content world fd = [])

variable (calls : InputCalls World) {s : Stream World}

/-- The remaining input of a stream. -/
def remaining (s : Stream World) : List (BitVec 8) := waiting s.file ++ calls.content s.world s.file.fd

theorem remaining_eq (none_ : s.file.ungetc < 0) :
    remaining calls s = buffered s.file ++ calls.content s.world s.file.fd := by
  rw [remaining, waiting, if_neg (Int.not_le.mpr none_), List.nil_append]

/-! ## One byte -/

/-- Asking for bytes puts a first part of the content into the buffer. -/
theorem refill_input (cursors : Cursors s.file) (empty : s.file.available = 0) (none_ : s.file.ungetc < 0) :
    ∃ t, refill calls.toSysCalls s = some (true, t) ∧ Cursors t.file ∧ t.file.ungetc < 0 ∧
      remaining calls t = remaining calls s ∧ (t.file.available = 0 → remaining calls t = []) := by
  have some_ := cursors.some_
  have room := cursors.room
  have stop := cursors.stop
  have offset : (if s.file.offset = s.file.bufsiz then 0 else s.file.offset) < s.file.bufsiz := by
    split <;> omega
  have before : remaining calls s = calls.content s.world s.file.fd := by
    rw [remaining_eq calls none_, buffered, empty, List.take_zero]
    rfl
  simp only [refill]
  generalize (if s.file.offset = s.file.bufsiz then 0 else s.file.offset) = offset' at offset ⊢
  rw [if_pos ⟨Nat.le_of_lt offset, room.ge⟩]
  obtain ⟨bytes, read, content, ended⟩ :=
    calls.read_content (calls.seek s.world s.file.fd 0 seekCur).2 s.file.fd
    (s.file.bufsiz - offset') (by omega)
  have few := calls.read_le _ _ _ _ read
  rw [calls.seek_content] at content ended
  generalize calls.read (calls.seek s.world s.file.fd 0 seekCur).2 s.file.fd (s.file.bufsiz - offset') =
    answer
    at read content
  obtain ⟨_, world⟩ := answer
  dsimp only at read content
  subst read
  have front : (s.file.readBuf.take offset').length = offset' := by
    rw [List.length_take]
    omega
  have now : ((s.file.readBuf.take offset' ++ bytes ++
      s.file.readBuf.drop (offset' + bytes.length)).drop offset').take bytes.length = bytes := by
    rw [List.append_assoc, List.drop_left' front, List.take_left' rfl]
  refine ⟨_, rfl, ⟨some_, ?_, ?_, .inr rfl⟩, none_, ?_, fun nothing => ?_⟩
  · simp only [List.length_append, List.length_take, List.length_drop]
    omega
  · show offset' + bytes.length ≤ s.file.bufsiz
    omega
  · rw [before, remaining_eq calls (by exact none_), buffered]
    dsimp only
    rw [now, content]
  · rw [remaining_eq calls (by exact none_), buffered]
    dsimp only at nothing ⊢
    rw [now]
    have isNil : bytes = [] := List.length_eq_zero_iff.mp nothing
    rw [ended isNil, isNil] at content
    rw [isNil, ← content]

/-- The outer loop of `_read_bytes` for one byte: it takes the first byte of the remaining input. -/
theorem readLoop_next (cursors : Cursors s.file) : ∃ t, Cursors t.file ∧
    readLoop calls.toSysCalls 1 s 1 = some ((remaining calls s).take 1, t) ∧
    remaining calls t = (remaining calls s).tail := by
  rw [readLoop]
  by_cases pushed : 0 ≤ s.file.ungetc
  · rw [if_pos pushed]
    have first : remaining calls s = BitVec.ofInt 8 s.file.ungetc ::
        remaining calls { s with file := { s.file with ungetc := -1 } } := by
      rw [remaining, remaining, waiting, waiting, if_pos pushed]
      rfl
    rw [first]
    refine ⟨{ s with file := { s.file with ungetc := -1 } },
      ⟨cursors.some_, cursors.room, cursors.stop, cursors.start⟩, ?_, rfl⟩
    rw [readLoop]
    rfl
  · rw [if_neg pushed]
    have readied : ∃ t, ready calls.toSysCalls s = some (true, t) ∧ Cursors t.file ∧ t.file.ungetc < 0 ∧
        remaining calls t = remaining calls s ∧ (t.file.available = 0 → remaining calls t = []) := by
      unfold ready
      by_cases empty : s.file.available = 0
      · rw [if_pos empty]
        exact refill_input calls cursors empty (by omega)
      · rw [if_neg empty]
        exact ⟨s, rfl, cursors, by omega, rfl, fun nothing => absurd nothing empty⟩
    obtain ⟨t, readied, cursors, none_, same, ended⟩ := readied
    rw [readied, ← same]
    rw [Option.bind_eq_bind, Option.bind_some]
    dsimp only
    rw [if_neg (by decide)]
    by_cases empty : t.file.available = 0
    · rw [if_pos empty, ended empty]
      exact ⟨{ t with file := { t.file with eof := true } },
        ⟨cursors.some_, cursors.room, cursors.stop, cursors.start⟩, rfl, ended empty⟩
    · rw [if_neg empty, copyBuffered_eq cursors]
      have filled := buffered_length cursors
      refine ⟨{ t with file := advance t.file (min 1 t.file.available) },
        cursors.advance (Nat.min_le_right _ _),
        ?_, ?_⟩
      · show (readLoop _ 0 _ (1 - t.file.available)).map _ = _
        rw [show 1 - t.file.available = 0 by omega, readLoop, remaining_eq calls none_,
          List.take_append_of_le_length (by omega)]
        simp
      · have still : (advance t.file (min 1 t.file.available)).ungetc < 0 := none_
        rw [remaining_eq calls none_, remaining_eq calls (by exact still), buffered_advance,
          List.tail_append_of_ne_nil fun nothing => empty (by rw [← filled, nothing]; rfl),
          show min 1 t.file.available = 1 by omega, List.drop_one]
        rfl

/-- `fgetc` returns the first byte of the remaining input and takes it, or returns `EOF`. -/
theorem fgetc_next (cursors : Cursors s.file) : ∃ t, Cursors t.file ∧
    fgetc calls.toSysCalls s =
      some (match remaining calls s with | [] => eof | c :: _ => c.toNat, t) ∧
    remaining calls t = (remaining calls s).tail := by
  obtain ⟨t, cursors', looped, rest⟩ := readLoop_next calls cursors
  unfold fgetc fread freadLoop readBytes
  rw [looped]
  cases input : remaining calls s with
  | nil =>
      rw [input] at rest
      exact ⟨{ t with file := { t.file with eof := true } },
        ⟨cursors'.some_, cursors'.room, cursors'.stop, cursors'.start⟩, rfl, rest⟩
  | cons c more =>
      rw [input] at rest
      exact ⟨t, cursors', rfl, rest⟩

/-! ## One line -/

/-- The first line of an input: up to the first newline, or to the end. -/
def lineOf : List (BitVec 8) → List (BitVec 8)
  | [] => []
  | c :: rest => if c = newline then [c] else c :: lineOf rest

/-- What `fgets` should do with a size: it stores no more bytes than that; with `out` as its result it
has stored as much of the line as leaves room for a terminator, and the terminator, and has taken just
these bytes; and with `NULL` there was no input. -/
structure FgetsMeets (input : List (BitVec 8)) (size : Nat) (returnsOut : Bool)
    (stored left : List (BitVec 8)) :
    Prop where
  few : stored.length ≤ size
  line : returnsOut = true → stored = (lineOf input).take (size - 1) ++ [nul] ∧
    left = input.drop ((lineOf input).take (size - 1)).length
  atEnd : returnsOut = false → input = []

theorem lineOf_ne_nil {input : List (BitVec 8)} (some_ : input ≠ []) : lineOf input ≠ [] := by
  cases input with
  | nil => exact absurd rfl some_
  | cons c rest =>
      rw [lineOf]
      split <;> exact List.cons_ne_nil _ _

/-- One round that gets a byte. -/
theorem fgetsLoop_byte {t : Stream World} {c : BitVec 8}
    (got : fgetc calls.toSysCalls s = some ((c.toNat : Int), t))
    (rounds : Nat) (text : List (BitVec 8)) :
    fgetsLoop calls.toSysCalls (rounds + 1) text s =
      if c = nul then some (false, if text = [] then [] else text ++ [nul], t)
      else if rounds = 0 then some (true, text ++ [c], t)
      else if c = newline then some (true, text ++ [c] ++ [nul], t)
      else fgetsLoop calls.toSysCalls rounds (text ++ [c]) t := by
  have byte : BitVec.ofInt 8 (c.toNat : Int) = c := by
    rw [BitVec.ofInt_natCast, BitVec.ofNat_toNat, BitVec.setWidth_eq]
  have line : (c.toNat : Int) = newline.toInt ↔ c = newline := by
    rw [show newline.toInt = ((newline.toNat : Nat) : Int) by decide, Int.natCast_inj, BitVec.toNat_inj]
  rw [fgetsLoop, got, Option.bind_eq_bind, Option.bind_some]
  dsimp only
  by_cases zero : c = nul
  · rw [if_pos zero, zero]
    rfl
  · have positive : 0 < (c.toNat : Int) := by
      have some_ : c.toNat ≠ 0 := fun isZero => zero (BitVec.eq_of_toNat_eq isZero)
      omega
    rw [if_neg zero, if_pos positive, byte]
    by_cases last : rounds = 0
    · rw [if_pos last, if_pos last]
    · rw [if_neg last, if_neg last]
      exact if_congr line rfl rfl

/-- The round at the end of the input. -/
theorem fgetsLoop_end {t : Stream World} (got : fgetc calls.toSysCalls s = some (eof, t)) (rounds : Nat)
    (text : List (BitVec 8)) :
    fgetsLoop calls.toSysCalls (rounds + 1) text s =
      some (decide (text ≠ []), if text = [] then [] else text ++ [nul],
        { t with file := { t.file with eof := true } }) := by
  rw [fgetsLoop, got]
  rfl

/-- A line that fits and has no zero byte: the loop stores it and a terminator, and takes it. At the end
of the input, with nothing stored, it returns `NULL`. -/
theorem fgetsLoop_line {rounds : Nat} (cursors : Cursors s.file) (text : List (BitVec 8))
    (fits : (lineOf (remaining calls s)).length < rounds) (noZero : nul ∉ lineOf (remaining calls s)) :
    ∃ t, fgetsLoop calls.toSysCalls rounds text s =
        some (decide (text ++ lineOf (remaining calls s) ≠ []),
          if text ++ lineOf (remaining calls s) = [] then []
          else text ++ lineOf (remaining calls s) ++ [nul], t) ∧
      remaining calls t = (remaining calls s).drop (lineOf (remaining calls s)).length := by
  induction rounds generalizing s text with
  | zero => exact absurd fits (Nat.not_lt_zero _)
  | succ rounds inductionHypothesis =>
      obtain ⟨t, cursors', got, rest⟩ := fgetc_next calls cursors
      cases input : remaining calls s with
      | nil =>
          rw [input] at rest got
          refine ⟨{ t with file := { t.file with eof := true } }, ?_, rest⟩
          rw [fgetsLoop_end calls got, lineOf, List.append_nil]
      | cons c more =>
          rw [input] at rest got fits noZero
          rw [fgetsLoop_byte calls got]
          have notZero : c ≠ nul := by
            rintro rfl
            refine noZero ?_
            rw [lineOf]
            split <;> exact List.mem_cons_self
          rw [if_neg notZero]
          by_cases isLine : c = newline
          · rw [lineOf, if_pos isLine] at fits ⊢
            have more_ : rounds ≠ 0 := by
              rintro rfl
              exact absurd fits (Nat.lt_irrefl 1)
            rw [if_neg more_, if_pos isLine]
            refine ⟨t, ?_, rest⟩
            simp
          · rw [lineOf, if_neg isLine] at fits noZero ⊢
            have more_ : rounds ≠ 0 := by
              rintro rfl
              exact absurd (Nat.lt_of_succ_lt_succ fits) (Nat.not_lt_zero _)
            rw [if_neg more_, if_neg isLine]
            obtain ⟨u, looped, left⟩ := @inductionHypothesis t cursors' (text ++ [c])
              (by rw [rest]; exact Nat.lt_of_succ_lt_succ fits)
              (by rw [rest]; exact fun member => noZero (List.mem_cons_of_mem _ member))
            refine ⟨u, ?_, ?_⟩
            · rw [looped, rest, List.tail_cons]
              simp
            · rw [left, rest]
              rfl

/-- Any other line: the loop stops at a zero byte with `NULL`, or it fills all bytes with input. -/
theorem fgetsLoop_other {rounds : Nat} (cursors : Cursors s.file) (text : List (BitVec 8))
    (some_ : 0 < rounds)
    (other : rounds ≤ (lineOf (remaining calls s)).length ∨ nul ∈ lineOf (remaining calls s)) :
    ∃ returnsOut stored t, fgetsLoop calls.toSysCalls rounds text s = some (returnsOut, stored, t) ∧
      (returnsOut = true → ∃ bytes, stored = text ++ bytes ∧ bytes.length = rounds ∧ nul ∉ bytes) := by
  induction rounds generalizing s text with
  | zero => exact absurd some_ (Nat.lt_irrefl 0)
  | succ rounds inductionHypothesis =>
      obtain ⟨t, cursors', got, rest⟩ := fgetc_next calls cursors
      cases input : remaining calls s with
      | nil =>
          rw [input, lineOf] at other
          rcases other with short | member
          · exact absurd short (Nat.not_succ_le_zero _)
          · exact absurd member List.not_mem_nil
      | cons c more =>
          rw [input] at rest got other
          rw [fgetsLoop_byte calls got]
          by_cases zero : c = nul
          · rw [if_pos zero]
            exact ⟨_, _, _, rfl, fun isTrue => by cases isTrue⟩
          rw [if_neg zero]
          by_cases last : rounds = 0
          · rw [if_pos last, last]
            exact ⟨_, _, _, rfl, fun _ => ⟨[c], rfl, rfl, by simpa using Ne.symm zero⟩⟩
          rw [if_neg last]
          by_cases isLine : c = newline
          · rw [lineOf, if_pos isLine] at other
            rcases other with short | member
            · rw [List.length_singleton] at short
              omega
            · exact absurd (List.mem_singleton.mp member).symm zero
          · rw [lineOf, if_neg isLine] at other
            rw [if_neg isLine]
            obtain ⟨returnsOut, stored, u, looped, full⟩ := @inductionHypothesis t cursors' (text ++ [c])
              (Nat.pos_of_ne_zero last) (by
                rw [rest, List.tail_cons]
                exact other.imp Nat.le_of_succ_le_succ fun member =>
                  (List.mem_cons.mp member).resolve_left (Ne.symm zero))
            refine ⟨returnsOut, stored, u, looped, fun isTrue => ?_⟩
            obtain ⟨bytes, isStored, count, noZero⟩ := full isTrue
            refine ⟨c :: bytes, by rw [isStored, List.append_assoc]; rfl,
              by rw [List.length_cons, count], ?_⟩
            rw [List.mem_cons]
            exact fun member => member.elim (fun isZero => zero isZero.symm) noZero

/-- For every content and every size from 1 on: `fgets` returns, and it reads the line as it should
exactly if the line is shorter than the size and has no zero byte. -/
theorem fgets_meets_iff (cursors : Cursors s.file) {size : BitVec 32} (positive : 1 ≤ size.toInt) :
    ∃ returnsOut stored t, fgets calls.toSysCalls size s = some (returnsOut, stored, t) ∧
      (FgetsMeets (remaining calls s) size.toNat returnsOut stored (remaining calls t) ↔
        (lineOf (remaining calls s)).length < size.toNat ∧ nul ∉ lineOf (remaining calls s)) := by
  have notZero : size ≠ 0 := by
    rintro rfl
    exact absurd positive (by decide)
  have some_ : 0 < size.toNat := Nat.pos_of_ne_zero fun isZero => notZero (BitVec.eq_of_toNat_eq isZero)
  rw [fgets, if_neg notZero]
  by_cases good : (lineOf (remaining calls s)).length < size.toNat ∧ nul ∉ lineOf (remaining calls s)
  · obtain ⟨t, looped, left⟩ := fgetsLoop_line calls cursors [] good.1 good.2
    rw [List.nil_append] at looped
    have whole : (lineOf (remaining calls s)).take (size.toNat - 1) = lineOf (remaining calls s) :=
      List.take_of_length_le (by omega)
    refine ⟨_, _, t, looped, iff_of_true ⟨?_, fun isOut => ?_, fun isNull => ?_⟩ good⟩
    · split
      · exact Nat.zero_le _
      · rw [List.length_append, List.length_singleton]
        exact good.1
    · rw [if_neg (of_decide_eq_true isOut), whole]
      exact ⟨rfl, left⟩
    · by_contra input
      exact of_decide_eq_false isNull (lineOf_ne_nil input)
  · obtain ⟨returnsOut, stored, t, looped, full⟩ := fgetsLoop_other calls cursors [] some_
      ((not_and_or.mp good).imp Nat.le_of_not_lt not_not.mp)
    refine ⟨returnsOut, stored, t, looped, iff_of_false (fun meets => ?_) good⟩
    cases returnsOut with
    | false =>
        have ended := meets.atEnd rfl
        rw [ended] at good
        exact good ⟨some_, List.not_mem_nil⟩
    | true =>
        obtain ⟨bytes, isStored, -, noZero⟩ := full rfl
        rw [(meets.line rfl).1, List.nil_append] at isStored
        rw [← isStored] at noZero
        exact noZero (List.mem_append_right _ List.mem_cons_self)

/-- The device of `tape` as one with a content: it delivers at most three bytes for one call. -/
def tapeInput : InputCalls (List (BitVec 8)) :=
  { tape with
    content := fun w _ => w
    seek_content := fun _ _ => rfl
    read_content := fun w _ count some_ => by
      refine ⟨w.take (min 3 count), rfl, (List.take_append_drop _ _).symm, fun nothing => ?_⟩
      rcases List.take_eq_nil_iff.mp nothing with none_ | isNil
      · omega
      · exact isNil }

/-- A stream of `fopen` on this device, from which nothing was read yet. -/
def freshTape (content : List (BitVec 8)) : Stream (List (BitVec 8)) where
  file := fopen 3 (fun _ => 0) fun _ => 0
  errno := 0
  world := content

theorem freshTape_remaining (content : List (BitVec 8)) : remaining tapeInput (freshTape content) =
    content := by
  rw [remaining, freshTape, (fopen_freshReader 3 _ _).waiting]
  rfl

/-- The line `ab` is read with room for four bytes. -/
theorem fgets_meets_iff_example : ∃ returnsOut stored t,
    fgets tapeInput.toSysCalls 4 (freshTape [0x61, 0x62, newline, 0x63]) = some (returnsOut, stored, t) ∧
    FgetsMeets [0x61, 0x62, newline, 0x63] 4 returnsOut stored (remaining tapeInput t) := by
  obtain ⟨returnsOut, stored, t, ran, meets⟩ := @fgets_meets_iff _ tapeInput
    (freshTape [0x61, 0x62, newline, 0x63]) (fopen_freshReader 3 _ _).cursors 4 (by decide)
  rw [freshTape_remaining] at meets
  exact ⟨returnsOut, stored, t, ran, meets.mpr ⟨by decide, by decide⟩⟩

/-- With room for two bytes, `ab` is stored without a terminator. -/
theorem fgets_unterminated : ∃ t,
    fgets tapeInput.toSysCalls 2 (freshTape [0x61, 0x62, newline]) = some (true, [0x61, 0x62], t) ∧
    ¬ FgetsMeets [0x61, 0x62, newline] 2 true [0x61, 0x62] (remaining tapeInput t) := by
  have read : (fgets tapeInput.toSysCalls 2 (freshTape [0x61, 0x62, newline])).map
      (fun done => (done.1, done.2.1)) = some (true, [0x61, 0x62]) := by
    decide +kernel
  obtain ⟨⟨returnsOut, stored, t⟩, ran, same⟩ := Option.map_eq_some_iff.mp read
  cases same
  exact ⟨t, ran, fun meets => absurd (meets.line rfl).1 (by decide)⟩

end Voxel.Proofs
