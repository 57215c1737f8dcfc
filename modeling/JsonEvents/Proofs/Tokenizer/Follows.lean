import JsonEvents.Proofs.Reading.Run
import JsonEvents.Proofs.Window.Recognized
import JsonEvents.Tokenizer.Run

/-!
# A tokenizer follows the reading of its input

`Follows input ending policy t r` says that a tokenizer stands where a reading does.
A call then does what the reading does next, or stops because a lexeme does not
fit, or stops because the source failed where the input ends (`Follows.next`).
-/

namespace JsonEvents

open Ascii

namespace Tokenizer

open Window (Covers IsDecided)

structure Follows (input : Bytes) (ending : Status) (policy : TrailingComma) (t : Tokenizer)
    (r : Reading) : Prop where
  shows : t.window.Shows input ending
  fits : ¬ t.window.Overflows
  len : t.window.len = 0
  offset : t.window.cursor = r.offset
  rest : input.drop r.offset = r.rest
  policy : t.trailingComma = policy
  nesting : t.nesting = r.nesting
  needComma : t.needComma = r.needComma
  latched : t.latched.isOk = !r.cut
  cut : r.cut = true → t.latched.isEndOfInput = true ∧ ending.isEndOfInput = true

/-- Whether a status says why there is no event. -/
def Explains (s : Status) : Halt → Prop
  | .ended => s.isEndOfInput = true
  | .refused fault => s.isRefusal fault.reason = true

/-- A call did what the reading does. -/
def Agrees (input : Bytes) (ending : Status) (policy : TrailingComma)
    (result : Event × Tokenizer) : Reply → Prop
  | .gives event r => result.1 = event ∧ Follows input ending policy result.2 r
  | .halts halt r => result.1 = .error ∧ result.2.nesting = r.nesting ∧
      result.2.offset = r.offset ∧ Explains result.2.status halt

/-- A call gave up because the lexeme does not fit, with a supply that had not failed before. -/
structure GivesUp (w : Window) (result : Event × Tokenizer) : Prop where
  error : result.1 = .error
  status : result.2.status = .bufferExceeded
  spilled : result.2.window.Overflows
  fine : w.given.isOk = true

/--
Whether a failure of the source is told instead of a reply.  It is when the
reply is about the end of the input, and for a scalar value that ends there as
soon as the source has told it.
-/
def Hides (ending : Status) (w : Window) : Reply → Prop
  | .gives event r => r.rest = [] ∧ (r.cut = true ∨ (r.mark event).isScalar ∧ w.given = ending)
  | .halts _ place => place.rest = []

/-- A call did what the reading does, or told the failure of the source instead. -/
inductive Does (input : Bytes) (ending : Status) (policy : TrailingComma)
    (result : Event × Tokenizer) (reply : Reply) : Prop
  | agrees (agrees : Agrees input ending policy result reply)
      (shown : ending.isEndOfInput = true ∨ ¬ Hides ending result.2.window reply)
  | stops (error : result.1 = .error) (status : result.2.status = ending)
      (failed : ending.isEndOfInput = false) (hidden : Hides ending result.2.window reply)

variable {input : Bytes} {ending : Status} {policy : TrailingComma} {t : Tokenizer} {r : Reading}
  {v w : Window}

/-! ## Giving up -/

theorem failure_of_overflow (spilled : t.window.Overflows) : t.failure? = some .bufferExceeded := by
  rw [failure?, Window.status_of_overflow spilled]
  rfl

theorem failure_of_fits (shows : t.window.Shows input ending) (fits : ¬ t.window.Overflows)
    (ended : ending.isEndOfInput = true) : t.failure? = none := by
  unfold failure?
  rcases shows.status_cases fits with ok | same
  · rw [ok]; rfl
  · rw [same, ended, Bool.or_true]; rfl

theorem failure_of_ok (ok : t.window.status = .ok) : t.failure? = none := by
  rw [failure?, ok]
  rfl

theorem failure_of_failed (status : t.window.status = ending) (failed : ending.isOk = false)
    (other : ending.isEndOfInput = false) : t.failure? = some ending := by
  rw [failure?, status, failed, other]
  rfl

theorem status_stop (failed : ending.isOk = false) (t : Tokenizer) :
    (t.stop ending).2.status = ending := by
  rw [Tokenizer.status, stop, failed]
  rfl

theorem givesUp_stop (fine : w.given.isOk = true) (spilled : t.window.Overflows) :
    GivesUp w (t.stop .bufferExceeded) := ⟨rfl, rfl, spilled, fine⟩

theorem givesUp_emitScalar (fine : w.given.isOk = true) (spilled : t.window.Overflows)
    (kind : Kind) : GivesUp w (t.emitScalar kind) := by
  rw [emitScalar, failure_of_overflow spilled]
  exact givesUp_stop fine spilled

theorem givesUp_refuseUnlessFailed (fine : w.given.isOk = true) (spilled : t.window.Overflows)
    (fault : Fault) : GivesUp w (t.refuseUnlessFailed fault) := by
  rw [refuseUnlessFailed, failure_of_overflow spilled]
  exact givesUp_stop fine spilled

theorem givesUp_noToken (fine : w.given.isOk = true) (spilled : t.window.Overflows) (c : UInt8) :
    GivesUp w (t.noToken c) := by
  have status := Window.status_of_overflow spilled
  unfold noToken
  split
  · rw [status]
    exact givesUp_stop fine spilled
  · exact givesUp_refuseUnlessFailed fine spilled _

/-! ## Refusing and giving -/

theorem isRefusal_refuse (t : Tokenizer) (fault : Fault) :
    (t.refuse fault).2.status.isRefusal fault.reason = true := by
  simp [refuse, Message.refuse, status, Status.withText, Status.isOk, Status.isRefusal,
    Status.category, Status.reason]

theorem agrees_refuse (nesting : t.nesting = r.nesting) (offset : t.offset = r.offset)
    (fault : Fault) : Agrees input ending policy (t.refuse fault) (.halts (.refused fault) r) :=
  ⟨rfl, nesting, offset, isRefusal_refuse t fault⟩

theorem Follows.refuse {n : Nat} (h : Follows input ending policy t r)
    (covers : Covers input ending t.window v n) (fault : Fault) :
    Agrees input ending policy ({ t with window := v }.refuse fault)
      (.halts (.refused fault) (r.advance n)) := by
  have place : v.cursor = (r.advance n).offset := by
    rw [covers.cursor, h.offset]
    rfl
  exact agrees_refuse (t := { t with window := v }) (r := r.advance n) h.nesting place fault

/-- The byte of the input behind what was covered. -/
theorem Follows.byte_behind {n : Nat} (h : Follows input ending policy t r)
    (covers : Covers input ending t.window v n) : input[v.cursor]? = (r.rest.drop n)[0]? := by
  rw [← h.rest, ← h.offset, List.drop_drop, List.getElem?_drop, covers.cursor, Nat.add_zero]

/-- Behind what was covered the status says whether the input has ended. -/
theorem Follows.status_behind {n : Nat} (h : Follows input ending policy t r)
    (covers : Covers input ending t.window v n) (fits : ¬ v.Overflows)
    (decided : IsDecided input ending v) :
    v.status = if r.rest.drop n = [] then ending else .ok := by
  have here := h.byte_behind covers
  cases behind : r.rest.drop n with
  | nil =>
      rw [behind] at here
      exact decided.status_of_none covers.shows here
  | cons d rest =>
      rw [behind] at here
      rw [if_neg (List.cons_ne_nil d rest)]
      exact covers.shows.status_of_more fits (by rw [here]; nofun)

/-- A fault is told unless the source failed where it would be. -/
theorem Follows.refuseUnlessFailed {n : Nat} (h : Follows input ending policy t r)
    (covers : Covers input ending t.window v n) (fits : ¬ v.Overflows)
    (decided : IsDecided input ending v) (fault : Fault) :
    Does input ending policy ({ t with window := v }.refuseUnlessFailed fault)
      (.halts (.refused fault) (r.advance n)) := by
  have status := h.status_behind covers fits decided
  have refused := h.refuse covers fault
  unfold Tokenizer.refuseUnlessFailed
  by_cases nothing : r.rest.drop n = []
  · rw [if_pos nothing] at status
    cases ended : ending.isEndOfInput with
    | true =>
        rw [failure_of_fits (t := { t with window := v }) covers.shows fits ended]
        exact .agrees refused (.inl ended)
    | false =>
        rw [failure_of_failed (t := { t with window := v }) status covers.shows.failed ended]
        exact .stops rfl (status_stop covers.shows.failed _) ended nothing
  · rw [if_neg nothing] at status
    rw [failure_of_ok (t := { t with window := v }) status]
    exact .agrees refused (.inr nothing)

/-- A new lexeme begins behind what was covered. -/
theorem Follows.skip {n : Nat} (h : Follows input ending policy t r)
    (covers : Covers input ending t.window v n) (fits : ¬ v.Overflows) :
    Follows input ending policy { t with window := v.skip } (r.advance n) where
  shows := covers.shows.skip
  fits := fits
  len := rfl
  offset := by
    rw [Reading.advance, ← h.offset, ← covers.cursor]
    exact Window.cursor_skip covers.shows.arrived
  rest := by
    rw [Reading.advance, ← List.drop_drop, h.rest]
  policy := h.policy
  nesting := h.nesting
  needComma := h.needComma
  latched := h.latched
  cut := h.cut

theorem Follows.setNesting (h : Follows input ending policy t r) (nesting : Nesting)
    (needComma : Bool) :
    Follows input ending policy { t with nesting, needComma } { r with nesting, needComma } :=
  { h with nesting := rfl, needComma := rfl }

/-- What was covered is the front of the rest. -/
theorem Follows.lexeme {n : Nat} (h : Follows input ending policy t r)
    (covers : Covers input ending t.window v n) : v.lexeme = r.rest.take n := by
  have cursor := covers.cursor
  have offset := covers.offset
  have len := h.len
  have start : t.window.offset = r.offset := by
    rw [← h.offset]
    simp only [Segment.offset, Segment.cursor, len, Nat.add_zero]
  have size : v.len = n := by
    simp only [Segment.cursor, Segment.offset] at cursor offset
    omega
  rw [covers.shows.lexeme_eq, offset, start, h.rest, size]

theorem Follows.emit {n : Nat} (h : Follows input ending policy t r)
    (covers : Covers input ending t.window v n) (fits : ¬ v.Overflows) (kind : Kind)
    (nesting : Nesting) (needComma : Bool) :
    Agrees input ending policy ({ t with window := v, nesting, needComma }.emit kind)
      (.gives ⟨kind, r.rest.take n⟩ { r.advance n with nesting, needComma }) := by
  refine ⟨?_, (h.skip covers fits).setNesting nesting needComma⟩
  rw [← h.lexeme covers]
  rfl

theorem isScalar_mark {kind : Kind} (data : Bytes) (place : Reading)
    (scalar : kind = .string ∨ kind = .number ∨ kind = .literal)
    (context : place.nesting.top ≠ .objectValue) : (place.mark ⟨kind, data⟩).isScalar = true := by
  rcases scalar with rfl | rfl | rfl
  · simpa [Mark.isScalar, Reading.mark] using context
  · rfl
  · rfl

/-- A scalar value is given unless the source has told its failure and the value may be cut. -/
theorem Follows.emitScalar {n : Nat} {kind : Kind} (h : Follows input ending policy t r)
    (whole : r.cut = false) (covers : Covers input ending t.window v n) (fits : ¬ v.Overflows)
    (scalar : kind = .string ∨ kind = .number ∨ kind = .literal) :
    Does input ending policy ({ t with window := v }.emitScalar kind) (r.scalar kind n) := by
  have failed := covers.shows.failed
  have emitted := h.emit covers fits kind (t.nesting.setTop t.nesting.top.afterValue) true
  have here := h.byte_behind covers
  unfold Tokenizer.emitScalar Reading.scalar
  rw [← h.nesting]
  by_cases nothing : r.rest.drop n = []
  · rw [nothing] at here
    have status := covers.shows.status_of_end here
    rcases covers.shows.given_eq with ok | spilled | ⟨given, _⟩
    · rw [failure_of_ok (t := { t with window := v }) (status.trans ok)]
      refine .agrees emitted (.inr ?_)
      rintro ⟨_, cut | ⟨_, given⟩⟩
      · exact absurd (whole.symm.trans cut) Bool.false_ne_true
      · rw [← show v.given = ending from given, ok] at failed
        cases failed
    · exact absurd spilled fits
    · cases ended : ending.isEndOfInput with
      | true =>
          rw [failure_of_fits (t := { t with window := v }) covers.shows fits ended]
          exact .agrees emitted (.inl ended)
      | false =>
          rw [failure_of_failed (t := { t with window := v }) (status.trans given) failed ended]
          have mark := isScalar_mark (r.rest.take n)
            { r.advance n with
              nesting := t.nesting.setTop t.nesting.top.afterValue, needComma := true }
            scalar (Context.afterValue_ne _)
          exact .stops rfl (status_stop failed _) ended ⟨nothing, .inr ⟨mark, given⟩⟩
  · have more : input[v.cursor]? ≠ none := by
      rw [here, List.getElem?_eq_getElem (List.length_pos_iff.mpr nothing)]
      exact Option.some_ne_none _
    rw [failure_of_ok (t := { t with window := v }) (covers.shows.status_of_more fits more)]
    exact .agrees emitted (.inr fun hidden => nothing hidden.1)

/-- Where the next byte has arrived it can be taken as a bracket. -/
theorem Follows.emitBracket {kind : Kind} (h : Follows input ending policy t r)
    (whole : r.cut = false) (arrived : t.window.cursor < t.window.fill) (nesting : Nesting)
    (needComma : Bool) (bracket : kind ≠ .string ∧ kind ≠ .number ∧ kind ≠ .literal) :
    Does input ending policy (t.emitBracket kind nesting needComma)
      (r.bracket kind nesting needComma) := by
  refine .agrees (h.emit (h.shows.extend arrived) h.fits kind nesting needComma) (.inr ?_)
  rintro ⟨_, cut | ⟨scalar, _⟩⟩
  · exact absurd (whole.symm.trans cut) Bool.false_ne_true
  · obtain ⟨noString, noNumber, noLiteral⟩ := bracket
    simp [Mark.isScalar, Reading.mark, noString, noNumber, noLiteral] at scalar

/-! ## Keys and strings -/

/-- The opening quote of a string is its first byte. -/
theorem Follows.opened (h : Follows input ending policy t r)
    (arrived : t.window.cursor < t.window.fill) :
    Covers input ending t.window (t.window.extend 1) 1 ∧ 0 < (t.window.extend 1).len ∧
      (t.window.extend 1).escapesQuote = false := by
  have len : (t.window.extend 1).len = 1 := by
    rw [Window.extend, Segment.extend, Segment.setLen, h.len]
  refine ⟨h.shows.extend arrived, by omega, ?_⟩
  rw [Segment.escapesQuote, len]
  rfl

/-- What a string covers, when it fits. -/
theorem Follows.string (h : Follows input ending policy t r)
    (arrived : t.window.cursor < t.window.fill) (fits : ¬ t.window.string.2.Overflows) :
    t.window.string.1 = (Scan.string r.rest).1 ∧
      Covers input ending t.window t.window.string.2 (Scan.string r.rest).2 := by
  obtain ⟨quote, opened, plain⟩ := h.opened arrived
  obtain ⟨closed, rest⟩ := quote.shows.stringRest opened fits
  rw [plain, quote.rest, h.offset, h.rest] at closed rest
  have whole := quote.trans rest
  rw [Nat.add_comm] at whole
  exact ⟨closed, whole⟩

theorem Follows.decided_string (h : Follows input ending policy t r)
    (arrived : t.window.cursor < t.window.fill) (fits : ¬ t.window.string.2.Overflows)
    (lost : t.window.string.1 = false) : IsDecided input ending t.window.string.2 := by
  obtain ⟨quote, opened, _⟩ := h.opened arrived
  exact quote.shows.decided_stringRest opened fits lost

theorem Follows.fits_string (h : Follows input ending policy t r)
    (arrived : t.window.cursor < t.window.fill) (closed : t.window.string.1 = true) :
    ¬ t.window.string.2.Overflows := by
  obtain ⟨quote, opened, _⟩ := h.opened arrived
  exact quote.shows.fits_stringRest opened h.fits closed

/-- How many bytes a window has covered is the length of its lexeme. -/
theorem Follows.len_eq {n : Nat} (h : Follows input ending policy t r)
    (covers : Covers input ending t.window v n) : v.len = n := by
  have cursor := covers.cursor
  have offset := covers.offset
  have len := h.len
  simp only [Segment.cursor, Segment.offset] at cursor offset
  omega

/-- The byte behind what was covered. -/
theorem Follows.byte {n : Nat} {c : UInt8} {u : Window} (h : Follows input ending policy t r)
    (covers : Covers input ending t.window u n) (seen : u.peek 0 = (c, v)) (fits : ¬ v.Overflows) :
    c = (r.advance n).byte := by
  have byte := (covers.shows.sees seen fits).2.byte_eq
  rw [byte, covers.rest, h.offset, h.rest]
  rfl

theorem Follows.reaches_string (h : Follows input ending policy t r)
    (arrived : t.window.cursor < t.window.fill) : t.window.Reaches t.window.string.2 := by
  have quote : t.window.Reaches (t.window.extend 1) :=
    { total := rfl
      cursor := by rw [Window.cursor_extend]; exact Nat.le_succ _
      fill := Nat.le_refl _
      arrived := fun _ => (h.opened arrived).1.shows.arrived
      onward := .moved rfl rfl }
  exact quote.trans (Window.reaches_stringRest _)

/-- White space that a window takes behind bytes it has covered. -/
theorem Follows.extendSpace {n : Nat} (h : Follows input ending policy t r)
    (covers : Covers input ending t.window w n) (fits : ¬ w.extendSpace.Overflows) :
    Covers input ending t.window w.extendSpace (n + Scan.blanks (r.rest.drop n)) := by
  have blanks := covers.shows.extendSpace fits
  rw [covers.rest, h.offset, h.rest] at blanks
  exact covers.trans blanks

/-- Where a colon is seen behind a key, it is there and can be taken. -/
theorem Follows.takeColon {n : Nat} (h : Follows input ending policy t r)
    (covers : Covers input ending t.window w n) (fits : ¬ w.Overflows)
    (seen : w.extendSpace.peek 0 = (colon, v)) :
    ¬ v.Overflows ∧ (r.advance n).skipBlanks.byte = colon ∧
      Covers input ending t.window (v.extend 1) (n + Scan.blanks (r.rest.drop n) + 1) := by
  have some : colon ≠ 0 := by decide
  have shown : (w.extendSpace.peek 0).1 ≠ 0 := by rw [seen]; exact some
  have blanks := h.extendSpace covers (covers.shows.fits_extendSpace fits shown)
  have fits' := blanks.shows.fits_byte seen (covers.shows.fits_extendSpace fits shown) some
  refine ⟨fits', ?_, blanks.trans (blanks.shows.take seen fits' some (Nat.le_refl 1))⟩
  rw [Reading.skipBlanks, Reading.advance_advance]
  exact (h.byte blanks seen fits').symm

/-- Where another byte is seen behind a key, no colon is there. -/
theorem Follows.noColon {n : Nat} {c : UInt8} (h : Follows input ending policy t r)
    (covers : Covers input ending t.window w n) (seen : w.extendSpace.peek 0 = (c, v))
    (other : c ≠ colon) (fits : ¬ v.Overflows) :
    (r.advance n).skipBlanks.byte ≠ colon ∧
      Covers input ending t.window v (n + Scan.blanks (r.rest.drop n)) ∧
      IsDecided input ending v := by
  have blanks := h.extendSpace covers ((Window.reaches_peek seen).fits fits)
  obtain ⟨looked, sees⟩ := blanks.shows.sees seen fits
  refine ⟨?_, blanks.trans looked, sees.decided looked.cursor⟩
  rw [Reading.skipBlanks, Reading.advance_advance]
  intro isColon
  exact other ((h.byte blanks seen fits).trans isColon)

/-- A key is given without the white space and the colon that were taken with it. -/
theorem Follows.emitKey {m n : Nat} (h : Follows input ending policy t r) (whole : r.cut = false)
    (covers : Covers input ending t.window v m) (fits : ¬ v.Overflows) (shorter : n ≤ m) :
    Does input ending policy
      (⟨.string, v.lexeme.take n⟩,
        { t with window := v.skip, nesting := t.nesting.setTop .objectValue })
      (.gives ⟨.string, r.rest.take n⟩
        { r.advance m with nesting := r.nesting.setTop .objectValue }) := by
  refine .agrees ⟨?_, ?_⟩ (.inr ?_)
  · rw [h.lexeme covers, List.take_take, Nat.min_eq_left shorter]
  · exact { h.skip covers fits with nesting := congrArg (·.setTop .objectValue) h.nesting }
  · rintro ⟨_, cut | ⟨scalar, _⟩⟩
    · exact absurd (whole.symm.trans cut) Bool.false_ne_true
    · cases scalar

theorem Follows.nextKey (h : Follows input ending policy t r) (whole : r.cut = false)
    (arrived : t.window.cursor < t.window.fill) :
    GivesUp t.window t.nextKey ∨ Does input ending policy t.nextKey r.key := by
  have fits := h.fits_string arrived
  have decided := h.decided_string arrived
  have reached := h.reaches_string arrived
  have scanned := h.string arrived
  rcases string : t.window.string with ⟨closed, w⟩
  rcases seen : w.extendSpace.peek 0 with ⟨c, v⟩
  rw [string] at fits decided scanned reached
  simp only [Tokenizer.nextKey, string, seen]
  cases closed with
  | false =>
      rw [if_neg Bool.false_ne_true]
      by_cases spilled : w.Overflows
      · exact .inl (givesUp_refuseUnlessFailed (t := { t with window := w })
          (reached.fine_of_overflow h.fits spilled) spilled _)
      · obtain ⟨same, covers⟩ := scanned spilled
        rw [Reading.key_of_open same.symm]
        exact .inr (h.refuseUnlessFailed covers spilled (decided spilled rfl) _)
  | true =>
      obtain ⟨same, covers⟩ := scanned (fits rfl)
      rw [if_pos rfl, Reading.key_of_closed same.symm]
      by_cases isColon : c = colon
      · subst isColon
        obtain ⟨fits', byte, taken⟩ := h.takeColon covers (fits rfl) seen
        rw [if_pos rfl, if_pos byte, h.len_eq covers, Reading.skipBlanks, Reading.advance_advance,
          Reading.advance_advance]
        exact .inr (h.emitKey whole taken fits' (by omega))
      · rw [if_neg isColon]
        by_cases spilled : v.Overflows
        · have reached' := reached.trans
            ((Window.reaches_extendSpace w).trans (Window.reaches_peek seen))
          exact .inl (givesUp_refuseUnlessFailed (t := { t with window := v })
            (reached'.fine_of_overflow h.fits spilled) spilled _)
        · obtain ⟨noColon, looked, decided⟩ := h.noColon covers seen isColon spilled
          rw [if_neg noColon, Reading.skipBlanks, Reading.advance_advance]
          exact .inr (h.refuseUnlessFailed looked spilled decided _)

theorem Follows.nextString (h : Follows input ending policy t r) (whole : r.cut = false)
    (arrived : t.window.cursor < t.window.fill) :
    GivesUp t.window t.nextString ∨ Does input ending policy t.nextString r.string := by
  have fits := h.fits_string arrived
  have reached := h.reaches_string arrived
  have scanned := h.string arrived
  have decided := h.decided_string arrived
  rcases string : t.window.string with ⟨closed, w⟩
  rcases scan : Scan.string r.rest with ⟨closed', n⟩
  rw [string] at fits scanned decided reached
  rw [scan] at scanned
  simp only [Tokenizer.nextString, Reading.string, string, scan]
  cases closed with
  | true =>
      have fits := fits rfl
      obtain ⟨same, covers⟩ := scanned fits
      rw [if_pos rfl, if_pos same.symm]
      exact .inr (h.emitScalar whole covers fits (.inl rfl))
  | false =>
      rw [if_neg Bool.false_ne_true]
      by_cases spilled : w.Overflows
      · left
        rw [Window.status_of_overflow spilled]
        exact givesUp_stop (t := { t with window := w })
          (reached.fine_of_overflow h.fits spilled) spilled
      · obtain ⟨same, covers⟩ := scanned spilled
        obtain rfl : closed' = false := same.symm
        have failed := covers.shows.failed
        have status := h.status_behind covers spilled (decided spilled rfl)
        right
        simp only [Bool.false_eq_true, if_false]
        by_cases nothing : r.rest.drop n = []
        · rw [if_pos nothing] at status
          rw [status, failed, if_neg Bool.false_ne_true, if_pos nothing]
          cases ended : ending.isEndOfInput with
          | true =>
              rw [if_pos rfl]
              refine .agrees ⟨congrArg (Event.mk .string) (h.lexeme covers), ?_⟩ (.inl ended)
              exact { h.skip covers spilled with
                latched := failed
                cut := fun _ => ⟨ended, ended⟩ }
          | false =>
              rw [if_neg Bool.false_ne_true]
              exact .stops rfl (status_stop failed _) ended ⟨nothing, .inl rfl⟩
        · rw [if_neg nothing] at status
          rw [status, if_pos (show Status.ok.isOk = true from rfl), if_neg nothing]
          exact .agrees (h.refuse covers .nulByte) (.inr nothing)

/-! ## Values -/

theorem Follows.noToken (h : Follows input ending policy t r) (whole : r.cut = false)
    (covers : Covers input ending t.window v 0) (fits : ¬ v.Overflows)
    (decided : IsDecided input ending v) :
    Does input ending policy ({ t with window := v }.noToken r.byte) r.noToken := by
  have failed := covers.shows.failed
  have latched : t.latched.isOk = true := by rw [h.latched, whole]; rfl
  have offset : v.cursor = r.offset := covers.cursor.trans h.offset
  have status := h.status_behind covers fits decided
  rw [List.drop_zero] at status
  simp only [Tokenizer.noToken, Reading.noToken]
  by_cases isNul : r.byte = nul
  · rw [if_pos isNul, if_pos isNul]
    by_cases nothing : r.rest = []
    · rw [if_pos nothing] at status
      rw [status, failed, if_neg Bool.false_ne_true, if_pos nothing]
      cases ended : ending.isEndOfInput with
      | true =>
          rw [if_pos rfl]
          refine .agrees ⟨rfl, h.nesting, offset, ?_⟩ (.inl ended)
          simp only [Explains, Tokenizer.status, latched, if_true]
          rw [status, ended]
      | false =>
          rw [if_neg Bool.false_ne_true]
          exact .stops rfl (status_stop failed _) ended nothing
    · rw [if_neg nothing] at status
      rw [status, if_pos (show Status.ok.isOk = true from rfl), if_neg nothing]
      exact .agrees (h.refuse covers .nulByte) (.inr nothing)
  · rw [if_neg isNul, if_neg isNul]
    exact h.refuseUnlessFailed covers fits decided .strayByte

/-- A byte other than NUL that is decided has arrived. -/
theorem Follows.arrived (h : Follows input ending policy t r)
    (decided : IsDecided input ending t.window) (some : r.byte ≠ 0) :
    t.window.cursor < t.window.fill := by
  apply decided.arrived
  intro none
  rw [h.offset, ← Nat.add_zero r.offset, ← List.getElem?_drop, h.rest] at none
  exact some (by rw [Reading.byte, Scan.byte, none]; rfl)

/-- Where no number was found there may be a literal. -/
theorem Follows.nextLiteral {isLiteral : Bool} (h : Follows input ending policy t r)
    (whole : r.cut = false) (decided : IsDecided input ending t.window) (noQuote : r.byte ≠ quote)
    (reached : t.window.Reaches w)
    (noNumber : ¬ w.Overflows → Scan.number? r.rest = none ∧ Covers input ending t.window w 0)
    (found : w.literal = (isLiteral, v)) :
    GivesUp t.window
        (if isLiteral then { t with window := v }.emitScalar .literal
          else { t with window := v }.noToken r.byte) ∨
      Does input ending policy
        (if isLiteral then { t with window := v }.emitScalar .literal
          else { t with window := v }.noToken r.byte) r.value := by
  have reached' := Window.reaches_literal w
  have literal := fun shows : w.Shows input ending => shows.literal
  rw [found] at literal reached'
  by_cases spilled : v.Overflows
  · left
    have fine := (reached.trans reached').fine_of_overflow h.fits spilled
    cases isLiteral with
    | true => exact givesUp_emitScalar (t := { t with window := v }) fine spilled _
    | false => exact givesUp_noToken (t := { t with window := v }) fine spilled _
  · obtain ⟨none, covers⟩ := noNumber (reached'.fits spilled)
    obtain ⟨same, covers'⟩ := literal covers.shows spilled
    rw [covers.rest, h.offset, h.rest, List.drop_zero] at same covers'
    have both := covers.trans covers'
    rw [Nat.zero_add] at both
    rw [Reading.value, if_neg noQuote, none]
    right
    cases isLiteral with
    | true =>
        obtain ⟨n, value⟩ := Option.isSome_iff_exists.mp same.symm
        rw [value] at both ⊢
        exact h.emitScalar whole both spilled (.inr (.inr rfl))
    | false =>
        have none := Option.not_isSome_iff_eq_none.mp (by rw [← same]; exact Bool.false_ne_true)
        rw [none] at both ⊢
        exact h.noToken whole both spilled
          ((reached.trans reached').decided h.shows both.cursor decided)

theorem Follows.nextScalar (h : Follows input ending policy t r)
    (whole : r.cut = false) (decided : IsDecided input ending t.window) :
    GivesUp t.window (t.nextScalar r.byte) ∨
      Does input ending policy (t.nextScalar r.byte) r.value := by
  unfold Tokenizer.nextScalar
  by_cases isQuote : r.byte = quote
  · rw [if_pos isQuote, Reading.value, if_pos isQuote]
    exact h.nextString whole (h.arrived decided (by rw [isQuote]; decide))
  · rw [if_neg isQuote]
    have reached := Window.reaches_number t.window
    have number := h.shows.number
    rw [h.offset, h.rest] at number
    rcases found : t.window.number with ⟨isNumber, w⟩
    rw [found] at number reached
    cases isNumber with
    | true =>
        dsimp only at number ⊢
        rw [if_pos rfl]
        by_cases spilled : w.Overflows
        · exact .inl (givesUp_emitScalar (t := { t with window := w })
            (reached.fine_of_overflow h.fits spilled) spilled _)
        · obtain ⟨same, covers⟩ := number spilled
          obtain ⟨n, value⟩ := Option.isSome_iff_exists.mp same.symm
          rw [value] at covers
          rw [Reading.value, if_neg isQuote, value]
          exact .inr (h.emitScalar whole covers spilled (.inr (.inl rfl)))
    | false =>
        have noNumber : ¬ w.Overflows →
            Scan.number? r.rest = none ∧ Covers input ending t.window w 0 := by
          intro fits
          obtain ⟨same, covers⟩ := number fits
          have none := Option.not_isSome_iff_eq_none.mp (by rw [← same]; exact Bool.false_ne_true)
          rw [none] at covers
          exact ⟨none, covers⟩
        rcases found' : w.literal with ⟨isLiteral, u⟩
        simp only [found', Bool.false_eq_true, if_false]
        exact h.nextLiteral whole decided isQuote reached noNumber found'

/-! ## Calls -/

theorem Follows.skipSpace (h : Follows input ending policy t r) :
    Follows input ending policy { t with window := t.window.skipSpace } r.skipBlanks := by
  obtain ⟨shows, cursor, len, fits⟩ := h.shows.skipSpace h.len h.fits
  rw [h.offset, h.rest] at cursor
  exact { h with
    shows, fits, len
    offset := cursor
    rest := by rw [Reading.skipBlanks, Reading.advance, ← List.drop_drop, h.rest] }

/-- A look at the first byte of a token. -/
theorem Follows.peek {c : UInt8} (h : Follows input ending policy t r)
    (seen : t.window.peek 0 = (c, v)) :
    c = r.byte ∧ Follows input ending policy { t with window := v } r ∧
      IsDecided input ending v := by
  have fits := h.shows.fits_first h.len seen h.fits
  obtain ⟨looked, sees⟩ := h.shows.sees seen fits
  have byte := sees.byte_eq
  rw [h.offset, h.rest] at byte
  exact ⟨byte, { h with
    shows := looked.shows
    fits
    len := (Window.len_of_peek seen).trans h.len
    offset := looked.cursor.trans h.offset }, sees.decided looked.cursor⟩

/-- What is in front of a token, and where the token begins. -/
structure Faces (input : Bytes) (ending : Status) (policy : TrailingComma) (t : Tokenizer)
    (f : Front) (front : Reading × Option Fault) : Prop where
  fault : f.fault = front.2
  byte : f.byte = front.1.byte
  follows : Follows input ending policy
    { t with window := f.window, needComma := f.needComma } front.1
  decided : IsDecided input ending f.window

theorem Faces.move {f : Front} {front : Reading × Option Fault}
    (h : Faces input ending policy t f front) :
    Move.of t.context f.needComma f.byte =
      Move.of front.1.nesting.top front.1.needComma front.1.byte := by
  have nesting : t.nesting = front.1.nesting := h.follows.nesting
  have needComma : f.needComma = front.1.needComma := h.follows.needComma
  rw [context, nesting, needComma, h.byte]

theorem Follows.front (h : Follows input ending policy t r) :
    Faces input ending policy t (Front.of t.trailingComma t.context t.needComma t.window)
      (r.front policy) := by
  have skipped := h.skipSpace
  rcases seen : t.window.skipSpace.peek 0 with ⟨c, v⟩
  obtain ⟨byte, follows, decided⟩ := skipped.peek seen
  have nesting : t.context = r.skipBlanks.nesting.top := congrArg Nesting.top h.nesting
  have needComma : t.needComma = r.skipBlanks.needComma := h.needComma
  unfold Front.of Reading.front
  rw [seen, h.policy, nesting, needComma]
  dsimp only
  by_cases isComma : c = comma
  · rw [if_pos isComma, if_pos (byte.symm.trans isComma)]
    by_cases stray : Front.isStray policy r.skipBlanks.nesting.top r.skipBlanks.needComma = true
    · rw [if_pos stray, if_pos stray]
      exact ⟨rfl, byte, { follows with needComma := rfl }, decided⟩
    · rw [if_neg stray, if_neg stray]
      have arrived := follows.arrived decided (by rw [← byte, isComma]; decide)
      have behind := (follows.skip (follows.shows.extend (n := 1) arrived) follows.fits).skipSpace
      rcases seen' : (v.extend 1).skip.skipSpace.peek 0 with ⟨d, u⟩
      obtain ⟨byte', follows', decided'⟩ := behind.peek seen'
      exact ⟨congrArg (Front.faultBehind policy) byte', byte',
        { follows' with needComma := rfl }, decided'⟩
  · rw [if_neg isComma, if_neg fun same => isComma (byte.trans same)]
    exact ⟨rfl, byte, { follows with needComma := rfl }, decided⟩

theorem Follows.perform (h : Follows input ending policy t r)
    (whole : r.cut = false) (decided : IsDecided input ending t.window) (move : Move)
    (some : move ≠ .value → r.byte ≠ 0) :
    GivesUp t.window (t.perform r.byte move) ∨
      Does input ending policy (t.perform r.byte move) (r.perform move) := by
  have arrived := fun token => h.arrived decided (some token)
  cases move with
  | openObject =>
      rw [Tokenizer.perform, Reading.perform, h.nesting]
      exact .inr (h.emitBracket whole (arrived (by decide)) _ _ (by decide))
  | closeObject =>
      rw [Tokenizer.perform, Reading.perform, h.nesting]
      exact .inr (h.emitBracket whole (arrived (by decide)) _ _ (by decide))
  | openArray =>
      rw [Tokenizer.perform, Reading.perform, h.nesting]
      exact .inr (h.emitBracket whole (arrived (by decide)) _ _ (by decide))
  | closeArray =>
      rw [Tokenizer.perform, Reading.perform, h.nesting]
      exact .inr (h.emitBracket whole (arrived (by decide)) _ _ (by decide))
  | key => exact h.nextKey whole (arrived (by decide))
  | value => exact h.nextScalar whole decided
  | refuse fault =>
      refine .inr (.agrees (agrees_refuse h.nesting h.offset fault) (.inr fun nothing => ?_))
      exact some (by intro same; cases same) (by rw [Reading.byte, nothing]; rfl)

/--
A call does what the reading does, unless a lexeme does not fit or the source
failed where the input ends.
-/
theorem Follows.next (h : Follows input ending policy t r) :
    GivesUp t.window t.next ∨ Does input ending policy t.next (r.next policy) := by
  have latched := h.latched
  unfold Tokenizer.next Reading.next
  cases whole : r.cut with
  | true =>
      obtain ⟨atEnd, ended⟩ := h.cut whole
      rw [whole] at latched
      rw [if_neg (by rw [latched]; exact Bool.false_ne_true), if_pos rfl]
      refine .inr (.agrees ⟨rfl, h.nesting, h.offset, ?_⟩ (.inl ended))
      rw [Explains, status, if_neg (by rw [latched]; exact Bool.false_ne_true)]
      exact atEnd
  | false =>
      rw [whole] at latched
      have latched : t.latched.isOk = true := latched
      simp only [latched, Bool.false_eq_true, if_true, if_false]
      have faces := h.front
      have same := r.cut_front policy
      rcases front : r.front policy with ⟨q, fault⟩
      rw [front] at faces same
      rw [faces.fault]
      cases fault with
      | some fault =>
          have some : q.byte ≠ nul := Reading.byte_of_fault front
          refine .inr (.agrees (agrees_refuse faces.follows.nesting faces.follows.offset fault)
            (.inr fun nothing => some ?_))
          rw [Reading.byte, nothing]
          rfl
      | none =>
          have done := faces.follows.perform (same.trans whole) faces.decided
            (Move.of q.nesting.top q.needComma q.byte) fun token => ne_zero_of_move rfl token
          change GivesUp _ (Tokenizer.perform _ _ (Move.of t.context _ _)) ∨
            Does _ _ _ (Tokenizer.perform _ _ (Move.of t.context _ _)) _
          rw [faces.move, faces.byte]
          -- The supply had not failed behind the front of the token, so not before it either.
          refine done.imp_left fun gaveUp => { gaveUp with fine := ?_ }
          obtain ⟨u, reached, seen⟩ := Front.of_peek t.trailingComma t.context t.needComma t.window
          exact Window.fine_of_given (reached.trans (Window.reaches_peek seen)).given gaveUp.fine

/-- Where the source can only come to its end, a call does what the reading does. -/
theorem Follows.next_of_ended (h : Follows input ending policy t r)
    (ended : ending.isEndOfInput = true) :
    GivesUp t.window t.next ∨ Agrees input ending policy t.next (r.next policy) := by
  refine h.next.imp_right fun does => ?_
  cases does with
  | agrees agrees => exact agrees
  | stops _ _ failed => exact absurd (failed.symm.trans ended) Bool.false_ne_true

end Tokenizer

end JsonEvents
