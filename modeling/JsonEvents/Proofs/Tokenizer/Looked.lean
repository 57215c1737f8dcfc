import JsonEvents.Proofs.Reading.Looks
import JsonEvents.Proofs.Tokenizer.Calls
import JsonEvents.Proofs.Tokenizer.Follows
import JsonEvents.Proofs.Window.Watched

/-!
# How far a call looks

A call looks as far as the reading that it follows (`Follows.looked_next`),
counted from the first byte of the token: white space in front of a token does
not count.  So it is the bytes alone that tell which lexeme does not fit, and
when the source tells its end.
-/

namespace JsonEvents

open Ascii

namespace Window

variable {input : Bytes} {ending : Status} {start m n : Nat} {u v w : Window}

/-- From `w` to `v` the furthest look was at the last of `m` bytes from `start` on. -/
structure Looked (input : Bytes) (ending : Status) (start m : Nat) (w v : Window) : Prop where
  onward : w.Onward v
  reach : ¬ v.Overflows → v.reach = max w.reach m
  spills : ¬ w.Overflows → v.Overflows → ∀ top, w.supply.Tops top → top < m
  spent : ¬ v.Overflows → input.length < start + m → v.given = ending
  fresh : ¬ v.Overflows → w.supply.IsLate → w.given = .ok → start + m ≤ input.length → v.given = .ok

theorem Watches.looked (h : Watches input ending (start + m) w v) (offset : w.offset = start) :
    Looked input ending start m w v where
  onward := h.onward
  reach := by
    intro fits
    have := h.reach fits
    omega
  spills := by
    intro fits spilled top tops
    have := h.spills fits spilled top tops
    omega
  spent := h.spent
  fresh := h.fresh

/-- Beginning a new lexeme is no look. -/
theorem Looked.skip (h : Looked input ending start m w v) :
    Looked input ending start m w v.skip :=
  ⟨h.onward.trans (.moved rfl rfl), h.reach, h.spills, h.spent, h.fresh⟩

theorem Looked.extend (h : Looked input ending start m w v) (n : Nat) :
    Looked input ending start m w (v.extend n) :=
  ⟨h.onward.trans (.moved rfl rfl), h.reach, h.spills, h.spent, h.fresh⟩

/-- Looks before count only if they went as far, or told the end of the input. -/
theorem Looked.behind (h : Looked input ending start m w v) (onward : u.Onward w)
    (fits : ¬ w.Overflows) (less : w.reach ≤ max u.reach m)
    (fresh : u.supply.IsLate → u.given = .ok → start + m ≤ input.length → w.given = .ok) :
    Looked input ending start m u v where
  onward := onward.trans h.onward
  reach := by
    intro fits'
    have grows := onward.reach_le
    have reach := h.reach fits'
    omega
  spills := fun _ spilled top tops => h.spills fits spilled top (onward.tops tops)
  spent := h.spent
  fresh := fun fits late ok inside =>
    h.fresh fits (onward.late late) (fresh late ok inside) inside

end Window

namespace Tokenizer

open Window (Covers IsDecided Looked Watches)

variable {input : Bytes} {ending : Status} {policy : TrailingComma} {t : Tokenizer} {r : Reading}
  {start m : Nat} {v w : Window}

theorem window_refuseUnlessFailed (t : Tokenizer) (fault : Fault) :
    (t.refuseUnlessFailed fault).2.window = t.window := by
  unfold refuseUnlessFailed
  split <;> rfl

theorem window_noToken (t : Tokenizer) (c : UInt8) : (t.noToken c).2.window = t.window := by
  unfold noToken
  split
  · split
    · rfl
    · split <;> rfl
  · exact window_refuseUnlessFailed t _

theorem looked_emitScalar (h : Looked input ending start m w t.window) (kind : Kind) :
    Looked input ending start m w (t.emitScalar kind).2.window := by
  unfold emitScalar
  split
  · exact h
  · exact h.skip

/-- Where a tokenizer follows a reading its lexeme begins. -/
theorem Follows.offset_eq (h : Follows input ending policy t r) : t.window.offset = r.offset := by
  have cursor := h.offset
  have len := h.len
  simp only [Segment.cursor, Segment.offset] at *
  omega

theorem Follows.watches_string (h : Follows input ending policy t r)
    (arrived : t.window.cursor < t.window.fill) :
    Watches input ending (r.offset + Scan.stringLooks r.rest) t.window t.window.string.2 := by
  obtain ⟨quote, opened, plain⟩ := h.opened arrived
  have walked := (quote.shows.watches_stringRest opened).of_extend
  rw [plain, quote.rest, quote.cursor, h.offset, h.rest, Nat.add_assoc] at walked
  exact walked

/-- Behind a key the white space is looked at, and the byte behind it. -/
theorem Follows.watches_colon {n : Nat} {c : UInt8} (h : Follows input ending policy t r)
    (covers : Covers input ending t.window w n) (seen : w.extendSpace.peek 0 = (c, v)) :
    Watches input ending (r.offset + (n + (Scan.blanks (r.rest.drop n) + 1))) w v := by
  have space := covers.shows.watches_extendSpace
  rw [covers.rest, covers.cursor, h.offset, h.rest] at space
  by_cases spilled : w.extendSpace.Overflows
  · exact space.of_spilled spilled (.of_peek seen) (by omega)
  · have blanks := h.extendSpace covers spilled
    have walked := space.trans (.of_peek seen) (fun _ => blanks.shows.watches_peek seen)
      h.shows.failed
    rw [blanks.cursor, h.offset] at walked
    exact walked.cast (by omega)

theorem Follows.looked_nextKey (h : Follows input ending policy t r)
    (arrived : t.window.cursor < t.window.fill) :
    Looked input ending r.offset (Scan.keyLooks r.rest) t.window t.nextKey.2.window := by
  have watched := h.watches_string arrived
  have fits := h.fits_string arrived
  have scanned := h.string arrived
  rcases string : t.window.string with ⟨closed, w⟩
  rcases scan : Scan.string r.rest with ⟨closed', n⟩
  rw [string] at watched fits scanned
  rw [scan] at scanned
  have least : Scan.stringLooks r.rest ≤ Scan.keyLooks r.rest := by
    simp only [Scan.keyLooks, scan]
    omega
  cases closed with
  | false =>
      simp only [Tokenizer.nextKey, string, Bool.false_eq_true, if_false]
      rw [window_refuseUnlessFailed]
      dsimp only
      refine Watches.looked (watched.settle (by omega) fun fits => ?_) h.offset_eq
      obtain ⟨same, _⟩ := scanned fits
      obtain rfl : closed' = false := same.symm
      simp only [Scan.keyLooks, scan, Bool.false_eq_true, if_false]
      omega
  | true =>
      obtain ⟨same, covers⟩ := scanned (fits rfl)
      obtain rfl : closed' = true := same.symm
      rcases seen : w.extendSpace.peek 0 with ⟨c, v⟩
      have walked := watched.trans
        ((Window.reaches_extendSpace w).onward.trans (.of_peek seen))
        (fun _ => h.watches_colon covers seen) h.shows.failed
      have whole : Watches input ending (r.offset + Scan.keyLooks r.rest) t.window v := by
        refine walked.cast ?_
        simp only [Scan.keyLooks, scan, if_true]
        omega
      simp only [Tokenizer.nextKey, string, seen, if_true]
      split
      · exact ((whole.extend 1).looked h.offset_eq).skip
      · rw [window_refuseUnlessFailed]
        exact whole.looked h.offset_eq

theorem Follows.looked_nextString (h : Follows input ending policy t r)
    (arrived : t.window.cursor < t.window.fill) :
    Looked input ending r.offset (Scan.stringLooks r.rest) t.window t.nextString.2.window := by
  have looked := (h.watches_string arrived).looked h.offset_eq
  unfold Tokenizer.nextString
  dsimp only
  split
  · exact looked_emitScalar looked _
  · split
    · exact looked
    · split
      · exact looked.skip
      · exact looked

theorem Follows.looked_nextScalar (h : Follows input ending policy t r)
    (decided : IsDecided input ending t.window) :
    Looked input ending r.offset (Scan.scalarLooks r.rest) t.window
      (t.nextScalar r.byte).2.window := by
  unfold Tokenizer.nextScalar
  by_cases isQuote : r.byte = quote
  · have byte : Scan.byte r.rest 0 = quote := isQuote
    rw [if_pos isQuote, Scan.scalarLooks, if_pos byte]
    exact h.looked_nextString (h.arrived decided (by rw [isQuote]; decide))
  · have byte : ¬ Scan.byte r.rest 0 = quote := isQuote
    rw [if_neg isQuote, Scan.scalarLooks, if_neg byte]
    have number := h.shows.watches_number
    have scanned := h.shows.number
    have onward := (Window.reaches_literal t.window.number.2).onward
    rw [h.offset, h.rest] at number scanned
    rcases found : t.window.number with ⟨isNumber, w⟩
    rw [found] at number scanned onward
    rcases found' : w.literal with ⟨isLiteral, v⟩
    rw [found'] at onward
    simp only [found']
    cases isNumber with
    | true =>
        rw [if_pos rfl]
        refine looked_emitScalar (t := { t with window := w }) ?_ _
        refine Watches.looked (number.settle (by omega) fun fits => ?_) h.offset_eq
        obtain ⟨same, _⟩ := scanned fits
        rw [← same, if_pos rfl]
        omega
    | false =>
        have whole : Watches input ending (r.offset + max (Scan.numberLooks r.rest)
            (if (Scan.number? r.rest).isSome then 0 else Scan.literalLooks r.rest))
            t.window v := by
          by_cases spilled : w.Overflows
          · exact number.of_spilled spilled onward (by omega)
          · obtain ⟨same, covers⟩ := scanned spilled
            have none := Option.not_isSome_iff_eq_none.mp (by rw [← same]; nofun)
            rw [none, Option.getD_none] at covers
            have literal := covers.shows.watches_literal
            rw [covers.rest, covers.cursor, List.drop_zero, h.offset, h.rest, found'] at literal
            have walked := number.trans onward (fun _ => literal) h.shows.failed
            rw [none]
            refine walked.cast ?_
            simp only [Option.isSome_none, Bool.false_eq_true, if_false]
            omega
        have looked := whole.looked h.offset_eq
        rw [if_neg Bool.false_ne_true]
        cases isLiteral with
        | true => exact looked_emitScalar (t := { t with window := v }) looked _
        | false =>
            rw [if_neg Bool.false_ne_true, window_noToken]
            exact looked

theorem Follows.looked_perform (h : Follows input ending policy t r)
    (decided : IsDecided input ending t.window) (move : Move)
    (some : move ≠ .value → r.byte ≠ 0)
    (front : Looked input ending r.offset 1 w t.window) :
    Looked input ending r.offset (r.moveLooks move) w (t.perform r.byte move).2.window := by
  have behind {m : Nat} {v : Window} (least : 0 < m)
      (looked : Looked input ending r.offset m t.window v) :
      Looked input ending r.offset m w v := by
    have reach := front.reach h.fits
    refine looked.behind front.onward h.fits (by omega) fun late ok inside => ?_
    exact front.fresh h.fits late ok (by omega)
  cases move with
  | openObject | closeObject | openArray | closeArray => exact (front.extend 1).skip
  | refuse fault => exact front
  | key =>
      rw [Tokenizer.perform, Reading.moveLooks]
      exact behind (Scan.keyLooks_pos r.rest)
        (h.looked_nextKey (h.arrived decided (some (by decide))))
  | value =>
      rw [Tokenizer.perform, Reading.moveLooks]
      exact behind (Scan.scalarLooks_pos r.rest) (h.looked_nextScalar decided)

/-! ## Calls -/

theorem Follows.looked_skipSpace {c : UInt8} (h : Follows input ending policy t r)
    (seen : t.window.skipSpace.peek 0 = (c, v)) :
    Looked input ending r.skipBlanks.offset 1 t.window v := by
  have skipped := h.skipSpace
  have watched := skipped.shows.watches_peek seen
  rw [skipped.offset] at watched
  refine (watched.looked skipped.offset_eq).behind (Window.reaches_skipSpace t.window).onward
    skipped.fits (Nat.le_of_eq (Window.reach_skipSpace t.window h.len)) fun late ok inside => ?_
  refine h.shows.fresh_skipSpace h.len h.fits late ok ?_
  rw [skipped.offset]
  exact inside

theorem Follows.looked_front (h : Follows input ending policy t r) :
    Looked input ending (r.front policy).1.offset 1 t.window
      (Front.of t.trailingComma t.context t.needComma t.window).window := by
  have skipped := h.skipSpace
  rcases seen : t.window.skipSpace.peek 0 with ⟨c, v⟩
  have looked := h.looked_skipSpace seen
  obtain ⟨byte, follows, decided⟩ := skipped.peek seen
  have nesting : t.context = r.skipBlanks.nesting.top := congrArg Nesting.top h.nesting
  have needComma : t.needComma = r.skipBlanks.needComma := h.needComma
  unfold Front.of Reading.front
  rw [seen, h.policy, nesting, needComma]
  dsimp only
  by_cases isComma : c = comma
  · rw [if_pos isComma, if_pos (byte.symm.trans isComma)]
    by_cases stray : Front.isStray policy r.skipBlanks.nesting.top r.skipBlanks.needComma = true
    · rw [if_pos stray, if_pos stray]
      exact looked
    · rw [if_neg stray, if_neg stray]
      have arrived := follows.arrived decided (by rw [← byte, isComma]; decide)
      have behind := follows.skip (follows.shows.extend (n := 1) arrived) follows.fits
      rcases seen' : (v.extend 1).skip.skipSpace.peek 0 with ⟨d, u⟩
      refine (behind.looked_skipSpace seen').behind (looked.onward.trans (.moved rfl rfl))
        follows.fits (Nat.le_of_eq (looked.reach follows.fits)) fun late ok inside =>
        looked.fresh follows.fits late ok ?_
      have front : r.skipBlanks.offset + 1 ≤ (r.skipBlanks.advance 1).skipBlanks.offset :=
        Nat.le_add_right _ _
      omega
  · rw [if_neg isComma, if_neg fun same => isComma (byte.trans same)]
    exact looked

/-- A call looks as far as the reading does that it follows. -/
theorem Follows.looked_next (h : Follows input ending policy t r) (whole : r.cut = false) :
    Looked input ending (r.front policy).1.offset (r.looks policy) t.window t.next.2.window := by
  have latched : t.latched.isOk = true := by rw [h.latched, whole]; rfl
  have faces := h.front
  have looked := h.looked_front
  unfold Tokenizer.next Reading.looks
  rcases front : r.front policy with ⟨q, fault⟩
  rw [front] at faces looked
  simp only [latched, if_true]
  rw [faces.fault]
  cases fault with
  | some fault => exact looked
  | none =>
      have done := faces.follows.looked_perform faces.decided
        (Move.of q.nesting.top q.needComma q.byte) (fun token => ne_zero_of_move rfl token) looked
      change Looked _ _ _ _ _ (Tokenizer.perform _ _ (Move.of t.context _ _)).2.window
      rw [faces.move, faces.byte]
      exact done

end Tokenizer

end JsonEvents
