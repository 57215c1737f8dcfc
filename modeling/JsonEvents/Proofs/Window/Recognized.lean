import JsonEvents.Proofs.Scan
import JsonEvents.Proofs.Window.Within

/-!
# What the recognizers find

On a window that shows an input and does not overflow, each recognizer covers
as many bytes as the scan of the rest of the input counts.
-/

namespace JsonEvents.Window

open Ascii

variable {input : Bytes} {ending : Status} {u v w : Window}

theorem Sees.byte_eq {i : Nat} {c : UInt8} (h : Sees input ending w v i c) :
    c = Scan.byte (input.drop w.cursor) i := by
  rw [h.byte, Scan.byte, List.getElem?_drop]

/-- At the first byte of a lexeme nothing overflows. -/
theorem Shows.fits_first {c : UInt8} (h : w.Shows input ending) (first : w.len = 0)
    (seen : w.peek 0 = (c, v)) (fits : ¬ w.Overflows) : ¬ v.Overflows := by
  intro spilled
  have behind := (h.overflow seen fits spilled).2.2
  omega

/-- A look keeps an empty lexeme empty. -/
theorem len_of_peek {i : Nat} {c : UInt8} (seen : w.peek i = (c, v)) : v.len = w.len := by
  have len := len_peek w i
  rw [seen] at len
  exact len

/-- Skipping over white space overflows nothing, as each byte is a lexeme of its own. -/
theorem Shows.skipSpace (h : w.Shows input ending) (first : w.len = 0) (fits : ¬ w.Overflows) :
    w.skipSpace.Shows input ending ∧
      w.skipSpace.cursor = w.cursor + Scan.blanks (input.drop w.cursor) ∧
      w.skipSpace.len = 0 ∧ ¬ w.skipSpace.Overflows := by
  fun_induction Window.skipSpace w with
  | case1 w c v seen blank ih =>
      have fits' := h.fits_first first seen fits
      have byte := (h.sees seen fits').2.byte_eq
      have taken := h.take seen fits' (ne_zero_of_isSpace blank) (Nat.le_refl 1)
      have cursor := (cursor_skip taken.shows.arrived).trans taken.cursor
      obtain ⟨shows, moved, len, fits⟩ := ih taken.shows.skip rfl fits'
      refine ⟨shows, ?_, len, fits⟩
      rw [byte] at blank
      rw [moved, cursor, Scan.blanks, Scan.blanks, Scan.run_of_byte rfl blank, List.drop_drop]
      omega
  | case2 w c v seen dark =>
      have fits' := h.fits_first first seen fits
      obtain ⟨looked, sees⟩ := h.sees seen fits'
      refine ⟨looked.shows, ?_, (len_of_peek seen).trans first, fits'⟩
      rw [sees.byte_eq] at dark
      rw [looked.cursor, Scan.blanks, Scan.run_of_not_byte (by simpa using dark)]

/-- Taking bytes one by one as long as they have a property covers the run of them. -/
theorem Shows.extendSpace (h : w.Shows input ending) (fits : ¬ w.extendSpace.Overflows) :
    Covers input ending w w.extendSpace (Scan.blanks (input.drop w.cursor)) := by
  fun_induction Window.extendSpace w with
  | case1 w c v seen blank ih =>
      have hc := ne_zero_of_isSpace blank
      have fits' : ¬ v.Overflows := (reaches_extendSpace (v.extend 1)).fits fits
      have byte := (h.sees seen fits').2.byte_eq
      have taken := h.take seen fits' hc (Nat.le_refl 1)
      have rest := ih taken.shows fits
      rw [byte] at blank
      rw [Scan.blanks, Scan.run_of_byte rfl blank, List.drop_drop, Nat.add_comm (Scan.run _ _),
        ← taken.cursor]
      exact taken.trans rest
  | case2 w c v seen dark =>
      obtain ⟨looked, sees⟩ := h.sees seen fits
      rw [sees.byte_eq] at dark
      rw [Scan.blanks, Scan.run_of_not_byte (by simpa using dark)]
      exact looked

theorem Shows.extendDigits (h : w.Shows input ending) (fits : ¬ w.extendDigits.Overflows) :
    Covers input ending w w.extendDigits (Scan.digits (input.drop w.cursor)) := by
  fun_induction Window.extendDigits w with
  | case1 w c v seen digit ih =>
      have hc := ne_zero_of_isDigit digit
      have fits' : ¬ v.Overflows := (reaches_extendDigits (v.extend 1)).fits fits
      have byte := (h.sees seen fits').2.byte_eq
      have taken := h.take seen fits' hc (Nat.le_refl 1)
      have rest := ih taken.shows fits
      rw [byte] at digit
      rw [Scan.digits, Scan.run_of_byte rfl digit, List.drop_drop, Nat.add_comm (Scan.run _ _),
        ← taken.cursor]
      exact taken.trans rest
  | case2 w c v seen other =>
      obtain ⟨looked, sees⟩ := h.sees seen fits
      rw [sees.byte_eq] at other
      rw [Scan.digits, Scan.run_of_not_byte (by simpa using other)]
      exact looked

/-- The byte at a place of the rest, when the window has gone on over `n` bytes. -/
theorem Covers.rest {n : Nat} (h : Covers input ending w v n) :
    input.drop v.cursor = (input.drop w.cursor).drop n := by
  rw [List.drop_drop, h.cursor]

theorem Shows.minusSign (h : w.Shows input ending) (fits : ¬ w.minusSign.Overflows) :
    Covers input ending w w.minusSign (Scan.sign (input.drop w.cursor)) := by
  rcases seen : w.peek 0 with ⟨c, v⟩
  simp only [Window.minusSign, seen] at fits ⊢
  by_cases isMinus : c = minus
  · rw [if_pos isMinus] at fits ⊢
    obtain ⟨_, sees⟩ := h.sees seen fits
    rw [Scan.sign, ← sees.byte_eq, if_pos isMinus]
    exact h.take seen fits (by rw [isMinus]; decide) (Nat.le_refl 1)
  · rw [if_neg isMinus] at fits ⊢
    obtain ⟨looked, sees⟩ := h.sees seen fits
    rw [Scan.sign, ← sees.byte_eq, if_neg isMinus]
    exact looked

/-- Digits that a window takes behind bytes it has covered. -/
theorem Covers.extendDigits {n : Nat} (h : Covers input ending w v n)
    (fits : ¬ v.extendDigits.Overflows) :
    Covers input ending w v.extendDigits (n + Scan.digits ((input.drop w.cursor).drop n)) := by
  have rest := h.shows.extendDigits fits
  rw [h.rest] at rest
  exact h.trans rest

theorem Shows.integerPart (h : w.Shows input ending) (fits : ¬ w.integerPart.2.Overflows) :
    w.integerPart.1 = (Scan.integer? (input.drop w.cursor)).isSome ∧
      Covers input ending w w.integerPart.2 ((Scan.integer? (input.drop w.cursor)).getD 0) := by
  rcases seen : w.peek 0 with ⟨c, v⟩
  simp only [Window.integerPart, seen] at fits ⊢
  by_cases isZero : c = zero
  · simp only [if_pos isZero] at fits ⊢
    obtain ⟨_, sees⟩ := h.sees seen fits
    rw [Scan.integer?, ← sees.byte_eq, if_pos isZero]
    exact ⟨rfl, h.take seen fits (by rw [isZero]; decide) (Nat.le_refl 1)⟩
  · simp only [if_neg isZero] at fits ⊢
    by_cases digit : one ≤ c ∧ c ≤ nine
    · simp only [if_pos digit] at fits ⊢
      have fits' : ¬ v.Overflows := (reaches_extendDigits (v.extend 1)).fits fits
      obtain ⟨_, sees⟩ := h.sees seen fits'
      rw [Scan.integer?, ← sees.byte_eq, if_neg isZero, if_pos digit]
      have taken := h.take seen fits' (ne_zero_of_one_le digit.1) (Nat.le_refl 1)
      exact ⟨rfl, taken.extendDigits fits⟩
    · simp only [if_neg digit] at fits ⊢
      obtain ⟨looked, sees⟩ := h.sees seen fits
      rw [Scan.integer?, ← sees.byte_eq, if_neg isZero, if_neg digit]
      exact ⟨rfl, looked⟩

/-- A look behind another one at the same place sees the same input. -/
theorem Covers.sees {i : Nat} {d : UInt8} (h : Covers input ending w u 0)
    (seen : u.peek i = (d, v)) (fits : ¬ v.Overflows) :
    Covers input ending w v 0 ∧ d = Scan.byte (input.drop w.cursor) i := by
  obtain ⟨looked, sees⟩ := h.shows.sees seen fits
  have byte := sees.byte_eq
  rw [h.rest, List.drop_zero] at byte
  exact ⟨h.trans looked, byte⟩

/-- Bytes up to one that was seen behind another look can be taken. -/
theorem Covers.take {i n : Nat} {d : UInt8} (h : Covers input ending w u 0)
    (seen : u.peek i = (d, v)) (fits : ¬ v.Overflows) (hd : d ≠ 0) (hn : n ≤ i + 1) :
    Covers input ending w (v.extend n) n := by
  have taken := h.trans (h.shows.take seen fits hd hn)
  rwa [Nat.zero_add] at taken

theorem Shows.fractionPart (h : w.Shows input ending) (fits : ¬ w.fractionPart.2.Overflows) :
    w.fractionPart.1 = (Scan.fraction (input.drop w.cursor)).1 ∧
      Covers input ending w w.fractionPart.2 (Scan.fraction (input.drop w.cursor)).2 := by
  rcases seen : w.peek 0 with ⟨c, v⟩
  rcases seen' : v.peek 1 with ⟨d, u⟩
  simp only [Window.fractionPart, seen, seen'] at fits ⊢
  by_cases isPoint : c = point
  · simp only [if_pos isPoint] at fits ⊢
    have fits' : ¬ u.Overflows := by
      split at fits
      · exact (reaches_extendDigits (u.extend 2)).fits fits
      · exact fits
    obtain ⟨looked, sees⟩ := h.sees seen ((reaches_peek seen').fits fits')
    obtain ⟨looked', byte⟩ := looked.sees seen' fits'
    rw [Scan.fraction, ← sees.byte_eq, ← byte, if_pos isPoint]
    by_cases digit : isDigit d = true
    · simp only [if_pos digit] at fits ⊢
      have taken := looked.take seen' fits' (ne_zero_of_isDigit digit) (Nat.le_refl 2)
      exact ⟨trivial, taken.extendDigits fits⟩
    · simp only [if_neg digit] at fits ⊢
      exact ⟨trivial, looked'⟩
  · simp only [if_neg isPoint] at fits ⊢
    obtain ⟨looked, sees⟩ := h.sees seen fits
    rw [Scan.fraction, ← sees.byte_eq, if_neg isPoint]
    exact ⟨rfl, looked⟩

theorem Shows.exponentPart (h : w.Shows input ending) (fits : ¬ w.exponentPart.Overflows) :
    Covers input ending w w.exponentPart (Scan.exponent (input.drop w.cursor)) := by
  rcases seen : w.peek 0 with ⟨c, v⟩
  rcases seen' : v.peek 1 with ⟨sign, u⟩
  rcases seen'' : u.peek (exponentLead sign) with ⟨d, t⟩
  simp only [Window.exponentPart, seen, seen', seen''] at fits ⊢
  by_cases isMark : isExponentMark c = true
  · simp only [if_pos isMark] at fits ⊢
    have fits' : ¬ t.Overflows := by
      split at fits
      · exact (reaches_extendDigits (t.extend (exponentLead sign + 1))).fits fits
      · exact fits
    have fits'' := (reaches_peek seen'').fits fits'
    obtain ⟨looked, sees⟩ := h.sees seen ((reaches_peek seen').fits fits'')
    obtain ⟨looked', byte⟩ := looked.sees seen' fits''
    obtain ⟨looked'', byte'⟩ := looked'.sees seen'' fits'
    rw [Scan.exponent, ← sees.byte_eq, ← byte, if_pos isMark]
    dsimp only
    rw [← byte']
    by_cases digit : isDigit d = true
    · simp only [if_pos digit] at fits ⊢
      have taken := looked'.take seen'' fits' (ne_zero_of_isDigit digit) (Nat.le_refl _)
      exact taken.extendDigits fits
    · simp only [if_neg digit] at fits ⊢
      exact looked''
  · simp only [if_neg isMark] at fits ⊢
    obtain ⟨looked, sees⟩ := h.sees seen fits
    rw [Scan.exponent, ← sees.byte_eq, if_neg isMark]
    exact looked

theorem Shows.numberTail (h : w.Shows input ending) (fits : ¬ w.numberTail.Overflows) :
    Covers input ending w w.numberTail (Scan.tail (input.drop w.cursor)) := by
  unfold Window.numberTail at fits ⊢
  unfold Scan.tail
  by_cases goesOn : w.fractionPart.1 = true
  · rw [if_pos goesOn] at fits ⊢
    obtain ⟨same, fraction⟩ := h.fractionPart ((reaches_exponentPart _).fits fits)
    have exponent := fraction.shows.exponentPart fits
    rw [fraction.rest] at exponent
    simp only [← same, if_pos goesOn]
    exact fraction.trans exponent
  · rw [if_neg goesOn] at fits ⊢
    obtain ⟨same, fraction⟩ := h.fractionPart fits
    simp only [← same, if_neg goesOn]
    exact fraction

/-- Bytes that were taken can be given back. -/
theorem Covers.rewind {n : Nat} (h : Covers input ending w v n) :
    Covers input ending w (v.setLen w.len) 0 := by
  have cursor := h.cursor
  have offset := h.offset
  have shorter : w.len ≤ v.len := by
    simp only [Segment.cursor, Segment.offset] at cursor offset
    omega
  refine ⟨h.shows.setLen shorter, ?_, h.offset⟩
  simp only [Segment.cursor, Segment.offset, setLen, Segment.setLen] at *
  omega

theorem overflows_setLen (w : Window) (n : Nat) : (w.setLen n).Overflows ↔ w.Overflows := Iff.rfl

theorem Shows.number (h : w.Shows input ending) (fits : ¬ w.number.2.Overflows) :
    w.number.1 = (Scan.number? (input.drop w.cursor)).isSome ∧
      Covers input ending w w.number.2 ((Scan.number? (input.drop w.cursor)).getD 0) := by
  rw [number_eq] at fits ⊢
  by_cases found : w.minusSign.integerPart.1 = true
  · simp only [if_pos found] at fits ⊢
    have fits' := (reaches_numberTail _).fits fits
    have minus := h.minusSign ((reaches_integerPart _).fits fits')
    obtain ⟨same, integer⟩ := minus.shows.integerPart fits'
    rw [minus.rest] at same integer
    have tail := integer.shows.numberTail fits
    have front := minus.trans integer
    rw [front.rest] at tail
    obtain ⟨n, value⟩ := Option.isSome_iff_exists.mp (same ▸ found)
    rw [value] at front tail
    rw [Scan.number?, value]
    exact ⟨rfl, front.trans tail⟩
  · simp only [if_neg found] at fits ⊢
    rw [overflows_setLen] at fits
    have minus := h.minusSign ((reaches_integerPart _).fits fits)
    obtain ⟨same, integer⟩ := minus.shows.integerPart fits
    rw [minus.rest] at same integer
    have none := Option.not_isSome_iff_eq_none.mp (same ▸ found)
    rw [Scan.number?, none]
    exact ⟨rfl, (minus.trans integer).rewind⟩

/-! ## Literals -/

theorem Shows.spells {i : Nat} {word : Bytes} (h : w.Shows input ending)
    (letters : ∀ c ∈ word, c ≠ 0) (fits : ¬ (w.spells i word).2.Overflows) :
    (w.spells i word).1 = word.isPrefixOf ((input.drop w.cursor).drop i) ∧
      Covers input ending w (w.spells i word).2 0 := by
  induction word generalizing w i with
  | nil => exact ⟨rfl, h.covers⟩
  | cons c rest ih =>
      rcases seen : w.peek i with ⟨d, v⟩
      rw [spells_cons, seen] at fits ⊢
      have hc := letters c List.mem_cons_self
      by_cases same : d = c
      · simp only [if_pos same] at fits ⊢
        obtain ⟨looked, sees⟩ := h.sees seen ((reaches_spells _ _ _).fits fits)
        have here := Scan.getElem?_of_byte (sees.byte_eq.symm.trans same) hc
        obtain ⟨spelt, covers⟩ := ih looked.shows
          (fun x member => letters x (List.mem_cons_of_mem _ member)) fits
        refine ⟨?_, looked.trans covers⟩
        obtain ⟨place, value⟩ := List.getElem?_eq_some_iff.mp here
        rw [spelt, looked.rest, List.drop_zero, List.drop_eq_getElem_cons place, value]
        simp
      · simp only [if_neg same] at fits ⊢
        obtain ⟨looked, sees⟩ := h.sees seen fits
        have byte := sees.byte_eq
        refine ⟨?_, looked⟩
        cases behind : (input.drop w.cursor).drop i with
        | nil => rfl
        | cons e tail =>
            have here : Scan.byte (input.drop w.cursor) i = e := by
              have := Scan.byte_drop (input.drop w.cursor) i 0
              rw [behind, Scan.byte_cons] at this
              exact this.symm
            have other : (c == e) = false := by
              simp only [beq_eq_false_iff_ne, ne_eq]
              rintro rfl
              exact same (byte.trans here)
            simp [List.isPrefixOf, other]

theorem Shows.oneOf {words : List Bytes} (h : w.Shows input ending)
    (letters : ∀ word ∈ words, word ≠ [] ∧ ∀ c ∈ word, c ≠ 0)
    (fits : ¬ (w.oneOf words).2.Overflows) :
    (w.oneOf words).1 = (Scan.oneOf? (input.drop w.cursor) words).isSome ∧
      Covers input ending w (w.oneOf words).2
        ((Scan.oneOf? (input.drop w.cursor) words).getD 0) := by
  induction words generalizing w with
  | nil => exact ⟨rfl, h.covers⟩
  | cons word rest ih =>
      obtain ⟨some, here⟩ := letters word List.mem_cons_self
      have others := fun x hx => letters x (List.mem_cons_of_mem word hx)
      rw [oneOf_cons] at fits ⊢
      by_cases found : (w.spells 0 word).1 = true
      · simp only [if_pos found] at fits ⊢
        obtain ⟨spelt, covers⟩ := h.spells (i := 0) here fits
        rw [List.drop_zero, found] at spelt
        have took := (spells_takes w 0 word here found some).arrived
        rw [Nat.zero_add, cursor_extend, fill_extend] at took
        have taken := covers.trans (covers.shows.extend took)
        rw [Nat.zero_add] at taken
        rw [Scan.oneOf?, ← spelt, if_pos rfl]
        exact ⟨rfl, taken⟩
      · simp only [if_neg found] at fits ⊢
        have fits' := (reaches_oneOf _ rest others).fits fits
        obtain ⟨spelt, covers⟩ := h.spells (i := 0) here fits'
        rw [List.drop_zero] at spelt
        obtain ⟨same, rest⟩ := ih covers.shows others fits
        rw [covers.rest, List.drop_zero] at same rest
        have whole := covers.trans rest
        rw [Nat.zero_add] at whole
        rw [Scan.oneOf?, ← spelt, if_neg found]
        exact ⟨same, whole⟩

theorem Shows.literal (h : w.Shows input ending) (fits : ¬ w.literal.2.Overflows) :
    w.literal.1 = (Scan.literal? (input.drop w.cursor)).isSome ∧
      Covers input ending w w.literal.2 ((Scan.literal? (input.drop w.cursor)).getD 0) :=
  h.oneOf literals_letters fits

/-! ## Strings -/

theorem trailingBackslashes_congr {s t : Segment} {n : Nat}
    (same : ∀ k < n, s.bytes[s.start + (k + 1)]? = t.bytes[t.start + (k + 1)]?) :
    s.trailingBackslashes n = t.trailingBackslashes n := by
  induction n with
  | zero => rfl
  | succ n ih =>
      have here : s.bytes[s.start + n + 1]? = t.bytes[t.start + n + 1]? :=
        same n (Nat.lt_succ_self n)
      rw [Segment.trailingBackslashes, Segment.trailingBackslashes, here,
        ih fun k hk => same k (Nat.lt_succ_of_lt hk)]

/-- Whether a quote is escaped is a matter of the lexeme, not of how it is held. -/
theorem Within.escapesQuote_peek {c : UInt8} (h : w.Within input) (seen : w.peek 0 = (c, v)) :
    v.escapesQuote = w.escapesQuote := by
  have looked := Gains.of_peek h seen
  have arrived := h.arrived
  have arrived' := looked.within.arrived
  have len := len_of_peek seen
  unfold Segment.escapesQuote
  rw [len, trailingBackslashes_congr]
  intro k hk
  simp only [Segment.cursor, Segment.fill] at arrived arrived'
  rw [h.holds.byte (by omega), looked.within.holds.byte (by omega), looked.offset]

/-- The byte behind a backslash is escaped, unless the backslash is. -/
theorem escapesQuote_extend {c : UInt8} (opened : 0 < w.len) (here : w.at? 0 = some c) :
    (w.extend 1).escapesQuote = (c == backslash && !w.escapesQuote) := by
  obtain ⟨n, len⟩ : ∃ n, w.len = n + 1 := ⟨w.len - 1, by omega⟩
  have here : w.bytes[w.start + n + 1]? = some c := by
    rw [← here, Segment.at?, len]
    rfl
  have longer : (w.extend 1).len - 1 = n + 1 := by
    simp only [extend, Segment.extend, Segment.setLen, len]
    omega
  have kept : (w.extend 1).trailingBackslashes (n + 1) = w.trailingBackslashes (n + 1) :=
    trailingBackslashes_congr fun _ _ => rfl
  unfold Segment.escapesQuote
  rw [longer, kept, Segment.trailingBackslashes, here, len, Nat.add_sub_cancel]
  by_cases same : c = backslash
  · rw [same, if_pos rfl, beq_self_eq_true]
    rcases Nat.mod_two_eq_zero_or_one (w.trailingBackslashes n) with even | odd
    · simp [Nat.add_mod, even]
    · simp [Nat.add_mod, odd]
  · have other : ¬ (some c = some backslash) := fun eq => same (Option.some.inj eq)
    rw [if_neg other, beq_eq_false_iff_ne.mpr same]
    rfl

/-- Where a byte other than NUL is shown, nothing overflows. -/
theorem Shows.fits_byte {i : Nat} {c : UInt8} (h : w.Shows input ending) (seen : w.peek i = (c, v))
    (fits : ¬ w.Overflows) (hc : c ≠ 0) : ¬ v.Overflows :=
  fun spilled => hc (h.overflow seen fits spilled).1

/-- What is so of a string once another byte of it was taken. -/
structure Continues (input : Bytes) (w v : Window) (c : UInt8) : Prop where
  gains : Gains input w [c] v
  opened : 0 < v.len
  rest : input.drop w.cursor = c :: input.drop v.cursor
  escapes : v.escapesQuote = (c == backslash && !w.escapesQuote)

theorem Within.continues {c : UInt8} (h : w.Within input) (opened : 0 < w.len)
    (seen : w.peek 0 = (c, v)) (some : c ≠ 0) : Continues input w (v.extend 1) c := by
  have shown : (w.peek 0).1 ≠ 0 := by rwa [seen]
  have here := peek_arrived shown
  have len := len_of_peek seen
  have gains := Gains.take_one h seen some
  rw [seen] at here
  refine ⟨gains, Nat.succ_pos _, ?_, ?_⟩
  · have byte := h.byte seen some
    rw [Nat.add_zero] at byte
    obtain ⟨inside, rfl⟩ := List.getElem?_eq_some_iff.mp byte
    rw [gains.cursor]
    exact List.drop_eq_getElem_cons inside
  · rw [escapesQuote_extend (len ▸ opened) here, h.escapesQuote_peek seen]

/-- Besides, the byte fits. -/
structure GoesOn (input : Bytes) (ending : Status) (w v : Window) (c : UInt8) : Prop
    extends Continues input w v c where
  covers : Covers input ending w v 1

theorem Shows.goesOn {c : UInt8} (h : w.Shows input ending) (opened : 0 < w.len)
    (seen : w.peek 0 = (c, v)) (fits : ¬ v.Overflows) (hc : c ≠ 0) :
    GoesOn input ending w (v.extend 1) c where
  toContinues := h.within.continues opened seen hc
  covers := h.take seen fits hc (Nat.le_refl 1)

/--
Counting the backslashes before a quote and escaping byte by byte find the same
end of a string.
-/
theorem Shows.stringRest (h : w.Shows input ending) (opened : 0 < w.len)
    (fits : ¬ w.stringRest.2.Overflows) :
    w.stringRest.1 = (Scan.stringRest w.escapesQuote (input.drop w.cursor)).1 ∧
      Covers input ending w w.stringRest.2
        (Scan.stringRest w.escapesQuote (input.drop w.cursor)).2 := by
  fun_induction Window.stringRest w with
  | case1 w v escaped seen ih =>
      have fits' : ¬ v.Overflows := (reaches_stringRest (v.extend 1)).fits fits
      have step := h.goesOn opened seen fits' (by decide)
      have same := (h.within.escapesQuote_peek seen).symm.trans escaped
      obtain ⟨closed, rest⟩ := ih step.covers.shows step.opened fits
      rw [step.escapes] at closed rest
      rw [step.rest, Scan.stringRest_cons _ (by decide) (by simp [same]), Nat.add_comm]
      exact ⟨closed, step.covers.trans rest⟩
  | case2 w v plain seen =>
      have step := h.goesOn opened seen fits (by decide)
      have same := (h.within.escapesQuote_peek seen).symm.trans (by simpa using plain)
      rw [step.rest, same, Scan.stringRest_of_close]
      exact ⟨rfl, step.covers⟩
  | case3 w v seen =>
      obtain ⟨looked, sees⟩ := h.sees seen fits
      have byte := sees.byte_eq
      cases rest : input.drop w.cursor with
      | nil => exact ⟨rfl, looked⟩
      | cons d behind =>
          rw [rest, Scan.byte_cons] at byte
          rw [← byte, Scan.stringRest_of_nul]
          exact ⟨rfl, looked⟩
  | case4 w c v seen notQuote notNul ih =>
      have fits' : ¬ v.Overflows := (reaches_stringRest (v.extend 1)).fits fits
      have step := h.goesOn opened seen fits' notNul
      obtain ⟨closed, rest⟩ := ih step.covers.shows step.opened fits
      rw [step.escapes] at closed rest
      rw [step.rest, Scan.stringRest_cons _ notNul fun same => notQuote same.1, Nat.add_comm]
      exact ⟨closed, step.covers.trans rest⟩

/-- A string that was cut short is so by a decided NUL or end. -/
theorem Shows.decided_stringRest (h : w.Shows input ending) (opened : 0 < w.len)
    (fits : ¬ w.stringRest.2.Overflows) (lost : w.stringRest.1 = false) :
    IsDecided input ending w.stringRest.2 := by
  fun_induction Window.stringRest w with
  | case1 w v escaped seen ih =>
      have step := h.goesOn opened seen ((reaches_stringRest (v.extend 1)).fits fits) (by decide)
      exact ih step.covers.shows step.opened fits lost
  | case2 => cases lost
  | case3 w v seen =>
      obtain ⟨looked, sees⟩ := h.sees seen fits
      exact sees.decided looked.cursor
  | case4 w c v seen notQuote notNul ih =>
      have step := h.goesOn opened seen ((reaches_stringRest (v.extend 1)).fits fits) notNul
      exact ih step.covers.shows step.opened fits lost

/-- A string that is closed was seen to its end. -/
theorem Shows.fits_stringRest (h : w.Shows input ending) (opened : 0 < w.len)
    (fits : ¬ w.Overflows) (closed : w.stringRest.1 = true) : ¬ w.stringRest.2.Overflows := by
  fun_induction Window.stringRest w with
  | case1 w v escaped seen ih =>
      have fits' := h.fits_byte seen fits (by decide)
      have step := h.goesOn opened seen fits' (by decide)
      exact ih step.covers.shows step.opened fits' closed
  | case2 w v plain seen =>
      have fits' : ¬ v.Overflows := h.fits_byte seen fits (by decide)
      exact fits'
  | case3 w v seen => cases closed
  | case4 w c v seen notQuote notNul ih =>
      have fits' := h.fits_byte seen fits notNul
      have step := h.goesOn opened seen fits' notNul
      exact ih step.covers.shows step.opened fits' closed

/-- White space after which a byte is shown was seen to its end. -/
theorem Shows.fits_extendSpace (h : w.Shows input ending) (fits : ¬ w.Overflows)
    (some : (w.extendSpace.peek 0).1 ≠ 0) : ¬ w.extendSpace.Overflows := by
  fun_induction Window.extendSpace w with
  | case1 w c v seen blank ih =>
      have hc := ne_zero_of_isSpace blank
      have fits' := h.fits_byte seen fits hc
      exact ih (h.take seen fits' hc (Nat.le_refl 1)).shows fits' some
  | case2 w c v seen dark =>
      intro spilled
      obtain ⟨_, lost, _⟩ := h.overflow seen fits spilled
      exact some (peek_of_overflow spilled lost)

end JsonEvents.Window
