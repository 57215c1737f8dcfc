import JsonEvents.Proofs.Grammar.Longest
import JsonEvents.Proofs.Window.Recognized

/-!
# Numbers in a window

What a window takes for a number is a number of the grammar, whatever its supply
does (`Within.number`): also when reads bring nothing, or fail on the way.  With
the whole input in view it is the longest one (`number_of_whole`).
-/

namespace JsonEvents

open Ascii Grammar

namespace Window

variable {input : Bytes} {w : Window}

/-! ## Whatever the supply does -/

theorem Within.extendDigits (h : w.Within input) :
    ∃ s, AreDigits s ∧ Gains input w s w.extendDigits := by
  fun_induction Window.extendDigits w with
  | case1 w c v seen digit ih =>
      have first := Gains.take_one h seen (ne_zero_of_isDigit digit)
      obtain ⟨s, all, rest⟩ := ih first.within
      exact ⟨c :: s, List.forall_mem_cons.mpr ⟨digit, all⟩, first.trans rest⟩
  | case2 w c v seen => exact ⟨[], List.forall_mem_nil _, .of_peek h seen⟩

theorem Within.minusSign (h : w.Within input) :
    ∃ s, IsSign s ∧ Gains input w s w.minusSign := by
  rcases seen : w.peek 0 with ⟨c, v⟩
  simp only [Window.minusSign, seen]
  split
  · next isMinus =>
      subst isMinus
      exact ⟨_, .minus, .take_one h seen (by decide)⟩
  · exact ⟨[], .none, .of_peek h seen⟩

theorem Within.integerPart (h : w.Within input) (found : w.integerPart.1 = true) :
    ∃ s, IsInteger s ∧ Gains input w s w.integerPart.2 := by
  rcases seen : w.peek 0 with ⟨c, v⟩
  simp only [Window.integerPart, seen] at found ⊢
  split at found
  · next isZero =>
      subst isZero
      rw [if_pos rfl]
      exact ⟨_, .zero, .take_one h seen (by decide)⟩
  · next notZero =>
      split at found
      · next leading =>
          rw [if_neg notZero, if_pos leading]
          have first := Gains.take_one h seen (ne_zero_of_one_le leading.1)
          obtain ⟨s, all, rest⟩ := first.within.extendDigits
          exact ⟨c :: s, .digits leading all, first.trans rest⟩
      · cases found

theorem Within.fractionPart (h : w.Within input) :
    ∃ s, IsFraction s ∧ Gains input w s w.fractionPart.2 := by
  rcases seen : w.peek 0 with ⟨c, v⟩
  rcases seen' : v.peek 1 with ⟨d, u⟩
  have looked := Gains.of_peek h seen
  simp only [Window.fractionPart, seen, seen']
  split
  · next isPoint =>
      split
      · next digit =>
          subst isPoint
          have some := ne_zero_of_isDigit digit
          have second := looked.within.byte seen' some
          rw [looked.cursor] at second
          have text := Gains.text_cons (h.byte seen (by decide))
            (Gains.text_cons second List.nil_prefix)
          have first := looked.take seen' some rfl text
          obtain ⟨s, all, rest⟩ := first.within.extendDigits
          exact ⟨_, .digits digit all, first.trans rest⟩
      · exact ⟨[], .none, looked.trans (.of_peek looked.within seen')⟩
  · exact ⟨[], .none, looked⟩

theorem Within.exponentPart (h : w.Within input) :
    ∃ s, IsExponent s ∧ Gains input w s w.exponentPart := by
  rcases seen : w.peek 0 with ⟨c, v⟩
  rcases seen' : v.peek 1 with ⟨sign, u⟩
  rcases seen'' : u.peek (exponentLead sign) with ⟨d, x⟩
  have looked := Gains.of_peek h seen
  have looked' := looked.trans (.of_peek looked.within seen')
  simp only [Window.exponentPart, seen, seen', seen'']
  split
  · next mark =>
      split
      · next digit =>
          have some := ne_zero_of_isDigit digit
          have first := h.byte seen (ne_zero_of_isExponentMark mark)
          have last := looked'.within.byte seen'' some
          rw [looked'.cursor] at last
          by_cases signed : isSign sign = true
          · have second := looked.within.byte seen' (ne_zero_of_isSign signed)
            have lead : exponentLead sign = 2 := if_pos signed
            rw [looked.cursor] at second
            rw [lead] at last seen'' ⊢
            have text := Gains.text_cons first
              (Gains.text_cons second (Gains.text_cons last List.nil_prefix))
            have front := looked'.take seen'' some rfl text
            obtain ⟨s, all, rest⟩ := front.within.extendDigits
            exact ⟨_, .signed mark signed digit all, front.trans rest⟩
          · have lead : exponentLead sign = 1 := if_neg signed
            rw [lead] at last seen'' ⊢
            have text := Gains.text_cons first (Gains.text_cons last List.nil_prefix)
            have front := looked'.take seen'' some rfl text
            obtain ⟨s, all, rest⟩ := front.within.extendDigits
            exact ⟨_, .digits mark digit all, front.trans rest⟩
      · exact ⟨[], .none, looked'.trans (.of_peek looked'.within seen'')⟩
  · exact ⟨[], .none, looked⟩

theorem Within.numberTail (h : w.Within input) :
    ∃ f e, IsFraction f ∧ IsExponent e ∧ Gains input w (f ++ e) w.numberTail := by
  obtain ⟨f, fraction, front⟩ := h.fractionPart
  unfold Window.numberTail
  split
  · obtain ⟨e, exponent, rest⟩ := front.within.exponentPart
    exact ⟨f, e, fraction, exponent, front.trans rest⟩
  · exact ⟨f, [], fraction, .none, by rwa [List.append_nil]⟩

/-- What is taken for a number is one. -/
theorem Within.number (h : w.Within input) (found : w.number.1 = true) :
    ∃ s, IsNumber s ∧ Gains input w s w.number.2 := by
  obtain ⟨m, sign, first⟩ := h.minusSign
  cases isInteger : w.minusSign.integerPart.1 with
  | true =>
      obtain ⟨i, integer, second⟩ := first.within.integerPart isInteger
      obtain ⟨f, e, fraction, exponent, rest⟩ := second.within.numberTail
      have number : w.number.2 = w.minusSign.integerPart.2.numberTail := by
        rw [number_eq, if_pos isInteger]
      rw [number]
      exact ⟨_, .parts sign integer fraction exponent, first.trans (second.trans rest)⟩
  | false =>
      rw [number_eq, isInteger] at found
      cases found

/-- The lexeme of a number that was looked for at the beginning of a lexeme. -/
theorem Within.lexeme_number (h : w.Within input) (first : w.len = 0)
    (found : w.number.1 = true) : IsNumber w.number.2.lexeme := by
  obtain ⟨s, number, gains⟩ := h.number found
  rw [gains.lexeme_eq first]
  exact number

/-! ## The longest number of the input -/

/-- With the whole input in view the lexeme is extended by the longest number behind it, and
stays as it was when there is none. -/
theorem number_of_whole (whole : w.supply = .nothing) (arrived : w.cursor ≤ w.fill) :
    (w.number.1 = true → ∃ t, IsLongestNumber w.rest t ∧
      w.number.2.toSegment = w.toSegment.extend t.length) ∧
    (w.number.1 = false → (∀ t, t <+: w.rest → ¬ IsNumber t) ∧
      w.number.2.toSegment = w.toSegment) := by
  have fits : ¬ w.number.2.Overflows := by
    have given : w.given = .endOfInput := by rw [Window.given, whole]
    have same := (reaches_number w).given (by rw [given]; rfl)
    rw [Overflows, same, given]
    decide
  obtain ⟨found, covers⟩ := (shows_of_whole whole arrived).number fits
  obtain ⟨bytes, base⟩ := (along_number w).whole whole
  rw [drop_cursor] at found covers
  cases scanned : Scan.number? w.rest with
  | some n =>
      rw [scanned] at found covers
      have longest := Scan.isLongestNumber_take scanned
      have size : (w.rest.take n).length = n := by
        rw [List.length_take, Nat.min_eq_left (Scan.number?_bounds scanned).2]
      refine ⟨fun _ => ⟨w.rest.take n, longest, ?_⟩, ?_⟩
      · have cursor := covers.cursor.trans (cursor_extend w n).symm
        rw [size]
        exact eq_of_places bytes base covers.offset cursor
      · exact fun lost => absurd (lost.symm.trans found) Bool.false_ne_true
  | none =>
      rw [scanned] at found covers
      refine ⟨fun taken => absurd (found.symm.trans taken) Bool.false_ne_true, fun _ => ⟨?_, ?_⟩⟩
      · exact Scan.not_isNumber_of_number? scanned
      · exact eq_of_places bytes base covers.offset covers.cursor

end Window

end JsonEvents
