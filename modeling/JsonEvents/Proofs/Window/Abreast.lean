import JsonEvents.Proofs.Window.InStep

/-!
# Recognizers in step

Where the second of two windows in step looks no further than to the next pause
of the first, no look of a recognizer meets a pause, and the windows are in step
behind it (`Abreast.number`, `Abreast.literal`, `Abreast.string`).
-/

namespace JsonEvents.Window

open Ascii

variable {start far most i : Nat} {places : List Nat} {c c' : UInt8} {u u' v w : Window}

/-- The furthest look was near enough, unless it went beyond all that there can be room for. -/
def Near (far most : Nat) (w : Window) : Prop := min w.reach most ≤ far

theorem Onward.near (h : w.Onward v) (near : v.Near far most) : w.Near far most := by
  have grows := h.reach_le
  unfold Near at *
  omega

/-- Windows in step with no pause among the first `far` bytes from the lexeme's start on. -/
structure Abreast (start far most : Nat) (places : List Nat) (w u : Window) : Prop
    extends InStep places w u where
  offset : w.offset = start
  tops : u.supply.Tops most
  clear : ∀ place ∈ places, start + far ≤ place

namespace Abreast

theorem extend (h : Abreast start far most places w u) (n : Nat) :
    Abreast start far most places (w.extend n) (u.extend n) :=
  ⟨h.toInStep.extend n, h.offset, h.tops, h.clear⟩

theorem setLen (h : Abreast start far most places w u) (n : Nat) :
    Abreast start far most places (w.setLen n) (u.setLen n) :=
  ⟨h.toInStep.setLen n, h.offset, h.tops, h.clear⟩

theorem len (h : Abreast start far most places w u) : u.len = w.len :=
  congrArg Segment.len h.segment

/-- A look that is near enough meets no pause. -/
theorem peek (h : Abreast start far most places w u) (seen : w.peek i = (c, v))
    (seen' : u.peek i = (c', u')) (near : u'.Near far most) :
    c' = c ∧ Abreast start far most places v u' := by
  have reach := reach_peek u i
  have offset := offset_peek w i
  have onward := Onward.of_peek seen'
  have paired := h.paired i
  rw [seen'] at reach
  rw [seen] at offset
  cases paired with
  | together same inStep =>
      rw [seen, seen'] at same inStep
      exact ⟨same, inStep, offset.trans h.offset, onward.tops h.tops, h.clear⟩
  | @pauses place rest _ met _ _ _ before fits _ _ =>
      -- The pause would be in front of the byte that was looked at.
      have clear := h.clear place (met ▸ List.mem_cons_self)
      have room := fits most h.tops
      have start' := h.offset
      have len := h.len
      simp only [Near, Segment.offset, Segment.cursor] at *
      omega

end Abreast

/-! ## White space and digits -/

theorem extendSpace_of_peek (seen : w.peek 0 = (c, v)) :
    w.extendSpace = if isSpace c then (v.extend 1).extendSpace else v := by
  rw [extendSpace]
  split
  next seen' =>
    obtain ⟨rfl, rfl⟩ := Prod.mk.inj (seen'.symm.trans seen)
    rfl

theorem onward_extendSpace_of_peek (seen : w.peek 0 = (c, v)) : v.Onward w.extendSpace := by
  rw [extendSpace_of_peek seen]
  split
  · exact onward_extendSpace v 1
  · exact .refl v

theorem extendDigits_of_peek (seen : w.peek 0 = (c, v)) :
    w.extendDigits = if isDigit c then (v.extend 1).extendDigits else v := by
  rw [extendDigits]
  split
  next seen' =>
    obtain ⟨rfl, rfl⟩ := Prod.mk.inj (seen'.symm.trans seen)
    rfl

theorem onward_extendDigits_of_peek (seen : w.peek 0 = (c, v)) : v.Onward w.extendDigits := by
  rw [extendDigits_of_peek seen]
  split
  · exact onward_extendDigits v 1
  · exact .refl v

theorem Abreast.extendSpace (h : Abreast start far most places w u)
    (near : u.extendSpace.Near far most) :
    Abreast start far most places w.extendSpace u.extendSpace := by
  fun_induction Window.extendSpace w generalizing u with
  | case1 w c v seen blank ih =>
      rcases seen' : u.peek 0 with ⟨c', u'⟩
      obtain ⟨rfl, both⟩ := h.peek seen seen' ((onward_extendSpace_of_peek seen').near near)
      rw [extendSpace_of_peek seen', if_pos blank] at near ⊢
      exact ih (both.extend 1) near
  | case2 w c v seen dark =>
      rcases seen' : u.peek 0 with ⟨c', u'⟩
      obtain ⟨rfl, both⟩ := h.peek seen seen' ((onward_extendSpace_of_peek seen').near near)
      rw [extendSpace_of_peek seen', if_neg dark]
      exact both

theorem Abreast.extendDigits (h : Abreast start far most places w u)
    (near : u.extendDigits.Near far most) :
    Abreast start far most places w.extendDigits u.extendDigits := by
  fun_induction Window.extendDigits w generalizing u with
  | case1 w c v seen digit ih =>
      rcases seen' : u.peek 0 with ⟨c', u'⟩
      obtain ⟨rfl, both⟩ := h.peek seen seen' ((onward_extendDigits_of_peek seen').near near)
      rw [extendDigits_of_peek seen', if_pos digit] at near ⊢
      exact ih (both.extend 1) near
  | case2 w c v seen other =>
      rcases seen' : u.peek 0 with ⟨c', u'⟩
      obtain ⟨rfl, both⟩ := h.peek seen seen' ((onward_extendDigits_of_peek seen').near near)
      rw [extendDigits_of_peek seen', if_neg other]
      exact both

/-! ## Numbers -/

theorem Abreast.minusSign (h : Abreast start far most places w u)
    (near : u.minusSign.Near far most) :
    Abreast start far most places w.minusSign u.minusSign := by
  rcases seen : w.peek 0 with ⟨c, v⟩
  rcases seen' : u.peek 0 with ⟨c', u'⟩
  have near' : u'.Near far most := by
    simp only [Window.minusSign, seen'] at near
    split at near <;> exact near
  obtain ⟨rfl, both⟩ := h.peek seen seen' near'
  simp only [Window.minusSign, seen, seen']
  split
  · exact both.extend 1
  · exact both

theorem Abreast.integerPart (h : Abreast start far most places w u)
    (near : u.integerPart.2.Near far most) :
    u.integerPart.1 = w.integerPart.1 ∧
      Abreast start far most places w.integerPart.2 u.integerPart.2 := by
  rcases seen : w.peek 0 with ⟨c, v⟩
  rcases seen' : u.peek 0 with ⟨c', u'⟩
  simp only [Window.integerPart, seen, seen'] at near ⊢
  have near' : u'.Near far most := by
    split at near
    · exact near
    · split at near
      · exact (onward_extendDigits u' 1).near near
      · exact near
  obtain ⟨rfl, both⟩ := h.peek seen seen' near'
  by_cases isZero : c' = zero
  · simp only [if_pos isZero]
    exact ⟨trivial, both.extend 1⟩
  · simp only [if_neg isZero] at near ⊢
    by_cases leading : one ≤ c' ∧ c' ≤ nine
    · simp only [if_pos leading] at near ⊢
      exact ⟨trivial, (both.extend 1).extendDigits near⟩
    · simp only [if_neg leading]
      exact ⟨trivial, both⟩

theorem Abreast.fractionPart (h : Abreast start far most places w u)
    (near : u.fractionPart.2.Near far most) :
    u.fractionPart.1 = w.fractionPart.1 ∧
      Abreast start far most places w.fractionPart.2 u.fractionPart.2 := by
  rcases seen : w.peek 0 with ⟨c, v⟩
  rcases seen' : u.peek 0 with ⟨c', u'⟩
  rcases next : v.peek 1 with ⟨d, t⟩
  rcases next' : u'.peek 1 with ⟨d', t'⟩
  simp only [Window.fractionPart, seen, seen', next, next'] at near ⊢
  have inner {fits : Bool} : (if fits then (true, (t'.extend 2).extendDigits)
      else (false, t')).2.Near far most → t'.Near far most := by
    intro near
    split at near
    · exact (onward_extendDigits t' 2).near near
    · exact near
  have near' : u'.Near far most := by
    split at near
    · exact (Onward.of_peek next').near (inner near)
    · exact near
  obtain ⟨rfl, both⟩ := h.peek seen seen' near'
  by_cases isPoint : c' = point
  · simp only [if_pos isPoint] at near ⊢
    obtain ⟨rfl, both'⟩ := both.peek next next' (inner near)
    by_cases digit : isDigit d' = true
    · simp only [if_pos digit] at near ⊢
      exact ⟨trivial, (both'.extend 2).extendDigits near⟩
    · simp only [if_neg digit]
      exact ⟨trivial, both'⟩
  · simp only [if_neg isPoint]
    exact ⟨trivial, both⟩

theorem Abreast.exponentPart (h : Abreast start far most places w u)
    (near : u.exponentPart.Near far most) :
    Abreast start far most places w.exponentPart u.exponentPart := by
  rcases seen : w.peek 0 with ⟨c, v⟩
  rcases seen' : u.peek 0 with ⟨c', u'⟩
  rcases sign : v.peek 1 with ⟨s, t⟩
  rcases sign' : u'.peek 1 with ⟨s', t'⟩
  rcases lead : t.peek (exponentLead s) with ⟨d, x⟩
  rcases lead' : t'.peek (exponentLead s') with ⟨d', x'⟩
  simp only [Window.exponentPart, seen, seen', sign, sign', lead, lead'] at near ⊢
  have inner : (if isDigit d' then (x'.extend (exponentLead s' + 1)).extendDigits
      else x').Near far most → x'.Near far most := by
    intro near
    split at near
    · exact (onward_extendDigits x' _).near near
    · exact near
  have near' : u'.Near far most := by
    split at near
    · exact ((Onward.of_peek sign').trans (.of_peek lead')).near (inner near)
    · exact near
  obtain ⟨rfl, both⟩ := h.peek seen seen' near'
  by_cases isMark : isExponentMark c' = true
  · simp only [if_pos isMark] at near ⊢
    have near'' := inner near
    obtain ⟨rfl, both'⟩ := both.peek sign sign' ((Onward.of_peek lead').near near'')
    obtain ⟨rfl, both''⟩ := both'.peek lead lead' near''
    by_cases digit : isDigit d' = true
    · simp only [if_pos digit] at near ⊢
      exact (both''.extend _).extendDigits near
    · simp only [if_neg digit]
      exact both''
  · simp only [if_neg isMark]
    exact both

theorem Abreast.numberTail (h : Abreast start far most places w u)
    (near : u.numberTail.Near far most) :
    Abreast start far most places w.numberTail u.numberTail := by
  have near' : u.fractionPart.2.Near far most := by
    unfold Window.numberTail at near
    split at near
    · exact (reaches_exponentPart _).onward.near near
    · exact near
  obtain ⟨same, both⟩ := h.fractionPart near'
  unfold Window.numberTail at near ⊢
  rw [← same]
  split
  · next goesOn =>
      rw [if_pos goesOn] at near
      exact both.exponentPart near
  · exact both

theorem Abreast.number (h : Abreast start far most places w u)
    (near : u.number.2.Near far most) :
    u.number.1 = w.number.1 ∧ Abreast start far most places w.number.2 u.number.2 := by
  rw [number_eq] at near
  rw [number_eq, number_eq]
  have tail := (reaches_numberTail u.minusSign.integerPart.2).onward
  have near' : u.minusSign.integerPart.2.Near far most := by
    split at near <;> dsimp only at near
    · exact tail.near near
    · exact (onward_setLen _ _).near near
  have minus := h.minusSign ((reaches_integerPart _).onward.near near')
  obtain ⟨same, both⟩ := minus.integerPart near'
  rw [← same]
  by_cases found : u.minusSign.integerPart.1 = true
  · simp only [if_pos found] at near ⊢
    exact ⟨trivial, both.numberTail near⟩
  · simp only [if_neg found, h.len]
    exact ⟨trivial, both.setLen _⟩

/-! ## Literals -/

theorem Abreast.spells {word : Bytes} (h : Abreast start far most places w u)
    (near : (u.spells i word).2.Near far most) :
    (u.spells i word).1 = (w.spells i word).1 ∧
      Abreast start far most places (w.spells i word).2 (u.spells i word).2 := by
  induction word generalizing w u i with
  | nil => exact ⟨rfl, h⟩
  | cons c rest ih =>
      rcases seen : w.peek i with ⟨d, v⟩
      rcases seen' : u.peek i with ⟨d', u'⟩
      rw [spells_cons, seen'] at near
      rw [spells_cons, spells_cons, seen, seen']
      dsimp only at near ⊢
      have near' : u'.Near far most := by
        split at near
        · exact (reaches_spells u' (i + 1) rest).onward.near near
        · exact near
      obtain ⟨rfl, both⟩ := h.peek seen seen' near'
      by_cases here : d' = c
      · rw [if_pos here] at near
        rw [if_pos here, if_pos here]
        exact ih both near
      · rw [if_neg here, if_neg here]
        exact ⟨rfl, both⟩

theorem Abreast.oneOf {words : List Bytes} (h : Abreast start far most places w u)
    (letters : ∀ word ∈ words, word ≠ [] ∧ ∀ c ∈ word, c ≠ 0)
    (near : (u.oneOf words).2.Near far most) :
    (u.oneOf words).1 = (w.oneOf words).1 ∧
      Abreast start far most places (w.oneOf words).2 (u.oneOf words).2 := by
  induction words generalizing w u with
  | nil => exact ⟨rfl, h⟩
  | cons word rest ih =>
      have others := fun x hx => letters x (List.mem_cons_of_mem word hx)
      rw [oneOf_cons] at near
      rw [oneOf_cons, oneOf_cons]
      have near' : (u.spells 0 word).2.Near far most := by
        split at near
        · exact near
        · exact (reaches_oneOf _ rest others).onward.near near
      obtain ⟨same, both⟩ := h.spells near'
      rw [← same]
      by_cases found : (u.spells 0 word).1 = true
      · rw [if_pos found, if_pos found]
        exact ⟨rfl, both.extend _⟩
      · rw [if_neg found] at near
        rw [if_neg found, if_neg found]
        exact ih both others near

theorem Abreast.literal (h : Abreast start far most places w u)
    (near : u.literal.2.Near far most) :
    u.literal.1 = w.literal.1 ∧ Abreast start far most places w.literal.2 u.literal.2 :=
  h.oneOf literals_letters near

/-! ## Strings -/

theorem stringRest_of_peek (seen : w.peek 0 = (c, v)) :
    w.stringRest =
      if c = quote then if v.escapesQuote then (v.extend 1).stringRest else (true, v.extend 1)
      else if c = nul then (false, v)
      else (v.extend 1).stringRest := by
  rw [stringRest]
  split
  next seen' =>
    obtain ⟨rfl, rfl⟩ := Prod.mk.inj (seen'.symm.trans seen)
    rfl

theorem onward_stringRest_of_peek (seen : w.peek 0 = (c, v)) : v.Onward w.stringRest.2 := by
  rw [stringRest_of_peek seen]
  split
  · split
    · exact onward_stringRest v 1
    · exact onward_extend v 1
  · split
    · exact .refl v
    · exact onward_stringRest v 1

theorem Abreast.stringRest (h : Abreast start far most places w u)
    (near : u.stringRest.2.Near far most) :
    u.stringRest.1 = w.stringRest.1 ∧
      Abreast start far most places w.stringRest.2 u.stringRest.2 := by
  fun_induction Window.stringRest w generalizing u with
  | case1 w v escaped seen ih =>
      rcases seen' : u.peek 0 with ⟨c, u'⟩
      obtain ⟨rfl, both⟩ := h.peek seen seen' ((onward_stringRest_of_peek seen').near near)
      have escaped' : u'.escapesQuote = true := by rw [both.segment]; exact escaped
      rw [stringRest_of_peek seen', if_pos rfl, if_pos escaped'] at near ⊢
      exact ih (both.extend 1) near
  | case2 w v plain seen =>
      rcases seen' : u.peek 0 with ⟨c, u'⟩
      obtain ⟨rfl, both⟩ := h.peek seen seen' ((onward_stringRest_of_peek seen').near near)
      have plain' : ¬ u'.escapesQuote = true := by rw [both.segment]; exact plain
      rw [stringRest_of_peek seen', if_pos rfl, if_neg plain']
      exact ⟨rfl, both.extend 1⟩
  | case3 w v seen =>
      rcases seen' : u.peek 0 with ⟨c, u'⟩
      obtain ⟨rfl, both⟩ := h.peek seen seen' ((onward_stringRest_of_peek seen').near near)
      rw [stringRest_of_peek seen', if_neg (by decide), if_pos rfl]
      exact ⟨rfl, both⟩
  | case4 w c v seen notQuote notNul ih =>
      rcases seen' : u.peek 0 with ⟨c, u'⟩
      obtain ⟨rfl, both⟩ := h.peek seen seen' ((onward_stringRest_of_peek seen').near near)
      rw [stringRest_of_peek seen', if_neg notQuote, if_neg notNul] at near ⊢
      exact ih (both.extend 1) near

theorem Abreast.string (h : Abreast start far most places w u)
    (near : u.string.2.Near far most) :
    u.string.1 = w.string.1 ∧ Abreast start far most places w.string.2 u.string.2 :=
  (h.extend 1).stringRest near

/-! ## White space in front of a token -/

variable {input : Bytes} {ending : Status}

theorem skipSpace_of_peek (seen : w.peek 0 = (c, v)) :
    w.skipSpace = if isSpace c then (v.extend 1).skip.skipSpace else v := by
  rw [skipSpace]
  split
  next seen' =>
    obtain ⟨rfl, rfl⟩ := Prod.mk.inj (seen'.symm.trans seen)
    rfl

/-- White space in front leads on. -/
theorem not_isSpace_of_skipSpace (seen : w.peek 0 = (c, v)) (stays : w.skipSpace.cursor ≤ w.cursor) :
    ¬ isSpace c = true := by
  intro blank
  have took := takes_extend seen (ne_zero_of_isSpace blank) Nat.one_pos (Nat.le_refl _)
  have further := took.cursor
  have behind := (reaches_skipSpace (v.extend 1).skip).cursor
  rw [cursor_skip took.arrived] at behind
  rw [skipSpace_of_peek seen, if_pos blank] at stays
  omega

/-- A look that the input has decided shows the same when it is made again. -/
theorem Shows.peek_again (h : w.Shows input ending) (seen : w.peek i = (c, v))
    (fits : ¬ v.Overflows) : v.peek i = (c, v) := by
  obtain ⟨looked, sees⟩ := h.sees seen fits
  have reach : max v.reach (v.len + i + 1) = v.reach := by
    have grown := reach_peek w i
    rw [seen, ← len_of_peek seen] at grown
    dsimp only at grown
    omega
  have here := sees.at_eq
  have byte := sees.byte
  cases arrived : input[w.cursor + i]? with
  | some d =>
      rw [arrived] at here byte
      rw [peek_of_arrived here, reach, byte]
      rfl
  | none =>
      have given := sees.ended arrived
      have failed := h.failed
      rw [arrived] at here byte
      cases supply : v.supply with
      | nothing =>
          rw [peek_of_nothing here supply, reach, byte]
          rfl
      | stream str =>
          have stopped : str.status.isOk = false := by
            rw [← given, Window.given, supply] at failed
            exact failed
          rw [peek_of_stream here supply, Stream.refill_of_failed _ stopped, reach, byte, ← supply]
          rfl

namespace InStep

/-- Pauses are behind what has arrived, and there are none once the source has told its end. -/
theorem le_of_mem (h : InStep places w u) (fits : ¬ w.Overflows) {place : Nat}
    (member : place ∈ places) : w.fill ≤ place ∧ w.given = .ok := by
  obtain ⟨str, other, supply, supply', inStep, gaps⟩ := h.supply
  rw [← gaps] at member
  refine ⟨Reader.le_of_mem_gaps member, ?_⟩
  rw [Overflows, Window.given, supply] at fits
  rw [Window.given, supply]
  rcases inStep.spent with ok | exceeded | nothing
  · exact ok
  · exact absurd exceeded fits
  · rw [Stream.gaps, nothing] at member
    cases member

/-- Behind a look that the input has decided there is no pause. -/
theorem decided (h : InStep places w u) (fits : ¬ u.Overflows) (failed : ending.isOk = false)
    (decided : IsDecided input ending u) :
    u.cursor ∉ places ∧ (w.at? 0 = none → w.given.isOk = false) := by
  have cursor : w.cursor = u.cursor := congrArg Segment.cursor h.segment.symm
  have fill : w.fill = u.fill := congrArg Segment.fill h.segment.symm
  have given := h.given
  rw [Overflows, given] at fits
  rcases decided with arrived | ⟨_, told⟩
  · constructor
    · intro member
      have behind := (h.le_of_mem fits member).1
      omega
    · intro missed
      have missed := Array.getElem?_eq_none_iff.mp missed
      simp only [Segment.cursor, Segment.fill] at *
      omega
  · rw [← given, told]
    refine ⟨fun member => ?_, fun _ => failed⟩
    rw [← told, given, (h.le_of_mem fits member).2] at failed
    cases failed

/-- Who looks again where nothing pauses any more sees what the other saw at once. -/
theorem look_again (h : InStep places v u') (seen : u'.peek 0 = (c, u)) (again : u.peek 0 = (c, u))
    (clear : ∀ place ∈ places, v.cursor < place) :
    (u.peek 0).1 = (v.peek 0).1 ∧ InStep places (v.peek 0).2 (u.peek 0).2 := by
  rw [again]
  cases h.paired 0 with
  | together same inStep =>
      rw [seen] at same inStep
      exact ⟨same, inStep⟩
  | @pauses place _ _ met _ _ _ near =>
      have behind := clear place (met ▸ List.mem_cons_self)
      have near : place ≤ v.cursor := near
      omega

/--
The place in front of a token may have a pause: who meets it while skipping
white space looks there once more.
-/
theorem face (h : InStep places w u) (shows : u.Shows input ending) (first : u.len = 0)
    (fits : ¬ u.Overflows)
    (clear : ∀ place ∈ places.erase u.skipSpace.cursor, u.skipSpace.cursor < place) :
    (u.skipSpace.peek 0).1 = (w.skipSpace.peek 0).1 ∧
      InStep (places.erase u.skipSpace.cursor) (w.skipSpace.peek 0).2 (u.skipSpace.peek 0).2 := by
  fun_induction Window.skipSpace w generalizing u with
  | case1 w c v seen blank ih =>
      rcases seen' : u.peek 0 with ⟨c', u'⟩
      have fits' := shows.fits_first first seen' fits
      cases h.paired 0 with
      | together same inStep =>
          rw [seen, seen'] at same inStep
          obtain rfl : c' = c := same
          have taken := shows.take seen' fits' (ne_zero_of_isSpace blank) (Nat.le_refl 1)
          rw [skipSpace_of_peek seen', if_pos blank] at clear ⊢
          exact ih (inStep.extend 1).skip taken.shows.skip rfl fits' clear
      | pauses _ nul =>
          rw [seen] at nul
          exact absurd nul (ne_zero_of_isSpace blank)
  | case2 w c v seen dark =>
      rcases seen' : u.peek 0 with ⟨c', u'⟩
      have fits' := shows.fits_first first seen' fits
      have again := shows.peek_again seen' fits'
      cases h.paired 0 with
      | together same inStep =>
          rw [seen, seen'] at same inStep
          obtain rfl : c' = c := same
          have place := (shows.sees seen' fits').2.decided (shows.sees seen' fits').1.cursor
          obtain ⟨free, told⟩ := inStep.decided fits' shows.failed place
          rw [skipSpace_of_peek seen', if_neg dark] at clear ⊢
          rw [List.erase_of_not_mem free] at clear ⊢
          cases inStep.paired 0 with
          | together same' inStep' => exact ⟨same', inStep'⟩
          | pauses _ _ _ _ _ _ missed went =>
              rw [told missed] at went
              cases went
      | @pauses place rest x met nul later inStep near =>
          have cursor : u.cursor = w.cursor := congrArg Segment.cursor h.segment
          have moved := (reaches_skipSpace u).cursor
          have here : place = u.skipSpace.cursor := Decidable.byContradiction fun other => by
            have member : place ∈ places := met ▸ List.mem_cons_self
            have behind := clear place ((List.mem_erase_of_ne other).mpr member)
            omega
          have dark' : ¬ isSpace c' = true := not_isSpace_of_skipSpace seen' (by omega)
          have stays : v.cursor = u'.cursor := by
            rw [(peek_keeps seen).1, (peek_keeps seen').1, cursor]
          rw [met, here, List.erase_cons_head] at clear ⊢
          rw [seen] at inStep
          rw [skipSpace_of_peek seen', if_neg dark'] at clear ⊢
          rw [← stays] at clear
          exact inStep.look_again (later.trans seen') again clear

end InStep

end JsonEvents.Window
