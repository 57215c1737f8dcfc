import JsonEvents.Proofs.Scan.Looks
import JsonEvents.Proofs.Window.Recognized

/-!
# How far a window looks

`Watches input ending far w v` says that on the way from `w` to `v` the furthest
look was at the byte in front of the place `far` of the input.  That place alone
tells how much had to fit (`spills`), and whether the source has told its end:
it has if the look went beyond the input (`spent`), and if it tells the end by a
read of its own it has not otherwise (`fresh`).
-/

namespace JsonEvents

namespace Supply

/-- The most bytes that there can ever be room for. -/
def Tops (top : Nat) : Supply → Prop
  | .nothing => True
  | .stream str => Stream.Climbs str.limit top str.capacity

theorem IsTooMuch.lt {supply : Supply} {need top : Nat} (h : supply.IsTooMuch need)
    (tops : supply.Tops top) : top < need := by
  cases supply with
  | nothing => cases h
  | stream str => exact h.2 top tops

end Supply

namespace Stream

/-- What every fetch into made room keeps, a refill keeps. -/
theorem refill_keeps {I : Stream → Prop}
    (spills : ∀ str, I str → I { str with status := .bufferExceeded })
    (fetches : ∀ (seg : Segment) (str : Stream) (need : Nat), str.status.isOk = true → I str →
      I (fetch seg str (room (seg.bytes.size - seg.start) need str.limit str.capacity)).2.2)
    (seg : Segment) (str : Stream) (need : Nat) (h : I str) :
    I (refill seg str need).2.2 := by
  have step {seg : Segment} {str : Stream} {data : Bytes} {seg' : Segment} {str' : Stream}
      (ok : str.status.isOk = true) (h : I str)
      (got : fetch seg str (room (seg.bytes.size - seg.start) need str.limit str.capacity) =
        (data, seg', str')) : I str' := by
    have := fetches seg str need ok h
    rwa [got] at this
  fun_induction refill seg str need with
  | case1 seg str => exact spills str h
  | case2 seg str ok _ _ _ _ _ got => exact step ok h got
  | case3 seg str ok _ _ _ _ _ got => exact step ok h got
  | case4 seg str ok _ _ _ _ _ got _ _ ih => exact ih (step ok h got)
  | case5 => exact h

theorem tops_refill {top : Nat} (seg : Segment) (str : Stream) (need : Nat)
    (tops : (Supply.stream str).Tops top) :
    (Supply.stream (refill seg str need).2.2).Tops top := by
  refine refill_keeps (I := fun str => (Supply.stream str).Tops top) (fun _ tops => tops) ?_ seg str
    need tops
  intro seg str need _ tops
  obtain ⟨_, limit, room⟩ := fetch_keeps seg str
    (room (seg.bytes.size - seg.start) need str.limit str.capacity)
  rw [Supply.Tops, limit, room]
  exact (tops.room _ _).1

theorem isLate_refill (seg : Segment) (str : Stream) (need : Nat)
    (late : (Supply.stream str).IsLate) : (Supply.stream (refill seg str need).2.2).IsLate := by
  refine refill_keeps (I := fun str => (Supply.stream str).IsLate) (fun _ late => late) ?_ seg str
    need late
  intro seg str need _ late
  exact (fetch_keeps seg str _).1.trans late

end Stream

namespace Window

open Ascii

variable {input : Bytes} {ending : Status} {far far' n : Nat} {u v w : Window}

theorem Onward.tops {top : Nat} (h : Onward w v) (tops : w.supply.Tops top) : v.supply.Tops top :=
  h.keeps Stream.tops_refill tops

theorem Onward.late (h : Onward w v) (late : w.supply.IsLate) : v.supply.IsLate :=
  h.keeps Stream.isLate_refill late

structure Watches (input : Bytes) (ending : Status) (far : Nat) (w v : Window) : Prop where
  onward : w.Onward v
  offset : ¬ v.Overflows → v.offset = w.offset
  reach : ¬ v.Overflows → w.offset + v.reach = max (w.offset + w.reach) far
  spills : ¬ w.Overflows → v.Overflows → ∀ top, w.supply.Tops top → w.offset + top < far
  spent : ¬ v.Overflows → input.length < far → v.given = ending
  fresh : ¬ v.Overflows → w.supply.IsLate → w.given = .ok → far ≤ input.length → v.given = .ok

namespace Watches

theorem cast (h : Watches input ending far w v) (same : far = far') :
    Watches input ending far' w v := same ▸ h

/-- Behind an overflow it is enough to know how far it would have been looked at most. -/
theorem of_spilled (h : Watches input ending far w v) (spilled : v.Overflows)
    (onward : v.Onward u) (less : far ≤ far') : Watches input ending far' w u := by
  have fits : ¬ u.Overflows → False := fun fits => onward.fits fits spilled
  exact
    { onward := h.onward.trans onward
      offset := fun fits' => absurd fits' fits
      reach := fun fits' => absurd fits' fits
      spills := fun fits _ top tops => Nat.lt_of_lt_of_le (h.spills fits spilled top tops) less
      spent := fun fits' => absurd fits' fits
      fresh := fun fits' => absurd fits' fits }

theorem settle (h : Watches input ending far w v) (less : far ≤ far')
    (same : ¬ v.Overflows → far = far') : Watches input ending far' w v := by
  by_cases spilled : v.Overflows
  · exact h.of_spilled spilled (.refl v) less
  · exact h.cast (same spilled)

/-- What is looked at behind a window counts unless it overflowed. -/
theorem trans (h : Watches input ending far w v) (onward : v.Onward u)
    (rest : ¬ v.Overflows → Watches input ending far' v u) (failed : ending.isOk = false) :
    Watches input ending (max far far') w u where
  onward := h.onward.trans onward
  offset := fun fits =>
    ((rest (onward.fits fits)).offset fits).trans (h.offset (onward.fits fits))
  reach := by
    intro fits
    have fits' := onward.fits fits
    have front := h.reach fits'
    have back := (rest fits').reach fits
    rw [h.offset fits'] at back
    omega
  spills := by
    intro fits spilled top tops
    by_cases before : v.Overflows
    · have := h.spills fits before top tops
      omega
    · have := (rest before).spills before spilled top (h.onward.tops tops)
      rw [h.offset before] at this
      omega
  spent := by
    intro fits beyond
    have fits' := onward.fits fits
    by_cases front : input.length < far
    · have given := h.spent fits' front
      exact (onward.given (by rw [given]; exact failed)).trans given
    · exact (rest fits').spent fits (by omega)
  fresh := by
    intro fits late ok inside
    have fits' := onward.fits fits
    exact (rest fits').fresh fits (h.onward.late late) (h.fresh fits' late ok (by omega)) (by omega)

theorem of_extend (h : Watches input ending far (w.extend n) v) : Watches input ending far w v :=
  ⟨.trans (v := w.extend n) (.moved rfl rfl) h.onward, h.offset, h.reach, h.spills, h.spent, h.fresh⟩

theorem setLen (h : Watches input ending far w v) (n : Nat) :
    Watches input ending far w (v.setLen n) :=
  ⟨h.onward.trans (.moved rfl rfl), h.offset, h.reach, h.spills, h.spent, h.fresh⟩

theorem extend (h : Watches input ending far w v) (n : Nat) :
    Watches input ending far w (v.extend n) :=
  ⟨h.onward.trans (.moved rfl rfl), h.offset, h.reach, h.spills, h.spent, h.fresh⟩

end Watches

/-- A look at place `i` is at the byte there and at none behind it. -/
theorem Shows.watches_peek {i : Nat} {c : UInt8} (h : w.Shows input ending)
    (seen : w.peek i = (c, v)) : Watches input ending (w.cursor + (i + 1)) w v := by
  have reach := reach_peek w i
  have offset := offset_peek w i
  have looks := h.looks i
  rw [seen] at reach offset looks
  constructor
  · exact .of_peek seen
  · exact fun _ => offset
  · intro _
    simp only [Segment.cursor, Segment.offset] at *
    omega
  · intro fits spilled top tops
    cases looks with
    | sees _ _ kept => exact absurd (kept spilled) fits
    | spills _ _ _ cause =>
        have much := (cause.resolve_left fits).lt tops
        simp only [Segment.cursor, Segment.offset] at *
        omega
  · intro fits beyond
    exact (h.sees seen fits).2.ended (List.getElem?_eq_none_iff.mpr (by omega))
  · intro fits late ok inside
    refine (h.sees seen fits).2.fresh late ok ?_
    rw [List.getElem?_eq_getElem (by omega)]
    exact Option.some_ne_none _

/-- A look, and what is looked at behind it. -/
theorem Shows.watches_then {i : Nat} {c : UInt8} (h : w.Shows input ending)
    (seen : w.peek i = (c, v)) (onward : v.Onward u)
    (rest : ¬ v.Overflows → Watches input ending far v u) :
    Watches input ending (max (w.cursor + (i + 1)) far) w u :=
  (h.watches_peek seen).trans onward rest h.failed

/-- A byte other than NUL that is seen is the byte of the input, whether or not it all fits. -/
theorem Shows.byte_of_some {i : Nat} {c : UInt8} (h : w.Shows input ending)
    (seen : w.peek i = (c, v)) (some : c ≠ 0) : Scan.byte (input.drop w.cursor) i = c := by
  have looks := h.looks i
  rw [seen] at looks
  cases looks with
  | sees _ sees => exact sees.byte_eq.symm
  | spills => exact absurd rfl some

/-- A look goes on showing the input, whether or not it all fits. -/
theorem Shows.peek {i : Nat} {c : UInt8} (h : w.Shows input ending) (seen : w.peek i = (c, v)) :
    v.Shows input ending := by
  have looks := h.looks i
  rw [seen] at looks
  cases looks with
  | sees shows => exact shows
  | spills shows => exact shows

/-! ## Recognizers -/

theorem onward_extend (w : Window) (n : Nat) : w.Onward (w.extend n) := .moved rfl rfl

theorem onward_setLen (w : Window) (n : Nat) : w.Onward (w.setLen n) := .moved rfl rfl

theorem onward_extendSpace (w : Window) (n : Nat) : w.Onward (w.extend n).extendSpace :=
  .trans (v := w.extend n) (.moved rfl rfl) (reaches_extendSpace _).onward

theorem onward_extendDigits (w : Window) (n : Nat) : w.Onward (w.extend n).extendDigits :=
  .trans (v := w.extend n) (.moved rfl rfl) (reaches_extendDigits _).onward

theorem Shows.watches_extendSpace (h : w.Shows input ending) :
    Watches input ending (w.cursor + (Scan.blanks (input.drop w.cursor) + 1)) w w.extendSpace := by
  fun_induction Window.extendSpace w with
  | case1 w c v seen blank ih =>
      have some := ne_zero_of_isSpace blank
      have byte := h.byte_of_some seen some
      have cursor : (v.extend 1).cursor = w.cursor + 1 := by
        rw [cursor_extend, (peek_keeps seen).1]
      have more := Scan.run_of_byte (p := isSpace) rfl (by rw [byte]; exact blank)
      have walked := h.watches_then seen (onward_extendSpace v 1) fun fits =>
        (ih (h.take seen fits some (Nat.le_refl 1)).shows).of_extend
      rw [List.drop_drop] at more
      refine walked.cast ?_
      rw [cursor, Scan.blanks, Scan.blanks, more]
      omega
  | case2 w c v seen dark =>
      refine (h.watches_peek seen).settle (by omega) fun fits => ?_
      rw [(h.sees seen fits).2.byte_eq] at dark
      rw [Scan.blanks, Scan.run_of_not_byte (by simpa using dark)]

theorem Shows.watches_extendDigits (h : w.Shows input ending) :
    Watches input ending (w.cursor + (Scan.digits (input.drop w.cursor) + 1)) w
      w.extendDigits := by
  fun_induction Window.extendDigits w with
  | case1 w c v seen digit ih =>
      have some := ne_zero_of_isDigit digit
      have byte := h.byte_of_some seen some
      have cursor : (v.extend 1).cursor = w.cursor + 1 := by
        rw [cursor_extend, (peek_keeps seen).1]
      have more := Scan.run_of_byte (p := isDigit) rfl (by rw [byte]; exact digit)
      have walked := h.watches_then seen (onward_extendDigits v 1) fun fits =>
        (ih (h.take seen fits some (Nat.le_refl 1)).shows).of_extend
      rw [List.drop_drop] at more
      refine walked.cast ?_
      rw [cursor, Scan.digits, Scan.digits, more]
      omega
  | case2 w c v seen other =>
      refine (h.watches_peek seen).settle (by omega) fun fits => ?_
      rw [(h.sees seen fits).2.byte_eq] at other
      rw [Scan.digits, Scan.run_of_not_byte (by simpa using other)]

theorem Shows.watches_minusSign (h : w.Shows input ending) :
    Watches input ending (w.cursor + 1) w w.minusSign := by
  rcases seen : w.peek 0 with ⟨c, v⟩
  have looked := h.watches_peek seen
  simp only [Window.minusSign, seen]
  split
  · exact looked.extend 1
  · exact looked

/-- Digits behind bytes that were covered. -/
theorem Covers.watches_extendDigits (h : Covers input ending w v n) :
    Watches input ending (w.cursor + (n + (Scan.digits ((input.drop w.cursor).drop n) + 1))) v
      v.extendDigits := by
  have walked := h.shows.watches_extendDigits
  rw [h.rest, h.cursor, Nat.add_assoc] at walked
  exact walked

theorem Shows.watches_integerPart (h : w.Shows input ending) :
    Watches input ending (w.cursor + Scan.integerLooks (input.drop w.cursor)) w
      w.integerPart.2 := by
  rcases seen : w.peek 0 with ⟨c, v⟩
  have looked := h.watches_peek seen
  have least : 1 ≤ Scan.integerLooks (input.drop w.cursor) := (Scan.ahead_integer _).pos
  simp only [Window.integerPart, seen]
  by_cases isZero : c = zero
  · rw [if_pos isZero]
    have byte := h.byte_of_some seen (by rw [isZero]; decide)
    refine (looked.extend 1).cast ?_
    rw [Scan.integerLooks, if_pos (byte.trans isZero)]
  · rw [if_neg isZero]
    by_cases leading : one ≤ c ∧ c ≤ nine
    · rw [if_pos leading]
      have some := ne_zero_of_one_le leading.1
      have byte := h.byte_of_some seen some
      have walked := looked.trans (onward_extendDigits v 1) (fun fits =>
        (h.take seen fits some (Nat.le_refl 1)).watches_extendDigits.of_extend) h.failed
      refine walked.cast ?_
      rw [Scan.integerLooks, byte, if_neg isZero, if_pos leading]
      omega
    · rw [if_neg leading]
      refine looked.settle (by omega) fun fits => ?_
      rw [Scan.integerLooks, ← (h.sees seen fits).2.byte_eq, if_neg isZero, if_neg leading]

theorem Shows.watches_fractionPart (h : w.Shows input ending) :
    Watches input ending (w.cursor + Scan.fractionLooks (input.drop w.cursor)) w
      w.fractionPart.2 := by
  rcases seen : w.peek 0 with ⟨c, v⟩
  rcases seen' : v.peek 1 with ⟨d, u⟩
  have least : 1 ≤ Scan.fractionLooks (input.drop w.cursor) := (Scan.ahead_fraction _).pos
  simp only [Window.fractionPart, seen, seen']
  by_cases isPoint : c = point
  · rw [if_pos isPoint]
    have byte := (h.byte_of_some seen (by rw [isPoint]; decide)).trans isPoint
    have looked := h.watches_then seen (.of_peek seen') fun fits =>
      (h.sees seen fits).1.shows.watches_peek seen'
    rw [(peek_keeps seen).1] at looked
    have more : 2 ≤ Scan.fractionLooks (input.drop w.cursor) := by
      rw [Scan.fractionLooks, if_pos byte]
      split <;> omega
    by_cases digit : isDigit d = true
    · rw [if_pos digit]
      have byte' := (h.peek seen).byte_of_some seen' (ne_zero_of_isDigit digit)
      have walked := looked.trans (onward_extendDigits u 2) (fun fits =>
        ((h.sees seen ((reaches_peek seen').fits fits)).1.take seen' fits
          (ne_zero_of_isDigit digit) (Nat.le_refl 2)).watches_extendDigits.of_extend) h.failed
      rw [(peek_keeps seen).1] at byte'
      refine walked.cast ?_
      rw [Scan.fractionLooks, if_pos byte, byte', if_pos digit]
      omega
    · rw [if_neg digit]
      refine looked.settle (by omega) fun fits => ?_
      have byte' := ((h.sees seen ((reaches_peek seen').fits fits)).1.sees seen' fits).2
      rw [Scan.fractionLooks, if_pos byte, ← byte', if_neg digit]
      omega
  · rw [if_neg isPoint]
    refine (h.watches_peek seen).settle (by omega) fun fits => ?_
    rw [Scan.fractionLooks, ← (h.sees seen fits).2.byte_eq, if_neg isPoint]

/-- The first digit of an exponent is behind the sign, wherever that can be seen. -/
theorem Shows.lead_le {sign : UInt8} (h : w.Shows input ending) (seen : w.peek 1 = (sign, v)) :
    exponentLead sign ≤ exponentLead (Scan.byte (input.drop w.cursor) 1) := by
  by_cases signed : isSign sign = true
  · exact Nat.le_of_eq
      (congrArg exponentLead (h.byte_of_some seen (ne_zero_of_isSign signed)).symm)
  · have least : exponentLead sign = 1 := if_neg signed
    rw [least]
    exact one_le_exponentLead _

theorem Shows.watches_exponentPart (h : w.Shows input ending) :
    Watches input ending (w.cursor + Scan.exponentLooks (input.drop w.cursor)) w
      w.exponentPart := by
  rcases seen : w.peek 0 with ⟨c, v⟩
  rcases seen' : v.peek 1 with ⟨sign, u⟩
  rcases seen'' : u.peek (exponentLead sign) with ⟨d, t⟩
  have cursor := (peek_keeps seen).1
  have cursor' := (peek_keeps seen').1
  simp only [Window.exponentPart, seen, seen', seen'']
  by_cases isMark : isExponentMark c = true
  · rw [if_pos isMark]
    have byte := h.byte_of_some seen (ne_zero_of_isExponentMark isMark)
    have lead := (h.peek seen).lead_le seen'
    have least := one_le_exponentLead sign
    have looked := h.watches_then seen ((reaches_peek seen').onward.trans (.of_peek seen''))
      fun fits => (h.sees seen fits).1.shows.watches_then seen' (.of_peek seen'')
        fun fits' => ((h.sees seen fits).1.sees seen' fits').1.shows.watches_peek seen''
    have onward : t.Onward (if isDigit d then (t.extend (exponentLead sign + 1)).extendDigits
        else t) := by
      split
      · exact onward_extendDigits t _
      · exact .refl t
    rw [cursor', cursor] at looked
    rw [cursor] at lead
    rw [Scan.exponentLooks, byte, if_pos isMark]
    dsimp only
    by_cases spilled : t.Overflows
    · refine looked.of_spilled spilled onward ?_
      split <;> omega
    · have fits' := (reaches_peek seen'').fits spilled
      have fits := (reaches_peek seen').fits fits'
      obtain ⟨covers', byte'⟩ := (h.sees seen fits).1.sees seen' fits'
      obtain ⟨_, byte''⟩ := covers'.sees seen'' spilled
      rw [← byte', ← byte'']
      by_cases digit : isDigit d = true
      · have taken := covers'.take seen'' spilled (ne_zero_of_isDigit digit) (Nat.le_refl _)
        rw [if_pos digit, if_pos digit]
        have walked := looked.trans (onward_extendDigits t _)
          (fun _ => taken.watches_extendDigits.of_extend) h.failed
        refine walked.cast ?_
        omega
      · rw [if_neg digit, if_neg digit]
        refine looked.cast ?_
        omega
  · rw [if_neg isMark]
    have least : 1 ≤ Scan.exponentLooks (input.drop w.cursor) := (Scan.ahead_exponent _).pos
    refine (h.watches_peek seen).settle (by omega) fun fits => ?_
    rw [Scan.exponentLooks, ← (h.sees seen fits).2.byte_eq, if_neg isMark]

theorem Shows.watches_numberTail (h : w.Shows input ending) :
    Watches input ending (w.cursor + Scan.tailLooks (input.drop w.cursor)) w w.numberTail := by
  have fraction := h.watches_fractionPart
  have onward : w.fractionPart.2.Onward w.numberTail := by
    unfold Window.numberTail
    split
    · exact (reaches_exponentPart _).onward
    · exact .refl _
  unfold Scan.tailLooks
  dsimp only
  by_cases spilled : w.fractionPart.2.Overflows
  · exact fraction.of_spilled spilled onward (by omega)
  · obtain ⟨same, covers⟩ := h.fractionPart spilled
    unfold Window.numberTail
    rw [← same]
    by_cases goesOn : w.fractionPart.1 = true
    · rw [if_pos goesOn, if_pos goesOn]
      have walked := fraction.trans (reaches_exponentPart _).onward
        (fun _ => covers.shows.watches_exponentPart) h.failed
      rw [covers.rest, covers.cursor] at walked
      refine walked.cast ?_
      omega
    · rw [if_neg goesOn, if_neg goesOn]
      exact fraction.cast (by omega)

theorem Shows.watches_number (h : w.Shows input ending) :
    Watches input ending (w.cursor + Scan.numberLooks (input.drop w.cursor)) w w.number.2 := by
  have least : 1 ≤ Scan.integerLooks ((input.drop w.cursor).drop (Scan.sign (input.drop w.cursor))) :=
    (Scan.ahead_integer _).pos
  have minus := h.watches_minusSign
  have onward : w.minusSign.integerPart.2.Onward w.number.2 := by
    rw [number_eq]
    split
    · dsimp only
      exact (reaches_numberTail w.minusSign.integerPart.2).onward
    · dsimp only
      exact onward_setLen _ _
  unfold Scan.numberLooks
  dsimp only
  by_cases spilled : w.minusSign.Overflows
  · exact minus.of_spilled spilled ((reaches_integerPart _).onward.trans onward) (by omega)
  · have signed := h.minusSign spilled
    have integer := minus.trans (reaches_integerPart _).onward
      (fun _ => signed.shows.watches_integerPart) h.failed
    rw [signed.rest, signed.cursor] at integer
    by_cases spilled' : w.minusSign.integerPart.2.Overflows
    · exact integer.of_spilled spilled' onward (by omega)
    · obtain ⟨same, covers⟩ := signed.shows.integerPart spilled'
      rw [signed.rest] at same covers
      rw [number_eq]
      by_cases found : w.minusSign.integerPart.1 = true
      · obtain ⟨n, value⟩ := Option.isSome_iff_exists.mp (same ▸ found)
        have whole := signed.trans covers
        have walked := integer.trans (reaches_numberTail _).onward
          (fun _ => covers.shows.watches_numberTail) h.failed
        rw [whole.rest, whole.cursor, value, Option.getD_some, ← List.drop_drop] at walked
        rw [if_pos found, value]
        dsimp only
        refine walked.cast ?_
        omega
      · have none := Option.not_isSome_iff_eq_none.mp (same ▸ found)
        rw [if_neg found, none]
        dsimp only
        refine (integer.setLen w.len).cast ?_
        omega

theorem Shows.watches_spells {i : Nat} {word : Bytes} (h : w.Shows input ending)
    (some : word ≠ []) (letters : ∀ c ∈ word, c ≠ 0) :
    Watches input ending
      (w.cursor + (i + Scan.spellsLooks ((input.drop w.cursor).drop i) word)) w
      (w.spells i word).2 := by
  induction word generalizing w i with
  | nil => exact absurd rfl some
  | cons c rest ih =>
      rcases seen : w.peek i with ⟨d, v⟩
      have looked := h.watches_peek seen
      have here := Scan.byte_drop (input.drop w.cursor) i 0
      rw [Nat.add_zero] at here
      rw [spells_cons, seen, Scan.spellsLooks, here]
      by_cases same : d = c
      · have byte := h.byte_of_some seen (same ▸ letters c List.mem_cons_self)
        rw [if_pos same, if_pos (byte.trans same)]
        cases rest with
        | nil => exact looked
        | cons e tail =>
            have walked := h.watches_then seen (reaches_spells v (i + 1) (e :: tail)).onward
              fun fits => ih (i := i + 1) (h.sees seen fits).1.shows (List.cons_ne_nil e tail)
                fun x member => letters x (List.mem_cons_of_mem c member)
            rw [(peek_keeps seen).1, ← List.drop_drop] at walked
            refine walked.cast ?_
            omega
      · rw [if_neg same]
        dsimp only
        refine looked.settle (by split <;> omega) fun fits => ?_
        have byte := (h.sees seen fits).2.byte_eq
        rw [if_neg fun isLetter => same (byte.trans isLetter)]

theorem Shows.watches_oneOf {words : List Bytes} (h : w.Shows input ending) (some : words ≠ [])
    (letters : ∀ word ∈ words, word ≠ [] ∧ ∀ c ∈ word, c ≠ 0) :
    Watches input ending (w.cursor + Scan.oneOfLooks (input.drop w.cursor) words) w
      (w.oneOf words).2 := by
  induction words generalizing w with
  | nil => exact absurd rfl some
  | cons word rest ih =>
      obtain ⟨some, here⟩ := letters word List.mem_cons_self
      have others := fun x member => letters x (List.mem_cons_of_mem word member)
      have spelt := h.watches_spells (i := 0) some here
      have onward : (w.spells 0 word).2.Onward (w.oneOf (word :: rest)).2 := by
        rw [oneOf_cons]
        split
        · dsimp only
          exact onward_extend _ _
        · exact (reaches_oneOf _ rest others).onward
      rw [List.drop_zero, Nat.zero_add] at spelt
      rw [Scan.oneOfLooks]
      by_cases spilled : (w.spells 0 word).2.Overflows
      · exact spelt.of_spilled spilled onward (by omega)
      · obtain ⟨found, covers⟩ := h.spells (i := 0) here spilled
        rw [List.drop_zero] at found
        rw [oneOf_cons, ← found]
        by_cases here : (w.spells 0 word).1 = true
        · rw [if_pos here, if_pos here]
          dsimp only
          refine (spelt.extend _).cast ?_
          omega
        · rw [if_neg here, if_neg here]
          cases rest with
          | nil => exact spelt.cast (by rw [Scan.oneOfLooks]; omega)
          | cons next rest =>
              have walked := spelt.trans (reaches_oneOf _ _ others).onward
                (fun _ => ih covers.shows (List.cons_ne_nil next rest) others) h.failed
              rw [covers.cursor, Nat.add_zero] at walked
              refine walked.cast ?_
              omega

theorem Shows.watches_literal (h : w.Shows input ending) :
    Watches input ending (w.cursor + Scan.literalLooks (input.drop w.cursor)) w w.literal.2 :=
  h.watches_oneOf (by decide) literals_letters

theorem onward_stringRest (w : Window) (n : Nat) : w.Onward (w.extend n).stringRest.2 :=
  .trans (v := w.extend n) (.moved rfl rfl) (reaches_stringRest _).onward

theorem Shows.watches_stringRest (h : w.Shows input ending) (opened : 0 < w.len) :
    Watches input ending
      (w.cursor + Scan.stringRestLooks w.escapesQuote (input.drop w.cursor)) w
      w.stringRest.2 := by
  have least (w : Window) := Scan.stringRestLooks_pos w.escapesQuote (input.drop w.cursor)
  fun_induction Window.stringRest w with
  | case1 w v escaped seen ih =>
      have looked := h.watches_peek seen
      by_cases spilled : v.Overflows
      · have least := least w
        exact looked.of_spilled spilled (onward_stringRest v 1) (by omega)
      · have step := h.goesOn opened seen spilled (by decide)
        have same := (h.within.escapesQuote_peek seen).symm.trans escaped
        have walked := looked.trans (onward_stringRest v 1)
          (fun _ => (ih step.covers.shows step.opened).of_extend) h.failed
        rw [step.escapes, step.covers.cursor] at walked
        rw [step.rest, step.covers.cursor, Scan.stringRestLooks_cons _ (by decide) (by simp [same])]
        refine walked.cast ?_
        omega
  | case2 w v plain seen =>
      have least := least w
      refine ((h.watches_peek seen).extend 1).settle (by omega) fun fits => ?_
      have step := h.goesOn opened seen fits (by decide)
      have same := (h.within.escapesQuote_peek seen).symm.trans (by simpa using plain)
      rw [step.rest, same, Scan.stringRestLooks, Scan.stringRest_of_close]
      rfl
  | case3 w v seen =>
      have looked := h.watches_peek seen
      have least := least w
      refine looked.settle (by omega) fun fits => ?_
      have byte := (h.sees seen fits).2.byte_eq
      rw [Scan.stringRestLooks_of_nul _ byte.symm]
  | case4 w c v seen notQuote notNul ih =>
      have looked := h.watches_peek seen
      by_cases spilled : v.Overflows
      · have least := least w
        exact looked.of_spilled spilled (onward_stringRest v 1) (by omega)
      · have step := h.goesOn opened seen spilled notNul
        have walked := looked.trans (onward_stringRest v 1)
          (fun _ => (ih step.covers.shows step.opened).of_extend) h.failed
        rw [step.escapes, step.covers.cursor] at walked
        rw [step.rest, step.covers.cursor,
          Scan.stringRestLooks_cons _ notNul fun same => notQuote same.1]
        refine walked.cast ?_
        omega

/-- White space in front of a token is looked at byte by byte, each as the first one of a lexeme. -/
theorem reach_skipSpace (w : Window) (first : w.len = 0) :
    w.skipSpace.reach = max w.reach 1 := by
  have reach {w v : Window} {c : UInt8} (seen : w.peek 0 = (c, v)) (first : w.len = 0) :
      v.reach = max w.reach 1 := by
    have reach := reach_peek w 0
    rwa [seen, first] at reach
  fun_induction Window.skipSpace w with
  | case1 w c v seen blank ih =>
      have looked := reach seen first
      have rest := ih rfl
      change _ = max v.reach 1 at rest
      omega
  | case2 w c v seen dark => exact reach seen first

/-- White space in front of a token is looked at up to the token's first byte. -/
theorem Shows.fresh_skipSpace (h : w.Shows input ending) (first : w.len = 0) (fits : ¬ w.Overflows)
    (late : w.supply.IsLate) (ok : w.given = .ok) (inside : w.skipSpace.cursor < input.length) :
    w.skipSpace.given = .ok := by
  fun_induction Window.skipSpace w with
  | case1 w c v seen blank ih =>
      have some := ne_zero_of_isSpace blank
      have fits' := h.fits_first first seen fits
      have taken := h.take seen fits' some (Nat.le_refl 1)
      have place : w.cursor + (0 + 1) ≤ input.length := by
        have arrived := peek_sees seen some
        have length := (h.peek seen).holds.length
        omega
      have looked := h.watches_peek seen
      exact ih taken.shows.skip rfl fits' (looked.onward.late late)
        (looked.fresh fits' late ok place) inside
  | case2 w c v seen dark =>
      rw [(peek_keeps seen).1] at inside
      exact (h.watches_peek seen).fresh (h.fits_first first seen fits) late ok inside

end Window

end JsonEvents
