import JsonEvents.Proofs.Lines
import JsonEvents.Proofs.Window.Recognized

/-!
# Strings in a window

A text is escaped from the left: a backslash that is not escaped itself escapes
the byte behind it (`Scan.isEscaped`).  A window counts the backslashes in front of
each quote instead, and finds the same end of a string (`Within.string`).  It is
cut short by the first NUL, the end of the input, or where a reader brings nothing
although it has not come to its end (`strings_end`).
-/

namespace JsonEvents

open Ascii

/-! ## Escapes from the left -/

namespace Scan

/-- Whether the byte at a place is escaped, if it is known of the first one. -/
def isEscaped (before : Bool) (s : Bytes) : Nat → Bool
  | 0 => before
  | i + 1 => byte s i == backslash && !isEscaped before s i

/-- Nothing ends a string among the first bytes: no NUL, and no quote that is not escaped. -/
def IsOpen (before : Bool) (s : Bytes) (n : Nat) : Prop :=
  ∀ i < n, byte s i ≠ nul ∧ (byte s i = quote → isEscaped before s i = true)

/-- The first quote that is not escaped, with no NUL in front of it. -/
structure ClosesAt (before : Bool) (s : Bytes) (i : Nat) : Prop where
  front : IsOpen before s i
  isQuote : byte s i = quote
  plain : isEscaped before s i = false

/--
The bytes of a string behind its opening quote, and whether it is closed: all up to
the closing quote and with it, or else up to the first NUL or the end.
-/
inductive EndsString (s : Bytes) : Bool → Bytes → Prop
  | closed {i : Nat} (closes : ClosesAt false s i) : EndsString s true (s.take (i + 1))
  | cut (never : ∀ i, ¬ ClosesAt false s i) : EndsString s false (s.take (s.idxOf nul))

variable {s : Bytes} {before : Bool} {c : UInt8} {i n : Nat}

/-- What escapes the first byte is of no account once its successor is judged. -/
theorem isEscaped_cons (before : Bool) (c : UInt8) (s : Bytes) (i : Nat) :
    isEscaped before (c :: s) (i + 1) = isEscaped (c == backslash && !before) s i := by
  induction i with
  | zero => rfl
  | succ i ih =>
      have next : byte (c :: s) (i + 1) = byte s i := rfl
      rw [isEscaped, next, ih, isEscaped]

theorem isOpen_zero : IsOpen before s 0 := fun _ none => absurd none (Nat.not_lt_zero _)

theorem IsOpen.cons (some : c ≠ nul) (inside : c = quote → before = true)
    (h : IsOpen (c == backslash && !before) s n) : IsOpen before (c :: s) (n + 1) := by
  intro i less
  cases i with
  | zero => exact ⟨some, inside⟩
  | succ i =>
      have behind := h i (Nat.lt_of_succ_lt_succ less)
      rw [isEscaped_cons]
      exact behind

theorem ClosesAt.cons (some : c ≠ nul) (inside : c = quote → before = true)
    (h : ClosesAt (c == backslash && !before) s i) : ClosesAt before (c :: s) (i + 1) where
  front := h.front.cons some inside
  isQuote := h.isQuote
  plain := by rw [isEscaped_cons]; exact h.plain

theorem IsOpen.le_length (h : IsOpen before s n) : n ≤ s.length := by
  cases n with
  | zero => exact Nat.zero_le _
  | succ n => exact lt_length_of_byte (h n (Nat.lt_succ_self n)).1

/-- Where only a NUL follows, or nothing, no quote ends the string. -/
theorem IsOpen.not_closesAt (h : IsOpen before s n) (isNul : byte s n = nul) :
    ∀ i, ¬ ClosesAt before s i := by
  intro i closes
  rcases Nat.lt_trichotomy i n with front | rfl | behind
  · have escaped := (h i front).2 closes.isQuote
    exact absurd (escaped.symm.trans closes.plain) (by decide)
  · exact absurd (isNul.symm.trans closes.isQuote) (by decide)
  · exact (closes.front n behind).1 isNul

theorem IsOpen.endsString (h : IsOpen false s n) (isNul : byte s n = nul) :
    EndsString s false (s.take n) := by
  have last : s.idxOf nul = n := Lines.idxOf_eq (fun i front => (h i front).1) isNul
  rw [← last]
  exact .cut (h.not_closesAt isNul)

end Scan

/-! ## Looks that show NUL -/

namespace Stream

/-- Where a refill brings no byte but NUL, that is the byte asked for, or it has not arrived. -/
theorem last?_of_refill_nul {seg : Segment} {str : Stream} {need : Nat}
    (missed : seg.last? need = none) (isNul : (refill seg str need).1 = 0) :
    (refill seg str need).2.1.last? need = some 0 ∨
      (refill seg str need).2.1.last? need = none := by
  fun_induction refill seg str need with
  | case1 => exact .inr missed
  | case2 seg str _ capacity _ data seg' str' got c found => exact .inl (isNul ▸ found)
  | case3 seg str _ capacity _ seg' str' missed' => exact .inr missed'
  | case4 seg str _ capacity _ data seg' str' got missed' _ ih => exact ih missed' isNul
  | case5 => exact .inr missed

end Stream

namespace Supply

/-- A failure that is not a lexeme too long comes behind the last byte, or with it. -/
def FailsLast : Supply → Prop
  | .nothing => True
  | .stream str => str.status = .ok ∨ str.status = .bufferExceeded ∨ str.reader.pending = []

theorem failsLast_refill (seg : Segment) (str : Stream) (need : Nat)
    (h : (Supply.stream str).FailsLast) :
    (Supply.stream (Stream.refill seg str need).2.2).FailsLast := by
  have fetched {seg : Segment} {str : Stream} {capacity : Nat} {data : Bytes} {seg' : Segment}
      {str' : Stream} (got : Stream.fetch seg str capacity = (data, seg', str')) :
      (Supply.stream str').FailsLast := by
    have status := str.reader.status_read (capacity - seg.compact.bytes.size)
    simp only [Stream.fetch, Prod.mk.injEq] at got
    obtain ⟨_, _, rfl⟩ := got
    exact status.imp_right fun ended => .inr ended.2
  fun_induction Stream.refill seg str need with
  | case1 => exact .inr (.inl rfl)
  | case2 _ _ _ _ _ _ _ _ got => exact fetched got
  | case3 _ _ _ _ _ _ _ _ got => exact fetched got
  | case4 _ _ _ _ _ _ _ _ got _ _ ih => exact ih (fetched got)
  | case5 => exact h

end Supply

namespace Window

variable {input : Bytes} {u v w : Window} {c : UInt8}

theorem at?_of_peek_nul (seen : w.peek 0 = (0, v)) : v.at? 0 = some 0 ∨ v.at? 0 = none := by
  cases here : w.at? 0 with
  | some d =>
      rw [peek_of_arrived here] at seen
      obtain ⟨rfl, rfl⟩ := Prod.mk.inj seen
      exact .inl here
  | none =>
      cases supply : w.supply with
      | nothing =>
          rw [peek_of_nothing here supply] at seen
          obtain ⟨_, rfl⟩ := Prod.mk.inj seen
          exact .inr here
      | stream str =>
          have len := len_peek w 0
          have missed := (w.last?_of_len 0).trans here
          rw [peek_of_stream here supply] at seen len
          obtain ⟨isNul, rfl⟩ := Prod.mk.inj seen
          have shown := Stream.last?_of_refill_nul missed isNul
          have last := Segment.last?_of_len (str.refill w.toSegment (w.len + 0 + 1)).2.1 0
          rw [show (str.refill w.toSegment (w.len + 0 + 1)).2.1.len = w.len from len] at last
          rwa [last] at shown

/-! ## The rest of a string -/

/-- How the rest of a string is taken, whatever the supply does. -/
inductive TakesRest (input : Bytes) (w v : Window) : Bool → Prop
  | closed {i : Nat} (closes : Scan.ClosesAt w.escapesQuote (input.drop w.cursor) i)
      (gains : Gains input w ((input.drop w.cursor).take (i + 1)) v) : TakesRest input w v true
  | cut {n : Nat} (front : Scan.IsOpen w.escapesQuote (input.drop w.cursor) n)
      (gains : Gains input w ((input.drop w.cursor).take n) v)
      (shown : v.at? 0 = some 0 ∨ v.at? 0 = none) : TakesRest input w v false

theorem TakesRest.cons {closed : Bool} (step : Continues input w u c) (some : c ≠ 0)
    (inside : c = quote → w.escapesQuote = true) (h : TakesRest input u v closed) :
    TakesRest input w v closed := by
  cases h with
  | @closed i closes gains =>
      rw [step.escapes] at closes
      have whole := step.gains.trans gains
      refine .closed (i := i + 1) ?_ ?_
      · rw [step.rest]
        exact closes.cons some inside
      · rw [step.rest]
        exact whole
  | @cut n front gains shown =>
      rw [step.escapes] at front
      have whole := step.gains.trans gains
      refine .cut (n := n + 1) ?_ ?_ shown
      · rw [step.rest]
        exact front.cons some inside
      · rw [step.rest]
        exact whole

/-- Counting the backslashes in front of each quote finds the first one that is not escaped. -/
theorem Within.stringRest (h : w.Within input) (opened : 0 < w.len) :
    TakesRest input w w.stringRest.2 w.stringRest.1 := by
  -- What the window counts in front of its cursor is all that the scan from the left remembers.
  fun_induction Window.stringRest w with
  | case1 w v escaped seen ih =>
      have step := h.continues opened seen (by decide)
      have same := (h.escapesQuote_peek seen).symm.trans escaped
      exact (ih step.gains.within step.opened).cons step (by decide) fun _ => same
  | case2 w v plain seen =>
      have step := h.continues opened seen (by decide)
      have same := (h.escapesQuote_peek seen).symm.trans (Bool.eq_false_iff.mpr plain)
      refine .closed (i := 0) ⟨Scan.isOpen_zero, ?_, same⟩ ?_
      · rw [step.rest]
        rfl
      · rw [step.rest]
        exact step.gains
  | case3 w v seen =>
      exact .cut (n := 0) Scan.isOpen_zero (.of_peek h seen) (at?_of_peek_nul seen)
  | case4 w c v seen notQuote notNul ih =>
      have step := h.continues opened seen notNul
      exact (ih step.gains.within step.opened).cons step notNul fun same => absurd same notQuote

/-! ## Strings -/

/-- The opening quote of a string is its first byte. -/
theorem Within.opens (h : w.Within input) (first : w.len = 0) (opening : w.at? 0 = some quote) :
    Gains input w [quote] (w.extend 1) ∧ (w.extend 1).escapesQuote = false := by
  have arrived := Segment.cursor_lt_fill_of_at? opening
  have here : input[w.cursor]? = some quote := h.byte_at opening
  have len : (w.extend 1).len = 1 := by
    rw [Window.extend, Segment.extend, Segment.setLen, first]
  refine ⟨⟨h.extend arrived, rfl, cursor_extend w 1, ?_⟩, ?_⟩
  · exact Gains.text_cons here List.nil_prefix
  · rw [Segment.escapesQuote, len]
    rfl

/-- Where nothing has arrived behind the lexeme the supply did not fail, or there is no more. -/
theorem Within.given_of_missed (h : w.Within input) (fails : w.supply.FailsLast)
    (missed : w.at? 0 = none) (more : w.cursor < input.length) : w.Overflows ∨ w.given = .ok := by
  have length := h.holds.length
  have filled : w.fill ≤ w.cursor := by
    have behind := Array.getElem?_eq_none_iff.mp missed
    simp only [Segment.fill, Segment.cursor]
    omega
  have some : w.pending ≠ [] := by
    intro none
    rw [none, List.length_nil] at length
    omega
  unfold Window.Overflows
  unfold Supply.FailsLast at fails
  unfold Window.given pending at *
  cases supply : w.supply with
  | nothing =>
      rw [supply] at some
      exact absurd rfl some
  | stream str =>
      rw [supply] at some fails
      rcases fails with ok | spilled | spent
      · exact .inr ok
      · exact .inl spilled
      · exact absurd spent some

/-- Where a look shows NUL the text ends, or the lexeme is too long, or a byte has yet to arrive. -/
theorem Within.shows_nul (h : w.Within input) (fails : w.supply.FailsLast)
    (shown : w.at? 0 = some 0 ∨ w.at? 0 = none) :
    Scan.byte input w.cursor = nul ∨ w.Overflows ∨
      w.at? 0 = none ∧ w.cursor < input.length ∧ w.given = .ok := by
  rcases shown with isNul | missed
  · have byte : input[w.cursor]? = some 0 := h.byte_at isNul
    left
    rw [Scan.byte, byte]
    rfl
  · rcases Nat.lt_or_ge w.cursor input.length with more | behind
    · right
      exact (h.given_of_missed fails missed more).imp_right fun going => ⟨missed, more, going⟩
    · left
      rw [Scan.byte, List.getElem?_eq_none behind]
      rfl

/-- A string ends where its text does. -/
def StringEnds (input : Bytes) (w : Window) : Prop :=
  ∃ s, Scan.EndsString (input.drop (w.cursor + 1)) w.string.1 s ∧
    w.string.2.lexeme = quote :: s

/-- A string is cut short within its text, where a byte has not arrived and nothing has failed. -/
structure StringPauses (input : Bytes) (w : Window) : Prop where
  unclosed : w.string.1 = false
  missed : w.string.2.at? 0 = none
  more : w.string.2.cursor < input.length
  going : w.string.2.given = .ok
  front : ∃ n, Scan.IsOpen false (input.drop (w.cursor + 1)) n ∧
    w.string.2.lexeme = quote :: (input.drop (w.cursor + 1)).take n

/-- How a string is taken that begins with a lexeme, whatever the supply does. -/
theorem Within.string (h : w.Within input) (fails : w.supply.FailsLast) (first : w.len = 0)
    (opening : w.at? 0 = some quote) :
    w.string.2.Overflows ∨ w.StringEnds input ∨ w.StringPauses input := by
  obtain ⟨opens, plain⟩ := h.opens first opening
  have place : (w.extend 1).cursor = w.cursor + 1 := opens.cursor
  have fails' : w.string.2.supply.FailsLast :=
    (along_stringRest (w.extend 1)).onward.keeps Supply.failsLast_refill fails
  have taken : TakesRest input (w.extend 1) w.string.2 w.string.1 :=
    opens.within.stringRest (Nat.succ_pos _)
  generalize isClosed : w.string.1 = closed at taken
  cases taken with
  | closed closes gains =>
      rw [plain, place] at closes
      rw [place] at gains
      exact .inr (.inl ⟨_, isClosed ▸ .closed closes, (opens.trans gains).lexeme_eq first⟩)
  | @cut n front gains shown =>
      rw [plain, place] at front
      rw [place] at gains
      have lexeme := (opens.trans gains).lexeme_eq first
      have cursor : w.string.2.cursor = w.cursor + 1 + n := by
        rw [gains.cursor, place, List.length_take, Nat.min_eq_left front.le_length]
      have here : Scan.byte (input.drop (w.cursor + 1)) n = Scan.byte input w.string.2.cursor := by
        rw [Scan.byte_drop, cursor]
      rcases gains.within.shows_nul fails' shown with isNul | spilled | ⟨missed, more, going⟩
      · have ends := front.endsString (here.trans isNul)
        exact .inr (.inl ⟨_, isClosed ▸ ends, lexeme⟩)
      · exact .inl spilled
      · exact .inr (.inr ⟨isClosed, missed, more, going, n, front, lexeme⟩)

/-! ## Supplies that bring all -/

/-- With the whole input in view a string ends where its text does. -/
theorem string_of_whole (whole : w.supply = .nothing) (arrived : w.cursor ≤ w.fill)
    (first : w.len = 0) (opening : w.at? 0 = some quote) :
    ∃ s, Scan.EndsString (w.rest.drop 1) w.string.1 s ∧ w.string.2.lexeme = quote :: s := by
  have shows := shows_of_whole whole arrived
  have given : w.string.2.given = .endOfInput := by
    have before : (w.extend 1).given = .endOfInput := by
      rw [Window.given, Window.extend, whole]
    have same := (along_stringRest (w.extend 1)).onward.given (by rw [before]; rfl)
    exact same.trans before
  rcases shows.within.string (by rw [whole]; trivial) first opening with spilled | ends | pauses
  · exact absurd (given.symm.trans spilled) (by decide)
  · rw [StringEnds, ← List.drop_drop, drop_cursor] at ends
    exact ends
  · exact absurd (given.symm.trans pauses.going) (by decide)

/-- Over a reader that never pauses a string that fits ends where its text does. -/
theorem Shows.string {ending : Status} (h : w.Shows input ending) (fails : w.supply.FailsLast)
    (first : w.len = 0) (opening : w.at? 0 = some quote) :
    w.string.2.Overflows ∨ w.StringEnds input := by
  rcases h.within.string fails first opening with spilled | ends | pauses
  · exact .inl spilled
  · exact .inr ends
  · left
    apply Classical.byContradiction
    intro fits
    have opened := h.extend (n := 1) (Segment.cursor_lt_fill_of_at? opening)
    have decided := opened.shows.decided_stringRest (Nat.succ_pos _) fits pauses.unclosed
    have arrived : w.string.2.cursor < w.string.2.fill :=
      decided.arrived fun none => absurd (List.getElem?_eq_none_iff.mp none)
        (Nat.not_le_of_lt pauses.more)
    have missed := Array.getElem?_eq_none_iff.mp pauses.missed
    simp only [Segment.cursor, Segment.fill] at arrived
    omega

/--
A string is taken up to the first quote that escaping from the left leaves plain,
or else up to the first NUL or the end: with the whole input in view, and over a
reader that brings something with each read unless the lexeme is too long.  Over
any reader at all it is so, too, but for a read that brings nothing, which cuts the
string short where it is.
-/
theorem strings_end (w : Window) (first : w.len = 0) (opening : w.at? 0 = some quote) :
    (w.supply = .nothing → w.cursor ≤ w.fill →
      ∃ s, Scan.EndsString (w.rest.drop 1) w.string.1 s ∧ w.string.2.lexeme = quote :: s) ∧
    (∀ (reader : Reader) (o : Options), (ofReader reader o).Along w → reader.IsSteady →
      reader.ending.isOk = false → reader.ending.isBufferExceeded = false →
        w.string.2.Overflows ∨ w.StringEnds reader.pending) ∧
    ∀ (reader : Reader) (o : Options), (ofReader reader o).Along w →
      w.string.2.Overflows ∨ w.StringEnds reader.pending ∨ w.StringPauses reader.pending := by
  have fails {reader : Reader} {o : Options} (along : (ofReader reader o).Along w) :
      w.supply.FailsLast := along.onward.keeps Supply.failsLast_refill (.inl rfl)
  refine ⟨?_, ?_, ?_⟩
  · intro whole arrived
    exact string_of_whole whole arrived first opening
  · intro reader o along steady failed other
    have shows := along.shows (shows_ofReader o steady failed other)
    exact shows.string (fails along) first opening
  · intro reader o along
    exact ((within_ofReader reader o).along along).string (fails along) first opening

/-- An escaped quote and an escaped backslash, at hand and in two reads, and a read without bytes
in front of the closing quote. -/
theorem strings_end_around_escapes :
    let text := Bytes.ofString "\"a\\\"b\\\\\" ,"
    let steady : Reader := { pieces := [text.take 3, text.drop 3] }
    let pausing : Reader := { pieces := [Bytes.ofString "\"a", [], Bytes.ofString "b\""] }
    let w := ofBytes text
    let u := ((ofReader steady {}).peek 0).2
    let v := ((ofReader pausing {}).peek 0).2
    (w.supply = .nothing ∧ w.cursor ≤ w.fill ∧ w.len = 0 ∧ w.at? 0 = some quote ∧
      w.string.2.lexeme = text.take 8 ∧
        ∃ s, Scan.EndsString (w.rest.drop 1) true s ∧ text.take 8 = quote :: s) ∧
    (steady.IsSteady ∧ steady.ending.isOk = false ∧ steady.ending.isBufferExceeded = false ∧
      (ofReader steady {}).Along u ∧ u.len = 0 ∧ u.at? 0 = some quote ∧
        u.StringEnds steady.pending) ∧
    (ofReader pausing {}).Along v ∧ v.len = 0 ∧ v.at? 0 = some quote ∧
      v.string.2.lexeme = Bytes.ofString "\"a" ∧ v.StringPauses pausing.pending := by
  intro text steady pausing w u v
  have opens : w.at? 0 = some quote := by decide
  have opens' : u.at? 0 = some quote := by decide +kernel
  have opens'' : v.at? 0 = some quote := by decide +kernel
  have reads : steady.IsSteady := ⟨by decide, by decide⟩
  have along : (ofReader steady {}).Along u := .peek 0 (.refl _)
  have along' : (ofReader pausing {}).Along v := .peek 0 (.refl _)
  have first : u.len = 0 := by decide +kernel
  have first' : v.len = 0 := by decide +kernel
  have lexeme : w.string.2.lexeme = text.take 8 := by decide +kernel
  have closed : w.string.1 = true := by decide +kernel
  have ends := (strings_end w rfl opens).1 rfl (by decide)
  rw [lexeme, closed] at ends
  refine ⟨⟨rfl, by decide, rfl, opens, lexeme, ends⟩,
    ⟨reads, rfl, rfl, along, first, opens', ?_⟩, along', first', opens'', by decide +kernel, ?_⟩
  · have fits : ¬ u.string.2.given = .bufferExceeded := by decide +kernel
    exact ((strings_end u first opens').2.1 steady {} along reads rfl rfl).resolve_left fits
  · have fits : ¬ v.string.2.given = .bufferExceeded := by decide +kernel
    have taken := (strings_end v first' opens'').2.2 pausing {} along'
    rcases taken.resolve_left fits with ends | pauses
    · -- The text goes on behind the pause, to a quote that closes the string.
      have unclosed : v.string.1 = false := by decide +kernel
      obtain ⟨s, ends, _⟩ := ends
      rw [unclosed] at ends
      cases ends with
      | cut never =>
          have front : Scan.IsOpen false (pausing.pending.drop (v.cursor + 1)) 2 := by
            unfold Scan.IsOpen
            decide +kernel
          exact absurd ⟨front, by decide +kernel, by decide +kernel⟩ (never 2)
    · exact pauses

end Window

end JsonEvents
