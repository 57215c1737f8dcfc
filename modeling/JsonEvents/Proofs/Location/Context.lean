import JsonEvents.Proofs.Excerpt
import JsonEvents.Proofs.Location
import JsonEvents.Proofs.Numeral.Nearest
import JsonEvents.Proofs.Window.Along

/-!
# Contexts

The context of a location is an excerpt of its line under the number of the line,
and a caret in a second line.  The excerpt presents the line up to where it ends,
around the column of the location (`contexts_tell`).  The caret is as far from
the margin as the byte of the column, less the digits of the line's number beyond
the fifth (`caret_below`).
-/

namespace JsonEvents

open Ascii

namespace Lines

variable {s : Bytes} {place : Nat}

theorem le_stop (s : Bytes) (place : Nat) : place ≤ stop s place := Nat.le_add_right _ _

theorem stop_le (inside : place ≤ s.length) : stop s place ≤ s.length := by
  have bound := Scan.run_le isInside (s.drop place)
  rw [List.length_drop] at bound
  rw [stop]
  omega

/-- A column lies on its line, or right behind it. -/
theorem column_le_length_text (inside : place ≤ s.length) :
    column s place ≤ (text s place).length + 1 := by
  have behind := le_stop s place
  have bound := stop_le inside
  rw [column, text, List.length_take, List.length_drop]
  omega

theorem takeWhile_eq_take (p : UInt8 → Bool) (s : Bytes) : s.takeWhile p = s.take (Scan.run p s) :=
  List.prefix_iff_eq_take.mp (List.takeWhile_prefix p)

end Lines

namespace Excerpt

/-- A context that shows a line with its number, around a column, and took no difference below zero. -/
def Tells (text : Bytes) (column line : Nat) (context : Bytes) : Prop :=
  ∃ first e, ofLine? text column = some e ∧ Presents text column first e ∧
    context = Digits.padded 5 line ++ [colon, space] ++ (e.front ++ e.shown ++ e.rear) ++
      lineFeed :: e.caretLine

variable {text : Bytes} {column : Nat}

theorem tells_render (line : Nat) (counted : 1 ≤ column) (reached : column ≤ text.length + 1) :
    Tells text column line ((ofLine text column).render line) := by
  obtain ⟨first, presents⟩ := presents_ofLine counted reached
  refine ⟨first, ofLine text column, ofLine?_eq text column, presents, ?_⟩
  simp only [render, topLine, List.append_assoc, List.cons_append, List.nil_append]

end Excerpt

/-! ## The line in a window -/

namespace Window

variable {input : Bytes} {ending : Status} {w : Window}

theorem along_extendToLineEnd (w : Window) : Along w w.extendToLineEnd := by
  fun_induction extendToLineEnd w with
  | case1 w c v seen => exact .of_peek seen
  | case2 w c v seen goesOn ih =>
      have some : c ≠ nul := fun isNul => goesOn (.inl isNul)
      exact (Along.of_take seen some (Nat.le_refl 1)).trans ih

theorem Shows.extendToLineEnd (h : w.Shows input ending) (fits : ¬ w.extendToLineEnd.Overflows) :
    Covers input ending w w.extendToLineEnd (Scan.run Lines.isInside (input.drop w.cursor)) := by
  fun_induction Window.extendToLineEnd w with
  | case1 w c v seen stops =>
      obtain ⟨looked, sees⟩ := h.sees seen fits
      rw [sees.byte_eq, ← Lines.isInside_eq_false] at stops
      rw [Scan.run_of_not_byte stops]
      exact looked
  | case2 w c v seen goesOn ih =>
      have some : c ≠ nul := fun isNul => goesOn (.inl isNul)
      have fits' : ¬ v.Overflows := (along_extendToLineEnd (v.extend 1)).onward.fits fits
      have byte := (h.sees seen fits').2.byte_eq
      have taken := h.take seen fits' some (Nat.le_refl 1)
      have rest := ih taken.shows fits
      rw [byte, ← Lines.isInside_eq_false, Bool.not_eq_false] at goesOn
      rw [Scan.run_of_byte rfl goesOn, List.drop_drop, Nat.add_comm (Scan.run _ _), ← taken.cursor]
      exact taken.trans rest

/-- The bytes covered go behind the lexeme. -/
theorem Covers.lexeme {v : Window} {n : Nat} (h : Covers input ending w v n)
    (shows : w.Shows input ending) : v.lexeme = w.lexeme ++ (input.drop w.cursor).take n := by
  have cursor := h.cursor
  have offset := h.offset
  have len : v.len = w.len + n := by
    simp only [Segment.cursor, Segment.offset] at cursor offset
    omega
  have behind : w.offset + w.len = w.cursor := rfl
  rw [h.shows.lexeme_eq, shows.lexeme_eq, h.offset, len, List.take_add, List.drop_drop, behind]

/-- What is told at the end of the lexeme, which began with the line. -/
theorem Shows.locationOnLine (h : w.Shows input ending) (fits : ¬ w.extendToLineEnd.Overflows)
    (line : Nat) :
    Excerpt.Tells (w.lexeme ++ (input.drop w.cursor).takeWhile Lines.isInside) (w.len + 1) line
      (w.locationOnLine line).1.context := by
  have lexeme := (h.extendToLineEnd fits).lexeme h
  have len : w.lexeme.length = w.len := by
    have length := h.holds.length
    have arrived := h.arrived
    simp only [Segment.cursor, Segment.fill] at length arrived
    rw [h.lexeme_eq, List.length_take, List.length_drop, Segment.offset]
    omega
  rw [Lines.takeWhile_eq_take, ← lexeme]
  apply Excerpt.tells_render
  · exact Nat.le_add_left 1 w.len
  · rw [lexeme, List.length_append, len]
    omega

end Window

/-! ## The line of a location -/

namespace Location

/-- Every offset leads to some place of the input, whatever it is counted in. -/
theorem exists_place {δ : Type} [NatCast δ] [Sub δ] [DecidableEq δ] (input : Bytes) (offset : δ) :
    ∃ place ≤ input.length, (ofBytes input offset).2 = ofPlace input place := by
  have last : input.idxOf 0 ≤ input.length := List.idxOf_le_length
  have bound : Lines.seek (· - ·) input 0 0 offset ≤ input.idxOf 0 :=
    Lines.seek_le _ offset (Nat.zero_le _)
  refine ⟨_, Nat.le_trans bound last, ?_⟩
  rw [ofBytes_eq_found, found]

theorem tells_ofPlace {input : Bytes} {place : Nat} (inside : place ≤ input.length) :
    Excerpt.Tells (Lines.text input place) (Lines.column input place) (Lines.number input place)
      (ofPlace input place).context :=
  Excerpt.tells_render _ (Nat.le_add_left 1 _) (Lines.column_le_length_text inside)

/--
What a context shows.  For every text of a line and every column of it, or one
behind it, it is an excerpt that presents the text.  In a window that begins with
the line this is the text up to the next terminator or NUL, or to the end of the
input, if that fits, and so it is for every offset of an input, be it counted in
words or in integers: the line feed of a pair has the carriage return on its line.
-/
theorem contexts_tell :
    (∀ (text : Bytes) (column line : Nat), 1 ≤ column → column ≤ text.length + 1 →
      Excerpt.Tells text column line ((Excerpt.ofLine text column).render line)) ∧
      (∀ (input : Bytes) (ending : Status) (w : Window) (line : Nat), w.Shows input ending →
        ¬ w.extendToLineEnd.Overflows →
          Excerpt.Tells (w.lexeme ++ (input.drop w.cursor).takeWhile Lines.isInside) (w.len + 1)
            line (w.locationOnLine line).1.context) ∧
      ∀ {δ : Type} [NatCast δ] [Sub δ] [DecidableEq δ] (input : Bytes) (offset : δ),
        ∃ place ≤ input.length,
          (ofBytes input offset).2.line = Lines.number input place ∧
            (ofBytes input offset).2.column = Lines.column input place ∧
            Excerpt.Tells (Lines.text input place) (Lines.column input place)
              (Lines.number input place) (ofBytes input offset).2.context := by
  refine ⟨?_, ?_, ?_⟩
  · intro text column line counted reached
    exact Excerpt.tells_render line counted reached
  · intro input ending w line shows fits
    exact shows.locationOnLine fits line
  · intro _ _ _ _ input offset
    obtain ⟨place, inside, found⟩ := exists_place input offset
    rw [found]
    exact ⟨place, inside, rfl, rfl, tells_ofPlace inside⟩

/-- The line feed of a pair behind a long line, in the window that holds the whole input. -/
theorem contexts_tell_line_feed_of_pair :
    let text := List.replicate 69 zero ++ [carriageReturn]
    let input := text ++ [lineFeed, one]
    1 ≤ 71 ∧ 71 ≤ text.length + 1 ∧ (Window.ofBytes input).Shows input .endOfInput ∧
      ¬ (Window.ofBytes input).extendToLineEnd.Overflows ∧
      Excerpt.Tells text 71 1 ((Excerpt.ofLine text 71).render 1) ∧
      Excerpt.Tells (List.replicate 69 zero) 1 1
        ((Window.ofBytes input).locationOnLine 1).1.context := by
  intro text input
  obtain ⟨lines, windows, _⟩ := contexts_tell
  have shows := Window.shows_ofBytes input
  have fits : ¬ (Window.ofBytes input).extendToLineEnd.Overflows := by
    have stays := (Window.along_extendToLineEnd (Window.ofBytes input)).onward.given rfl
    rw [Window.Overflows, stays]
    decide
  have line : (Window.ofBytes input).lexeme ++
      (input.drop (Window.ofBytes input).cursor).takeWhile Lines.isInside =
        List.replicate 69 zero := by decide
  have counted : 1 ≤ 71 := by decide
  have reached : 71 ≤ text.length + 1 := by decide
  have window := windows input _ _ 1 shows fits
  rw [line] at window
  exact ⟨counted, reached, shows, fits, lines text 71 1 counted reached, window⟩

end Location

/-! ## The caret -/

namespace Digits

theorem length_padded (width n : Nat) :
    (padded width n).length = width - digitCount n + digitCount n := by
  rw [padded, List.length_append, List.length_replicate, digits_length]

/-- Five digits are enough for the numbers below a hundred thousand. -/
theorem digitCount_le_five_iff (n : Nat) : digitCount n ≤ 5 ↔ n < 100000 := by
  obtain ⟨below, above, some⟩ := Numeral.digitCount_bounds n
  have fifth : Numeral.tenTo 5 = 100000 := rfl
  constructor
  · intro few
    have powers := Numeral.tenTo_le few
    omega
  · intro small
    apply Nat.le_of_not_lt
    intro many
    have powers := Numeral.tenTo_le (show 5 ≤ digitCount n - 1 by omega)
    have present : 0 < n := by
      apply Nat.pos_of_ne_zero
      rintro rfl
      have one : digitCount 0 = 1 := by rw [digitCount, if_pos (by decide)]
      omega
    have enough := above present
    omega

end Digits

namespace Excerpt

variable {text top : Bytes} {column first line place : Nat} {e : Excerpt}

/-- Where the upper line of a context has the byte of a column, or its own end if that is behind. -/
structure Above (text : Bytes) (column line : Nat) (top : Bytes) (place : Nat) : Prop where
  block : ∃ first e, Presents text column first e ∧ top = e.topLine line ∧
    place = (Digits.padded 5 line ++ [colon, space] ++ e.front).length + (column - 1 - first)
  byte : ∀ c, text[column - 1]? = some c →
    top[place]? = some (if c < space ∨ c = delete then space else c)
  behind : column = text.length + 1 → place = top.length

/-- The byte of the column is behind the number, the colon and what marks the front. -/
theorem Presents.above (h : Presents text column first e) (line : Nat) :
    Above text column line (e.topLine line)
      ((Digits.padded 5 line ++ [colon, space] ++ e.front).length + (column - 1 - first)) := by
  have inside := h.inside
  have before := h.holds.1
  constructor
  case block => exact ⟨first, e, h, rfl, rfl⟩
  case byte =>
    intro c here
    have within : column - 1 - first < e.shown.length := by
      have present := (List.getElem?_eq_some_iff.mp here).1
      rcases h.holds.2 with held | ⟨last, all⟩ <;> omega
    have same : first + (column - 1 - first) = column - 1 := by omega
    rw [← same] at here
    rw [topLine, List.append_assoc _ e.shown, List.getElem?_append_right (Nat.le_add_right _ _),
      Nat.add_sub_cancel_left, List.getElem?_append_left within]
    exact h.bytes _ within c here
  case behind =>
    intro last
    have all : first + e.shown.length = text.length := by
      rcases h.holds.2 with held | ⟨_, all⟩ <;> omega
    have rear : e.rear = [] := by rw [h.rear, if_pos all]
    have length : (e.topLine line).length =
        (Digits.padded 5 line ++ [colon, space] ++ e.front).length + e.shown.length := by
      rw [topLine, rear, List.append_nil, List.length_append]
    omega

/-- The number is as wide as the caret's line takes it to be, but for its digits beyond the fifth. -/
theorem Presents.place_of_caret (h : Presents text column first e) (line : Nat) :
    e.column + 6 + (Digits.digitCount line - 5) =
      (Digits.padded 5 line ++ [colon, space] ++ e.front).length + (column - 1 - first) := by
  have caret := h.caret
  have before := h.holds.1
  have colon : [colon, space].length = 2 := rfl
  rw [List.length_append, List.length_append, Digits.length_padded, colon]
  omega

end Excerpt

namespace Location

/--
For every offset, be it counted in words or in integers, the context is two lines,
the second one a caret behind blanks.
The byte of the column, or the end of the first line if the column is behind the
text, has as many bytes in front of it as there are blanks, and one more for each
digit of the line's number beyond the fifth.  So the caret is below it just on the
lines below the hundred thousandth.
-/
theorem caret_below {δ : Type} [NatCast δ] [Sub δ] [DecidableEq δ] (input : Bytes) (offset : δ) :
    let location := (ofBytes input offset).2
    ∃ here ≤ input.length, ∃ top blanks place,
      location.line = Lines.number input here ∧ location.column = Lines.column input here ∧
        location.context = top ++ lineFeed :: (List.replicate blanks space ++ [caret]) ∧
        lineFeed ∉ top ∧
        Excerpt.Above (Lines.text input here) location.column location.line top place ∧
        place = blanks + (Digits.digitCount location.line - 5) ∧
        (place = blanks ↔ location.line < 100000) := by
  intro location
  obtain ⟨here, inside, found⟩ := exists_place input offset
  have same : location = ofPlace input here := found
  clear_value location
  subst same
  obtain ⟨first, presents⟩ := Excerpt.presents_ofLine (Nat.le_add_left 1 _)
    (Lines.column_le_length_text inside)
  have caret := presents.place_of_caret (Lines.number input here)
  have few := Digits.digitCount_le_five_iff (Lines.number input here)
  refine ⟨here, inside, _, _, _, rfl, rfl, ?_, ?_, presents.above (Lines.number input here),
    caret.symm, ?_⟩
  · simp only [ofPlace, Excerpt.render, Excerpt.caretLine, List.append_assoc, List.cons_append,
      List.nil_append]
    rfl
  · intro member
    exact absurd (Excerpt.space_le_of_mem_topLine member) (by decide)
  · have line : (ofPlace input here).line = Lines.number input here := rfl
    rw [line]
    omega

end Location

end JsonEvents
