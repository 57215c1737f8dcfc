import JsonEvents.Location
import JsonEvents.Proofs.Lines
import JsonEvents.Proofs.Lines.Seek
import JsonEvents.Proofs.Window.Watched

/-!
# Locations by lines

A window that goes through an input line by line (`Stands`) comes to the place
that the search on the text itself comes to, if every line fits in it, and finds
what the list of the line ends says of that place (`Location.ofPlace`).
-/

namespace JsonEvents

open Ascii

/-- The location of a place by the lines of the input. -/
def Location.ofPlace (input : Bytes) (place : Nat) : Location :=
  { line := Lines.number input place
    column := Lines.column input place
    context := (Excerpt.ofLine (Lines.text input place) (Lines.column input place)).render
      (Lines.number input place) }

/-- What is found at a place: its location, and why the text ends if it ends there. -/
def Location.found (input : Bytes) (ending : Status) (place : Nat) : Status × Location :=
  (if place < input.idxOf 0 then .ok else if input.idxOf 0 < input.length then .endOfInput else ending,
    .ofPlace input place)

namespace Window

variable {input : Bytes} {ending : Status} {top : Nat} {v w : Window}

/-- The lexeme is what is in front of the cursor on its line, and no NUL is in front of it. -/
structure Stands (input : Bytes) (ending : Status) (top : Nat) (w : Window) : Prop where
  shows : w.Shows input ending
  fits : ¬ w.Overflows
  tops : w.supply.Tops top
  offset : w.offset = Lines.start input w.cursor
  clean : ∀ i < w.cursor, Scan.byte input i ≠ 0

/-- A line begins behind the terminator of the one before. -/
theorem cursor_nextLine {n : Nat} (arrived : w.cursor + (n + 1) ≤ w.fill) :
    (w.extend (n + 1)).skip.cursor = w.cursor + n + 1 :=
  (cursor_skip (by rw [cursor_extend]; exact arrived)).trans (cursor_extend w (n + 1))

theorem cursor_sub_offset (w : Window) : w.cursor - w.offset = w.len :=
  Nat.add_sub_cancel_left _ _

theorem cursor_add_sub_offset (w : Window) (n : Nat) : w.cursor + n - w.offset = w.len + n := by
  have last := cursor_sub_offset w
  have first : w.offset ≤ w.cursor := Nat.le_add_right _ _
  omega

namespace Stands

theorem len (h : Stands input ending top w) : w.len + 1 = Lines.column input w.cursor := by
  rw [Lines.column, ← h.offset]
  simp only [Segment.cursor, Segment.offset]
  omega

theorem inside (h : Stands input ending top w) : w.cursor ≤ input.length := by
  have length := h.shows.holds.length
  have arrived := h.shows.arrived
  omega

/-! ## Looks and moves -/

/-- A look at the cursor or right behind it, if every line and the byte behind it fit. -/
theorem peek {i : Nat} {c : UInt8} (h : Stands input ending top w)
    (room : Lines.Fit input top) (seen : w.peek i = (c, v))
    (near : i = 0 ∨ i = 1 ∧ w.cursor < input.length) :
    Stands input ending top v ∧ v.cursor = w.cursor ∧ c = Scan.byte input (w.cursor + i) ∧
      (input.length ≤ w.cursor + i → v.given = ending) := by
  have fits : ¬ v.Overflows := by
    intro spilled
    have looks := h.shows.looks i
    rw [seen] at looks
    cases looks with
    | sees _ _ kept => exact h.fits (kept spilled)
    | spills _ _ _ cause =>
        have much := cause.resolve_left h.fits
        have more := much.one_lt
        have beyond := much.lt h.tops
        have column := h.len
        rcases Nat.lt_or_eq_of_le h.inside with before | last
        · have := room w.cursor before
          omega
        · cases place : w.cursor with
          | zero =>
              rw [place, Lines.column_zero] at column
              omega
          | succ previous =>
              have := room previous (by omega)
              have := Lines.column_succ_le input previous
              rw [place] at column
              omega
  obtain ⟨looked, sees⟩ := h.shows.sees seen fits
  refine ⟨⟨looked.shows, fits, (Onward.of_peek seen).tops h.tops, ?_, ?_⟩, looked.cursor, ?_, ?_⟩
  · rw [looked.offset, looked.cursor]
    exact h.offset
  · rw [looked.cursor]
    exact h.clean
  · rw [sees.byte_eq, Scan.byte_drop]
  · exact fun behind => sees.ended (List.getElem?_eq_none_iff.mpr behind)

theorem clean_add {n : Nat} (h : Stands input ending top w)
    (some : ∀ i < n, Scan.byte input (w.cursor + i) ≠ 0) :
    ∀ i < w.cursor + n, Scan.byte input i ≠ 0 := by
  intro i before
  rcases Nat.lt_or_ge i w.cursor with front | behind
  · exact h.clean i front
  · obtain ⟨j, rfl⟩ := Nat.exists_eq_add_of_le behind
    exact some j (by omega)

/-- Taking a byte that ends no line. -/
theorem take (h : Stands input ending top w) (arrived : w.cursor + 1 ≤ w.fill)
    (some : Scan.byte input w.cursor ≠ 0) (inside : Lines.isEnd input w.cursor = false) :
    Stands input ending top (w.extend 1) := by
  have covers := h.shows.extend arrived
  refine ⟨covers.shows, h.fits, h.tops, ?_, ?_⟩
  · rw [covers.offset, covers.cursor, Lines.start_succ_of_inside inside]
    exact h.offset
  · rw [covers.cursor]
    refine h.clean_add fun i first => ?_
    rwa [Nat.lt_one_iff.mp first]

/-- Going on behind a terminator. -/
theorem nextLine {n : Nat} (h : Stands input ending top w) (arrived : w.cursor + (n + 1) ≤ w.fill)
    (some : ∀ i < n + 1, Scan.byte input (w.cursor + i) ≠ 0)
    (isEnd : Lines.isEnd input (w.cursor + n) = true) :
    Stands input ending top (w.extend (n + 1)).skip := by
  have covers := h.shows.extend arrived
  have cursor := cursor_nextLine arrived
  refine ⟨covers.shows.skip, h.fits, h.tops, ?_, ?_⟩
  · rw [cursor, Lines.start_succ_of_end isEnd]
    exact cursor
  · rw [cursor]
    exact h.clean_add some

/-! ## Excerpts and locations -/

theorem extendToLineEnd (h : Stands input ending top w)
    (room : Lines.Fit input top) :
    Stands input ending top w.extendToLineEnd ∧
      w.extendToLineEnd.cursor = Lines.stop input w.cursor ∧
      w.extendToLineEnd.offset = w.offset := by
  fun_induction Window.extendToLineEnd w with
  | case1 w c v seen stops =>
      obtain ⟨stands, cursor, byte, _⟩ := h.peek room seen (.inl rfl)
      have offset := offset_peek w 0
      rw [seen] at offset
      rw [Nat.add_zero] at byte
      rw [byte, ← Lines.isInside_eq_false] at stops
      exact ⟨stands, cursor.trans (Lines.stop_of_outside stops).symm, offset⟩
  | case2 w c v seen goesOn ih =>
      obtain ⟨stands, cursor, byte, _⟩ := h.peek room seen (.inl rfl)
      have offset := offset_peek w 0
      rw [seen] at offset
      rw [Nat.add_zero] at byte
      have some : c ≠ 0 := fun isNul => goesOn (.inl isNul)
      have arrived := peek_sees seen some
      rw [byte, ← Lines.isInside_eq_false, Bool.not_eq_false] at goesOn
      rw [byte] at some
      rw [← cursor] at some goesOn arrived
      obtain ⟨stands', stop, offset'⟩ := ih
        (stands.take arrived some (Lines.isEnd_of_isInside goesOn))
      refine ⟨stands', ?_, offset'.trans offset⟩
      rw [stop, cursor_extend, ← cursor, Lines.stop_of_inside goesOn]

/-- The location at the cursor. -/
theorem locationOnLine (h : Stands input ending top w)
    (room : Lines.Fit input top) :
    (w.locationOnLine (Lines.number input w.cursor)).1 = Location.ofPlace input w.cursor := by
  obtain ⟨stands, stop, offset⟩ := h.extendToLineEnd room
  have lexeme : w.extendToLineEnd.lexeme = Lines.text input w.cursor := by
    have len : w.extendToLineEnd.len =
        Lines.stop input w.cursor - Lines.start input w.cursor := by
      rw [← stop, ← h.offset, ← offset]
      simp only [Segment.cursor, Segment.offset]
      omega
    rw [stands.shows.lexeme_eq, len, offset, h.offset, Lines.text]
  simp only [Window.locationOnLine, lexeme, h.len, Location.ofPlace]

/-- At NUL the window is at the end of the input, or a byte stands in its way. -/
theorem status_at_nul (h : Stands input ending top w)
    (room : Lines.Fit input top)
    (nul : Scan.byte input w.cursor = 0) :
    w.extendToLineEnd.status = if w.cursor < input.length then .ok else ending := by
  rcases seen : w.peek 0 with ⟨c, v⟩
  obtain ⟨stands, cursor, byte, ended⟩ := h.peek room seen (.inl rfl)
  rw [Nat.add_zero] at byte ended
  have stops : w.extendToLineEnd = v := by
    rw [Window.extendToLineEnd]
    split
    next c' v' seen' =>
      obtain ⟨rfl, rfl⟩ := Prod.mk.inj (seen'.symm.trans seen)
      exact if_pos (.inl (byte.trans nul))
  rw [stops]
  by_cases before : w.cursor < input.length
  · rw [if_pos before]
    apply stands.shows.status_of_more stands.fits
    rw [cursor, List.getElem?_eq_getElem before]
    exact Option.some_ne_none _
  · have behind := Nat.le_of_not_lt before
    rw [if_neg before, stands.shows.status_of_end, ended behind]
    rw [cursor, List.getElem?_eq_none behind]

end Stands

/-! ## From line to line -/

section Search

variable {δ : Type} [NatCast δ] [DecidableEq δ] {minus : δ → δ → δ}

/-- One round of the search. -/
theorem locateFrom_eq {c : UInt8} (seen : w.peek 0 = (c, v)) (minus : δ → δ → δ) (line : Nat)
    (distance : δ) :
    w.locateFrom minus line distance =
      if c = nul then
        (if v.extendToLineEnd.status.isOk then .endOfInput else v.extendToLineEnd.status,
          (v.locationOnLine line).1)
      else if distance = v.len then (.ok, (v.locationOnLine line).1)
      else if c = lineFeed then
        (v.extend 1).skip.locateFrom minus (line + 1) (minus distance (v.len + 1 : Nat))
      else if c = carriageReturn then
        if (v.peek 1).1 = lineFeed then
          if distance = ((v.peek 1).2.len + 1 : Nat) then
            ((v.peek 1).2.extend 1).locateFrom minus line distance
          else
            ((v.peek 1).2.extend 2).skip.locateFrom minus (line + 1)
              (minus distance ((v.peek 1).2.len + 2 : Nat))
        else
          ((v.peek 1).2.extend 1).skip.locateFrom minus (line + 1)
            (minus distance ((v.peek 1).2.len + 1 : Nat))
      else
        (v.extend 1).locateFrom minus line distance := by
  rw [Window.locateFrom]
  split
  next c' v' seen' =>
    obtain ⟨rfl, rfl⟩ := Prod.mk.inj (seen'.symm.trans seen)
    rfl

/-- The search on the text goes on over a byte as the window does. -/
theorem seek_take {distance : δ} (some : Scan.byte input w.cursor ≠ 0)
    (inside : Lines.isEnd input w.cursor = false) (other : distance ≠ w.len) :
    Lines.seek minus input w.offset w.cursor distance =
      Lines.seek minus input (w.extend 1).offset (w.extend 1).cursor distance := by
  rw [cursor_extend]
  exact Lines.seek_of_inside some (by rwa [cursor_sub_offset]) inside

/-- It goes on behind a terminator as the window does. -/
theorem seek_nextLine {n : Nat} {distance : δ} (arrived : w.cursor + (n + 1) ≤ w.fill)
    (some : Scan.byte input (w.cursor + n) ≠ 0) (isEnd : Lines.isEnd input (w.cursor + n) = true)
    (other : distance ≠ (w.len + n : Nat)) :
    Lines.seek minus input w.offset (w.cursor + n) distance =
      Lines.seek minus input (w.extend (n + 1)).skip.offset (w.extend (n + 1)).skip.cursor
        (minus distance (w.len + (n + 1) : Nat)) := by
  have cursor := cursor_nextLine arrived
  have offset : (w.extend (n + 1)).skip.offset = w.cursor + n + 1 := cursor
  rw [cursor, offset, ← cursor_add_sub_offset]
  exact Lines.seek_of_end some (by rwa [cursor_add_sub_offset]) isEnd

/-- A look at the cursor. -/
theorem Stands.look {c : UInt8} (h : Stands input ending top w) (room : Lines.Fit input top)
    (seen : w.peek 0 = (c, v)) :
    Stands input ending top v ∧ v.cursor = w.cursor ∧ v.offset = w.offset ∧
      c = Scan.byte input v.cursor ∧ (c ≠ 0 → v.cursor + 1 ≤ v.fill) := by
  obtain ⟨stands, cursor, byte, _⟩ := h.peek room seen (.inl rfl)
  have offset := offset_peek w 0
  rw [seen] at offset
  refine ⟨stands, cursor, offset, ?_, fun some => ?_⟩
  · rw [byte, cursor, Nat.add_zero]
  · have arrived := peek_sees seen some
    rwa [← cursor] at arrived

/-- A look behind the carriage return at the cursor. -/
theorem Stands.lookBehind {c : UInt8} (h : Stands input ending top w)
    (room : Lines.Fit input top) (arrived : w.cursor + 1 ≤ w.fill) (seen : w.peek 1 = (c, v)) :
    Stands input ending top v ∧ v.cursor = w.cursor ∧ v.offset = w.offset ∧
      c = Scan.byte input (v.cursor + 1) ∧ v.cursor + 1 ≤ v.fill ∧
      (c ≠ 0 → v.cursor + 2 ≤ v.fill) := by
  have length := h.shows.holds.length
  have filled := (peek_keeps seen).2.2
  obtain ⟨stands, cursor, byte, _⟩ := h.peek room seen (.inr ⟨rfl, by omega⟩)
  have offset := offset_peek w 1
  rw [seen] at offset
  refine ⟨stands, cursor, offset, cursor ▸ byte, by omega, fun some => ?_⟩
  have arrived := peek_sees seen some
  rwa [← cursor] at arrived

/-- The search in the window comes to the place that the search on the text comes to. -/
theorem Stands.locateFrom {line : Nat} {distance : δ} (h : Stands input ending top w)
    (room : Lines.Fit input top) (counts : line = Lines.number input w.cursor) :
    w.locateFrom minus line distance =
      Location.found input ending (Lines.seek minus input w.offset w.cursor distance) := by
  induction w, line, distance using Window.locateFrom.induct minus with
  | case1 w line distance v location u excerpt seen =>
      obtain ⟨stands, cursor, offset, byte, _⟩ := h.look room seen
      have last := Lines.idxOf_eq stands.clean byte.symm
      rw [← cursor] at counts ⊢
      rw [locateFrom_eq seen, if_pos rfl, Lines.seek_of_nul byte.symm, Location.found, last,
        if_neg (Nat.lt_irrefl _), counts, stands.locationOnLine room,
        stands.status_at_nul room byte.symm]
      by_cases more : v.cursor < input.length
      · rw [if_pos more, if_pos more]
        rfl
      · rw [if_neg more, if_neg more, if_neg (Bool.eq_false_iff.mp h.shows.failed)]
  | case2 w line c v seen some =>
      obtain ⟨stands, cursor, offset, byte, _⟩ := h.look room seen
      rw [← cursor] at counts ⊢
      have some' : Scan.byte input v.cursor ≠ 0 := byte ▸ some
      have here : (v.len : δ) = (v.cursor - w.offset : Nat) := by rw [← offset, cursor_sub_offset]
      rw [locateFrom_eq seen, if_neg some, if_pos rfl, Lines.seek_of_here some' here,
        Location.found, if_pos (Lines.lt_idxOf stands.clean some'), counts,
        stands.locationOnLine room]
  | case3 w line distance v other seen some ih =>
      obtain ⟨stands, cursor, offset, byte, arrived⟩ := h.look room seen
      rw [← cursor] at counts ⊢
      have some' : Scan.byte input v.cursor ≠ 0 := byte ▸ some
      have isEnd := Lines.isEnd_of_lineFeed byte.symm
      have stands' := stands.nextLine (n := 0) (arrived some) (by simpa using some') isEnd
      have counts' : line + 1 = Lines.number input (v.extend 1).skip.cursor := by
        rw [cursor_nextLine (arrived some), counts, Lines.number_succ_of_end isEnd]
      rw [locateFrom_eq seen, if_neg some, if_neg other, if_pos rfl, ih stands' counts', ← offset]
      exact congrArg _ (seek_nextLine (arrived some) some' isEnd other).symm
  | case4 w line v u other seen some noFeed feed ih =>
      -- The place is the line feed of the pair, which is on the line that it ends.
      obtain ⟨stands, cursor, offset, byte, arrived⟩ := h.look room seen
      obtain ⟨stands', cursor', offset', byte', arrived', _⟩ :=
        stands.lookBehind room (arrived some) feed
      rw [← len_of_peek feed] at other
      rw [← cursor, ← cursor'] at counts ⊢
      rw [← cursor'] at byte
      have some' : Scan.byte input u.cursor ≠ 0 := byte ▸ some
      have inside := Lines.isEnd_of_pair byte.symm byte'.symm
      have counts' : line = Lines.number input (u.extend 1).cursor := by
        rw [cursor_extend, counts, Lines.number_succ_of_inside inside]
      rw [locateFrom_eq seen, if_neg some, if_neg (len_of_peek feed ▸ other), if_neg noFeed,
        if_pos rfl, feed, if_pos rfl, if_pos rfl, ih (stands'.take arrived' some' inside) counts',
        ← offset, ← offset', seek_take some' inside other]
  | case5 w line distance v other u other' seen some noFeed feed ih =>
      obtain ⟨stands, cursor, offset, byte, arrived⟩ := h.look room seen
      obtain ⟨stands', cursor', offset', byte', _, both⟩ :=
        stands.lookBehind room (arrived some) feed
      rw [← len_of_peek feed] at other
      rw [← cursor, ← cursor'] at counts ⊢
      rw [← cursor'] at byte
      have some' : Scan.byte input u.cursor ≠ 0 := byte ▸ some
      have feed' : Scan.byte input (u.cursor + 1) ≠ 0 := byte' ▸ by decide
      have inside := Lines.isEnd_of_pair byte.symm byte'.symm
      have isEnd := Lines.isEnd_of_lineFeed byte'.symm
      have clean : ∀ i < 2, Scan.byte input (u.cursor + i) ≠ 0 := by
        intro i first
        match i, first with
        | 0, _ => exact some'
        | 1, _ => exact feed'
      have stands'' := stands'.nextLine (n := 1) (both (by decide)) clean isEnd
      have counts' : line + 1 = Lines.number input (u.extend 2).skip.cursor := by
        rw [cursor_nextLine (both (by decide)), counts, Lines.number_succ_of_end isEnd,
          Lines.number_succ_of_inside inside]
      rw [locateFrom_eq seen, if_neg some, if_neg (len_of_peek feed ▸ other), if_neg noFeed,
        if_pos rfl, feed, if_pos rfl, if_neg other', ih stands'' counts', ← offset, ← offset',
        seek_take some' inside other, cursor_extend]
      exact congrArg _ (seek_nextLine (both (by decide)) feed' isEnd other').symm
  | case6 w line distance v other c u seen' alone seen some noFeed ih =>
      obtain ⟨stands, cursor, offset, byte, arrived⟩ := h.look room seen
      obtain ⟨stands', cursor', offset', byte', arrived', _⟩ :=
        stands.lookBehind room (arrived some) seen'
      rw [← len_of_peek seen'] at other
      rw [← cursor, ← cursor'] at counts ⊢
      rw [← cursor'] at byte
      have some' : Scan.byte input u.cursor ≠ 0 := byte ▸ some
      have isEnd := Lines.isEnd_of_carriageReturn byte.symm (byte' ▸ alone)
      have stands'' := stands'.nextLine (n := 0) arrived' (by simpa using some') isEnd
      have counts' : line + 1 = Lines.number input (u.extend 1).skip.cursor := by
        rw [cursor_nextLine arrived', counts, Lines.number_succ_of_end isEnd]
      rw [locateFrom_eq seen, if_neg some, if_neg (len_of_peek seen' ▸ other), if_neg noFeed,
        if_pos rfl, seen', if_neg alone, ih stands'' counts', ← offset, ← offset']
      exact congrArg _ (seek_nextLine arrived' some' isEnd other).symm
  | case7 w line distance c v seen some other noFeed noCarriage ih =>
      obtain ⟨stands, cursor, offset, byte, arrived⟩ := h.look room seen
      rw [← cursor] at counts ⊢
      have some' : Scan.byte input v.cursor ≠ 0 := byte ▸ some
      have inside : Lines.isEnd input v.cursor = false := by
        rw [byte] at noFeed noCarriage
        exact Lines.isEnd_of_other noFeed noCarriage
      have counts' : line = Lines.number input (v.extend 1).cursor := by
        rw [cursor_extend, counts, Lines.number_succ_of_inside inside]
      rw [locateFrom_eq seen, if_neg some, if_neg other, if_neg noFeed, if_neg noCarriage,
        ih (stands.take (arrived some) some' inside) counts', ← offset,
        seek_take some' inside other]

end Search

theorem stands_ofBytes (input : Bytes) (top : Nat) :
    Stands input .endOfInput top (ofBytes input) where
  shows := shows_ofBytes input
  fits := by nofun
  tops := trivial
  offset := rfl
  clean := nofun

end Window

namespace Location

theorem found_of_inside {input : Bytes} {target : Int} (first : 0 ≤ target)
    (inside : target < input.idxOf 0) (ending : Status) :
    found input ending (Lines.clip input target) = (.ok, ofPlace input target.toNat) := by
  rw [Lines.clip, if_pos ⟨first, inside⟩, found, if_pos (by omega)]

theorem found_of_outside {input : Bytes} {target : Int}
    (outside : ¬ (0 ≤ target ∧ target < input.idxOf 0)) :
    found input .endOfInput (Lines.clip input target) =
      (.endOfInput, ofPlace input (input.idxOf 0)) := by
  rw [Lines.clip, if_neg outside, found, if_neg (Nat.lt_irrefl _), ite_self]

section Search

variable {δ : Type} [NatCast δ] [DecidableEq δ]

/-- Every line of a text at hand fits, so the search comes to its place. -/
theorem locateFrom_eq_found (input : Bytes) (minus : δ → δ → δ) (distance : δ) :
    (Window.ofBytes input).locateFrom minus 1 distance =
      found input .endOfInput (Lines.seek minus input 0 0 distance) :=
  (Window.stands_ofBytes input _).locateFrom (Lines.fit_length input) rfl

theorem ofBytes_eq_found [Sub δ] (input : Bytes) (offset : δ) :
    ofBytes input offset = found input .endOfInput (Lines.seek (· - ·) input 0 0 offset) :=
  locateFrom_eq_found input _ offset

end Search

/-! ## Places among bytes at hand -/

theorem ofBytes_int (input : Bytes) (target : Int) :
    ofBytes input target = found input .endOfInput (Lines.clip input target) := by
  rw [ofBytes_eq_found, Lines.seek_int]

theorem ofBytes_of_lt {input : Bytes} {place : Nat} (inside : place < input.idxOf 0) :
    ofBytes input (place : Int) = (.ok, ofPlace input place) := by
  rw [ofBytes_int, found_of_inside (by omega) (by omega), Int.toNat_natCast]

/-- Where no NUL is in front of a place, it is told where that is. -/
theorem ofBytes_of_clean {input : Bytes} {place : Nat}
    (clean : ∀ i < place, Scan.byte input i ≠ 0) :
    (ofBytes input (place : Int)).2 = ofPlace input place := by
  by_cases nul : Scan.byte input place = 0
  · have last := Lines.idxOf_eq clean nul
    rw [ofBytes_int, found_of_outside (by omega), last]
  · rw [ofBytes_of_lt (Lines.lt_idxOf clean nul)]

/-- What is held of a text is enough to tell a place in it that is not within a pair. -/
theorem ofBytes_of_held {input held behind : Bytes} {place : Nat}
    (text : input = held ++ behind) (inside : place ≤ held.length)
    (clean : ∀ i < place, Scan.byte input i ≠ 0) (noFeed : Scan.byte input place ≠ lineFeed) :
    (ofBytes held (place : Int)).2 =
      { line := Lines.number (input.take place) place
        column := Lines.column (input.take place) place
        context := (ofPlace held place).context } := by
  have byte : ∀ i < held.length, Scan.byte held i = Scan.byte input i := by
    intro i arrived
    rw [text, Scan.byte, Scan.byte, List.getElem?_append_left arrived]
  have front : input.take place = held.take place := by
    rw [text, List.take_append_of_le_length inside]
  have clean' : ∀ i < place, Scan.byte held i ≠ 0 := by
    intro i before
    rw [byte i (Nat.lt_of_lt_of_le before inside)]
    exact clean i before
  have noFeed' : Scan.byte held place ≠ lineFeed := by
    rcases Nat.lt_or_eq_of_le inside with before | last
    · rw [byte _ before]
      exact noFeed
    · rw [last, Scan.byte, List.getElem?_eq_none (Nat.le_refl _)]
      decide
  rw [ofBytes_of_clean clean', front, Lines.number_take noFeed', Lines.column_take noFeed']
  rfl

/-! ## Offsets in words -/

theorem ofBytes_word (input : Bytes) (offset : Int64) :
    ofBytes input offset = found input .endOfInput (Lines.clip input (Lines.around offset)) := by
  rw [ofBytes_eq_found, Lines.seek_word]

theorem ofBytes_of_inside {input : Bytes} {offset : Int64} (first : 0 ≤ offset.toInt)
    (inside : offset.toInt < input.idxOf 0) :
    ofBytes input offset = (.ok, ofPlace input offset.toInt.toNat) := by
  rw [ofBytes_word, Lines.around_of_nonneg first, found_of_inside first inside]

theorem ofBytes_of_behind {input : Bytes} {offset : Int64}
    (behind : input.idxOf 0 ≤ offset.toInt) :
    ofBytes input offset = (.endOfInput, ofPlace input (input.idxOf 0)) := by
  rw [ofBytes_word, Lines.around_of_nonneg (by omega), found_of_outside (by omega)]

theorem ofBytes_of_neg {input : Bytes} {offset : Int64} (front : offset.toInt < 0)
    (round : input.idxOf 0 ≤ offset.toInt + 2 ^ 64) :
    ofBytes input offset = (.endOfInput, ofPlace input (input.idxOf 0)) := by
  rw [ofBytes_word, Lines.around_of_neg front, found_of_outside (by omega)]

/--
The lines and columns of a text at hand, which ends at its first NUL.  An offset
in the text is on the line whose number is one more than the line ends at or in
front of it, as many bytes behind the last of them as its column says; the line
feed of a pair stays on the line that it ends, and no two offsets have the same
line and column.  For an offset behind the text, and for one in front of it, the
end of the text is told, unless the text reaches to where words that count around
have that offset, which takes 2 ^ 63 bytes at least and so more than memory holds.

Unless an offset is more than a signed word counts in front of the last line, no
difference that the search takes overflows, so it does not matter what an
overflow would give.
-/
theorem ofBytes_lines (input : Bytes) :
    (∀ offset : Int64, 0 ≤ offset.toInt → offset.toInt < input.idxOf 0 →
      ofBytes input offset = (.ok, ofPlace input offset.toInt.toNat)) ∧
      (∀ offset : Int64, input.idxOf 0 ≤ offset.toInt →
        ofBytes input offset = (.endOfInput, ofPlace input (input.idxOf 0))) ∧
      (∀ offset : Int64, offset.toInt < 0 → input.idxOf 0 ≤ offset.toInt + 2 ^ 64 →
        ofBytes input offset = (.endOfInput, ofPlace input (input.idxOf 0))) ∧
      (∀ offset next : Int64, 0 ≤ offset.toInt → next.toInt = offset.toInt + 1 →
        next.toInt < input.idxOf 0 → Scan.byte input offset.toInt.toNat = carriageReturn →
          Scan.byte input next.toInt.toNat = lineFeed →
            (ofBytes input next).2.line = (ofBytes input offset).2.line ∧
              (ofBytes input next).2.column = (ofBytes input offset).2.column + 1) ∧
      (∀ offset later : Int64, 0 ≤ offset.toInt → offset.toInt < input.idxOf 0 →
        0 ≤ later.toInt → later.toInt < input.idxOf 0 →
          (ofBytes input offset).2.line = (ofBytes input later).2.line →
            (ofBytes input offset).2.column = (ofBytes input later).2.column → offset = later) ∧
      ∀ (minus : Int64 → Int64 → Int64) (offset : Int64), Lines.IsExact minus →
        input.length < 2 ^ 63 →
          (Lines.start input (input.idxOf 0) : Int) - 2 ^ 63 ≤ offset.toInt →
            (Window.ofBytes input).locateFrom minus 1 offset = ofBytes input offset := by
  refine ⟨fun _ => ofBytes_of_inside, fun _ => ofBytes_of_behind, fun _ => ofBytes_of_neg,
    ?_, ?_, ?_⟩
  · intro offset next first follows inside carriage feed
    have place : next.toInt.toNat = offset.toInt.toNat + 1 := by omega
    rw [place] at feed
    have pair := Lines.isEnd_of_pair carriage feed
    rw [ofBytes_of_inside first (by omega), ofBytes_of_inside (by omega) inside, place]
    exact ⟨Lines.number_succ_of_inside pair, Lines.column_succ_of_inside pair⟩
  · intro offset later first inside first' inside' line column
    rw [ofBytes_of_inside first inside, ofBytes_of_inside first' inside'] at line column
    have place := Lines.place_of_number_column line column
    apply Int64.toInt.inj
    omega
  · intro minus offset exact counted near
    rw [locateFrom_eq_found, Lines.seek_exact exact counted near, ofBytes_word,
      Lines.clip_around counted]

/-- Two lines with a pair between them, and the offset that is farthest in front of them. -/
theorem ofBytes_lines_around_pair :
    let input := Bytes.ofString "a\r\nb"
    input.length < 2 ^ 63 ∧ Lines.IsExact Lines.orZero ∧
      ((ofBytes input (1 : Int64)).2.line, (ofBytes input (1 : Int64)).2.column) = (1, 2) ∧
      ((ofBytes input (2 : Int64)).2.line, (ofBytes input (2 : Int64)).2.column) = (1, 3) ∧
      ((ofBytes input (3 : Int64)).2.line, (ofBytes input (3 : Int64)).2.column) = (2, 1) ∧
      ofBytes input (4 : Int64) = (.endOfInput, ofPlace input 4) ∧
      ofBytes input Int64.minValue = (.endOfInput, ofPlace input 4) ∧
      (ofBytes input (0 : Int64)).2.line ≠ (ofBytes input (3 : Int64)).2.line ∧
      (Window.ofBytes input).locateFrom Lines.orZero 1 (-1 : Int64) = ofBytes input (-1 : Int64) := by
  intro input
  have counted : input.length < 2 ^ 63 := by decide
  have exact := Lines.isExact_orZero
  obtain ⟨inside, behind, front, pair, apart, words⟩ := ofBytes_lines input
  have carriage := inside 1 (by decide) (by decide)
  have second := inside 3 (by decide) (by decide)
  have last := behind 4 (by decide)
  have first := front Int64.minValue (by decide) (by decide)
  have feed := pair 1 2 (by decide) (by decide) (by decide) (by decide) (by decide)
  refine ⟨counted, exact, ?_, ?_, ?_, last, first, ?_, ?_⟩
  · rw [carriage]
    decide +kernel
  · rw [feed.1, feed.2, carriage]
    decide +kernel
  · rw [second]
    decide +kernel
  · intro line
    have column : (ofBytes input (0 : Int64)).2.column = (ofBytes input (3 : Int64)).2.column := by
      decide +kernel
    have same := apart 0 3 (by decide) (by decide) (by decide) (by decide) line column
    exact absurd same (by decide)
  · exact words Lines.orZero (-1) exact counted (by decide)

/--
Any further in front of the last line, a difference does overflow, and what it
gives may make the search end in the text.
-/
theorem exists_overflow {input : Bytes} {offset : Int64} (counted : input.length < 2 ^ 63)
    (far : offset.toInt < (Lines.start input (input.idxOf 0) : Int) - 2 ^ 63)
    (last : Lines.start input (input.idxOf 0) < input.idxOf 0) :
    ∃ minus, Lines.IsExact minus ∧
      ((Window.ofBytes input).locateFrom minus 1 offset).1 = .ok := by
  have spilled : Lines.seek Lines.orZero input 0 0 offset < input.idxOf 0 :=
    Lines.seek_orZero_lt counted far last rfl (Nat.zero_le _) (Int.sub_zero _).symm
  refine ⟨Lines.orZero, Lines.isExact_orZero, ?_⟩
  rw [locateFrom_eq_found, found, if_pos spilled]

example :
    ((Window.ofBytes (Bytes.ofString "\nx")).locateFrom Lines.orZero 1 Int64.minValue).1 = .ok := by
  decide +kernel

end Location

end JsonEvents
