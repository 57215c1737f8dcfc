import JsonEvents.Excerpt
import JsonEvents.Window.Basic

/-!
# Locations

The location of an offset is its line and column, both counted from one, and an
excerpt of the line.  A line ends with a carriage return and a line feed, or
with either of them alone; the input ends at its first NUL.

An offset that a caller gives is a signed word, and so is its distance from the
start of a line.  A difference that no word holds wraps around, which happens to
offsets in front of the input only.  A place among bytes that are held is never
so far away, and is counted in integers.
-/

namespace JsonEvents

open Ascii

/-- A count as a signed word shows it. -/
instance natCastWord : NatCast Int64 := ⟨Int64.ofNat⟩

structure Location where
  line : Nat := 0
  column : Nat := 0
  context : Bytes := []

namespace Window

/-- Extend the lexeme up to the end of the line that it is in. -/
def extendToLineEnd (w : Window) : Window :=
  match _h : w.peek 0 with
  | (c, v) =>
      if c = nul ∨ c = lineFeed ∨ c = carriageReturn then v
      else extendToLineEnd (v.extend 1)
termination_by w.remaining
decreasing_by
  next stop => exact remaining_extend_lt _h (by simp_all) Nat.one_pos

/-- The location of the end of the lexeme, which began with the line. -/
def locationOnLine (w : Window) (line : Nat) : Location × Window :=
  let column := w.len + 1
  let w := w.extendToLineEnd
  ({ line, column, context := (Excerpt.ofLine w.lexeme column).render line }, w)

variable {δ : Type} [NatCast δ] [DecidableEq δ]

/-- The location of the byte `distance` places behind the start of the line; `minus` takes differences. -/
def locateFrom (minus : δ → δ → δ) (w : Window) (line : Nat) (distance : δ) : Status × Location :=
  match _h : w.peek 0 with
  | (c, v) =>
      if _stop : c = nul then
        let (location, v) := v.locationOnLine line
        (if v.status.isOk then .endOfInput else v.status, location)
      else if distance = v.len then
        (.ok, (v.locationOnLine line).1)
      else if c = lineFeed then
        locateFrom minus (v.extend 1).skip (line + 1) (minus distance (v.len + 1 : Nat))
      else if c = carriageReturn then
        match _h' : v.peek 1 with
        | (d, u) =>
            if _feed : d = lineFeed then
              if distance = (u.len + 1 : Nat) then
                locateFrom minus (u.extend 1) line distance
              else
                locateFrom minus (u.extend 2).skip (line + 1) (minus distance (u.len + 2 : Nat))
            else
              locateFrom minus (u.extend 1).skip (line + 1) (minus distance (u.len + 1 : Nat))
      else
        locateFrom minus (v.extend 1) line distance
termination_by w.remaining
decreasing_by
  · exact remaining_skip_lt _h _stop Nat.one_pos (Nat.le_refl _)
  · have more := remaining_extend_lt _h' (by rw [_feed]; decide) Nat.one_pos
    have same := peek_keeps _h
    simp only [remaining] at *
    omega
  · have more := remaining_skip_lt _h' (by rw [_feed]; decide) Nat.two_pos (Nat.le_refl _)
    have same := peek_keeps _h
    simp only [remaining] at *
    omega
  · have seen := peek_sees _h _stop
    have same := peek_keeps _h
    have same' := peek_keeps _h'
    have fill := fill_le_total u
    have covered : (u.extend 1).cursor ≤ (u.extend 1).fill := by
      rw [cursor_extend, fill_extend]
      omega
    simp only [remaining, total_skip, total_extend, cursor_skip covered, cursor_extend]
    omega
  · exact remaining_extend_lt _h _stop Nat.one_pos

end Window

namespace Location

variable {δ : Type} [NatCast δ] [Sub δ] [DecidableEq δ]

/-- The location of an offset in a whole input. -/
def ofBytes (input : Bytes) (offset : δ) : Status × Location :=
  (Window.ofBytes input).locateFrom (· - ·) 1 offset

/-- The location of an offset in what a reader delivers.  Only one line is held at a time. -/
def ofReader (reader : Reader) (offset : δ) : Status × Location :=
  (Window.ofReader reader { maxBufferSize := Options.largestBuffer }).locateFrom (· - ·) 1 offset

/-- Say what is wrong at a location. -/
def report (location : Location) (what : Bytes) : Bytes :=
  what ++ Bytes.ofString " on line " ++ Digits.digits location.line ++
    Bytes.ofString " and column " ++ Digits.digits location.column ++ [lineFeed] ++
    location.context

end Location

end JsonEvents
