import JsonEvents.Digits

/-!
# Excerpts of a line

An excerpt shows a line, or a part of a long line around one of its columns,
with a caret under that column.
-/

namespace JsonEvents

/-- What is shown of a line, with marks where it was cut, and the caret's column in it. -/
structure Excerpt where
  front : Bytes
  shown : Bytes
  rear : Bytes
  column : Nat
  deriving DecidableEq

namespace Excerpt

open Ascii

/-- A longer line is cut. -/
def limit : Nat := 60

/-- How many bytes stay on either side of the column. -/
def radius : Nat := 20

def ellipsis : Bytes := [point, point, point]

/-- Bytes that would disturb the line are shown as spaces. -/
def visible (c : UInt8) : UInt8 := if c < space || c == delete then space else c

/-- Columns count from one, and may lie one past the end of the line. -/
def ofLine (text : Bytes) (column : Nat) : Excerpt :=
  let size := text.length
  if size ≤ limit then
    { front := [], shown := text.map visible, rear := [], column }
  else if column ≤ limit - radius then
    { front := [], shown := (text.take (limit - ellipsis.length)).map visible
      rear := ellipsis, column }
  else if size ≤ column + radius + ellipsis.length then
    let start := size - (2 * radius + ellipsis.length + 1)
    { front := ellipsis, shown := (text.drop start).map visible
      rear := [], column := column - (start - ellipsis.length) }
  else
    let start := column - (radius + 1)
    { front := ellipsis, shown := ((text.drop start).take (2 * radius + 1)).map visible
      rear := ellipsis, column := radius + 1 + ellipsis.length }

/-- The shown line with its number. -/
def topLine (e : Excerpt) (line : Nat) : Bytes :=
  Digits.padded 5 line ++ [colon, space] ++ e.front ++ e.shown ++ e.rear

/-- The caret below it. -/
def caretLine (e : Excerpt) : Bytes := List.replicate (e.column + 6) space ++ [caret]

def render (e : Excerpt) (line : Nat) : Bytes :=
  e.topLine line ++ [lineFeed] ++ e.caretLine

end Excerpt

end JsonEvents
