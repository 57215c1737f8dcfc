import JsonEvents.Bytes

/-!
# Segments

A segment is a block of consecutive input bytes in which a lexeme is marked.
The lexeme begins at `start` and has `len` bytes, some of which may not have
arrived yet; `base` counts the input bytes that were dropped in front.
-/

namespace JsonEvents

structure Segment where
  bytes : Array UInt8
  start : Nat := 0
  len : Nat := 0
  base : Nat := 0
  start_le : start ≤ bytes.size := by simp

namespace Segment

/-- Where in the whole input the lexeme begins. -/
def offset (s : Segment) : Nat := s.base + s.start

/-- Where in the whole input the lexeme ends. -/
def cursor (s : Segment) : Nat := s.base + s.start + s.len

/-- How many input bytes have arrived. -/
def fill (s : Segment) : Nat := s.base + s.bytes.size

/-- The byte so many places behind the lexeme, if it has arrived. -/
def at? (s : Segment) (i : Nat) : Option UInt8 := s.bytes[s.start + s.len + i]?

/-- The last of the first `n` bytes from the lexeme's start on, once it has arrived. -/
def last? (s : Segment) : Nat → Option UInt8
  | 0 => none
  | n + 1 => s.bytes[s.start + n]?

def setLen (s : Segment) (n : Nat) : Segment := { s with len := n }

def extend (s : Segment) (n : Nat) : Segment := s.setLen (s.len + n)

def lexeme (s : Segment) : Bytes := (s.bytes.extract s.start (s.start + s.len)).toList

/-- Begin a new lexeme at a place among the bytes, or behind them. -/
def beginAt (s : Segment) (place : Nat) : Segment :=
  { s with start := min place s.bytes.size, len := 0, start_le := Nat.min_le_right _ _ }

/-- Begin a new lexeme where this one ends. -/
def skip (s : Segment) : Segment := s.beginAt (s.start + s.len)

/-- Drop the bytes in front of the lexeme. -/
def compact (s : Segment) : Segment :=
  { bytes := if s.start = 0 then s.bytes else s.bytes.extract s.start s.bytes.size
    start := 0
    len := s.len
    base := s.base + s.start
    start_le := Nat.zero_le _ }

theorem size_append (bytes : Array UInt8) (data : Bytes) :
    (bytes ++ data).size = bytes.size + data.length := by
  rw [← Array.length_toList, Array.toList_appendList, List.length_append, Array.length_toList]

/-- Bytes arrive behind the last one. -/
def append (s : Segment) (data : Bytes) : Segment :=
  { s with
    bytes := s.bytes ++ data
    start_le := by
      have := s.start_le
      rw [size_append]
      omega }

theorem last?_of_len (s : Segment) (i : Nat) : s.last? (s.len + i + 1) = s.at? i := by
  simp only [last?, at?, Nat.add_assoc]

theorem at?_eq_some_lt {s : Segment} {i : Nat} {c : UInt8} (h : s.at? i = some c) :
    s.start + s.len + i < s.bytes.size :=
  (Array.getElem?_eq_some_iff.mp h).1

theorem compact_bytes_size (s : Segment) :
    s.compact.bytes.size = s.bytes.size - s.start := by
  unfold compact
  split
  · next h => simp [h]
  · simp

theorem offset_compact (s : Segment) : s.compact.offset = s.offset := by
  simp [compact, offset]

theorem cursor_compact (s : Segment) : s.compact.cursor = s.cursor := by
  simp [compact, cursor]

theorem fill_compact (s : Segment) : s.compact.fill = s.fill := by
  have := s.start_le
  simp only [fill, compact_bytes_size]
  simp only [compact]
  omega

theorem cursor_append (s : Segment) (data : Bytes) : (s.append data).cursor = s.cursor := rfl

theorem fill_append (s : Segment) (data : Bytes) :
    (s.append data).fill = s.fill + data.length := by
  simp [append, fill, size_append, Nat.add_assoc]

theorem cursor_extend (s : Segment) (n : Nat) : (s.extend n).cursor = s.cursor + n := by
  simp [extend, setLen, cursor, Nat.add_assoc]

theorem fill_extend (s : Segment) (n : Nat) : (s.extend n).fill = s.fill := rfl

theorem fill_skip (s : Segment) : s.skip.fill = s.fill := rfl

theorem cursor_skip {s : Segment} (h : s.cursor ≤ s.fill) : s.skip.cursor = s.cursor := by
  simp only [skip, beginAt, cursor, fill] at *
  omega

theorem cursor_lt_fill_of_at? {s : Segment} {i : Nat} {c : UInt8} (h : s.at? i = some c) :
    s.cursor + i < s.fill := by
  have := at?_eq_some_lt h
  simp only [cursor, fill]
  omega

end Segment

end JsonEvents
