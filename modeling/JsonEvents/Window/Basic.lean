import JsonEvents.Options
import JsonEvents.Reader
import JsonEvents.Window.Segment

/-!
# Windows

A window is a segment together with where its further bytes come from.  Either
the whole input is in it from the start, or a reader fills it on demand.

`Window.peek` looks at a byte behind the lexeme.  It never moves the lexeme in
the input and never changes the input (`cursor_peek`, `total_peek`), and a byte
other than NUL that it shows has arrived (`peek_arrived`).
-/

namespace JsonEvents

/--
A reader, the first status other than ok that it gave, and the number of bytes
that the window has room for now and may ever have room for.
-/
structure Stream where
  reader : Reader
  status : Status := .ok
  capacity : Nat
  limit : Nat

namespace Stream

/--
The capacity that keeps `keep` bytes in at most half of it and has room for
`need` bytes, or as near as doubling comes to that within the limit.
-/
def room (keep need limit capacity : Nat) : Nat :=
  if (capacity < 2 * keep ∨ capacity < need) ∧ 0 < capacity ∧ 2 * capacity ≤ limit then
    room keep need limit (2 * capacity)
  else
    capacity
termination_by limit - capacity

theorem le_room (keep need limit capacity : Nat) :
    capacity ≤ room keep need limit capacity := by
  fun_induction room keep need limit capacity with
  | case1 capacity _ ih => omega
  | case2 => exact Nat.le_refl _

/-- One read into the free space behind the lexeme, and the bytes that it brings. -/
def fetch (seg : Segment) (str : Stream) (capacity : Nat) : Bytes × Segment × Stream :=
  let kept := seg.compact
  let (got, reader) := str.reader.read (capacity - kept.bytes.size)
  (got.data, kept.append got.data, { str with reader, capacity, status := got.status })

theorem offset_fetch (seg : Segment) (str : Stream) (capacity : Nat) :
    (fetch seg str capacity).2.1.offset = seg.offset :=
  seg.offset_compact

theorem cursor_fetch (seg : Segment) (str : Stream) (capacity : Nat) :
    (fetch seg str capacity).2.1.cursor = seg.cursor := by
  simp only [fetch, Segment.cursor_append, Segment.cursor_compact]

theorem length_pending_fetch (seg : Segment) (str : Stream) (capacity : Nat) :
    (fetch seg str capacity).1.length + (fetch seg str capacity).2.2.reader.pending.length =
      str.reader.pending.length :=
  Reader.length_pending_read _ _

/-- What has arrived and what is still to come are the input. -/
theorem total_fetch (seg : Segment) (str : Stream) (capacity : Nat) :
    (fetch seg str capacity).2.1.fill + (fetch seg str capacity).2.2.reader.pending.length =
      seg.fill + str.reader.pending.length := by
  have := length_pending_fetch seg str capacity
  simp only [fetch, Segment.fill_append, Segment.fill_compact] at *
  omega

/--
Read until `need` bytes from the lexeme's start on are there, a read brings
nothing, or the reader has given up, and give the last of those bytes.  A
lexeme that cannot fit is given up before anything is read.  Who needs no
bytes gets none, and reads for as long as reads bring some.
-/
def refill (seg : Segment) (str : Stream) (need : Nat) : UInt8 × Segment × Stream :=
  if str.status.isOk then
    let capacity := room (seg.bytes.size - seg.start) need str.limit str.capacity
    if capacity < need then
      (0, seg, { str with status := .bufferExceeded })
    else
      match _h : fetch seg str capacity with
      | (data, seg', str') =>
          match seg'.last? need with
          | some c => (c, seg', str')
          | none => if data = [] then (0, seg', str') else refill seg' str' need
  else
    (0, seg, str)
termination_by str.reader.pending.length
decreasing_by
  have moved := length_pending_fetch seg str capacity
  have some : data.length ≠ 0 := by simpa using ‹¬ data = []›
  simp only [_h] at moved
  omega

theorem offset_refill (seg : Segment) (str : Stream) (need : Nat) :
    (refill seg str need).2.1.offset = seg.offset := by
  fun_induction refill seg str need with
  | case1 => rfl
  | case2 seg str _ capacity _ data seg' str' got =>
      have := offset_fetch seg str capacity
      rw [got] at this
      exact this
  | case3 seg str _ capacity _ data seg' str' got =>
      have := offset_fetch seg str capacity
      rw [got] at this
      exact this
  | case4 seg str _ capacity _ data seg' str' got _ _ ih =>
      have := offset_fetch seg str capacity
      rw [got] at this
      rw [ih]
      exact this
  | case5 => rfl

theorem cursor_refill (seg : Segment) (str : Stream) (need : Nat) :
    (refill seg str need).2.1.cursor = seg.cursor := by
  fun_induction refill seg str need with
  | case1 => rfl
  | case2 seg str _ capacity _ data seg' str' got =>
      have := cursor_fetch seg str capacity
      rw [got] at this
      exact this
  | case3 seg str _ capacity _ data seg' str' got =>
      have := cursor_fetch seg str capacity
      rw [got] at this
      exact this
  | case4 seg str _ capacity _ data seg' str' got _ _ ih =>
      have := cursor_fetch seg str capacity
      rw [got] at this
      rw [ih]
      exact this
  | case5 => rfl

theorem fill_le_refill (seg : Segment) (str : Stream) (need : Nat) :
    seg.fill ≤ (refill seg str need).2.1.fill := by
  have step (seg : Segment) (str : Stream) (n : Nat) :
      seg.fill ≤ (fetch seg str n).2.1.fill := by
    simp only [fetch, Segment.fill_append, Segment.fill_compact]
    omega
  fun_induction refill seg str need with
  | case1 => exact Nat.le_refl _
  | case2 seg str _ capacity _ data seg' str' got =>
      have := step seg str capacity
      rw [got] at this
      exact this
  | case3 seg str _ capacity _ data seg' str' got =>
      have := step seg str capacity
      rw [got] at this
      exact this
  | case4 seg str _ capacity _ data seg' str' got _ _ ih =>
      have := step seg str capacity
      rw [got] at this
      exact Nat.le_trans this ih
  | case5 => exact Nat.le_refl _

theorem total_refill (seg : Segment) (str : Stream) (need : Nat) :
    (refill seg str need).2.1.fill + (refill seg str need).2.2.reader.pending.length =
      seg.fill + str.reader.pending.length := by
  fun_induction refill seg str need with
  | case1 => rfl
  | case2 seg str _ capacity _ data seg' str' got =>
      have := total_fetch seg str capacity
      rw [got] at this
      exact this
  | case3 seg str _ capacity _ data seg' str' got =>
      have := total_fetch seg str capacity
      rw [got] at this
      exact this
  | case4 seg str _ capacity _ data seg' str' got _ _ ih =>
      have := total_fetch seg str capacity
      rw [got] at this
      rw [ih]
      exact this
  | case5 => rfl

/-- After a failure nothing is read. -/
theorem refill_of_failed {seg : Segment} {str : Stream} (need : Nat)
    (failed : str.status.isOk = false) : refill seg str need = (0, seg, str) := by
  rw [refill, failed]
  rfl

theorem refill_arrived (seg : Segment) (str : Stream) (need : Nat)
    (h : (refill seg str need).1 ≠ 0) :
    (refill seg str need).2.1.last? need = some (refill seg str need).1 := by
  fun_induction refill seg str need with
  | case1 => exact absurd rfl h
  | case2 _ _ _ _ _ _ _ _ _ _ found => exact found
  | case3 => exact absurd rfl h
  | case4 _ _ _ _ _ _ _ _ _ _ _ ih => exact ih h
  | case5 => exact absurd rfl h

end Stream

/-- Where the bytes behind the segment come from. -/
inductive Supply
  | nothing
  | stream (stream : Stream)

structure Window extends Segment where
  supply : Supply
  /-- The most bytes, from the lexeme's start on, that any look has asked for. -/
  reach : Nat := 0

namespace Window

/-- The window that holds the whole input. -/
def ofBytes (input : Bytes) : Window := { bytes := input.toArray, supply := .nothing }

/-- The empty window that a reader is going to fill. -/
def ofReader (reader : Reader) (o : Options) : Window :=
  { bytes := #[]
    supply := .stream
      { reader, capacity := o.sanitize.minBufferSize, limit := o.sanitize.maxBufferSize } }

/-- The bytes that have not arrived yet. -/
def pending (w : Window) : Bytes :=
  match w.supply with
  | .nothing => []
  | .stream str => str.reader.pending

/-- How many bytes the whole input has. -/
def total (w : Window) : Nat := w.fill + w.pending.length

/-- How many bytes of the input are behind the lexeme. -/
def remaining (w : Window) : Nat := w.total - w.cursor

/--
The byte that is to be had here, or the last of the first `need` bytes from the
lexeme's start on when the supply brings it, or else NUL.
-/
def look (w : Window) (here : Option UInt8) (need : Nat) : UInt8 × Window :=
  let reach := max w.reach need
  match here with
  | some c => (c, { w with reach })
  | none =>
      match w.supply with
      | .nothing => (0, { w with reach })
      | .stream str =>
          let (c, seg, str) := str.refill w.toSegment need
          (c, { toSegment := seg, supply := .stream str, reach })

/-- The byte `i` places behind the lexeme, or NUL when it cannot be had. -/
def peek (w : Window) (i : Nat) : UInt8 × Window := w.look (w.at? i) (w.len + i + 1)

def extend (w : Window) (n : Nat) : Window := { w with toSegment := w.toSegment.extend n }

def setLen (w : Window) (n : Nat) : Window := { w with toSegment := w.toSegment.setLen n }

/-- Begin a new lexeme where this one ends. -/
def skip (w : Window) : Window := { w with toSegment := w.toSegment.skip }

/-- Take the lexeme out. -/
def shift (w : Window) : Bytes × Window := (w.lexeme, w.skip)

/--
What stands in the way of the byte at a place.  With the whole input in view it
is the end of the input, once the place is there.  A reader's failure counts
only when the bytes read before it are used up, while a lexeme that does not
fit counts at once.
-/
def statusAt (w : Window) (place : Nat) : Status :=
  match w.supply with
  | .nothing => if place < w.bytes.size then .ok else .endOfInput
  | .stream str =>
      if !str.status.isBufferExceeded && place < w.bytes.size then .ok else str.status

/-- What stands in the way of the byte behind the lexeme. -/
def status (w : Window) : Status := w.statusAt (w.start + w.len)

/-- What the supply has said of the bytes to come; with the whole input in view, that there are none. -/
def given (w : Window) : Status :=
  match w.supply with
  | .nothing => .endOfInput
  | .stream str => str.status

/-- Whether the supply has said that nothing more comes. -/
def isAtEnd (w : Window) : Bool :=
  match w.supply with
  | .nothing => true
  | .stream str => str.status.isEndOfInput

theorem reach_look (w : Window) (here : Option UInt8) (need : Nat) :
    (w.look here need).2.reach = max w.reach need := by
  unfold look
  dsimp only
  split
  · rfl
  · split <;> rfl

theorem cursor_look (w : Window) (here : Option UInt8) (need : Nat) :
    (w.look here need).2.cursor = w.cursor := by
  unfold look
  split
  · rfl
  · split
    · rfl
    · next str _ => exact Stream.cursor_refill w.toSegment str need

theorem offset_look (w : Window) (here : Option UInt8) (need : Nat) :
    (w.look here need).2.offset = w.offset := by
  unfold look
  split
  · rfl
  · split
    · rfl
    · next str _ => exact Stream.offset_refill w.toSegment str need

theorem len_look (w : Window) (here : Option UInt8) (need : Nat) :
    (w.look here need).2.len = w.len := by
  have cursor := cursor_look w here need
  have offset := offset_look w here need
  simp only [Segment.cursor, Segment.offset] at *
  omega

theorem total_look (w : Window) (here : Option UInt8) (need : Nat) :
    (w.look here need).2.total = w.total := by
  unfold look
  split
  · rfl
  · split
    · rfl
    · next str h =>
        have := Stream.total_refill w.toSegment str need
        simp only [total, pending, h]
        exact this

theorem fill_le_look (w : Window) (here : Option UInt8) (need : Nat) :
    w.fill ≤ (w.look here need).2.fill := by
  unfold look
  split
  · exact Nat.le_refl _
  · split
    · exact Nat.le_refl _
    · next str _ => exact Stream.fill_le_refill w.toSegment str need

/-- A failure that the supply gave stays. -/
theorem given_look {w : Window} {here : Option UInt8} {need : Nat}
    (failed : w.given.isOk = false) : (w.look here need).2.given = w.given := by
  unfold look
  split
  · rfl
  · split
    · next none => simp [given, none]
    · next str some =>
        have failed : str.status.isOk = false := by simpa [given, some] using failed
        simp [given, some, Stream.refill_of_failed need failed]

theorem look_arrived {w : Window} {here : Option UInt8} {need : Nat}
    (honest : ∀ c, here = some c → w.last? need = some c) (h : (w.look here need).1 ≠ 0) :
    (w.look here need).2.last? need = some (w.look here need).1 := by
  unfold look at *
  dsimp only at *
  split
  · next c => exact honest c rfl
  · split
    · next none => simp [none] at h
    · next str some =>
        simp only [some] at h
        exact Stream.refill_arrived w.toSegment str need h

theorem peek_of_arrived {w : Window} {i : Nat} {c : UInt8} (here : w.at? i = some c) :
    w.peek i = (c, { w with reach := max w.reach (w.len + i + 1) }) := by
  simp [peek, look, here]

theorem peek_of_nothing {w : Window} {i : Nat} (here : w.at? i = none)
    (supply : w.supply = .nothing) :
    w.peek i = (0, { w with reach := max w.reach (w.len + i + 1) }) := by
  simp [peek, look, here, supply]

theorem peek_of_stream {w : Window} {i : Nat} {str : Stream} (here : w.at? i = none)
    (supply : w.supply = .stream str) :
    w.peek i = ((str.refill w.toSegment (w.len + i + 1)).1,
      { toSegment := (str.refill w.toSegment (w.len + i + 1)).2.1
        supply := .stream (str.refill w.toSegment (w.len + i + 1)).2.2
        reach := max w.reach (w.len + i + 1) }) := by
  simp [peek, look, here, supply]

theorem reach_peek (w : Window) (i : Nat) :
    (w.peek i).2.reach = max w.reach (w.len + i + 1) := reach_look _ _ _

theorem cursor_peek (w : Window) (i : Nat) : (w.peek i).2.cursor = w.cursor := cursor_look _ _ _

theorem offset_peek (w : Window) (i : Nat) : (w.peek i).2.offset = w.offset := offset_look _ _ _

theorem len_peek (w : Window) (i : Nat) : (w.peek i).2.len = w.len := len_look _ _ _

theorem total_peek (w : Window) (i : Nat) : (w.peek i).2.total = w.total := total_look _ _ _

theorem peek_arrived {w : Window} {i : Nat} (h : (w.peek i).1 ≠ 0) :
    (w.peek i).2.at? i = some (w.peek i).1 := by
  have honest : ∀ c, w.at? i = some c → w.last? (w.len + i + 1) = some c := by
    intro c here
    rw [Segment.last?_of_len]
    exact here
  have arrived := look_arrived honest h
  rw [← Segment.last?_of_len, len_peek]
  exact arrived

theorem given_peek {w v : Window} {i : Nat} {c : UInt8} (h : w.peek i = (c, v))
    (failed : w.given.isOk = false) : v.given = w.given := by
  have same : (w.peek i).2.given = w.given := given_look failed
  rw [h] at same
  exact same

theorem fill_le_peek (w : Window) (i : Nat) : w.fill ≤ (w.peek i).2.fill := fill_le_look _ _ _

theorem cursor_extend (w : Window) (n : Nat) : (w.extend n).cursor = w.cursor + n :=
  Segment.cursor_extend _ _

theorem fill_extend (w : Window) (n : Nat) : (w.extend n).fill = w.fill := rfl

theorem total_extend (w : Window) (n : Nat) : (w.extend n).total = w.total := rfl

theorem fill_skip (w : Window) : w.skip.fill = w.fill := rfl

theorem total_skip (w : Window) : w.skip.total = w.total := rfl

theorem cursor_skip {w : Window} (h : w.cursor ≤ w.fill) : w.skip.cursor = w.cursor :=
  Segment.cursor_skip h

theorem fill_le_total (w : Window) : w.fill ≤ w.total := Nat.le_add_right _ _

/-- What a look leaves as it was. -/
theorem peek_keeps {w v : Window} {i : Nat} {c : UInt8} (h : w.peek i = (c, v)) :
    v.cursor = w.cursor ∧ v.total = w.total ∧ w.fill ≤ v.fill := by
  have cursor := cursor_peek w i
  have total := total_peek w i
  have fill := fill_le_peek w i
  rw [h] at cursor total fill
  exact ⟨cursor, total, fill⟩

/-- A byte that was seen lies in the part of the input that has arrived. -/
theorem peek_sees {w v : Window} {i : Nat} {c : UInt8} (h : w.peek i = (c, v)) (hc : c ≠ 0) :
    w.cursor + i < v.fill := by
  have seen : (w.peek i).1 ≠ 0 := by rw [h]; exact hc
  have arrived := Segment.cursor_lt_fill_of_at? (peek_arrived seen)
  have cursor := cursor_peek w i
  rw [h] at arrived cursor
  rw [← cursor]
  exact arrived

/-- Taking a byte that was seen leaves less of the input. -/
theorem remaining_extend_lt {w v : Window} {i n : Nat} {c : UInt8} (h : w.peek i = (c, v))
    (hc : c ≠ 0) (hn : 0 < n) : (v.extend n).remaining < w.remaining := by
  obtain ⟨cursor, total, _⟩ := peek_keeps h
  have seen := peek_sees h hc
  have fill := fill_le_total v
  simp only [remaining, cursor_extend, total_extend]
  omega

/-- Skipping over bytes that were seen leaves less of the input. -/
theorem remaining_skip_lt {w v : Window} {i n : Nat} {c : UInt8} (h : w.peek i = (c, v))
    (hc : c ≠ 0) (hn : 0 < n) (hi : n ≤ i + 1) : (v.extend n).skip.remaining < w.remaining := by
  have cursor := (peek_keeps h).1
  have seen := peek_sees h hc
  have covered : (v.extend n).cursor ≤ (v.extend n).fill := by
    rw [cursor_extend, fill_extend]
    omega
  have less := remaining_extend_lt h hc hn
  simp only [remaining, total_skip, cursor_skip covered] at *
  exact less

end Window

end JsonEvents
