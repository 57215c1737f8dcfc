import JsonEvents.Proofs.Window.Along

/-!
# Windows over any supply

Whatever a reader does, the bytes of its window are a block of what it delivers
(`Within`), so a byte other than NUL that a look shows is the one of the input, and
`Gains` says which bytes of the input were taken.  A window that holds the whole
input shows it (`shows_of_whole`).
-/

namespace JsonEvents

open Ascii

/-! ## Bytes of the input -/

namespace Stream

variable {input data : Bytes} {seg seg' : Segment} {str str' : Stream}

/-- However a reader behaves, what it brings goes behind the block. -/
theorem holds_fetch {capacity : Nat} (holds : seg.Holds input str.reader.pending)
    (got : fetch seg str capacity = (data, seg', str')) :
    seg'.Holds input str'.reader.pending := by
  have moved := str.reader.pending_read (capacity - seg.compact.bytes.size)
  simp only [fetch, Prod.mk.injEq] at got
  obtain ⟨_, rfl, rfl⟩ := got
  rw [← moved] at holds
  exact holds.compact.append

theorem holds_refill (need : Nat) (holds : seg.Holds input str.reader.pending) :
    (refill seg str need).2.1.Holds input (refill seg str need).2.2.reader.pending := by
  fun_induction refill seg str need with
  | case1 => exact holds
  | case2 seg str _ _ _ _ _ _ got => exact holds_fetch holds got
  | case3 seg str _ _ _ _ _ _ got => exact holds_fetch holds got
  | case4 seg str _ _ _ _ _ _ got _ _ ih => exact ih (holds_fetch holds got)
  | case5 => exact holds

end Stream

namespace Window

variable {input s t : Bytes} {u v w : Window} {c d : UInt8} {i n : Nat}

/-- The bytes are a block of the input, and the lexeme is among them. -/
structure Within (input : Bytes) (w : Window) : Prop where
  holds : w.toSegment.Holds input w.pending
  arrived : w.cursor ≤ w.fill

theorem Shows.within {ending : Status} (h : w.Shows input ending) : w.Within input :=
  ⟨h.holds, h.arrived⟩

theorem within_ofBytes (input : Bytes) : (ofBytes input).Within input :=
  (shows_ofBytes input).within

theorem within_ofReader (reader : Reader) (o : Options) :
    (ofReader reader o).Within reader.pending :=
  ⟨⟨Nat.zero_le _, by simp [ofReader, pending]⟩, Nat.le_refl _⟩

namespace Within

theorem peek (h : w.Within input) (i : Nat) : (w.peek i).2.Within input := by
  constructor
  · cases here : w.at? i with
    | some c =>
        rw [peek_of_arrived here]
        exact h.holds
    | none =>
        cases supply : w.supply with
        | nothing =>
            rw [peek_of_nothing here supply]
            exact h.holds
        | stream str =>
            have holds := h.holds
            simp only [pending, supply] at holds
            rw [peek_of_stream here supply]
            exact Stream.holds_refill _ holds
  · rw [cursor_peek]
    exact Nat.le_trans h.arrived (fill_le_peek w i)

theorem extend (h : w.Within input) (arrived : w.cursor + n ≤ w.fill) : (w.extend n).Within input :=
  ⟨⟨h.holds.base_le, h.holds.block⟩, by rwa [cursor_extend]⟩

theorem along (h : w.Within input) (along : w.Along v) : v.Within input := by
  induction along with
  | refl => exact h
  | peek i _ ih => exact ih (h.peek i)
  | take arrived _ ih => exact ih (h.extend arrived)
  | @shorten v w n shorter _ ih =>
      apply ih
      have arrived := h.arrived
      refine ⟨⟨h.holds.base_le, h.holds.block⟩, ?_⟩
      simp only [Window.setLen, Segment.setLen, Segment.cursor, Segment.fill] at *
      omega
  | skip _ ih =>
      apply ih
      refine ⟨⟨h.holds.base_le, h.holds.block⟩, ?_⟩
      rw [cursor_skip h.arrived, fill_skip]
      exact h.arrived

/-- A byte that has arrived is the one of the input. -/
theorem byte_at (h : w.Within input) (here : w.at? i = some c) :
    input[w.cursor + i]? = some c := by
  have place := (Array.getElem?_eq_some_iff.mp here).1
  rw [← here, Segment.at?, Nat.add_assoc, h.holds.byte (by omega), Segment.cursor,
    Segment.offset, Nat.add_assoc _ w.len]

/-- A byte other than NUL that was seen is the one of the input. -/
theorem byte (h : w.Within input) (seen : w.peek i = (c, v)) (some : c ≠ 0) :
    input[w.cursor + i]? = Option.some c := by
  have shown : (w.peek i).1 ≠ 0 := by rwa [seen]
  have here := peek_arrived shown
  have within := h.peek i
  have cursor := cursor_peek w i
  rw [seen] at here within cursor
  rw [← cursor]
  exact within.byte_at here

theorem lexeme_eq (h : w.Within input) : w.lexeme = (input.drop w.offset).take w.len := by
  have arrived := h.arrived
  simp only [Segment.cursor, Segment.fill] at arrived
  exact h.holds.lexeme_eq (by omega)

end Within

/-! ## Taking bytes -/

/-- `v` comes from `w` by taking the bytes `s` of the input. -/
structure Gains (input : Bytes) (w : Window) (s : Bytes) (v : Window) : Prop where
  within : v.Within input
  offset : v.offset = w.offset
  cursor : v.cursor = w.cursor + s.length
  text : s <+: input.drop w.cursor

namespace Gains

theorem refl (h : w.Within input) : Gains input w [] w := ⟨h, rfl, rfl, List.nil_prefix⟩

theorem of_peek (h : w.Within input) (seen : w.peek i = (c, v)) : Gains input w [] v := by
  have within := h.peek i
  have cursor := cursor_peek w i
  have offset := offset_peek w i
  rw [seen] at within cursor offset
  exact ⟨within, offset, cursor, List.nil_prefix⟩

theorem trans (h : Gains input u s v) (h' : Gains input v t w) : Gains input u (s ++ t) w where
  within := h'.within
  offset := h'.offset.trans h.offset
  cursor := by rw [h'.cursor, h.cursor, List.length_append, Nat.add_assoc]
  text := by
    obtain ⟨behind, text⟩ := h.text
    have rest := h'.text
    rw [h.cursor, ← List.drop_drop, ← text, List.drop_left] at rest
    rw [← text]
    exact List.prefix_append_right_inj s |>.mpr rest

/-- Bytes of the input that were looked at, the last one at place `i`, can be taken. -/
theorem take (h : Gains input w [] v) (seen : v.peek i = (c, u)) (some : c ≠ 0)
    (size : s.length = i + 1) (text : s <+: input.drop w.cursor) :
    Gains input w s (u.extend (i + 1)) := by
  have looked := h.trans (of_peek h.within seen)
  have arrived := peek_sees seen some
  have cursor : u.cursor = w.cursor := looked.cursor
  have before : v.cursor = w.cursor := h.cursor
  refine ⟨looked.within.extend (by omega), looked.offset, ?_, text⟩
  rw [cursor_extend, cursor, size]

theorem text_cons (here : input[n]? = some c) (behind : s <+: input.drop (n + 1)) :
    c :: s <+: input.drop n := by
  obtain ⟨inside, rfl⟩ := List.getElem?_eq_some_iff.mp here
  rw [List.drop_eq_getElem_cons inside]
  exact List.cons_prefix_cons.mpr ⟨rfl, behind⟩

theorem take_one (h : w.Within input) (seen : w.peek 0 = (c, v)) (some : c ≠ 0) :
    Gains input w [c] (v.extend 1) := by
  have text : [c] <+: input.drop w.cursor := text_cons (h.byte seen some) List.nil_prefix
  exact (refl h).take seen some rfl text

/-- What is taken at the beginning of a lexeme is the lexeme. -/
theorem lexeme_eq (h : Gains input w s v) (first : w.len = 0) : v.lexeme = s := by
  have place : w.cursor = w.offset := by
    simp only [Segment.cursor, Segment.offset]
    omega
  have size : v.len = s.length := by
    have cursor := h.cursor
    have offset := h.offset
    rw [place] at cursor
    simp only [Segment.cursor, Segment.offset] at *
    omega
  have text := h.text
  rw [h.within.lexeme_eq, h.offset, ← place, size, ← List.prefix_iff_eq_take.mp text]

end Gains

/-! ## The whole input in view -/

/-- The bytes behind the lexeme that have arrived. -/
def rest (w : Window) : Bytes := w.bytes.toList.drop (w.start + w.len)

theorem drop_replicate (n : Nat) (s : Bytes) : (List.replicate n 0 ++ s).drop n = s :=
  List.drop_left' List.length_replicate

/-- With the whole input in view a window shows its bytes, behind any that were dropped. -/
theorem shows_of_whole (whole : w.supply = .nothing) (arrived : w.cursor ≤ w.fill) :
    w.Shows (List.replicate w.base 0 ++ w.bytes.toList) .endOfInput where
  holds := by
    constructor
    · rw [List.length_append, List.length_replicate]
      exact Nat.le_add_right _ _
    · rw [drop_replicate, pending, whole, List.append_nil]
  arrived := arrived
  supply := by rw [whole]
  failed := rfl
  other := rfl

theorem drop_cursor (w : Window) :
    (List.replicate w.base 0 ++ w.bytes.toList).drop w.cursor = w.rest := by
  rw [Segment.cursor, Nat.add_assoc, ← List.drop_drop, drop_replicate, rest]

theorem eq_of_places {s s' : Segment} (bytes : s.bytes = s'.bytes) (base : s.base = s'.base)
    (offset : s.offset = s'.offset) (cursor : s.cursor = s'.cursor) : s = s' := by
  rcases s with ⟨_, start, len, _, _⟩
  rcases s' with ⟨_, start', len', _, _⟩
  simp only [Segment.offset, Segment.cursor] at *
  subst bytes base
  obtain rfl : start = start' := by omega
  obtain rfl : len = len' := by omega
  rfl

end Window

end JsonEvents
