import JsonEvents.Tokenizer.Reaches

/-!
# A window on an input

`Shows input ending w` says that the bytes of the window are a block of the
input and that its supply brings the bytes behind the block, and then `ending`.
A look then shows the byte of the input (`Shows.sees`), unless the lexeme does
not fit (`Shows.overflow`).
-/

namespace JsonEvents

/-! ## Blocks of the input -/

namespace Segment

/-- The bytes are a block of the input, and `pending` is all that is behind it. -/
structure Holds (s : Segment) (input pending : Bytes) : Prop where
  base_le : s.base ≤ input.length
  block : input.drop s.base = s.bytes.toList ++ pending

namespace Holds

variable {s : Segment} {input pending : Bytes}

theorem length (h : s.Holds input pending) : s.fill + pending.length = input.length := by
  have lengths := congrArg List.length h.block
  have := h.base_le
  simp only [List.length_drop, List.length_append, Array.length_toList] at lengths
  simp only [fill]
  omega

theorem byte (h : s.Holds input pending) {n : Nat} (arrived : s.start + n < s.bytes.size) :
    s.bytes[s.start + n]? = input[s.offset + n]? := by
  have place : input[s.offset + n]? = (input.drop s.base)[s.start + n]? := by
    rw [List.getElem?_drop, offset, Nat.add_assoc]
  rw [place, h.block, List.getElem?_append_left (by simpa using arrived), Array.getElem?_toList]

/-- Behind the last byte that arrived there is nothing once nothing is pending. -/
theorem missing (h : s.Holds input []) {n : Nat} (behind : s.bytes.size ≤ s.start + n) :
    input[s.offset + n]? = none := by
  have length := h.length
  simp only [fill, List.length_nil] at length
  rw [List.getElem?_eq_none_iff]
  simp only [offset]
  omega

/-- With nothing pending, what is among the bytes is what is in the input. -/
theorem whole (h : s.Holds input []) (n : Nat) : s.bytes[s.start + n]? = input[s.offset + n]? := by
  by_cases arrived : s.start + n < s.bytes.size
  · exact h.byte arrived
  · have behind := Nat.le_of_not_lt arrived
    rw [h.missing behind]
    exact Array.getElem?_eq_none_iff.mpr behind

theorem last?_eq_some (h : s.Holds input pending) {need : Nat} {c : UInt8}
    (found : s.last? need = some c) : input[s.offset + (need - 1)]? = some c := by
  cases need with
  | zero => cases found
  | succ n =>
      have found : s.bytes[s.start + n]? = some c := found
      have arrived := (Array.getElem?_eq_some_iff.mp found).1
      rw [Nat.add_sub_cancel, ← h.byte arrived, found]

theorem last?_eq_none (h : s.Holds input []) {need : Nat} (asked : 0 < need)
    (none : s.last? need = none) : input[s.offset + (need - 1)]? = Option.none := by
  cases need with
  | zero => cases asked
  | succ n =>
      have none : s.bytes[s.start + n]? = Option.none := none
      exact h.missing (Array.getElem?_eq_none_iff.mp none)

theorem drop_offset (h : s.Holds input pending) :
    input.drop s.offset = s.bytes.toList.drop s.start ++ pending := by
  have bound := s.start_le
  have dropped := congrArg (List.drop s.start) h.block
  rwa [List.drop_drop, List.drop_append_of_le_length (by simpa using bound)] at dropped

theorem compact (h : s.Holds input pending) : s.compact.Holds input pending := by
  have bound := s.start_le
  have length := h.length
  have bytes : s.compact.bytes.toList = s.bytes.toList.drop s.start := by
    simp only [Segment.compact]
    split
    · next zero => rw [zero, List.drop_zero]
    · have whole : (s.bytes.toList.drop s.start).length ≤ s.bytes.size - s.start := by simp
      simp only [Array.toList_extract, List.extract_eq_take_drop]
      exact List.take_of_length_le whole
  constructor
  · simp only [Segment.compact, fill] at *
    omega
  · rw [bytes]
    exact h.drop_offset

theorem append {data : Bytes} (h : s.Holds input (data ++ pending)) :
    (s.append data).Holds input pending := by
  refine ⟨h.base_le, ?_⟩
  simp only [Segment.append, Array.toList_appendList]
  rw [List.append_assoc]
  exact h.block

theorem lexeme_eq (h : s.Holds input pending) (arrived : s.start + s.len ≤ s.bytes.size) :
    s.lexeme = (input.drop s.offset).take s.len := by
  have inside : s.len ≤ (s.bytes.toList.drop s.start).length := by
    simp only [List.length_drop, Array.length_toList]
    omega
  rw [h.drop_offset, List.take_append_of_le_length inside, Segment.lexeme, Array.toList_extract,
    List.extract_eq_take_drop, Nat.add_sub_cancel_left]

end Holds

/-- Where the last of the needed bytes is not there, fewer than the needed bytes are. -/
theorem size_compact_lt {s : Segment} {need : Nat} (asked : 0 < need) (none : s.last? need = none) :
    s.compact.bytes.size < need := by
  have bound := s.start_le
  cases need with
  | zero => cases asked
  | succ n =>
      have behind : s.bytes.size ≤ s.start + n := Array.getElem?_eq_none_iff.mp none
      rw [compact_bytes_size]
      omega

end Segment

/-! ## Readers that go on -/

namespace Reader

/-- Each read that succeeds brings at least one byte, if it was asked for any. -/
structure IsSteady (r : Reader) : Prop where
  pieces : [] ∉ r.pieces
  most : r.most ≠ some 0

theorem IsSteady.allowance_pos {r : Reader} (h : r.IsSteady) {size : Nat} (asked : 0 < size) :
    0 < r.allowance size := by
  have most := h.most
  unfold allowance
  cases bound : r.most with
  | none => exact asked
  | some most' =>
      have : most' ≠ 0 := fun zero => most (by rw [bound, zero])
      simp only
      omega

theorem nil_not_mem_leftover {piece : Bytes} {rest : List Bytes} (h : [] ∉ rest) (n : Nat) :
    [] ∉ leftover piece rest n := by
  unfold leftover
  split
  · exact h
  · next left some =>
      intro member
      rcases List.mem_cons.mp member with same | member
      · exact some same.symm
      · exact h member

theorem IsSteady.read {r : Reader} (h : r.IsSteady) (size : Nat) : (r.read size).2.IsSteady := by
  unfold Reader.read
  split
  · exact ⟨h.pieces, h.most⟩
  · next piece rest pieces =>
      have others : [] ∉ rest := fun member => h.pieces (pieces ▸ List.mem_cons_of_mem _ member)
      exact ⟨nil_not_mem_leftover others _, h.most⟩

theorem ending_read (r : Reader) (size : Nat) : (r.read size).2.ending = r.ending := by
  unfold read
  split <;> rfl

/-- A read succeeds, or gives the final status with or behind the last byte. -/
theorem status_read (r : Reader) (size : Nat) :
    (r.read size).1.status = .ok ∨
      (r.read size).1.status = r.ending ∧ (r.read size).2.pending = [] := by
  unfold read
  split
  · next pieces =>
      dsimp only
      split
      · left; rfl
      · right
        exact ⟨rfl, by simp [pending, pieces]⟩
  · next piece rest pieces =>
      dsimp only
      split
      · next last =>
          right
          simp only [Bool.and_eq_true, List.isEmpty_iff] at last
          exact ⟨rfl, by simp [pending, last.2]⟩
      · left; rfl

/-- A read without bytes is behind the last one. -/
theorem IsSteady.read_nil {r : Reader} (h : r.IsSteady) {size : Nat} (asked : 0 < size)
    (nothing : (r.read size).1.data = []) :
    (r.read size).1.status = r.ending ∧ (r.read size).2.pending = [] := by
  have allowed := h.allowance_pos asked
  unfold Reader.read at *
  split
  · next pieces =>
      have some : (size == 0) = false := by simpa using Nat.ne_of_gt asked
      simp [some, pending, pieces]
  · next piece rest pieces =>
      have empty : piece = [] := by
        simp only [pieces] at nothing
        rcases List.take_eq_nil_iff.mp nothing with zero | empty
        · omega
        · exact empty
      exact absurd (by rw [pieces, empty]; exact List.mem_cons_self) h.pieces

end Reader

/-! ## Refilling -/

namespace Stream

/-- Doubling a capacity for as long as the limit allows it comes to `top`. -/
inductive Climbs (limit top : Nat) : Nat → Prop
  | there (fits : top ≤ limit) (last : limit < 2 * top) : Climbs limit top top
  | twice {capacity : Nat} (rest : Climbs limit top (2 * capacity)) : Climbs limit top capacity

theorem Climbs.pos {limit top capacity : Nat} (h : Climbs limit top capacity) : 0 < capacity := by
  induction h with
  | there fits last => omega
  | twice _ ih => omega

theorem Climbs.le {limit top capacity : Nat} (h : Climbs limit top capacity) :
    capacity ≤ top ∧ top ≤ limit := by
  induction h with
  | there fits => exact ⟨Nat.le_refl _, fits⟩
  | twice _ ih => exact ⟨by omega, ih.2⟩

/-- Making room is a climb, and where there is too little of it the climb is at its top. -/
theorem Climbs.room {limit top capacity : Nat} (h : Climbs limit top capacity) (keep need : Nat) :
    Climbs limit top (room keep need limit capacity) ∧
      (room keep need limit capacity < need → top < need) := by
  fun_induction Stream.room keep need limit capacity with
  | case1 capacity small ih =>
      cases h with
      | there fits last => omega
      | twice rest => exact ih rest
  | case2 capacity enough =>
      refine ⟨h, fun less => ?_⟩
      cases h with
      | there => exact less
      | twice rest =>
          have pos := rest.pos
          have bounds := rest.le
          omega

variable {input : Bytes} {ending : Status} {seg seg' : Segment} {str str' : Stream}

/-- The reader gives its final status only with or behind the last byte. -/
structure Yields (str : Stream) (ending : Status) : Prop where
  ends : str.reader.ending = ending
  status : str.status = .ok ∨ str.status = .bufferExceeded ∨
    str.status = ending ∧ str.reader.pending = []

/-- A fetch leaves a block of the input, and only at the end a failure. -/
theorem Yields.fetch {data : Bytes} {capacity : Nat} (yields : str.Yields ending)
    (holds : seg.Holds input str.reader.pending)
    (got : Stream.fetch seg str capacity = (data, seg', str')) :
    seg'.Holds input str'.reader.pending ∧ str'.Yields ending ∧
      (str'.status = .ok ∨ str'.status = ending ∧ str'.reader.pending = []) := by
  have moved := str.reader.pending_read (capacity - seg.compact.bytes.size)
  have status := str.reader.status_read (capacity - seg.compact.bytes.size)
  have same := str.reader.ending_read (capacity - seg.compact.bytes.size)
  rw [yields.ends] at status same
  simp only [Stream.fetch, Prod.mk.injEq] at got
  obtain ⟨rfl, rfl, rfl⟩ := got
  refine ⟨?_, ⟨same, status.imp_right .inr⟩, status⟩
  rw [← moved] at holds
  exact holds.compact.append

/-- Besides, the reader goes on, and there is room for a byte. -/
structure Feeds (str : Stream) (ending : Status) : Prop where
  steady : str.reader.IsSteady
  ends : str.reader.ending = ending
  capacity : 0 < str.capacity
  status : str.status = .ok ∨ str.status = .bufferExceeded ∨
    str.status = ending ∧ str.reader.pending = []

theorem Feeds.yields (feeds : str.Feeds ending) : str.Yields ending := ⟨feeds.ends, feeds.status⟩

/-- A fetch into free space leaves a block of the input, and says at the end that it is the end. -/
theorem Feeds.fetch {data : Bytes} {capacity : Nat} (feeds : str.Feeds ending)
    (holds : seg.Holds input str.reader.pending) (free : seg.compact.bytes.size < capacity)
    (got : Stream.fetch seg str capacity = (data, seg', str')) :
    seg'.Holds input str'.reader.pending ∧ str'.Feeds ending ∧
      (str'.status = .ok ∨ str'.status = ending) ∧
      (data = [] → str'.status = ending ∧ str'.reader.pending = []) := by
  have asked : 0 < capacity - seg.compact.bytes.size := Nat.sub_pos_of_lt free
  have nothing := feeds.steady.read_nil asked
  have steady := feeds.steady.read (capacity - seg.compact.bytes.size)
  obtain ⟨holds', yields, status⟩ := feeds.yields.fetch holds got
  rw [feeds.ends] at nothing
  simp only [Stream.fetch, Prod.mk.injEq] at got
  obtain ⟨rfl, rfl, rfl⟩ := got
  exact ⟨holds', ⟨steady, yields.ends, Nat.zero_lt_of_lt free, yields.status⟩,
    status.imp_right And.left, nothing⟩

/-- Whether so many bytes are more than there can ever be room for; one byte always fits. -/
def IsTooMuch (str : Stream) (need : Nat) : Prop :=
  1 < need ∧ ∀ top, Climbs str.limit top str.capacity → top < need

/--
What a refill brings: the byte of the input, with the final status where the
input has none; or no byte at all because the lexeme does not fit.  A reader
that ends behind its last byte has not ended where there is a byte.
-/
structure Brings (input : Bytes) (ending : Status) (seg : Segment) (str : Stream) (need : Nat)
    (result : UInt8 × Segment × Stream) : Prop where
  holds : result.2.1.Holds input result.2.2.reader.pending
  feeds : result.2.2.Feeds ending
  outcome :
    (result.2.2.status = .bufferExceeded ∧ result.1 = 0 ∧ result.2.1.last? need = none ∧
      (str.status = .bufferExceeded ∨ str.IsTooMuch need)) ∨
    (result.1 = (input[seg.offset + (need - 1)]?).getD 0 ∧
      result.2.1.last? need = input[seg.offset + (need - 1)]? ∧
      (input[seg.offset + (need - 1)]? = none → result.2.2.status = ending) ∧
      result.2.2.status ≠ .bufferExceeded ∧
      (str.reader.endsWithLast = false → input[seg.offset + (need - 1)]? ≠ none →
        result.2.2.status = .ok))

/-- A fetch that found a byte where there was none brought bytes, so a late reader goes on. -/
theorem fetch_ok {data : Bytes} {capacity need : Nat} {c : UInt8}
    (late : str.reader.endsWithLast = false) (holds : seg.Holds input str.reader.pending)
    (asked : 0 < need) (none : seg.last? need = none)
    (got : Stream.fetch seg str capacity = (data, seg', str'))
    (found : input[seg.offset + (need - 1)]? = some c) : str'.status = .ok := by
  simp only [Stream.fetch, Prod.mk.injEq] at got
  obtain ⟨_, _, rfl⟩ := got
  unfold Reader.read
  split
  · next pieces =>
      have spent : str.reader.pending = [] := by rw [Reader.pending, pieces]; rfl
      rw [spent] at holds
      rw [holds.last?_eq_none asked none] at found
      cases found
  · rw [late]
    rfl

/-- What a fetch keeps of the stream. -/
theorem fetch_keeps (seg : Segment) (str : Stream) (capacity : Nat) :
    (Stream.fetch seg str capacity).2.2.reader.endsWithLast = str.reader.endsWithLast ∧
      (Stream.fetch seg str capacity).2.2.limit = str.limit ∧
      (Stream.fetch seg str capacity).2.2.capacity = capacity := by
  refine ⟨?_, rfl, rfl⟩
  unfold Stream.fetch Reader.read
  dsimp only
  split <;> rfl

theorem Feeds.refill (feeds : str.Feeds ending) (other : ending ≠ .bufferExceeded)
    (holds : seg.Holds input str.reader.pending) {need : Nat} (asked : 0 < need)
    (none : seg.last? need = none) :
    Brings input ending seg str need (Stream.refill seg str need) := by
  fun_induction Stream.refill seg str need with
  | case1 seg str _ capacity small =>
      have least := Nat.lt_of_lt_of_le feeds.capacity
        (le_room (seg.bytes.size - seg.start) need str.limit str.capacity)
      have much : str.IsTooMuch need :=
        ⟨Nat.lt_of_le_of_lt least small, fun top climbs => (climbs.room _ _).2 small⟩
      exact ⟨holds, ⟨feeds.steady, feeds.ends, feeds.capacity, .inr (.inl rfl)⟩,
        .inl ⟨rfl, rfl, none, .inr much⟩⟩
  | case2 seg str _ capacity fits data seg' str' got c found =>
      have offset := offset_fetch seg str capacity
      have free := Nat.lt_of_lt_of_le (Segment.size_compact_lt asked none) (Nat.le_of_not_lt fits)
      have goesOn := fun late => fetch_ok late holds asked none got (c := c)
      obtain ⟨holds, feeds, given, _⟩ := feeds.fetch holds free got
      have byte := holds.last?_eq_some found
      rw [got] at offset
      rw [offset] at byte
      refine ⟨holds, feeds, .inr ?_⟩
      rw [byte] at goesOn ⊢
      rw [found]
      refine ⟨rfl, rfl, fun lost => absurd lost (Option.some_ne_none c), ?_,
        fun late _ => goesOn late rfl⟩
      rcases given with ok | ended
      · rw [ok]; decide
      · rw [ended]; exact other
  | case3 seg str _ capacity fits seg' str' missed got =>
      have offset := offset_fetch seg str capacity
      have free := Nat.lt_of_lt_of_le (Segment.size_compact_lt asked none) (Nat.le_of_not_lt fits)
      obtain ⟨holds, feeds, _, nothing⟩ := feeds.fetch holds free got
      obtain ⟨ended, spent⟩ := nothing rfl
      have byte := (spent ▸ holds).last?_eq_none asked missed
      rw [got] at offset
      rw [offset] at byte
      refine ⟨holds, feeds, .inr ?_⟩
      rw [byte, missed]
      exact ⟨rfl, rfl, fun _ => ended, ended ▸ other, fun _ here => absurd rfl here⟩
  | case4 seg str _ capacity fits data seg' str' got missed some ih =>
      have offset := offset_fetch seg str capacity
      have free := Nat.lt_of_lt_of_le (Segment.size_compact_lt asked none) (Nat.le_of_not_lt fits)
      obtain ⟨holds, feeds, given, _⟩ := feeds.fetch holds free got
      obtain ⟨same, limit, room⟩ := fetch_keeps seg str capacity
      rw [got] at offset same limit room
      dsimp only at same limit room
      have brought := ih feeds holds missed
      refine ⟨brought.holds, brought.feeds, ?_⟩
      rcases brought.outcome with ⟨exceeded, zero, lost, before | more⟩ | brought
      · rcases given with ok | ended
        · exact absurd (ok.symm.trans before) (by decide)
        · exact absurd (ended.symm.trans before) other
      · refine .inl ⟨exceeded, zero, lost, .inr ⟨more.1, fun top climbs => more.2 top ?_⟩⟩
        rw [limit, room]
        exact (climbs.room _ _).1
      · rw [same] at brought
        exact .inr (offset ▸ brought)
  | case5 seg str failed =>
      refine ⟨holds, feeds, ?_⟩
      rcases feeds.status with ok | exceeded | ⟨ended, spent⟩
      · exact absurd (by rw [ok]; rfl) failed
      · exact .inl ⟨exceeded, rfl, none, .inl exceeded⟩
      · have byte := (spent ▸ holds).last?_eq_none asked none
        rw [byte, none]
        exact .inr ⟨rfl, rfl, fun _ => ended, ended ▸ other, fun _ here => absurd rfl here⟩

end Stream

namespace Supply

/-- Whether the end is told only behind the last byte, by a read of its own. -/
def IsLate : Supply → Prop
  | .nothing => True
  | .stream str => str.reader.endsWithLast = false

/-- Whether so many bytes are more than there can ever be room for. -/
def IsTooMuch : Supply → Nat → Prop
  | .nothing, _ => False
  | .stream str, need => str.IsTooMuch need

theorem IsTooMuch.one_lt {supply : Supply} {need : Nat} (h : supply.IsTooMuch need) : 1 < need := by
  cases supply with
  | nothing => cases h
  | stream str => exact h.1

end Supply

/-! ## Windows -/

namespace Window

/-- Whether a lexeme did not fit. -/
def Overflows (w : Window) : Prop := w.given = .bufferExceeded

/--
The window holds a block of the input, its supply brings what is behind the
block and then gives `ending`, and the lexeme has arrived.
-/
structure Shows (input : Bytes) (ending : Status) (w : Window) : Prop where
  holds : w.toSegment.Holds input w.pending
  arrived : w.cursor ≤ w.fill
  supply : match w.supply with
    | .nothing => ending = .endOfInput
    | .stream str => str.Feeds ending
  failed : ending.isOk = false
  other : ending.isBufferExceeded = false

/-- Going on from one window to another over the next `n` bytes of the input. -/
structure Covers (input : Bytes) (ending : Status) (w v : Window) (n : Nat) : Prop where
  shows : v.Shows input ending
  cursor : v.cursor = w.cursor + n
  offset : v.offset = w.offset

variable {input : Bytes} {ending : Status} {u v w : Window}

theorem Covers.trans {m n : Nat} (h : Covers input ending u v m) (h' : Covers input ending v w n) :
    Covers input ending u w (m + n) :=
  ⟨h'.shows, by rw [h'.cursor, h.cursor, Nat.add_assoc], h'.offset.trans h.offset⟩

theorem Shows.covers (h : w.Shows input ending) : Covers input ending w w 0 := ⟨h, rfl, rfl⟩

theorem Shows.ending_ne (h : w.Shows input ending) : ending ≠ .bufferExceeded := by
  rintro rfl
  exact absurd h.other (by decide)

theorem shows_ofBytes (input : Bytes) : (ofBytes input).Shows input .endOfInput where
  holds := ⟨Nat.zero_le _, by simp [ofBytes, pending]⟩
  arrived := Nat.zero_le _
  supply := rfl
  failed := rfl
  other := rfl

theorem shows_ofReader {r : Reader} (o : Options) (steady : r.IsSteady)
    (failed : r.ending.isOk = false) (other : r.ending.isBufferExceeded = false) :
    (ofReader r o).Shows r.pending r.ending where
  holds := ⟨Nat.zero_le _, by simp [ofReader, pending]⟩
  arrived := Nat.le_refl _
  supply := ⟨steady, rfl, o.sanitize_min_pos, .inl rfl⟩
  failed := failed
  other := other

/-- A window that overflowed goes on to none that did not. -/
theorem Onward.fits (h : Onward w v) (fits : ¬ v.Overflows) : ¬ w.Overflows := by
  intro spilled
  have failed : w.given.isOk = false := by rw [spilled]; rfl
  exact fits ((h.given failed).trans spilled)

theorem Reaches.fits (h : Reaches w v) (fits : ¬ v.Overflows) : ¬ w.Overflows := h.onward.fits fits

/-- A supply that has not failed had not failed before. -/
theorem fine_of_given (stays : w.given.isOk = false → v.given = w.given)
    (fine : v.given.isOk = true) : w.given.isOk = true := by
  cases failed : w.given.isOk with
  | true => rfl
  | false => rw [← failed, ← stays failed, fine]

/-- What overflows on the way had not failed before. -/
theorem Reaches.fine_of_overflow (h : Reaches w v) (fits : ¬ w.Overflows) (spilled : v.Overflows) :
    w.given.isOk = true := by
  cases fine : w.given.isOk with
  | true => rfl
  | false => exact absurd ((h.given fine).symm.trans spilled) fits

/-- What a look at place `i` shows, unless the lexeme does not fit. -/
structure Sees (input : Bytes) (ending : Status) (w v : Window) (i : Nat) (c : UInt8) : Prop where
  byte : c = (input[w.cursor + i]?).getD 0
  at_eq : v.at? i = input[w.cursor + i]?
  ended : input[w.cursor + i]? = none → v.given = ending
  fresh : w.supply.IsLate → w.given = .ok → input[w.cursor + i]? ≠ none → v.given = .ok

/-- What comes of a look: the byte of the input, or nothing as the lexeme does not fit. -/
inductive Looks (input : Bytes) (ending : Status) (w : Window) (i : Nat) : UInt8 × Window → Prop
  | sees {v : Window} {c : UInt8} (shows : v.Shows input ending)
      (sees : Sees input ending w v i c) (kept : v.Overflows → w.Overflows) :
      Looks input ending w i (c, v)
  | spills {v : Window} (shows : v.Shows input ending) (spilled : v.Overflows)
      (lost : v.at? i = none) (cause : w.Overflows ∨ w.supply.IsTooMuch (w.len + i + 1)) :
      Looks input ending w i (0, v)

theorem offset_add (w : Window) (i : Nat) : w.offset + (w.len + i + 1 - 1) = w.cursor + i := by
  simp only [Segment.offset, Segment.cursor]
  omega

theorem Shows.looks_of_arrived {i : Nat} {c : UInt8} (h : w.Shows input ending)
    (here : w.at? i = some c) : Looks input ending w i (w.peek i) := by
  have byte := h.holds.last?_eq_some ((w.last?_of_len i).trans here)
  rw [offset_add] at byte
  rw [peek_of_arrived here]
  refine .sees ⟨h.holds, h.arrived, h.supply, h.failed, h.other⟩ ⟨?_, ?_, ?_, ?_⟩ id
  · rw [byte]; rfl
  · rw [byte]; exact here
  · intro lost
    rw [byte] at lost
    cases lost
  · exact fun _ ok _ => ok

theorem Shows.looks_of_nothing {i : Nat} (h : w.Shows input ending) (here : w.at? i = none)
    (supply : w.supply = .nothing) : Looks input ending w i (w.peek i) := by
  have spent : w.pending = [] := by simp [pending, supply]
  have missed := (w.last?_of_len i).trans here
  have byte := (spent ▸ h.holds).last?_eq_none (Nat.succ_pos _) missed
  rw [offset_add] at byte
  have same : ending = .endOfInput := by
    have := h.supply
    rwa [supply] at this
  rw [peek_of_nothing here supply]
  refine .sees ⟨h.holds, h.arrived, h.supply, h.failed, h.other⟩ ⟨?_, ?_, ?_, ?_⟩ id
  · rw [byte]; rfl
  · rw [byte]; exact here
  · intro _
    rw [same]
    simp [given, supply]
  · exact fun _ ok _ => ok

theorem Shows.looks_of_stream {i : Nat} {str : Stream} (h : w.Shows input ending)
    (here : w.at? i = none) (supply : w.supply = .stream str) :
    Looks input ending w i (w.peek i) := by
  have feeds : str.Feeds ending := by
    have := h.supply
    rwa [supply] at this
  have holds : w.toSegment.Holds input str.reader.pending := by
    have := h.holds
    rwa [pending, supply] at this
  have missed := (w.last?_of_len i).trans here
  have brought := feeds.refill h.ending_ne holds (Nat.succ_pos _) missed
  have arrived := Nat.le_trans h.arrived (fill_le_peek w i)
  rw [← cursor_peek w i] at arrived
  have len := len_peek w i
  rw [peek_of_stream here supply] at arrived len ⊢
  have last := Segment.last?_of_len (str.refill w.toSegment (w.len + i + 1)).2.1 i
  rw [show (str.refill w.toSegment (w.len + i + 1)).2.1.len = w.len from len] at last
  have shows := fun supplied => Shows.mk brought.holds arrived supplied h.failed h.other
  rcases brought.outcome with ⟨exceeded, zero, lost, cause⟩ | ⟨byte, found, ended, fits, fresh⟩
  · rw [zero]
    refine .spills (shows brought.feeds) exceeded (last.symm.trans lost) ?_
    rw [Overflows, given, supply]
    exact cause
  · rw [offset_add] at byte found ended fresh
    refine .sees (shows brought.feeds) ⟨byte, last.symm.trans found, ended, ?_⟩
      fun spilled => absurd spilled fits
    rw [supply]
    exact fun late _ here => fresh late here

theorem Shows.looks (h : w.Shows input ending) (i : Nat) :
    Looks input ending w i (w.peek i) := by
  cases here : w.at? i with
  | some c => exact h.looks_of_arrived here
  | none =>
      cases supply : w.supply with
      | nothing => exact h.looks_of_nothing here supply
      | stream str => exact h.looks_of_stream here supply

/-- A look that overflows nothing shows the byte of the input. -/
theorem Shows.sees {i : Nat} {c : UInt8} (h : w.Shows input ending) (seen : w.peek i = (c, v))
    (fits : ¬ v.Overflows) : Covers input ending w v 0 ∧ Sees input ending w v i c := by
  have cursor := cursor_peek w i
  have offset := offset_peek w i
  have looks := h.looks i
  rw [seen] at cursor offset looks
  cases looks with
  | sees shows sees => exact ⟨⟨shows, cursor, offset⟩, sees⟩
  | spills _ spilled => exact absurd spilled fits

/-- A look that overflows shows nothing, and is not at the first byte of a lexeme. -/
theorem Shows.overflow {i : Nat} {c : UInt8} (h : w.Shows input ending) (seen : w.peek i = (c, v))
    (fits : ¬ w.Overflows) (spilled : v.Overflows) : c = 0 ∧ v.at? i = none ∧ 0 < w.len + i := by
  have looks := h.looks i
  rw [seen] at looks
  cases looks with
  | sees _ _ kept => exact absurd (kept spilled) fits
  | spills _ _ lost cause =>
      rcases cause with before | more
      · exact absurd before fits
      · have more := more.one_lt
        exact ⟨rfl, lost, by omega⟩

/-- Behind an overflow no byte is to be had that was not there. -/
theorem peek_of_overflow {i : Nat} (spilled : w.Overflows) (lost : w.at? i = none) :
    (w.peek i).1 = 0 := by
  have failed : w.given.isOk = false := by rw [spilled]; rfl
  unfold peek Window.look
  rw [lost]
  cases supply : w.supply with
  | nothing => rfl
  | stream str =>
      have failed : str.status.isOk = false := by simpa [given, supply] using failed
      simp [Stream.refill_of_failed _ failed]

/-! ## What is kept when the lexeme moves -/

theorem Shows.extend {n : Nat} (h : w.Shows input ending) (arrived : w.cursor + n ≤ w.fill) :
    Covers input ending w (w.extend n) n :=
  ⟨⟨⟨h.holds.base_le, h.holds.block⟩, by rw [cursor_extend]; exact arrived, h.supply, h.failed,
    h.other⟩, cursor_extend w n, rfl⟩

/-- A byte other than NUL that was seen can be taken, and all before it. -/
theorem Shows.take {i n : Nat} {c : UInt8} (h : w.Shows input ending) (seen : w.peek i = (c, v))
    (fits : ¬ v.Overflows) (hc : c ≠ 0) (hn : n ≤ i + 1) :
    Covers input ending w (v.extend n) n := by
  have looked := (h.sees seen fits).1
  have place := peek_sees seen hc
  have cursor := looked.cursor
  have arrived : v.cursor + n ≤ v.fill := by omega
  have moved := looked.trans (looked.shows.extend arrived)
  rwa [Nat.zero_add] at moved

theorem Shows.skip (h : w.Shows input ending) : w.skip.Shows input ending where
  holds := ⟨h.holds.base_le, h.holds.block⟩
  arrived := by rw [cursor_skip h.arrived, fill_skip]; exact h.arrived
  supply := h.supply
  failed := h.failed
  other := h.other

theorem Shows.setLen {n : Nat} (h : w.Shows input ending) (shorter : n ≤ w.len) :
    (w.setLen n).Shows input ending where
  holds := ⟨h.holds.base_le, h.holds.block⟩
  arrived := by
    have := h.arrived
    simp only [Window.setLen, Segment.setLen, Segment.cursor, Segment.fill] at *
    omega
  supply := h.supply
  failed := h.failed
  other := h.other

theorem Shows.lexeme_eq (h : w.Shows input ending) :
    w.lexeme = (input.drop w.offset).take w.len := by
  have arrived := h.arrived
  simp only [Segment.cursor, Segment.fill] at arrived
  exact h.holds.lexeme_eq (by omega)

/-! ## The status of a window on an input -/

/-- Bytes that arrived hide what the supply gave, but for an overflow. -/
theorem status_eq (w : Window) :
    w.status =
      if !w.given.isBufferExceeded && decide (w.cursor < w.fill) then .ok else w.given := by
  have place : w.cursor < w.fill ↔ w.start + w.len < w.bytes.size := by
    simp only [Segment.cursor, Segment.fill]
    omega
  unfold status statusAt given
  simp only [place]
  cases w.supply with
  | nothing => simp [Status.endOfInput, Status.plain, Status.isBufferExceeded, Status.category]
  | stream str => rfl

theorem status_of_overflow (spilled : w.Overflows) : w.status = .bufferExceeded := by
  rw [status_eq, spilled]
  rfl

theorem Shows.given_eq (h : w.Shows input ending) :
    w.given = .ok ∨ w.given = .bufferExceeded ∨ w.given = ending ∧ w.pending = [] := by
  have supplied := h.supply
  unfold given pending
  cases supply : w.supply with
  | nothing =>
      rw [supply] at supplied
      exact .inr (.inr ⟨supplied.symm, rfl⟩)
  | stream str =>
      rw [supply] at supplied
      exact supplied.status

theorem Shows.status_of_arrived (h : w.Shows input ending) (fits : ¬ w.Overflows)
    (arrived : w.cursor < w.fill) : w.status = .ok := by
  have other : w.given.isBufferExceeded = false := by
    rcases h.given_eq with ok | spilled | ⟨ended, _⟩
    · rw [ok]; rfl
    · exact absurd spilled fits
    · rw [ended]; exact h.other
  rw [status_eq, other, decide_eq_true arrived]
  rfl

/-- Where the input ends the status is what the supply gave. -/
theorem Shows.status_of_end (h : w.Shows input ending) (here : input[w.cursor]? = none) :
    w.status = w.given := by
  have length := h.holds.length
  have behind := List.getElem?_eq_none_iff.mp here
  rw [status_eq, decide_eq_false (by omega), Bool.and_false]
  rfl

/-- Where the input goes on nothing stands in the way of a byte, whether or not it has arrived. -/
theorem Shows.status_of_more (h : w.Shows input ending) (fits : ¬ w.Overflows)
    (here : input[w.cursor]? ≠ none) : w.status = .ok := by
  have length := h.holds.length
  rcases h.given_eq with ok | spilled | ⟨_, spent⟩
  · rw [status_eq, ok]
    split <;> rfl
  · exact absurd spilled fits
  · apply h.status_of_arrived fits
    rw [spent, List.length_nil, Nat.add_zero] at length
    rw [length]
    exact Nat.lt_of_not_le fun behind => here (List.getElem?_eq_none_iff.mpr behind)

/-- Nothing but an overflow or the end of the input stands in the way of a byte. -/
theorem Shows.status_cases (h : w.Shows input ending) (fits : ¬ w.Overflows) :
    w.status = .ok ∨ w.status = ending := by
  rw [status_eq]
  split
  · exact .inl rfl
  · rcases h.given_eq with ok | spilled | ⟨ended, _⟩
    · exact .inl ok
    · exact absurd spilled fits
    · exact .inr ended

/-- The byte behind the lexeme has arrived, or the supply has said that there is none. -/
def IsDecided (input : Bytes) (ending : Status) (w : Window) : Prop :=
  w.cursor < w.fill ∨ input[w.cursor]? = none ∧ w.given = ending

theorem Sees.decided {u : Window} {c : UInt8} (h : Sees input ending u w 0 c)
    (cursor : w.cursor = u.cursor) : IsDecided input ending w := by
  have here := h.at_eq
  rw [Nat.add_zero] at here
  cases byte : input[u.cursor]? with
  | none => exact .inr ⟨by rw [cursor, byte], h.ended byte⟩
  | some d =>
      rw [byte] at here
      exact .inl (Segment.cursor_lt_fill_of_at? here)

theorem Reaches.decided (h : Reaches w v) (shows : w.Shows input ending)
    (cursor : v.cursor = w.cursor) (decided : IsDecided input ending w) :
    IsDecided input ending v := by
  rcases decided with arrived | ⟨none, given⟩
  · left
    rw [cursor]
    exact Nat.lt_of_lt_of_le arrived h.fill
  · right
    have failed : w.given.isOk = false := by rw [given]; exact shows.failed
    exact ⟨by rw [cursor, none], (h.given failed).trans given⟩

/-- A byte of the input that is decided has arrived. -/
theorem IsDecided.arrived (h : IsDecided input ending w) (some : input[w.cursor]? ≠ none) :
    w.cursor < w.fill := by
  rcases h with arrived | ⟨none, _⟩
  · exact arrived
  · exact absurd none some

theorem IsDecided.status_of_none (h : IsDecided input ending w) (shows : w.Shows input ending)
    (none : input[w.cursor]? = none) : w.status = ending := by
  rw [shows.status_of_end none]
  rcases h with arrived | ⟨_, given⟩
  · have length := shows.holds.length
    have := List.getElem?_eq_none_iff.mp none
    omega
  · exact given

end Window

end JsonEvents
