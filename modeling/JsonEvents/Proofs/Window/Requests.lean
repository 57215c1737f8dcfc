import Mathlib.Algebra.Group.Nat.Defs
import JsonEvents.Proofs.Window.Watched
import JsonEvents.Window.Command

/-!
# What a refill asks of its reader

`Stream.tell` is a refill that also tells the reads it makes.  None of them asks
for more than there is room for behind the bytes held, and where a byte is
missing each asks for one at least (`Fills.within`, `Fills.sound`).  There are no
more of them than bytes are needed (`length_tell`), or than there is room for
(`Fills.length_tell_le`).
-/

namespace JsonEvents

/-- One read: the bytes held and the room for them as it is made, what it asks for, what it brings. -/
structure Request where
  held : Nat
  capacity : Nat
  asked : Nat
  got : Delivery

/-- A read into free room, of which there is `top` at most. -/
structure Request.IsWithin (top : Nat) (request : Request) : Prop where
  inside : request.held + request.asked ≤ request.capacity
  brought : request.got.data.length ≤ request.asked
  capacity_le : request.capacity ≤ top

/-- A read of some bytes into free room. -/
structure Request.IsSound (top : Nat) (request : Request) : Prop
    extends Request.IsWithin top request where
  asked_pos : 0 < request.asked

namespace Stream

variable {keep need limit capacity least top : Nat} {seg : Segment} {str : Stream}

/-! ## Making room -/

theorem exists_room_eq (keep need limit capacity : Nat) :
    ∃ k, room keep need limit capacity = capacity * 2 ^ k := by
  fun_induction room keep need limit capacity with
  | case1 capacity _ ih =>
      obtain ⟨k, doubled⟩ := ih
      refine ⟨k + 1, ?_⟩
      rw [doubled, pow_succ, Nat.mul_comm 2, Nat.mul_assoc, Nat.mul_comm 2]
  | case2 => exact ⟨0, by rw [pow_zero, Nat.mul_one]⟩

/-- Room that was made for a byte behind those kept is less than four times what was needed. -/
theorem room_lt (kept : keep < need) :
    room keep need limit capacity = capacity ∨ room keep need limit capacity < 4 * need := by
  fun_induction room keep need limit capacity with
  | case1 capacity small ih =>
      right
      rcases ih with same | less
      · rw [same]
        omega
      · exact less
  | case2 => exact .inl rfl

/-! ## The reads of a refill -/

/-- The read that a fetch makes. -/
def request (seg : Segment) (str : Stream) (capacity : Nat) : Request :=
  let held := seg.compact.bytes.size
  ⟨held, capacity, capacity - held, (str.reader.read (capacity - held)).1⟩

/-- A refill, and the reads that it makes, one after the other. -/
def tell (seg : Segment) (str : Stream) (need : Nat) : List Request × UInt8 × Segment × Stream :=
  if str.status.isOk then
    let capacity := room (seg.bytes.size - seg.start) need str.limit str.capacity
    if capacity < need then
      ([], 0, seg, { str with status := .bufferExceeded })
    else
      match _h : fetch seg str capacity with
      | (data, seg', str') =>
          match seg'.last? need with
          | some c => ([request seg str capacity], c, seg', str')
          | none =>
              if data = [] then
                ([request seg str capacity], 0, seg', str')
              else
                let (requests, result) := tell seg' str' need
                (request seg str capacity :: requests, result)
  else
    ([], 0, seg, str)
termination_by str.reader.pending.length
decreasing_by
  have moved := length_pending_fetch seg str capacity
  have some : data.length ≠ 0 := by simpa using ‹¬ data = []›
  simp only [_h] at moved
  omega

theorem tell_snd (seg : Segment) (str : Stream) (need : Nat) :
    (tell seg str need).2 = refill seg str need := by
  fun_induction tell seg str need with
  | case1 seg str ok capacity small => rw [refill, if_pos ok, if_pos small]
  | case2 seg str ok capacity fits data seg' str' got c found =>
      rw [refill, if_pos ok, if_neg fits, got]
      simp only [found]
  | case3 seg str ok capacity fits seg' str' missed got =>
      rw [refill, if_pos ok, if_neg fits, got]
      simp only [missed, if_pos]
  | case4 seg str ok capacity fits data seg' str' got missed some requests result rest ih =>
      rw [refill, if_pos ok, if_neg fits, got]
      simp only [missed, if_neg some]
      rw [rest] at ih
      exact ih
  | case5 seg str failed => rw [refill, if_neg failed]

/-- Each read that is told was made, and no other. -/
theorem reads_tell (seg : Segment) (str : Stream) (need : Nat) :
    (tell seg str need).2.2.2.reader.reads = str.reader.reads + (tell seg str need).1.length := by
  have step {seg : Segment} {str : Stream} {capacity : Nat} {data : Bytes} {seg' : Segment}
      {str' : Stream} (got : fetch seg str capacity = (data, seg', str')) :
      str'.reader.reads = str.reader.reads + 1 := by
    have := str.reader.reads_read (capacity - seg.compact.bytes.size)
    simp only [fetch, Prod.mk.injEq] at got
    rw [← got.2.2]
    exact this
  fun_induction tell seg str need with
  | case1 => rfl
  | case2 _ _ _ _ _ _ _ _ got => exact step got
  | case3 _ _ _ _ _ _ _ _ got => exact step got
  | case4 _ _ _ _ _ _ _ _ got _ _ _ _ rest ih =>
      rw [rest, step got] at ih
      simp only [List.length_cons] at *
      omega
  | case5 => rfl

/-- The status behind a refill is the one before it, or a read gave it, or the need was too much. -/
theorem status_tell (seg : Segment) (need : Nat)
    (climbs : Climbs str.limit top str.capacity) :
    (tell seg str need).2.2.2.status = str.status ∨
      (∃ request ∈ (tell seg str need).1,
        (tell seg str need).2.2.2.status = request.got.status) ∨
      top < need := by
  fun_induction tell seg str need with
  | case1 => exact .inr (.inr ((climbs.room _ _).2 ‹_›))
  | case2 _ _ _ _ _ _ _ _ got =>
      simp only [fetch, Prod.mk.injEq] at got
      exact .inr (.inl ⟨_, List.mem_singleton_self _, by rw [← got.2.2]; rfl⟩)
  | case3 _ _ _ _ _ _ _ _ got =>
      simp only [fetch, Prod.mk.injEq] at got
      exact .inr (.inl ⟨_, List.mem_singleton_self _, by rw [← got.2.2]; rfl⟩)
  | case4 _ _ _ _ _ _ _ _ got _ _ _ _ rest ih =>
      simp only [fetch, Prod.mk.injEq] at got
      obtain ⟨_, _, rfl⟩ := got
      rw [rest] at ih
      rcases ih (climbs.room _ _).1 with same | ⟨request, member, same⟩ | less
      · exact .inr (.inl ⟨_, List.mem_cons_self, same⟩)
      · exact .inr (.inl ⟨request, List.mem_cons_of_mem _ member, same⟩)
      · exact .inr (.inr less)
  | case5 => exact .inl rfl

/-- What can never fit is given up before anything is read. -/
theorem tell_of_lt (seg : Segment) (climbs : Climbs str.limit top str.capacity)
    (ok : str.status.isOk = true) (less : top < need) :
    tell seg str need = ([], 0, seg, { str with status := .bufferExceeded }) := by
  have small : room (seg.bytes.size - seg.start) need str.limit str.capacity < need :=
    Nat.lt_of_le_of_lt (climbs.room _ _).1.le.1 less
  rw [tell, if_pos ok, if_pos small]

/-- The bytes that a fetch brings go behind those that it keeps. -/
theorem size_compact_fetch {data : Bytes} {seg' : Segment} {str' : Stream}
    (got : fetch seg str capacity = (data, seg', str')) :
    seg'.compact.bytes.size = seg.compact.bytes.size + data.length := by
  simp only [fetch, Prod.mk.injEq] at got
  rw [← got.2.1, ← got.1, Segment.compact_bytes_size]
  simp only [Segment.append, Segment.size_append]
  rfl

/-! ## Filling the room -/

/-- The bytes held are in the room for them, which was doubled from `least` on towards `top`. -/
structure Fills (least top : Nat) (seg : Segment) (str : Stream) : Prop where
  held : seg.bytes.size ≤ str.capacity
  doubled : ∃ k, str.capacity = least * 2 ^ k
  climbs : Climbs str.limit top str.capacity

namespace Fills

/-- What is kept has its place in any room made for it. -/
theorem kept_le (h : Fills least top seg str) (need : Nat) :
    seg.compact.bytes.size ≤ room (seg.bytes.size - seg.start) need str.limit str.capacity := by
  have held := h.held
  have grown := le_room (seg.bytes.size - seg.start) need str.limit str.capacity
  rw [Segment.compact_bytes_size]
  omega

theorem fetch {data : Bytes} {seg' : Segment} {str' : Stream} (h : Fills least top seg str)
    (got : Stream.fetch seg str (room (seg.bytes.size - seg.start) need str.limit str.capacity) =
      (data, seg', str')) : Fills least top seg' str' := by
  have kept := h.kept_le need
  have brought := str.reader.length_data_read_le
    (room (seg.bytes.size - seg.start) need str.limit str.capacity - seg.compact.bytes.size)
  simp only [Stream.fetch, Prod.mk.injEq] at got
  obtain ⟨_, rfl, rfl⟩ := got
  refine ⟨?_, ?_, (h.climbs.room _ _).1⟩
  · simp only [Segment.append, Segment.size_append]
    omega
  · obtain ⟨k, doubled⟩ := h.doubled
    obtain ⟨j, more⟩ :=
      exists_room_eq (seg.bytes.size - seg.start) need str.limit str.capacity
    exact ⟨k + j, by rw [more, doubled, pow_add, Nat.mul_assoc]⟩

theorem tell (h : Fills least top seg str) (need : Nat) :
    Fills least top (tell seg str need).2.2.1 (tell seg str need).2.2.2 := by
  fun_induction Stream.tell seg str need with
  | case1 => exact ⟨h.held, h.doubled, h.climbs⟩
  | case2 _ _ _ _ _ _ _ _ got => exact h.fetch got
  | case3 _ _ _ _ _ _ _ _ got => exact h.fetch got
  | case4 _ _ _ _ _ _ _ _ got _ _ _ _ rest ih =>
      rw [rest] at ih
      exact ih (h.fetch got)
  | case5 => exact h

theorem isWithin_request (h : Fills least top seg str) (need : Nat) :
    (request seg str (room (seg.bytes.size - seg.start) need str.limit str.capacity)).IsWithin
      top := by
  have kept := h.kept_le need
  constructor
  · simp only [request]
    omega
  · exact str.reader.length_data_read_le _
  · exact (h.climbs.room _ _).1.le.1

/-- Where a byte is missing and can fit, there is free room for it. -/
theorem asked_request (asked : 0 < need) (missed : seg.last? need = none)
    (fits : ¬ room (seg.bytes.size - seg.start) need str.limit str.capacity < need) :
    0 < (request seg str
      (room (seg.bytes.size - seg.start) need str.limit str.capacity)).asked := by
  have small := Segment.size_compact_lt asked missed
  simp only [request]
  omega

/-- Each read is into free room, and has some to fill where a byte is missing. -/
theorem within (h : Fills least top seg str) :
    ∀ request ∈ (Stream.tell seg str need).1, request.IsWithin top ∧
      (0 < need → seg.last? need = none → 0 < request.asked) := by
  intro request member
  fun_induction Stream.tell seg str need with
  | case1 => cases member
  | case2 =>
      rw [List.mem_singleton.mp member]
      exact ⟨h.isWithin_request need, fun asked missed => asked_request asked missed ‹_›⟩
  | case3 =>
      rw [List.mem_singleton.mp member]
      exact ⟨h.isWithin_request need, fun asked missed => asked_request asked missed ‹_›⟩
  | case4 _ _ _ _ _ _ _ _ got missed' _ _ _ rest ih =>
      rw [rest] at ih
      rcases List.mem_cons.mp member with same | member
      · rw [same]
        exact ⟨h.isWithin_request need, fun asked missed => asked_request asked missed ‹_›⟩
      · obtain ⟨inside, some⟩ := ih (h.fetch got) member
        exact ⟨inside, fun asked _ => some asked missed'⟩
  | case5 => cases member

theorem sound (h : Fills least top seg str) (asked : 0 < need) (missed : seg.last? need = none)
    {request : Request} (member : request ∈ (Stream.tell seg str need).1) :
    request.IsSound top := by
  obtain ⟨inside, some⟩ := h.within request member
  exact ⟨inside, some asked missed⟩

/-- Each read but the last brings a byte, and all that is brought has room. -/
theorem length_tell_le (h : Fills least top seg str) :
    (Stream.tell seg str need).1.length ≤ top + 1 - seg.compact.bytes.size := by
  have kept := h.kept_le need
  have most := (h.climbs.room (seg.bytes.size - seg.start) need).1.le.1
  fun_induction Stream.tell seg str need with
  | case1 => exact Nat.zero_le _
  | case2 => rw [List.length_singleton]; omega
  | case3 => rw [List.length_singleton]; omega
  | case4 seg str _ capacity _ data seg' str' got _ some _ _ rest ih =>
      have fetched := h.fetch got
      have kept' := fetched.kept_le need
      have most' := (fetched.climbs.room (seg'.bytes.size - seg'.start) need).1.le.1
      have later := ih fetched kept' most'
      have held := size_compact_fetch got
      have brought : data.length ≠ 0 := by simpa using some
      rw [rest] at later
      simp only [List.length_cons] at *
      omega
  | case5 => exact Nat.zero_le _

end Fills

/-- Each read but the last brings a byte, and the last is made while a byte is missing. -/
theorem length_tell (str : Stream) (asked : 0 < need) (missed : seg.last? need = none) :
    (tell seg str need).1.length ≤ need - seg.compact.bytes.size := by
  have small := Segment.size_compact_lt asked missed
  fun_induction tell seg str need with
  | case1 => exact Nat.zero_le _
  | case2 => rw [List.length_singleton]; omega
  | case3 => rw [List.length_singleton]; omega
  | case4 seg str _ capacity _ data seg' str' got missed' some _ _ rest ih =>
      have small' := Segment.size_compact_lt asked missed'
      have brought : data.length ≠ 0 := by simpa using some
      have held := size_compact_fetch got
      have least := ih missed' small'
      rw [rest] at least
      simp only [List.length_cons] at *
      omega
  | case5 => exact Nat.zero_le _

/-- A refill for a byte behind those kept makes less than four times the room needed, or none. -/
theorem capacity_tell (str : Stream) (asked : 0 < need) (missed : seg.last? need = none) :
    (tell seg str need).2.2.2.capacity = str.capacity ∨
      (tell seg str need).2.2.2.capacity < 4 * need := by
  have step {seg : Segment} {str : Stream} {data : Bytes} {seg' : Segment} {str' : Stream}
      (missed : seg.last? need = none)
      (got : fetch seg str (room (seg.bytes.size - seg.start) need str.limit str.capacity) =
        (data, seg', str')) : str'.capacity = str.capacity ∨ str'.capacity < 4 * need := by
    have small := Segment.size_compact_lt asked missed
    rw [Segment.compact_bytes_size] at small
    simp only [fetch, Prod.mk.injEq] at got
    rw [← got.2.2]
    exact room_lt small
  fun_induction tell seg str need with
  | case1 => exact .inl rfl
  | case2 _ _ _ _ _ _ _ _ got => exact step missed got
  | case3 _ _ _ _ _ _ _ _ got => exact step missed got
  | case4 _ _ _ _ _ _ _ _ got missed' _ _ _ rest ih =>
      have later := ih missed'
      rw [rest] at later
      rcases later with same | less
      · rw [same]
        exact step missed got
      · exact .inr less
  | case5 => exact .inl rfl

/-- Who needs no bytes gets none. -/
theorem refill_zero (seg : Segment) (str : Stream) : (refill seg str 0).1 = 0 :=
  Decidable.byContradiction fun shown => nomatch refill_arrived seg str 0 shown

/-- Nothing is too much for who needs no bytes, so there is a read unless one has failed. -/
theorem tell_zero_ne_nil (ok : str.status.isOk = true) : (tell seg str 0).1 ≠ [] := by
  rw [tell, if_pos ok]
  dsimp only
  rw [if_neg (Nat.not_lt_zero _)]
  split
  · exact List.cons_ne_nil _ _
  · split <;> exact List.cons_ne_nil _ _

theorem limit_tell (seg : Segment) (str : Stream) (need : Nat) :
    (tell seg str need).2.2.2.limit = str.limit := by
  rw [tell_snd]
  exact refill_keeps (I := fun after => after.limit = str.limit) (fun _ same => same)
    (fun _ _ _ _ same => same) seg str need rfl

end Stream

namespace Window

variable {w : Window} {str : Stream} {i : Nat} {c : UInt8}

/-! ## The reads of a look -/

/-- The reads that a look makes, in order. -/
def requests (w : Window) (i : Nat) : List Request :=
  match w.bytes[wrap (w.start + w.len + i)]?, w.supply with
  | none, .stream str => (str.tell w.toSegment (wrap (w.len + i + 1))).1
  | _, _ => []

/-- How many reads the reader has answered. -/
def reads (w : Window) : Nat :=
  match w.supply with
  | .nothing => 0
  | .stream str => str.reader.reads

theorem requests_of_arrived (counts : w.Counts i) (here : w.at? i = some c) :
    w.requests i = [] := by
  rw [requests, wrap_of_lt counts, show w.bytes[w.start + w.len + i]? = some c from here]

theorem requests_of_stream (counts : w.Counts i) (here : w.at? i = none)
    (supply : w.supply = .stream str) :
    w.requests i = (str.tell w.toSegment (wrap (w.len + i + 1))).1 := by
  rw [requests, wrap_of_lt counts, show w.bytes[w.start + w.len + i]? = none from here, supply]

theorem wordPeek_of_arrived (counts : w.Counts i) (here : w.at? i = some c) :
    w.wordPeek i = (c, { w with reach := max w.reach (w.len + i + 1) }) := by
  have less : wrap (w.len + i + 1) ≤ w.len + i + 1 := Nat.mod_le _ _
  rw [wordPeek, wrap_of_lt counts, show w.bytes[w.start + w.len + i]? = some c from here]
  simp only [look, Nat.max_assoc, Nat.max_eq_right less]

theorem wordPeek_of_nothing (counts : w.Counts i) (here : w.at? i = none)
    (supply : w.supply = .nothing) :
    w.wordPeek i = (0, { w with reach := max w.reach (w.len + i + 1) }) := by
  have less : wrap (w.len + i + 1) ≤ w.len + i + 1 := Nat.mod_le _ _
  rw [wordPeek, wrap_of_lt counts, show w.bytes[w.start + w.len + i]? = none from here]
  simp only [look, supply, Nat.max_assoc, Nat.max_eq_right less]

theorem wordPeek_of_stream (counts : w.Counts i) (here : w.at? i = none)
    (supply : w.supply = .stream str) :
    w.wordPeek i = ((str.refill w.toSegment (wrap (w.len + i + 1))).1,
      { toSegment := (str.refill w.toSegment (wrap (w.len + i + 1))).2.1
        supply := .stream (str.refill w.toSegment (wrap (w.len + i + 1))).2.2
        reach := max w.reach (w.len + i + 1) }) := by
  have less : wrap (w.len + i + 1) ≤ w.len + i + 1 := Nat.mod_le _ _
  rw [wordPeek, wrap_of_lt counts, show w.bytes[w.start + w.len + i]? = none from here]
  simp only [look, supply, Nat.max_assoc, Nat.max_eq_right less]

/-- The count of needed bytes begins again at zero at the last byte that words count. -/
theorem wrap_of_size_le (counts : w.Counts i) (beyond : UInt64.size ≤ w.len + i + 1) :
    wrap (w.len + i + 1) = 0 := by
  have exact : w.len + i + 1 = UInt64.size := by
    unfold Counts at counts
    omega
  rw [exact, wrap, Nat.mod_self]

/-- Where a byte is missing, the last of the bytes counted up to it is. -/
theorem last?_wrap (counts : w.Counts i) (missed : w.at? i = none) :
    w.last? (wrap (w.len + i + 1)) = none := by
  rcases Nat.lt_or_ge (w.len + i + 1) UInt64.size with enough | beyond
  · rw [wrap_of_lt enough, Segment.last?_of_len]
    exact missed
  · rw [wrap_of_size_le counts beyond]
    rfl

/-- A byte other than NUL is shown only where it has arrived. -/
theorem wordPeek_arrived (counts : w.Counts i) (shown : (w.wordPeek i).1 ≠ 0) :
    (w.wordPeek i).2.at? i = some (w.wordPeek i).1 := by
  rcases Nat.lt_or_ge (w.len + i + 1) UInt64.size with enough | beyond
  · rw [wordPeek_eq_peek counts enough] at shown ⊢
    exact peek_arrived shown
  · cases here : w.at? i with
    | some c =>
        rw [wordPeek_of_arrived counts here]
        exact here
    | none =>
        cases supply : w.supply with
        | nothing =>
            rw [wordPeek_of_nothing counts here supply] at shown
            exact absurd rfl shown
        | stream str =>
            rw [wordPeek_of_stream counts here supply, wrap_of_size_le counts beyond] at shown
            exact absurd (str.refill_zero w.toSegment) shown

theorem obey_peek (w : Window) (i : UInt64) :
    w.obey (.peek i) = (.byte (w.wordPeek i.toNat).1, (w.wordPeek i.toNat).2) := rfl

/-- A look makes the reads that it is said to make, and no other. -/
theorem reads_wordPeek (w : Window) (i : Nat) :
    (w.wordPeek i).2.reads = w.reads + (w.requests i).length := by
  unfold wordPeek look requests
  cases w.bytes[wrap (w.start + w.len + i)]? with
  | some c => rfl
  | none =>
      cases supply : w.supply with
      | nothing => simp only [reads, supply, List.length_nil]
      | stream str =>
          have told := str.reads_tell w.toSegment (wrap (w.len + i + 1))
          rw [Stream.tell_snd] at told
          simp only [reads, supply]
          exact told

end Window

end JsonEvents
