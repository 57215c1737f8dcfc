import JsonEvents.Proofs.Window.Mirror

/-!
# Windows in step

Two windows are in step if they hold the same bytes and their readers deliver
the same bytes, of which the second never pauses (`InStep`).  A look that is in
front of the next pause keeps them in step (`InStep.peek`), and so does each
recognizer that looks no further.  A look that meets the pause leaves a window
in step with one in which the second makes the same look (`InStep.peek_of_pause`).
-/

namespace JsonEvents

/-! ## Readers -/

namespace Reader

/-- The places of the empty pieces, where the first piece begins at the given place. -/
def gaps (place : Nat) : List Bytes → List Nat
  | [] => []
  | piece :: rest =>
      if piece = [] then place :: gaps place rest else gaps (place + piece.length) rest

/-- The second reader delivers what the first does, without the reads that bring nothing. -/
structure InStep (r s : Reader) : Prop where
  pieces : s.pieces = r.pieces.filter (· ≠ [])
  most : s.most = r.most
  ending : s.ending = r.ending
  grants : s.grantsNothing = r.grantsNothing
  late : r.endsWithLast = false
  late' : s.endsWithLast = false

variable {r s : Reader} {piece : Bytes} {rest : List Bytes}

theorem gaps_leftover (some : piece ≠ []) (rest : List Bytes) (place n : Nat) :
    gaps (place + (piece.take n).length) (leftover piece rest n) = gaps place (piece :: rest) := by
  have lengths := congrArg List.length (List.take_append_drop n piece)
  rw [List.length_append] at lengths
  rw [gaps, if_neg some]
  unfold leftover
  split
  · next spent =>
      rw [spent, List.length_nil] at lengths
      rw [← lengths, Nat.add_zero]
  · next left more =>
      rw [gaps, if_neg more, ← lengths, Nat.add_assoc]

theorem le_of_mem_gaps {pieces : List Bytes} {first place : Nat}
    (member : place ∈ gaps first pieces) : first ≤ place := by
  induction pieces generalizing first with
  | nil => cases member
  | cons piece rest ih =>
      rw [gaps] at member
      split at member
      · rcases List.mem_cons.mp member with same | member
        · exact Nat.le_of_eq same.symm
        · exact ih member
      · exact Nat.le_trans (Nat.le_add_right _ _) (ih member)

theorem filter_leftover (piece : Bytes) (rest : List Bytes) (n : Nat) :
    (leftover piece rest n).filter (· ≠ []) = leftover piece (rest.filter (· ≠ [])) n := by
  unfold leftover
  split
  · rfl
  · next left more => exact List.filter_cons_of_pos (decide_eq_true more)

/-- A read that finds no empty piece brings the same to both. -/
theorem InStep.read (h : r.InStep s) (goesOn : ∀ rest, r.pieces ≠ [] :: rest) (place size : Nat) :
    (s.read size).1 = (r.read size).1 ∧ (r.read size).2.InStep (s.read size).2 ∧
      gaps (place + (r.read size).1.data.length) (r.read size).2.pieces = gaps place r.pieces := by
  have same := h.pieces
  cases pieces : r.pieces with
  | nil =>
      rw [pieces] at same
      simp only [List.filter_nil] at same
      unfold Reader.read
      simp only [pieces, same, h.grants, h.ending]
      exact ⟨trivial, ⟨rfl, h.most, rfl, rfl, h.late, h.late'⟩, rfl⟩
  | cons piece rest =>
      have some : piece ≠ [] := fun empty => goesOn rest (by rw [pieces, empty])
      have allowed : s.allowance size = r.allowance size := by
        unfold allowance
        rw [h.most]
      rw [pieces, List.filter_cons, if_pos (decide_eq_true some)] at same
      unfold Reader.read
      simp only [pieces, same, h.late, h.late', Bool.false_and, Bool.false_eq_true, if_false,
        allowed]
      exact ⟨trivial, ⟨(filter_leftover piece rest _).symm, h.most, h.ending, h.grants, rfl, rfl⟩,
        gaps_leftover some rest place _⟩

/-- A read that finds an empty piece brings nothing, and the other reader has no such read. -/
theorem InStep.read_pause (h : r.InStep s) (pieces : r.pieces = [] :: rest) (size : Nat) :
    (r.read size).1.data = [] ∧ (r.read size).1.status = .ok ∧ (r.read size).2.InStep s ∧
      (r.read size).2.pieces = rest := by
  have same := h.pieces
  rw [pieces, List.filter_cons, if_neg (by decide)] at same
  unfold Reader.read
  rw [pieces]
  simp only [h.late, Bool.false_and, Bool.false_eq_true, if_false, leftover, List.drop_nil,
    List.take_nil]
  exact ⟨trivial, trivial, ⟨same, h.most, h.ending, h.grants, rfl, h.late'⟩, trivial⟩

/-- A reader that tells its end by a read of its own goes on while it has pieces left. -/
theorem status_read_of_late {r : Reader} (late : r.endsWithLast = false) (size : Nat) :
    (r.read size).1.status = .ok ∨ (r.read size).2.pieces = [] := by
  unfold read
  split
  · next pieces => exact .inr pieces
  · rw [late]
    exact .inl rfl

end Reader

/-! ## Refills -/

namespace Segment

theorem append_nil (s : Segment) : s.append [] = s := by
  simp only [append, Array.appendList_nil]

theorem compact_compact (s : Segment) : s.compact.compact = s.compact := by
  simp only [compact, if_true, Nat.add_zero]

/-- Where the last of the needed bytes is missing, not all of them have arrived. -/
theorem fill_lt_of_last? {s : Segment} {need : Nat} (asked : 0 < need)
    (missed : s.last? need = none) : s.fill < s.offset + need := by
  cases need with
  | zero => cases asked
  | succ n =>
      have behind : s.bytes.size ≤ s.start + n := Array.getElem?_eq_none_iff.mp missed
      simp only [fill, offset]
      omega

end Segment

namespace Stream

theorem room_room (keep need limit capacity : Nat) :
    room keep need limit (room keep need limit capacity) = room keep need limit capacity := by
  fun_induction room keep need limit capacity with
  | case1 capacity _ ih => exact ih
  | case2 capacity enough => rw [room, if_neg enough]

section Fetched

variable {need : Nat} {data : Bytes} {seg seg' : Segment} {str str' : Stream}
  (ok : str.status.isOk = true)
  (fits : ¬ room (seg.bytes.size - seg.start) need str.limit str.capacity < need)
  (got : fetch seg str (room (seg.bytes.size - seg.start) need str.limit str.capacity) =
    (data, seg', str'))

include ok fits got

/-! A refill that has made room fetches, and goes on if more is needed and something came. -/

theorem refill_of_found {c : UInt8} (found : seg'.last? need = some c) :
    refill seg str need = (c, seg', str') := by
  rw [refill, if_pos ok]
  simp only [if_neg fits, got, found]

theorem refill_of_spent (missed : seg'.last? need = none) (nothing : data = []) :
    refill seg str need = (0, seg', str') := by
  rw [refill, if_pos ok]
  simp only [if_neg fits, got, missed, if_pos nothing]

theorem refill_of_more (missed : seg'.last? need = none) (some : data ≠ []) :
    refill seg str need = refill seg' str' need := by
  rw [refill, if_pos ok]
  simp only [if_neg fits, got, missed, if_neg some]

end Fetched

/-- Refills that have made the same room and fetch the same bytes come to the same. -/
theorem refill_congr {need capacity : Nat} {seg seg' : Segment} {str str' : Stream}
    (ok : str.status.isOk = true) (ok' : str'.status.isOk = true)
    (made : room (seg.bytes.size - seg.start) need str.limit str.capacity = capacity)
    (made' : room (seg'.bytes.size - seg'.start) need str'.limit str'.capacity = capacity)
    (fits : ¬ capacity < need) (same : fetch seg str capacity = fetch seg' str' capacity) :
    refill seg str need = refill seg' str' need := by
  rw [refill, if_pos ok, refill, if_pos ok']
  simp only [made, made', if_neg fits, same]

/-- Two streams that differ in the pauses of their readers alone. -/
structure InStep (str str' : Stream) : Prop where
  reader : str.reader.InStep str'.reader
  status : str'.status = str.status
  capacity : str'.capacity = str.capacity
  limit : str'.limit = str.limit
  spent : str.status = .ok ∨ str.status = .bufferExceeded ∨ str.reader.pieces = []

/-- The places of the input at which the reader is going to pause. -/
def gaps (seg : Segment) (str : Stream) : List Nat := Reader.gaps seg.fill str.reader.pieces

variable {need : Nat} {seg seg' : Segment} {str str' other other' : Stream}

theorem InStep.isOk (h : str.InStep other) (ok : str.status.isOk = true) :
    other.status.isOk = true := h.status ▸ ok

theorem InStep.room_eq (h : str.InStep other) (keep need : Nat) :
    room keep need other.limit other.capacity = room keep need str.limit str.capacity := by
  rw [h.limit, h.capacity]

theorem InStep.fetch {data : Bytes} {capacity : Nat} (h : str.InStep other)
    (goesOn : ∀ rest, str.reader.pieces ≠ [] :: rest)
    (got : Stream.fetch seg str capacity = (data, seg', str')) :
    ∃ other', Stream.fetch seg other capacity = (data, seg', other') ∧ str'.InStep other' ∧
      gaps seg' str' = gaps seg str := by
  obtain ⟨same, reader, places⟩ :=
    h.reader.read goesOn seg.fill (capacity - seg.compact.bytes.size)
  simp only [Stream.fetch, Prod.mk.injEq] at got
  obtain ⟨rfl, rfl, rfl⟩ := got
  have spent := Reader.status_read_of_late h.reader.late (capacity - seg.compact.bytes.size)
  refine ⟨(Stream.fetch seg other capacity).2.2, ?_,
    ⟨reader, congrArg Delivery.status same, rfl, h.limit, spent.imp_right .inr⟩, ?_⟩
  · simp only [Stream.fetch, same]
  · rw [gaps, Segment.fill_append, Segment.fill_compact]
    exact places

/-- A fetch that meets a pause makes room and does no more. -/
theorem InStep.fetch_pause {data : Bytes} {capacity : Nat} {rest : List Bytes}
    (h : str.InStep other) (pieces : str.reader.pieces = [] :: rest)
    (got : Stream.fetch seg str capacity = (data, seg', str')) :
    data = [] ∧ seg' = seg.compact ∧ str'.status = .ok ∧ str'.capacity = capacity ∧
      str'.limit = str.limit ∧ str'.reader.InStep other.reader ∧
      gaps seg str = seg'.fill :: gaps seg' str' := by
  obtain ⟨nothing, ok, reader, left⟩ :=
    h.reader.read_pause pieces (capacity - seg.compact.bytes.size)
  simp only [Stream.fetch, Prod.mk.injEq] at got
  obtain ⟨rfl, rfl, rfl⟩ := got
  rw [nothing, Segment.append_nil]
  refine ⟨rfl, rfl, ok, rfl, rfl, reader, ?_⟩
  rw [gaps, gaps, left, pieces, Reader.gaps, if_pos rfl, Segment.fill_compact]

/--
What comes of refills in step.  They do the same, or the first meets a pause;
then the second, with the room that the first has made by now, has the whole of
its refill before it.
-/
inductive Refills (need : Nat) (seg : Segment) (str other : Stream) : Prop
  | together {c : UInt8} {seg' : Segment} {str' other' : Stream}
      (first : refill seg str need = (c, seg', str'))
      (second : refill seg other need = (c, seg', other')) (inStep : str'.InStep other')
      (places : gaps seg' str' = gaps seg str)
  | pauses {seg' : Segment} {str' other' : Stream} (first : refill seg str need = (0, seg', str'))
      (second : refill seg' other' need = refill seg other need) (inStep : str'.InStep other')
      (places : gaps seg str = seg'.fill :: gaps seg' str') (missed : seg'.last? need = none)
      (went : str.status.isOk = true) (fits : ∀ top, Climbs str.limit top str.capacity → need ≤ top)

/-- A read without bytes ends the refill of the first, and the second has it all before it. -/
theorem InStep.refills_of_pause {data : Bytes} {rest : List Bytes} (h : str.InStep other)
    (pieces : str.reader.pieces = [] :: rest) (ok : str.status.isOk = true)
    (fits : ¬ room (seg.bytes.size - seg.start) need str.limit str.capacity < need)
    (got : Stream.fetch seg str (room (seg.bytes.size - seg.start) need str.limit str.capacity) =
      (data, seg', str'))
    (missed : seg'.last? need = none) (first : refill seg str need = (0, seg', str')) :
    Refills need seg str other := by
  generalize made : room (seg.bytes.size - seg.start) need str.limit str.capacity = capacity
    at fits got
  obtain ⟨_, rfl, ok', capacity', limit', reader, places⟩ := h.fetch_pause pieces got
  have status : other.status = str'.status := by
    rw [ok', h.status, (Status.isOk_iff _).mp ok]
  have inStep : str'.InStep { other with capacity } :=
    ⟨reader, status, capacity'.symm, h.limit.trans limit'.symm, .inl ok'⟩
  have same : Stream.fetch seg.compact { other with capacity } capacity =
      Stream.fetch seg other capacity := by
    simp only [Stream.fetch, Segment.compact_compact]
  have remade : room (seg.compact.bytes.size - seg.compact.start) need other.limit capacity =
      capacity := by
    rw [Segment.compact_bytes_size, h.limit, ← made]
    exact room_room _ _ _ _
  have second : refill seg.compact { other with capacity } need = refill seg other need :=
    refill_congr (h.isOk ok) (h.isOk ok) remade ((h.room_eq _ need).trans made) fits same
  refine .pauses first second inStep places missed ok fun top climbs => ?_
  rw [← made] at fits
  exact Nat.le_trans (Nat.le_of_not_lt fits) (climbs.room _ need).1.le.1

theorem InStep.refills (h : str.InStep other) (missed : seg.last? need = none) :
    Refills need seg str other := by
  revert other
  fun_induction refill seg str need with
  | case1 seg str ok capacity small =>
      intro other h
      have first : refill seg str need = (0, seg, { str with status := .bufferExceeded }) := by
        rw [refill, if_pos ok, if_pos small]
      have second : refill seg other need = (0, seg, { other with status := .bufferExceeded }) := by
        rw [refill, if_pos (h.isOk ok), h.room_eq, if_pos small]
      exact .together first second ⟨h.reader, rfl, h.capacity, h.limit, .inr (.inl rfl)⟩ rfl
  | case2 seg str ok capacity fits data seg' str' got c found =>
      intro other h
      have goesOn : ∀ rest, str.reader.pieces ≠ [] :: rest := by
        intro rest pieces
        have nothing := (h.fetch_pause pieces got).1
        rw [last?_of_fetch got nothing, missed] at found
        cases found
      obtain ⟨other', got', inStep, places⟩ := h.fetch goesOn got
      have first := refill_of_found ok fits got found
      have second := refill_of_found (h.isOk ok) (by rwa [h.room_eq]) (by rwa [h.room_eq]) found
      exact .together first second inStep places
  | case3 seg str ok capacity fits seg' str' missed' got =>
      intro other h
      have first := refill_of_spent ok fits got missed' rfl
      by_cases pausing : ∃ rest, str.reader.pieces = [] :: rest
      · obtain ⟨rest, pieces⟩ := pausing
        exact h.refills_of_pause pieces ok fits got missed' first
      · obtain ⟨other', got', inStep, places⟩ :=
          h.fetch (fun rest pieces => pausing ⟨rest, pieces⟩) got
        have second := refill_of_spent (h.isOk ok) (by rwa [h.room_eq]) (by rwa [h.room_eq])
          missed' rfl
        exact .together first second inStep places
  | case4 seg str ok capacity fits data seg' str' got missed' some ih =>
      intro other h
      obtain ⟨other', got', inStep, places⟩ :=
        h.fetch (fun rest pieces => some (h.fetch_pause pieces got).1) got
      have first := refill_of_more ok fits got missed' some
      have second := refill_of_more (h.isOk ok) (by rwa [h.room_eq]) (by rwa [h.room_eq])
        missed' some
      cases ih missed' inStep with
      | together first' second' inStep' places' =>
          exact .together (first.trans first') (second.trans second') inStep' (places'.trans places)
      | pauses first' second' inStep' places' lost _ _ =>
          exact .pauses (first.trans first') (second'.trans second.symm) inStep'
            (places.symm.trans places') lost ok fun top climbs =>
              Nat.le_trans (Nat.le_of_not_lt fits) (climbs.room _ need).1.le.1
  | case5 seg str failed =>
      intro other h
      have first : refill seg str need = (0, seg, str) := by rw [refill, if_neg failed]
      have second : refill seg other need = (0, seg, other) := by
        rw [refill, h.status, if_neg failed]
      exact .together first second h rfl

end Stream

/-! ## Looks -/

namespace Window

variable {i : Nat} {places : List Nat} {u v w : Window}

/-- Two windows on the same bytes, where the first pauses at the places and the second never. -/
structure InStep (places : List Nat) (w u : Window) : Prop where
  segment : u.toSegment = w.toSegment
  supply : ∃ str other, w.supply = .stream str ∧ u.supply = .stream other ∧ str.InStep other ∧
    Stream.gaps w.toSegment str = places

namespace InStep

theorem extend (h : InStep places w u) (n : Nat) : InStep places (w.extend n) (u.extend n) :=
  ⟨congrArg (Segment.extend · n) h.segment, h.supply⟩

theorem setLen (h : InStep places w u) (n : Nat) : InStep places (w.setLen n) (u.setLen n) :=
  ⟨congrArg (Segment.setLen · n) h.segment, h.supply⟩

theorem skip (h : InStep places w u) : InStep places w.skip u.skip :=
  ⟨congrArg Segment.skip h.segment, h.supply⟩

/-- What is seen of the supply is the same. -/
theorem statusAt (h : InStep places w u) (place : Nat) : u.statusAt place = w.statusAt place := by
  obtain ⟨str, other, supply, supply', inStep, _⟩ := h.supply
  unfold Window.statusAt
  rw [supply, supply', h.segment]
  simp only [inStep.status]

theorem status (h : InStep places w u) : u.status = w.status := by
  rw [Window.status, h.segment]
  exact h.statusAt _

theorem isAtEnd (h : InStep places w u) : u.isAtEnd = w.isAtEnd := by
  obtain ⟨str, other, supply, supply', inStep, _⟩ := h.supply
  unfold Window.isAtEnd
  rw [supply, supply']
  exact congrArg Status.isEndOfInput inStep.status

theorem given (h : InStep places w u) : u.given = w.given := by
  obtain ⟨str, other, supply, supply', inStep, _⟩ := h.supply
  unfold Window.given
  rw [supply, supply']
  exact inStep.status

end InStep

/--
What comes of looks in step.  They show the same, or the first meets a pause;
then another window in step has the whole of the second look before it.
-/
inductive Paired (places : List Nat) (w u : Window) (i : Nat) : Prop
  | together (same : (u.peek i).1 = (w.peek i).1) (inStep : InStep places (w.peek i).2 (u.peek i).2)
  | pauses {place : Nat} {rest : List Nat} {u' : Window} (met : places = place :: rest)
      (nul : (w.peek i).1 = 0) (later : u'.peek i = u.peek i) (inStep : InStep rest (w.peek i).2 u')
      (near : place ≤ w.cursor + i) (fits : ∀ top, u.supply.Tops top → w.len + i + 1 ≤ top)
      (missed : w.at? i = none) (went : w.given.isOk = true)

/-- Looks whose refills come to the same are the same. -/
theorem peek_of_refill {seg : Segment} {str str' : Stream} (here : u.at? i = none)
    (supply : u.supply = .stream str) (len : seg.len = u.len)
    (missed : seg.last? (u.len + i + 1) = none)
    (later : str'.refill seg (u.len + i + 1) = str.refill u.toSegment (u.len + i + 1)) :
    Window.peek { toSegment := seg, supply := .stream str', reach := u.reach } i = u.peek i := by
  have here' : seg.at? i = none := by rw [← Segment.last?_of_len, len, missed]
  rw [peek_of_stream here' rfl, peek_of_stream here supply]
  simp only [len, later]

theorem InStep.paired (h : InStep places w u) (i : Nat) : Paired places w u i := by
  have segment := h.segment
  obtain ⟨str, other, supply, supply', inStep, gaps⟩ := h.supply
  have here' : u.at? i = w.at? i := congrArg (Segment.at? · i) segment
  cases here : w.at? i with
  | some c =>
      refine .together ?_ ?_
      · rw [peek_of_arrived here, peek_of_arrived (here'.trans here)]
      · rw [peek_of_arrived here, peek_of_arrived (here'.trans here)]
        exact ⟨segment, h.supply⟩
  | none =>
      have looked := peek_of_stream here supply
      have looked' := peek_of_stream (here'.trans here) supply'
      rw [segment] at looked'
      have missed := (w.last?_of_len i).trans here
      have offset := Stream.offset_refill w.toSegment str (w.len + i + 1)
      cases inStep.refills missed with
      | together first second inStep' gaps' =>
          rw [first] at looked
          rw [second] at looked'
          refine .together ?_ ?_
          · rw [looked, looked']
          · rw [looked, looked']
            exact ⟨rfl, _, _, rfl, rfl, inStep', gaps'.trans gaps⟩
      | @pauses seg' str' other' first second inStep' gaps' lost went fits =>
          have kept := len_peek w i
          rw [first] at looked offset
          rw [looked] at kept
          have place := seg'.fill_lt_of_last? (Nat.succ_pos _) lost
          have len : u.len = w.len := congrArg Segment.len segment
          have later := peek_of_refill (here'.trans here) supply' (kept.trans len.symm)
            (len ▸ lost) (by rw [len, second, segment])
          refine .pauses (gaps.symm.trans gaps') (by rw [looked]) later ?_ ?_ ?_ here ?_
          · rw [looked]
            exact ⟨rfl, _, _, rfl, rfl, inStep', rfl⟩
          · have offset : seg'.offset = w.offset := offset
            simp only [Segment.cursor, Segment.offset] at *
            omega
          · intro top tops
            rw [supply', Supply.Tops, inStep.limit, inStep.capacity] at tops
            exact fits top tops
          · rw [Window.given, supply]
            exact went

end Window

end JsonEvents
