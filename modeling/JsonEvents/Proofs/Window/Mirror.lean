import JsonEvents.Proofs.Window.Requests

/-!
# A window that a reader fills against one that holds the whole input

As long as nothing overflowed, the window that a reader fills and the window
that holds the whole input give the same answers to the same commands
(`Mirrors.obey`, `Mirrors.answer`).  A reader may also pause, by a read that
succeeds without bytes: then one look shows NUL, and a later one what it should
have shown (`Mirrors.resumes`).
-/

namespace JsonEvents

/-- A read that succeeds and brings nothing. -/
def Request.IsEmpty (request : Request) : Prop :=
  request.got.data = [] ∧ request.got.status = .ok

instance (request : Request) : Decidable request.IsEmpty := inferInstanceAs (Decidable (_ ∧ _))

/-! ## Readers that pause -/

namespace Reader

/-- How many reads without bytes are still to come. -/
def pauses (r : Reader) : Nat := r.pieces.count []

theorem most_read (r : Reader) (size : Nat) : (r.read size).2.most = r.most := by
  unfold read
  split <;> rfl

theorem count_leftover (piece : Bytes) (rest : List Bytes) (n : Nat) :
    (leftover piece rest n).count [] = rest.count [] := by
  unfold leftover
  split
  · rfl
  · next left some => exact List.count_cons_of_ne some

theorem pauses_read_le (r : Reader) (size : Nat) : (r.read size).2.pauses ≤ r.pauses := by
  unfold read pauses
  split
  · exact Nat.le_refl _
  · next piece rest pieces =>
      rw [pieces, count_leftover]
      exact List.count_le_count_cons

/-- A read of some bytes that succeeds without any is one of the pauses. -/
theorem pauses_read_lt {r : Reader} {size : Nat} (grants : r.most ≠ some 0) (asked : 0 < size)
    (failed : r.ending.isOk = false) (nothing : (r.read size).1.data = [])
    (ok : (r.read size).1.status = .ok) : (r.read size).2.pauses < r.pauses := by
  unfold read at *
  split at nothing
  · next pieces =>
      have some : (size == 0) = false := by simpa using Nat.ne_of_gt asked
      simp only [pieces, some, Bool.and_false, Bool.false_eq_true, if_false] at ok
      rw [ok] at failed
      cases failed
  · next piece rest pieces =>
      have allowed : r.allowance size ≠ 0 := by
        unfold allowance
        split
        · omega
        · next most bound =>
            have : most ≠ 0 := fun zero => grants (by rw [bound, zero])
            omega
      have empty : piece = [] := (List.take_eq_nil_iff.mp nothing).resolve_left allowed
      simp only [pauses, pieces, count_leftover, empty, List.count_cons_self]
      exact Nat.lt_succ_self _

end Reader

namespace Stream

variable {input : Bytes} {ending : Status} {need : Nat} {seg : Segment} {str : Stream}

/-- A fetch that brings nothing leaves the bytes behind the lexeme's start as they were. -/
theorem last?_of_fetch {capacity : Nat} {data : Bytes} {seg' : Segment} {str' : Stream}
    (got : fetch seg str capacity = (data, seg', str')) (nothing : data = []) :
    seg'.last? need = seg.last? need := by
  simp only [fetch, Prod.mk.injEq] at got
  obtain ⟨brought, rfl, _⟩ := got
  rw [brought, nothing]
  cases need with
  | zero => rfl
  | succ n =>
      simp only [Segment.last?, Segment.append, Segment.compact, Array.appendList_nil, Nat.zero_add]
      split
      · next front => rw [front, Nat.zero_add]
      · rw [Array.getElem?_extract]
        split
        · rfl
        · next behind => exact (Array.getElem?_eq_none_iff.mpr (by omega)).symm

theorem Yields.tell (yields : str.Yields ending) (holds : seg.Holds input str.reader.pending)
    (need : Nat) :
    (tell seg str need).2.2.1.Holds input (tell seg str need).2.2.2.reader.pending ∧
      (tell seg str need).2.2.2.Yields ending := by
  fun_induction Stream.tell seg str need with
  | case1 => exact ⟨holds, yields.ends, .inr (.inl rfl)⟩
  | case2 _ _ _ _ _ _ _ _ got =>
      have fetched := yields.fetch holds got
      exact ⟨fetched.1, fetched.2.1⟩
  | case3 _ _ _ _ _ _ _ _ got =>
      have fetched := yields.fetch holds got
      exact ⟨fetched.1, fetched.2.1⟩
  | case4 _ _ _ _ _ _ _ _ got _ _ _ _ rest ih =>
      have fetched := yields.fetch holds got
      rw [rest] at ih
      exact ih fetched.2.1 fetched.1
  | case5 => exact ⟨holds, yields⟩

/-- A refill ends with a read without bytes, which shows NUL and is no failure. -/
theorem tell_of_isEmpty (missed : seg.last? need = none)
    (paused : ∃ request ∈ (tell seg str need).1, request.IsEmpty) :
    (tell seg str need).2.1 = 0 ∧ (tell seg str need).2.2.2.status = .ok := by
  fun_induction tell seg str need with
  | case1 =>
      obtain ⟨_, member, _⟩ := paused
      cases member
  | case2 seg str _ capacity _ data seg' str' got c found =>
      obtain ⟨_, member, empty⟩ := paused
      rw [List.mem_singleton.mp member] at empty
      have nothing : data = [] := by
        simp only [fetch, Prod.mk.injEq] at got
        exact got.1.symm.trans empty.1
      rw [last?_of_fetch got nothing, missed] at found
      cases found
  | case3 seg str _ capacity _ seg' str' missed' got =>
      obtain ⟨_, member, empty⟩ := paused
      rw [List.mem_singleton.mp member] at empty
      simp only [fetch, Prod.mk.injEq] at got
      rw [← got.2.2]
      exact ⟨rfl, empty.2⟩
  | case4 seg str _ capacity _ data seg' str' got missed' some requests result rest ih =>
      obtain ⟨request, member, empty⟩ := paused
      rw [rest] at ih
      rcases List.mem_cons.mp member with same | member
      · simp only [fetch, Prod.mk.injEq] at got
        rw [same, Request.IsEmpty] at empty
        exact absurd (got.1.symm.trans empty.1) some
      · exact ih missed' ⟨request, member, empty⟩
  | case5 =>
      obtain ⟨_, member, _⟩ := paused
      cases member

/-- What comes of a refill: the need is too much, the byte is there, or the reader paused. -/
inductive Turns (byte : Option UInt8) (str : Stream) (need : Nat)
    (result : List Request × UInt8 × Segment × Stream) : Prop
  | spills (exceeded : result.2.2.2.status = .bufferExceeded)
      (cause : str.status = .bufferExceeded ∨ str.capacity < need)
  | answers (same : result.2.1 = byte.getD 0)
  | pauses (paused : ∃ request ∈ result.1, request.IsEmpty)
      (fewer : result.2.2.2.reader.pauses < str.reader.pauses)
      (fits : need ≤ result.2.2.2.capacity)

theorem Yields.turns (yields : str.Yields ending) (failed : ending.isOk = false)
    (other : ending ≠ .bufferExceeded) (grants : str.reader.most ≠ some 0)
    (holds : seg.Holds input str.reader.pending) (asked : 0 < need) (missed : seg.last? need = none) :
    Turns input[seg.offset + (need - 1)]? str need (Stream.tell seg str need) := by
  fun_induction Stream.tell seg str need with
  | case1 seg str _ capacity small =>
      have grown := le_room (seg.bytes.size - seg.start) need str.limit str.capacity
      exact .spills rfl (.inr (Nat.lt_of_le_of_lt grown small))
  | case2 seg str _ capacity fits data seg' str' got c found =>
      have offset := offset_fetch seg str capacity
      rw [got] at offset
      have byte := (yields.fetch holds got).1.last?_eq_some found
      rw [offset] at byte
      exact .answers (by rw [byte]; rfl)
  | case3 seg str _ capacity fits seg' str' missed' got =>
      have offset := offset_fetch seg str capacity
      rw [got] at offset
      obtain ⟨holds', _, ok | ⟨_, spent⟩⟩ := yields.fetch holds got
      · have free := Nat.lt_of_lt_of_le (Segment.size_compact_lt asked missed) (Nat.le_of_not_lt fits)
        simp only [Stream.fetch, Prod.mk.injEq] at got
        obtain ⟨nothing, _, rfl⟩ := got
        have failed : str.reader.ending.isOk = false := by rw [yields.ends, failed]
        exact .pauses ⟨_, List.mem_singleton_self _, nothing, ok⟩
          (Reader.pauses_read_lt grants (Nat.sub_pos_of_lt free) failed nothing ok)
          (Nat.le_of_not_lt fits)
      · have byte := (spent ▸ holds').last?_eq_none asked missed'
        rw [offset] at byte
        exact .answers (by rw [byte]; rfl)
  | case4 seg str _ capacity fits data seg' str' got missed' some requests result rest ih =>
      have offset := offset_fetch seg str capacity
      obtain ⟨holds', yields', status⟩ := yields.fetch holds got
      have same := str.reader.most_read (capacity - seg.compact.bytes.size)
      have less := str.reader.pauses_read_le (capacity - seg.compact.bytes.size)
      rw [got] at offset
      simp only [Stream.fetch, Prod.mk.injEq] at got
      obtain ⟨_, _, rfl⟩ := got
      have turn := ih yields' (by rw [same]; exact grants) holds' missed'
      rw [rest, offset] at turn
      cases turn with
      | spills _ cause =>
          rcases cause with before | small
          · rcases status with ok | ⟨ended, _⟩
            · exact absurd (ok.symm.trans before) (by decide)
            · exact absurd (ended.symm.trans before) other
          · exact absurd small fits
      | answers same => exact .answers same
      | pauses paused fewer fits =>
          obtain ⟨request, member, empty⟩ := paused
          exact .pauses ⟨request, List.mem_cons_of_mem _ member, empty⟩
            (Nat.lt_of_lt_of_le fewer less) fits
  | case5 seg str stopped =>
      rcases yields.status with ok | exceeded | ⟨ended, spent⟩
      · exact absurd (by rw [ok]; rfl) stopped
      · exact .spills exceeded (.inl exceeded)
      · have byte := (spent ▸ holds).last?_eq_none asked missed
        exact .answers (by rw [byte]; rfl)

/-- What every read of a reader keeps, a refill keeps. -/
theorem reader_tell {I : Reader → Prop} (reads : ∀ (r : Reader) (size : Nat), I r → I (r.read size).2)
    (seg : Segment) (str : Stream) (need : Nat) (h : I str.reader) :
    I (Stream.tell seg str need).2.2.2.reader := by
  rw [tell_snd]
  exact refill_keeps (I := fun str => I str.reader) (fun _ h => h)
    (fun _ str _ _ h => reads str.reader _ h) seg str need h

end Stream

namespace Window

variable {input : Bytes} {ending : Status} {w v : Window} {i : Nat} {command : Command}

/-! ## Two windows on one input -/

/-- Whether a command keeps to what the window holds and to what words can count. -/
def IsOrderly (w : Window) : Command → Prop
  | .peek i => w.cursor + i.toNat < UInt64.size
  | .move k => -k.toInt ≤ w.len
  | .rewind mark => mark.toNat ≤ w.len
  | .lexeme | .shift | .skip => w.start + w.len ≤ w.bytes.size
  | .moveTo _ | .restore => True
  | .contents | .scan _ => False

/-- The same of commands that are obeyed one after the other. -/
def AllOrderly (w : Window) : List Command → Prop
  | [] => True
  | command :: rest => w.IsOrderly command ∧ (w.obey command).2.AllOrderly rest

instance (w : Window) : (command : Command) → Decidable (w.IsOrderly command)
  | .peek i => inferInstanceAs (Decidable (w.cursor + i.toNat < UInt64.size))
  | .move k => inferInstanceAs (Decidable (-k.toInt ≤ w.len))
  | .rewind mark => inferInstanceAs (Decidable (mark.toNat ≤ w.len))
  | .lexeme | .shift | .skip => inferInstanceAs (Decidable (w.start + w.len ≤ w.bytes.size))
  | .moveTo _ | .restore => .isTrue trivial
  | .contents | .scan _ => .isFalse id

instance decidableAllOrderly (w : Window) :
    (commands : List Command) → Decidable (w.AllOrderly commands)
  | [] => .isTrue trivial
  | command :: rest =>
      have := decidableAllOrderly (w.obey command).2 rest
      inferInstanceAs (Decidable (_ ∧ _))

/-- How many bytes there is room for. -/
def capacity (w : Window) : Nat :=
  match w.supply with
  | .nothing => 0
  | .stream str => str.capacity

/-- How many reads without bytes are still to come. -/
def pauses (w : Window) : Nat :=
  match w.supply with
  | .nothing => 0
  | .stream str => str.reader.pauses

/--
A window that a reader fills, and one that holds the whole input.  They have
their lexemes at one place of the input.
-/
structure Mirrors (input : Bytes) (ending : Status) (w v : Window) : Prop where
  holds : w.toSegment.Holds input w.pending
  fed : ∃ str, w.supply = .stream str ∧ str.Yields ending ∧ str.reader.most ≠ some 0
  whole : v.toSegment.Holds input []
  rests : v.supply = .nothing
  len : w.len = v.len
  offset : w.offset = v.offset

/-- What words count in the input, they count in the window. -/
theorem counts_of_cursor (counts : w.cursor + i < UInt64.size) : w.Counts i := by
  simp only [Counts, Segment.cursor] at *
  omega

namespace Mirrors

theorem cursor (h : Mirrors input ending w v) : w.cursor = v.cursor := by
  have offset := h.offset
  simp only [Segment.offset, Segment.cursor] at *
  rw [offset, h.len]

theorem look (h : Mirrors input ending w v) (here : Option UInt8) (need : Nat) :
    Mirrors input ending (w.look here need).2 v := by
  have len := len_look w here need
  have offset := offset_look w here need
  obtain ⟨str, supply, yields, grants⟩ := h.fed
  have holds := h.holds
  cases here with
  | some c => exact ⟨holds, ⟨str, supply, yields, grants⟩, h.whole, h.rests, h.len, h.offset⟩
  | none =>
      rw [pending, supply] at holds
      have filled := yields.tell holds need
      have grants' := Stream.reader_tell (I := fun r => r.most ≠ some 0)
        (fun r size h => by rw [r.most_read]; exact h) w.toSegment str need grants
      rw [Stream.tell_snd] at filled grants'
      have result : (w.look none need).2 =
          { toSegment := (str.refill w.toSegment need).2.1
            supply := .stream (str.refill w.toSegment need).2.2
            reach := max w.reach need } := by
        simp only [Window.look, supply]
      refine ⟨?_, ?_, h.whole, h.rests, len.trans h.len, offset.trans h.offset⟩
      · rw [result]
        exact filled.1
      · rw [result]
        exact ⟨_, rfl, filled.2, grants'⟩

/-- It does not matter what the looks so far have asked for. -/
theorem reached (h : Mirrors input ending w v) (n : Nat) :
    Mirrors input ending { w with reach := n } v :=
  ⟨h.holds, h.fed, h.whole, h.rests, h.len, h.offset⟩

theorem reached_whole (h : Mirrors input ending w v) (n : Nat) :
    Mirrors input ending w { v with reach := n } :=
  ⟨h.holds, h.fed, h.whole, h.rests, h.len, h.offset⟩

theorem peek (h : Mirrors input ending w v) (i : Nat) : Mirrors input ending (w.wordPeek i).2 v :=
  (h.look _ _).reached _

theorem look_whole (h : Mirrors input ending w v) (here : Option UInt8) (need : Nat) :
    Mirrors input ending w (v.look here need).2 := by
  have rests := h.rests
  unfold Window.look
  cases here with
  | some c => exact h.reached_whole _
  | none =>
      simp only [rests]
      exact ⟨h.holds, h.fed, h.whole, rfl, h.len, h.offset⟩

theorem setLen (h : Mirrors input ending w v) (n : Nat) :
    Mirrors input ending (w.setLen n) (v.setLen n) :=
  ⟨⟨h.holds.base_le, h.holds.block⟩, h.fed, ⟨h.whole.base_le, h.whole.block⟩, h.rests, rfl, h.offset⟩

/-- A lexeme that lies in the one window lies in the other, and words count its ends. -/
theorem inside (h : Mirrors input ending w v) (counted : input.length < UInt64.size)
    (arrived : w.start + w.len ≤ w.bytes.size) :
    v.start + v.len ≤ v.bytes.size ∧ w.wordEnd = w.start + w.len ∧ v.wordEnd = v.start + v.len := by
  have front := h.holds.length
  have back := h.whole.length
  have cursor := h.cursor
  simp only [Segment.fill, Segment.cursor, List.length_nil] at *
  exact ⟨by omega, wrap_of_lt (by omega), wrap_of_lt (by omega)⟩

theorem wordSkip (h : Mirrors input ending w v) (counted : input.length < UInt64.size)
    (arrived : w.start + w.len ≤ w.bytes.size) :
    Mirrors input ending w.wordSkip v.wordSkip := by
  obtain ⟨inside, front, back⟩ := h.inside counted arrived
  have cursor := h.cursor
  refine ⟨⟨h.holds.base_le, h.holds.block⟩, h.fed, ⟨h.whole.base_le, h.whole.block⟩, h.rests, rfl, ?_⟩
  simp only [Window.wordSkip, front, back, Segment.beginAt, Segment.offset, Segment.cursor] at *
  omega

/-- Neither window refuses an orderly command. -/
theorem allows (h : Mirrors input ending w v) (counted : input.length < UInt64.size)
    (orderly : w.IsOrderly command) : w.allows command = true ∧ v.allows command = true := by
  cases command with
  | peek | moveTo | restore => exact ⟨rfl, rfl⟩
  | move | rewind =>
      simp only [Window.allows, ← h.len, decide_eq_true_eq]
      exact ⟨orderly, orderly⟩
  | lexeme | shift | skip =>
      obtain ⟨inside, front, back⟩ := h.inside counted orderly
      simp only [Window.allows, front, back, decide_eq_true_eq]
      exact ⟨orderly, inside⟩
  | contents | scan => cases orderly

/-- Both windows stay on one place of the input, whether or not their answers agree. -/
theorem obey (h : Mirrors input ending w v) (counted : input.length < UInt64.size)
    (orderly : w.IsOrderly command) : Mirrors input ending (w.obey command).2 (v.obey command).2 := by
  obtain ⟨allowed, allowed'⟩ := h.allows counted orderly
  unfold Window.obey
  rw [if_pos allowed, if_pos allowed']
  cases command with
  | peek i => exact ((h.peek _).look_whole _ _).reached_whole _
  | move k =>
      simp only [h.len]
      exact h.setLen _
  | moveTo | rewind => exact h.setLen _
  | shift | skip => exact h.wordSkip counted orderly
  | lexeme | restore => exact h
  | contents | scan => cases orderly

theorem lexeme_eq (h : Mirrors input ending w v) (counted : input.length < UInt64.size)
    (arrived : w.start + w.len ≤ w.bytes.size) : w.lexeme = v.lexeme := by
  rw [h.holds.lexeme_eq arrived, h.whole.lexeme_eq (h.inside counted arrived).1, h.len, h.offset]

/-- All but a look is answered from what both windows hold. -/
theorem answer (h : Mirrors input ending w v) (counted : input.length < UInt64.size)
    (orderly : w.IsOrderly command) (still : ∀ i, command ≠ .peek i) :
    (w.obey command).1 = (v.obey command).1 := by
  obtain ⟨allowed, allowed'⟩ := h.allows counted orderly
  unfold Window.obey
  rw [if_pos allowed, if_pos allowed']
  cases command with
  | peek i => exact absurd rfl (still i)
  | lexeme | shift => exact congrArg Answer.bytes (h.lexeme_eq counted orderly)
  | move | moveTo | rewind | skip | restore => rfl
  | contents | scan => cases orderly

/-! ## Looks -/

/-- The window that holds the whole input shows the byte of the input, or NUL behind it. -/
theorem peek_whole (h : Mirrors input ending w v) (counts : w.cursor + i < UInt64.size) :
    (v.wordPeek i).1 = input[w.cursor + i]?.getD 0 := by
  have cursor := h.cursor
  have found := h.whole.whole (v.len + i)
  have place : v.offset + (v.len + i) = w.cursor + i := by
    simp only [Segment.offset, Segment.cursor] at *
    omega
  have counts' : v.start + v.len + i < UInt64.size := by
    simp only [Segment.cursor] at *
    omega
  rw [place, ← Nat.add_assoc] at found
  unfold wordPeek Window.look
  rw [wrap_of_lt counts', found]
  simp only [h.rests]
  cases input[w.cursor + i]? <;> rfl

end Mirrors

/-- Whether the reader pauses in what a command makes it do. -/
def Pauses (w : Window) : Command → Prop
  | .peek i => ∃ request ∈ w.requests i.toNat, request.IsEmpty
  | _ => False

instance (w : Window) : (command : Command) → Decidable (w.Pauses command)
  | .peek i => inferInstanceAs (Decidable (∃ request ∈ w.requests i.toNat, request.IsEmpty))
  | .move _ | .moveTo _ | .rewind _ | .lexeme | .shift | .skip | .contents | .restore | .scan _ =>
      .isFalse id

/-- What comes of a look: the lexeme does not fit, the answers agree, or the reader paused. -/
inductive Turns (w v : Window) (i : UInt64) : Prop
  | spills (exceeded : (w.wordPeek i.toNat).2.Overflows)
      (cause : w.Overflows ∨ w.capacity < w.len + i.toNat + 1)
  | answers (same : (w.wordPeek i.toNat).1 = (v.wordPeek i.toNat).1)
  | pauses (paused : w.Pauses (.peek i)) (fewer : (w.wordPeek i.toNat).2.pauses < w.pauses)
      (fits : w.len + i.toNat + 1 ≤ (w.wordPeek i.toNat).2.capacity)

namespace Mirrors

/-- A look whose count of needed bytes begins again at zero is behind all input. -/
theorem peek_beyond (h : Mirrors input ending w v) (counted : input.length < UInt64.size)
    (counts : w.cursor + i < UInt64.size) (beyond : UInt64.size ≤ w.len + i + 1) :
    (w.wordPeek i).1 = (v.wordPeek i).1 := by
  have none : input[w.cursor + i]? = none := by
    rw [List.getElem?_eq_none_iff]
    simp only [Segment.cursor] at *
    omega
  have missed : w.at? i = Option.none := by
    have length := h.holds.length
    simp only [Segment.fill] at length
    exact Array.getElem?_eq_none (by omega)
  obtain ⟨str, supply, _, _⟩ := h.fed
  have counts' := counts_of_cursor counts
  rw [h.peek_whole counts, none, wordPeek_of_stream counts' missed supply,
    wrap_of_size_le counts' beyond]
  exact Stream.refill_zero w.toSegment str

theorem turns {i : UInt64} (h : Mirrors input ending w v) (counted : input.length < UInt64.size)
    (ended : ending.isEndOfInput = true) (counts : w.cursor + i.toNat < UInt64.size) :
    Turns w v i := by
  have other : ending ≠ .bufferExceeded := by
    rintro rfl
    cases ended
  obtain ⟨str, supply, yields, grants⟩ := h.fed
  have counts' := counts_of_cursor counts
  by_cases beyond : UInt64.size ≤ w.len + i.toNat + 1
  · exact .answers (h.peek_beyond counted counts beyond)
  have enough : w.len + i.toNat + 1 < UInt64.size := Nat.lt_of_not_le beyond
  have place := offset_add w i.toNat
  cases here : w.at? i.toNat with
  | some c =>
      have byte := h.holds.last?_eq_some ((w.last?_of_len _).trans here)
      rw [place] at byte
      refine .answers ?_
      rw [h.peek_whole counts, byte, wordPeek_of_arrived counts' here]
      rfl
  | none =>
      have holds := h.holds
      rw [pending, supply] at holds
      have turn := yields.turns (Status.isOk_of_isEndOfInput ended) other grants holds
        (Nat.succ_pos _) ((w.last?_of_len _).trans here)
      have told := str.tell_snd w.toSegment (w.len + i.toNat + 1)
      have result := wordPeek_of_stream counts' here supply
      rw [wrap_of_lt enough, ← told] at result
      rw [place] at turn
      cases turn with
      | spills exceeded cause =>
          refine .spills ?_ ?_
          · rw [result]
            exact exceeded
          · simp only [Overflows, given, capacity, supply]
            exact cause
      | answers same =>
          refine .answers ?_
          rw [h.peek_whole counts, result]
          exact same
      | pauses paused fewer fits =>
          refine .pauses ?_ ?_ ?_
          · rw [Window.Pauses, requests_of_stream counts' here supply, wrap_of_lt enough]
            exact paused
          · rw [result]
            simp only [pauses, supply]
            exact fewer
          · rw [result]
            exact fits

/-- A look in which the reader paused shows NUL and finds nothing wrong. -/
theorem peek_of_pauses {i : UInt64} (h : Mirrors input ending w v)
    (counts : w.cursor + i.toNat < UInt64.size) (paused : w.Pauses (.peek i)) :
    (w.wordPeek i.toNat).1 = 0 ∧ (w.wordPeek i.toNat).2.given = .ok := by
  obtain ⟨str, supply, _, _⟩ := h.fed
  have counts' := counts_of_cursor counts
  simp only [Pauses, requests, wrap_of_lt counts', supply] at paused
  simp only [wordPeek, Window.look, wrap_of_lt counts', supply]
  cases here : w.bytes[w.start + w.len + i.toNat]? with
  | some c =>
      rw [here] at paused
      obtain ⟨_, member, _⟩ := paused
      cases member
  | none =>
      rw [here] at paused
      have told := Stream.tell_of_isEmpty (last?_wrap counts' here) paused
      rw [Stream.tell_snd] at told
      exact told

/-- The same look, made again and again, comes to show what the other window shows. -/
theorem resumes {w v : Window} {i : UInt64} (h : Mirrors input ending w v)
    (counted : input.length < UInt64.size) (ended : ending.isEndOfInput = true)
    (counts : w.cursor + i.toNat < UInt64.size) (fits : ¬ w.Overflows)
    (room : w.len + i.toNat + 1 ≤ w.capacity) :
    ∃ k, ((w.obeyAll (List.replicate k (.peek i))).2.obey (.peek i)).1 = (v.obey (.peek i)).1 := by
  cases h.turns counted ended counts with
  | spills _ cause =>
      rcases cause with before | small
      · exact absurd before fits
      · exact absurd room (Nat.not_le_of_lt small)
  | answers same => exact ⟨0, congrArg Answer.byte same⟩
  | pauses paused fewer more =>
      have len : (w.wordPeek i.toNat).2.len = w.len := len_look _ _ _
      have cursor : (w.wordPeek i.toNat).2.cursor = w.cursor := cursor_look _ _ _
      have unlatched := (h.peek_of_pauses counts paused).2
      have fits' : ¬ (w.wordPeek i.toNat).2.Overflows := by
        rw [Overflows, unlatched]
        decide
      obtain ⟨k, later⟩ := (h.peek i.toNat).resumes counted ended (by rw [cursor]; exact counts)
        fits' (by rw [len]; exact more)
      refine ⟨k + 1, ?_⟩
      rw [List.replicate_succ, obeyAll_cons, obey_peek w i]
      exact later
termination_by w.pauses

end Mirrors

/-! ## Sequences of commands -/

/-- What every look keeps of the supply, an orderly command keeps. -/
theorem keeps_orderly {I : Window → Prop}
    (moves : ∀ {w v : Window}, I w → v.supply = w.supply → I v)
    (looks : ∀ {w : Window} (here : Option UInt8) (need : Nat), I w → I (w.look here need).2)
    (orderly : w.IsOrderly command) (h : I w) : I (w.obey command).2 := by
  cases allowed : w.allows command with
  | false =>
      rw [obey_of_not_allows allowed]
      exact h
  | true =>
      unfold obey
      rw [if_pos allowed]
      cases command with
      | peek i => exact moves (looks _ _ h) rfl
      | move | moveTo | rewind | shift | skip => exact moves h rfl
      | lexeme | restore => exact h
      | contents | scan => cases orderly

theorem overflows_obey (orderly : w.IsOrderly command) (spilled : w.Overflows) :
    (w.obey command).2.Overflows := by
  refine keeps_orderly (I := Overflows) ?_ ?_ orderly spilled
  · intro w v spilled supply
    rwa [Overflows, given, supply]
  · intro w here need spilled
    have failed : w.given.isOk = false := by rw [spilled]; rfl
    exact (given_look failed).trans spilled

theorem pauses_obey (orderly : w.IsOrderly command) : (w.obey command).2.pauses ≤ w.pauses := by
  refine keeps_orderly (I := fun v => v.pauses ≤ w.pauses) ?_ ?_ orderly (Nat.le_refl _)
  · intro u v less supply
    rwa [pauses, supply]
  · intro u here need less
    refine Nat.le_trans ?_ less
    unfold look
    cases here with
    | some c => exact Nat.le_refl _
    | none =>
        cases supply : u.supply with
        | nothing => simp only [pauses, supply, Nat.le_refl]
        | stream str =>
            have kept := Stream.reader_tell (I := fun r => r.pauses ≤ str.reader.pauses)
              (fun r size less => Nat.le_trans (r.pauses_read_le size) less) u.toSegment str need
              (Nat.le_refl _)
            rw [Stream.tell_snd] at kept
            simp only [pauses, supply]
            exact kept

theorem overflows_obeyAll {commands : List Command} {w : Window} (orderly : w.AllOrderly commands)
    (spilled : w.Overflows) : (w.obeyAll commands).2.Overflows := by
  induction commands generalizing w with
  | nil => exact spilled
  | cons command rest ih => exact ih orderly.2 (overflows_obey orderly.1 spilled)

theorem Mirrors.obeyAll {commands : List Command} {w v : Window} (h : Mirrors input ending w v)
    (counted : input.length < UInt64.size) (orderly : w.AllOrderly commands) :
    Mirrors input ending (w.obeyAll commands).2 (v.obeyAll commands).2 := by
  induction commands generalizing w v with
  | nil => exact h
  | cons command rest ih => exact ih (h.obey counted orderly.1) orderly.2

/-- Where the reader did not pause, the answers agree as long as nothing overflowed. -/
theorem Mirrors.same_answer (h : Mirrors input ending w v) (counted : input.length < UInt64.size)
    (ended : ending.isEndOfInput = true) (orderly : w.IsOrderly command)
    (fits : ¬ (w.obey command).2.Overflows) (goesOn : ¬ w.Pauses command ∨ w.pauses = 0) :
    (w.obey command).1 = (v.obey command).1 := by
  cases command with
  | peek i =>
      cases h.turns counted ended orderly with
      | spills exceeded => exact absurd exceeded fits
      | answers same => exact congrArg Answer.byte same
      | pauses paused fewer =>
          rcases goesOn with unpaused | none
          · exact absurd paused unpaused
          · rw [none] at fewer
            exact absurd fewer (Nat.not_lt_zero _)
  | _ => exact h.answer counted orderly nofun

theorem Mirrors.answers {commands : List Command} {w v : Window} (h : Mirrors input ending w v)
    (counted : input.length < UInt64.size) (ended : ending.isEndOfInput = true)
    (orderly : w.AllOrderly commands) (fits : ¬ (w.obeyAll commands).2.Overflows)
    (steady : w.pauses = 0) : (w.obeyAll commands).1 = (v.obeyAll commands).1 := by
  induction commands generalizing w v with
  | nil => rfl
  | cons command rest ih =>
      have fits' : ¬ (w.obey command).2.Overflows := by
        intro spilled
        have later := overflows_obeyAll orderly.2 spilled
        exact fits later
      have less := pauses_obey orderly.1
      rw [obeyAll_cons, obeyAll_cons,
        h.same_answer counted ended orderly.1 fits' (.inr steady),
        ih (h.obey counted orderly.1) orderly.2 fits (by omega)]

/-- What a pause leaves: the look showed NUL, and nothing is lost by it. -/
structure Resumes (w v : Window) (command : Command) : Prop where
  nul : (w.obey command).1 = .byte 0
  unlatched : (w.obey command).2.given = .ok
  len : (w.obey command).2.len = w.len
  offset : (w.obey command).2.offset = w.offset
  kept : w.bytes.toList.drop w.start <+:
    (w.obey command).2.bytes.toList.drop (w.obey command).2.start
  later : ∃ k, ((w.obeyAll (List.replicate k command)).2.obey command).1 = (v.obey command).1

theorem Mirrors.resumes_of_pauses (h : Mirrors input ending w v)
    (counted : input.length < UInt64.size) (ended : ending.isEndOfInput = true)
    (orderly : w.IsOrderly command) (paused : w.Pauses command) : Resumes w v command := by
  cases command with
  | peek i =>
      obtain ⟨nul, unlatched⟩ := h.peek_of_pauses orderly paused
      have len : (w.wordPeek i.toNat).2.len = w.len := len_look _ _ _
      have offset : (w.wordPeek i.toNat).2.offset = w.offset := offset_look _ _ _
      have fill : w.fill ≤ (w.wordPeek i.toNat).2.fill := fill_le_look _ _ _
      have front := h.holds.drop_offset
      have back := (h.peek i.toNat).holds.drop_offset
      rw [offset] at back
      refine ⟨congrArg Answer.byte nul, unlatched, len, offset, ?_, ?_⟩
      · refine List.prefix_of_prefix_length_le ⟨_, front.symm⟩ ⟨_, back.symm⟩ ?_
        simp only [obey_peek, List.length_drop, Array.length_toList, Segment.fill,
          Segment.offset] at *
        omega
      · cases h.turns counted ended orderly with
        | spills exceeded =>
            rw [Overflows, unlatched] at exceeded
            cases exceeded
        | answers same => exact ⟨0, congrArg Answer.byte same⟩
        | pauses _ _ room =>
            have cursor : (w.wordPeek i.toNat).2.cursor = w.cursor := cursor_look _ _ _
            have fits : ¬ (w.wordPeek i.toNat).2.Overflows := by
              rw [Overflows, unlatched]
              decide
            obtain ⟨k, later⟩ := (h.peek i.toNat).resumes counted ended
              (by rw [cursor]; exact orderly) fits (by rw [len]; exact room)
            exact ⟨k + 1, later⟩
  | _ => cases paused

theorem mirrors_ofReader (o : Options) {reader : Reader} (grants : reader.most ≠ some 0) :
    Mirrors reader.pending reader.ending (ofReader reader o) (ofBytes reader.pending) where
  holds := ⟨Nat.zero_le _, by simp [ofReader, pending]⟩
  fed := ⟨_, rfl, ⟨rfl, .inl rfl⟩, grants⟩
  whole := ⟨Nat.zero_le _, by simp [ofBytes]⟩
  rests := rfl
  len := rfl
  offset := rfl

theorem Mirrors.contents (h : Mirrors input ending w v) :
    w.bytes.toList = (input.drop w.base).take w.bytes.size := by
  rw [h.holds.block, List.take_append_of_le_length (by simp), List.take_of_length_le (by simp)]

/-- A reader without empty pieces does not pause. -/
theorem pauses_ofReader (o : Options) {reader : Reader} (steady : [] ∉ reader.pieces) :
    (ofReader reader o).pauses = 0 :=
  List.count_eq_zero.mpr steady

/--
Whatever orderly commands are given to a window that a reader fills, and to one
that holds the whole of what the reader delivers: as long as nothing overflowed,
both stay on one place of the input, the first holds a block of it, and their
answers agree.  Only where the reader pauses does a look show NUL instead, and
then a later one shows what it should.
-/
theorem mirrors_obeyAll (o : Options) {reader : Reader} {commands : List Command}
    (grants : reader.most ≠ some 0) (ended : reader.ending.isEndOfInput = true)
    (counted : reader.pending.length < UInt64.size)
    (orderly : (ofReader reader o).AllOrderly commands)
    (fits : ¬ ((ofReader reader o).obeyAll commands).2.Overflows) :
    let w := ((ofReader reader o).obeyAll commands).2
    let v := ((ofBytes reader.pending).obeyAll commands).2
    w.len = v.len ∧ w.offset = v.offset ∧
      w.bytes.toList = (reader.pending.drop w.base).take w.bytes.size ∧
      ([] ∉ reader.pieces → ((ofReader reader o).obeyAll commands).1 =
        ((ofBytes reader.pending).obeyAll commands).1) ∧
      ∀ command, w.IsOrderly command → ¬ (w.obey command).2.Overflows →
        (¬ w.Pauses command → (w.obey command).1 = (v.obey command).1) ∧
          (w.Pauses command → Resumes w v command) := by
  have fresh := mirrors_ofReader o grants
  have mirrors := fresh.obeyAll counted orderly
  refine ⟨mirrors.len, mirrors.offset, mirrors.contents, fun steady => ?_, ?_⟩
  · exact fresh.answers counted ended orderly fits (pauses_ofReader o steady)
  · intro command orderly' fits'
    exact ⟨fun goesOn => mirrors.same_answer counted ended orderly' fits' (.inl goesOn),
      fun paused => mirrors.resumes_of_pauses counted ended orderly' paused⟩

/-- A look in front of which an empty piece stands, behind a lexeme that was taken. -/
theorem mirrors_across_pause :
    let reader : Reader := { pieces := [Bytes.ofString "abc", [], Bytes.ofString "defg"] }
    let o : Options := { minBufferSize := 4, maxBufferSize := 8 }
    let commands : List Command := [.peek 1, .moveTo 2, .shift, .peek 0, .moveTo 1]
    let w := ((ofReader reader o).obeyAll commands).2
    let v := ((ofBytes reader.pending).obeyAll commands).2
    reader.most ≠ some 0 ∧ reader.ending.isEndOfInput = true ∧
      reader.pending.length < UInt64.size ∧ (ofReader reader o).AllOrderly commands ∧
      ¬ w.Overflows ∧ w.IsOrderly (.peek 0) ∧ ¬ (w.obey (.peek 0)).2.Overflows ∧
      w.Pauses (.peek 0) ∧ w.len = v.len ∧ w.offset = v.offset ∧
      w.bytes.toList = (reader.pending.drop w.base).take w.bytes.size ∧
      Resumes w v (.peek 0) := by
  intro reader o commands w v
  have counted : reader.pending.length < UInt64.size := by decide +kernel
  have orderly : (ofReader reader o).AllOrderly commands := by decide +kernel
  have fits : ¬ ((ofReader reader o).obeyAll commands).2.Overflows := by
    unfold Overflows
    decide +kernel
  have next : ((ofReader reader o).obeyAll commands).2.IsOrderly (.peek 0) := by decide +kernel
  have fits' : ¬ (((ofReader reader o).obeyAll commands).2.obey (.peek 0)).2.Overflows := by
    unfold Overflows
    decide +kernel
  have paused : ((ofReader reader o).obeyAll commands).2.Pauses (.peek 0) := by decide +kernel
  obtain ⟨len, offset, block, _, answers⟩ :=
    mirrors_obeyAll o (by decide) rfl counted orderly fits
  exact ⟨by decide, rfl, counted, orderly, fits, next, fits', paused, len, offset, block,
    (answers (.peek 0) next fits').2 paused⟩

end Window

end JsonEvents
