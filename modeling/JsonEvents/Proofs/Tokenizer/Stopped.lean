import JsonEvents.Proofs.Tokenizer.Runs

/-!
# Tokenizers that have stopped

A call that gives the error event leaves a tokenizer that has stopped: a failure
is latched, or the window is at the end of its input (`errorStops_next`).  From
then on each call gives the error event and leaves all that can be seen of the
tokenizer as it was (`Stopped.next`).
-/

namespace JsonEvents

open Ascii

namespace Window

variable {u v w : Window}

/-! ## Windows without bytes to come -/

/-- The supply has failed, and the lexeme ends behind all that has arrived. -/
structure IsSpent (w : Window) : Prop where
  failed : w.given.isOk = false
  used : w.fill ≤ w.cursor

/-- Nothing but how far it was looked has changed. -/
structure Rests (w v : Window) : Prop where
  segment : v.toSegment = w.toSegment
  supply : v.supply = w.supply

theorem Rests.refl (w : Window) : Rests w w := ⟨rfl, rfl⟩

theorem Rests.trans (h : Rests u v) (h' : Rests v w) : Rests u w :=
  ⟨h'.segment.trans h.segment, h'.supply.trans h.supply⟩

theorem Rests.spent (h : Rests w v) (spent : w.IsSpent) : v.IsSpent := by
  obtain ⟨failed, used⟩ := spent
  have given : v.given = w.given := by rw [given, h.supply, given]
  constructor
  · rw [given]
    exact failed
  · rw [h.segment]
    exact used

theorem Rests.statusAt (h : Rests w v) (place : Nat) : v.statusAt place = w.statusAt place := by
  rw [Window.statusAt, h.supply, h.segment, Window.statusAt]

theorem Rests.status (h : Rests w v) : v.status = w.status := by
  rw [Window.status, h.segment, h.statusAt, Window.status]

theorem Rests.setLen (h : Rests w v) : Rests w (v.setLen w.len) :=
  ⟨by rw [Window.setLen, h.segment]; rfl, h.supply⟩

/-- Behind the last byte a look shows NUL and brings nothing. -/
theorem IsSpent.peek (h : w.IsSpent) (i : Nat) : (w.peek i).1 = 0 ∧ Rests w (w.peek i).2 := by
  have used := h.used
  have here : w.at? i = none := by
    simp only [Segment.cursor, Segment.fill] at used
    rw [Segment.at?, Array.getElem?_eq_none_iff]
    omega
  cases supply : w.supply with
  | nothing =>
      rw [peek_of_nothing here supply]
      exact ⟨rfl, rfl, rfl⟩
  | stream str =>
      have stopped : str.status.isOk = false := by
        have failed := h.failed
        rwa [given, supply] at failed
      rw [peek_of_stream here supply, Stream.refill_of_failed _ stopped]
      exact ⟨rfl, rfl, supply.symm⟩

theorem IsSpent.staysNul (h : w.IsSpent) : w.StaysNul := by
  have used := h.used
  refine .inr ⟨?_, h.failed⟩
  simp only [Segment.cursor, Segment.fill] at used
  rw [Segment.at?, Array.getElem?_eq_none_iff]
  omega

theorem IsSpent.skipSpace (h : w.IsSpent) : Rests w w.skipSpace := by
  obtain ⟨nul, rests⟩ := h.peek 0
  have none : ¬ isSpace 0 = true := by decide
  rw [Window.skipSpace]
  dsimp only
  rw [nul, if_neg none]
  exact rests

theorem IsSpent.number (h : w.IsSpent) : w.number.1 = false ∧ Rests w w.number.2 := by
  obtain ⟨_, rests⟩ := h.peek 0
  rw [h.staysNul.number_eq]
  exact ⟨rfl, (rests.trans ((rests.spent h).peek 0).2).setLen⟩

theorem IsSpent.oneOf {words : List Bytes} (h : w.IsSpent)
    (letters : ∀ word ∈ words, word ≠ [] ∧ ∀ c ∈ word, c ≠ 0) :
    Rests w (w.oneOf words).2 := by
  induction words generalizing w with
  | nil => exact .refl w
  | cons word rest ih =>
      obtain ⟨nul, rests⟩ := h.peek 0
      obtain ⟨some, here⟩ := letters word List.mem_cons_self
      obtain ⟨c, tail, rfl⟩ := List.exists_cons_of_ne_nil some
      have other : ¬ (0 : UInt8) = c := fun same => here c List.mem_cons_self same.symm
      rw [oneOf_cons, spells_cons, nul, if_neg other, if_neg Bool.false_ne_true]
      exact rests.trans (ih (rests.spent h) fun word member =>
        letters word (List.mem_cons_of_mem _ member))

theorem IsSpent.literal (h : w.IsSpent) : w.literal.1 = false ∧ Rests w w.literal.2 :=
  ⟨h.staysNul.oneOf literals_letters, h.oneOf literals_letters⟩

/-- A window whose status is the end of its input has no bytes to come. -/
theorem isSpent_of_status (ended : w.status.isEndOfInput = true) : w.IsSpent := by
  rw [status_eq] at ended
  split at ended
  · cases ended
  · next shown =>
      have failed : w.given.isOk = false := by
        cases given : w.given with
        | ok => rw [given] at ended; cases ended
        | failed => rfl
      have fits : w.given.isBufferExceeded = false := by
        simp only [Status.isEndOfInput, Bool.and_eq_true, beq_iff_eq] at ended
        rw [Status.isBufferExceeded, ended.1]
        rfl
      refine ⟨failed, ?_⟩
      simpa [fits] using shown

end Window

namespace Tokenizer

variable {t u : Tokenizer} {w : Window}

/-! ## Calls that stop -/

/-- A failure is latched, or nothing comes behind the lexeme. -/
def Stopped (t : Tokenizer) : Prop :=
  t.latched.isOk = false ∨ t.window.status.isEndOfInput = true

theorem Stopped.status (h : t.Stopped) : t.status.isOk = false := by
  unfold Tokenizer.status
  split
  · next ok =>
      rcases h with failed | ended
      · exact absurd ok (Bool.eq_false_iff.mp failed)
      · cases status : t.window.status with
        | ok => rw [status] at ended; cases ended
        | failed => rfl
  · next failed => exact Bool.eq_false_iff.mpr failed

/-- If the result is an error event then it has no bytes, and the tokenizer has stopped. -/
def ErrorStops (result : Event × Tokenizer) : Prop :=
  result.1.kind = .error → result.1 = .error ∧ result.2.Stopped

theorem errorStops_stop {s : Status} (failed : s.isOk = false) (t : Tokenizer) :
    ErrorStops (t.stop s) := fun _ => ⟨rfl, .inl failed⟩

theorem errorStops_refuse (t : Tokenizer) (fault : Fault) : ErrorStops (t.refuse fault) :=
  fun _ => ⟨rfl, .inl rfl⟩

theorem errorStops_refuseUnlessFailed (t : Tokenizer) (fault : Fault) :
    ErrorStops (t.refuseUnlessFailed fault) := by
  unfold refuseUnlessFailed
  split
  · next failure => exact errorStops_stop (isOk_of_failure failure) t
  · exact errorStops_refuse t fault

theorem errorStops_emit {kind : Kind} (some : kind ≠ .error) (t : Tokenizer) :
    ErrorStops (t.emit kind) := fun error => absurd error some

theorem errorStops_emitScalar {kind : Kind} (some : kind ≠ .error) (t : Tokenizer) :
    ErrorStops (t.emitScalar kind) := by
  unfold emitScalar
  split
  · next failure => exact errorStops_stop (isOk_of_failure failure) t
  · exact errorStops_emit some _

theorem errorStops_nextKey (t : Tokenizer) : ErrorStops t.nextKey := by
  unfold nextKey
  dsimp only
  split
  · split
    · exact fun error => absurd error Kind.noConfusion
    · exact errorStops_refuseUnlessFailed _ _
  · exact errorStops_refuseUnlessFailed _ _

theorem errorStops_nextString (t : Tokenizer) : ErrorStops t.nextString := by
  unfold nextString
  dsimp only
  split
  · exact errorStops_emitScalar (by decide) _
  · split
    · exact errorStops_refuse _ _
    · next failed =>
        split
        · exact errorStops_emit (by decide) _
        · exact errorStops_stop (Bool.eq_false_iff.mpr failed) _

/-- The end of the input alone is not latched; the window stays at it. -/
theorem errorStops_noToken (t : Tokenizer) (c : UInt8) : ErrorStops (t.noToken c) := by
  unfold noToken
  split
  · split
    · exact errorStops_refuse _ _
    · next failed =>
        split
        · next ended => exact fun _ => ⟨rfl, .inr ended⟩
        · exact errorStops_stop (Bool.eq_false_iff.mpr failed) _
  · exact errorStops_refuseUnlessFailed _ _

theorem errorStops_nextScalar (t : Tokenizer) (c : UInt8) : ErrorStops (t.nextScalar c) := by
  unfold nextScalar
  dsimp only
  split
  · exact errorStops_nextString t
  · split
    · exact errorStops_emitScalar (by decide) _
    · split
      · exact errorStops_emitScalar (by decide) _
      · exact errorStops_noToken _ c

theorem errorStops_perform (t : Tokenizer) (c : UInt8) (move : Move) :
    ErrorStops (t.perform c move) := by
  cases move with
  | openObject | closeObject | openArray | closeArray => exact errorStops_emit (by decide) _
  | key => exact errorStops_nextKey t
  | value => exact errorStops_nextScalar t c
  | refuse fault => exact errorStops_refuse t fault

theorem errorStops_next (t : Tokenizer) : ErrorStops t.next := by
  cases move : t.move? with
  | some move' =>
      rw [next_of_move? move]
      exact errorStops_perform _ _ _
  | none =>
      rcases next_of_no_move move with ⟨failed, stopped⟩ | ⟨_, fault, refused⟩
      · rw [stopped]
        exact fun _ => ⟨rfl, .inl failed⟩
      · rw [refused]
        exact errorStops_refuse _ fault

/-! ## Calls behind the end -/

/-- At the end of the input there is nothing in front of a token, and no token. -/
theorem front_of_spent (spent : t.window.IsSpent) :
    t.front.byte = 0 ∧ t.window.Rests t.facing.window ∧ t.front.fault = none := by
  have skipped := spent.skipSpace
  obtain ⟨nul, rests⟩ := (skipped.spent spent).peek 0
  have noComma : ¬ (0 : UInt8) = comma := by decide
  unfold facing front Front.of
  dsimp only
  rw [nul, if_neg noComma]
  exact ⟨rfl, skipped.trans rests, rfl⟩

/-- Nothing that can be seen has changed. -/
structure Keeps (t u : Tokenizer) : Prop where
  window : t.window.Rests u.window
  nesting : u.nesting = t.nesting
  latched : u.latched = t.latched

theorem Keeps.status (h : Keeps t u) : u.status = t.status := by
  rw [Tokenizer.status, h.latched, h.window.status, Tokenizer.status]

theorem Keeps.stopped (h : Keeps t u) (stopped : t.Stopped) : u.Stopped := by
  unfold Stopped
  rwa [h.latched, h.window.status]

theorem Keeps.snapshot (h : Keeps t u) : u.snapshot = t.snapshot := by
  have atEnd : u.isAtEnd = t.isAtEnd := by
    rw [isAtEnd, Window.isAtEnd, h.window.supply, isAtEnd, Window.isAtEnd]
  have offset : u.offset = t.offset := by rw [offset, h.window.segment, offset]
  simp only [Tokenizer.snapshot, context, depth, h.nesting, atEnd, offset, h.status]

theorem noToken_of_ended (ended : t.window.status.isEndOfInput = true) :
    (t.noToken 0).1 = .error ∧ Keeps t (t.noToken 0).2 := by
  have failed : ¬ t.window.status.isOk = true := by
    cases status : t.window.status with
    | ok => rw [status] at ended; cases ended
    | failed => exact Bool.false_ne_true
  unfold noToken
  rw [if_pos rfl, if_neg failed, if_pos ended]
  exact ⟨rfl, .refl _, rfl, rfl⟩

theorem nextScalar_of_ended (ended : t.window.status.isEndOfInput = true) :
    (t.nextScalar 0).1 = .error ∧ Keeps t (t.nextScalar 0).2 := by
  have spent := Window.isSpent_of_status ended
  have number := spent.number
  have noQuote : ¬ (0 : UInt8) = quote := by decide
  rcases found : t.window.number with ⟨isNumber, v⟩
  rw [found] at number
  obtain ⟨rfl, rests⟩ := number
  have literal := (rests.spent spent).literal
  rcases found' : v.literal with ⟨isLiteral, u⟩
  rw [found'] at literal
  obtain ⟨rfl, rests'⟩ := literal
  have both := rests.trans rests'
  rw [← both.status] at ended
  obtain ⟨error, keeps⟩ := noToken_of_ended (t := { t with window := u }) ended
  simp only [nextScalar, if_neg noQuote, found, found', Bool.false_eq_true, if_false]
  exact ⟨error, both.trans keeps.window, keeps.nesting, keeps.latched⟩

/-- A call of a tokenizer that has stopped gives the error event and changes nothing to be seen. -/
theorem Stopped.next (h : t.Stopped) : t.next.1 = .error ∧ Keeps t t.next.2 := by
  cases latched : t.latched.isOk with
  | false =>
      have stopped : t.next = (.error, t) := by
        unfold Tokenizer.next
        rw [latched]
        rfl
      rw [stopped]
      exact ⟨rfl, .refl _, rfl, rfl⟩
  | true =>
      have ended := h.resolve_left (by rw [latched]; nofun)
      obtain ⟨nul, rests, noFault⟩ := front_of_spent (Window.isSpent_of_status ended)
      have ended' : t.facing.window.status.isEndOfInput = true := by
        rw [rests.status]
        exact ended
      have move : t.move? = some .value := by
        rw [move?, if_pos ⟨latched, noFault⟩, nul]
        cases t.context <;> cases t.front.needComma <;> rfl
      obtain ⟨error, keeps⟩ := nextScalar_of_ended ended'
      rw [next_of_move? move, nul, perform]
      exact ⟨error, rests.trans keeps.window, keeps.nesting, keeps.latched⟩

/-! ## Runs -/

theorem runCalls_of_stopped (h : t.Stopped) (n : Nat) :
    (t.runCalls n).1 = List.replicate n ⟨.error, t.snapshot⟩ := by
  induction n generalizing t with
  | zero => rfl
  | succ n ih =>
      obtain ⟨error, keeps⟩ := h.next
      rw [runCalls_succ, ih (keeps.stopped h), keeps.snapshot, error]
      rfl

/-- A run gives events until a call gives the error event, and then the tokenizer has stopped. -/
theorem stopped_final (t : Tokenizer) :
    (∀ s ∈ t.steps, s.event.kind ≠ .error) ∧ t.EndsInError ∧ t.final.Stopped := by
  have result : t.next = (t.next.1, t.next.2) := rfl
  by_cases error : t.next.1.kind = .error
  · obtain ⟨same, stopped⟩ := errorStops_next t error
    obtain ⟨none, final⟩ := steps_of_error result error
    rw [none, final]
    exact ⟨fun _ member => absurd member List.not_mem_nil,
      endsInError_of_error (Prod.ext same rfl), stopped⟩
  · obtain ⟨steps, final⟩ := steps_of_event result error
    obtain ⟨others, ends, stopped⟩ := stopped_final t.next.2
    rw [steps, final]
    refine ⟨?_, endsInError_of_event result error ends, stopped⟩
    intro s member
    rcases List.mem_cons.mp member with rfl | member
    · exact error
    · exact others s member
termination_by t.window.remaining
decreasing_by exact remaining_next_lt result error

/--
A run of any tokenizer, wherever its bytes come from, gives events that are no
errors and then the error event, without bytes.  There the status is not ok, and
each call behind it gives the error event again and leaves the status, the
context, the depth and the offset as they were.
-/
theorem error_is_final (t : Tokenizer) (n : Nat) :
    (∀ s ∈ t.steps, s.event.kind ≠ .error) ∧
      t.runOnce.1 = t.steps ++ [⟨⟨.error, []⟩, t.final.snapshot⟩] ∧
      t.final.status.isOk = false ∧
      (t.final.runCalls n).1 = List.replicate n ⟨⟨.error, []⟩, t.final.snapshot⟩ := by
  obtain ⟨others, ends, stopped⟩ := stopped_final t
  exact ⟨others, ends, stopped.status, runCalls_of_stopped stopped n⟩

end Tokenizer

end JsonEvents
