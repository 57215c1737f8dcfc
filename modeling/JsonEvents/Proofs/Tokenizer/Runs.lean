import JsonEvents.Proofs.Reading.Run
import JsonEvents.Proofs.Tokenizer.Calls
import JsonEvents.Proofs.Tokenizer.Follows

/-!
# Runs follow readings

Every run of a tokenizer is a run of the reading of its input (`Follows.run`),
and over an input that is at hand it goes on until the reading halts.
-/

namespace JsonEvents

def Step.mark (s : Step) : Mark := ⟨s.event, s.after.context, s.after.depth, s.after.offset⟩

namespace Tokenizer

/-- What can be seen of the events before the first error event. -/
def marks (t : Tokenizer) : List Mark := t.steps.map Step.mark

/-- The events before the first error event, each with the context that it was met in. -/
def turns (t : Tokenizer) : List (Context × Event) := Mark.turns t.context t.marks

/-- A tokenizer has stopped where a reading halts. -/
structure StopsAt (t : Tokenizer) (halt : Halt) (place : Reading) : Prop where
  nesting : t.nesting = place.nesting
  offset : t.offset = place.offset
  explains : Explains t.status halt

variable {input : Bytes} {ending : Status} {policy : TrailingComma} {t u : Tokenizer} {r : Reading}

/-! ## Runs -/

theorem marks_of_error {t' : Tokenizer} (h : t.next = (.error, t')) :
    t.marks = [] ∧ t.final = t' := by
  obtain ⟨steps, final⟩ := steps_of_error h rfl
  exact ⟨by rw [marks, steps]; rfl, final⟩

theorem marks_of_event {t' : Tokenizer} {event : Event} (h : t.next = (event, t'))
    (some : event.kind ≠ .error) :
    t.marks = ⟨event, t'.context, t'.depth, t'.offset⟩ :: t'.marks ∧ t.final = t'.final := by
  obtain ⟨steps, final⟩ := steps_of_event h some
  exact ⟨by rw [marks, steps]; rfl, final⟩

/-- The last step of a run is the error event. -/
def EndsInError (t : Tokenizer) : Prop :=
  t.runOnce.1 = t.steps ++ [⟨.error, t.final.snapshot⟩]

theorem endsInError_of_error {t' : Tokenizer} (h : t.next = (.error, t')) : t.EndsInError := by
  obtain ⟨steps, final⟩ := steps_of_error h rfl
  rw [EndsInError, steps, final, runOnce_of_error h rfl]
  rfl

theorem endsInError_of_event {t' : Tokenizer} {event : Event} (h : t.next = (event, t'))
    (some : event.kind ≠ .error) (rest : t'.EndsInError) : t.EndsInError := by
  obtain ⟨steps, final⟩ := steps_of_event h some
  rw [EndsInError, steps, final, runOnce_of_event h some]
  exact congrArg (List.cons _) rest

/-- A run that gave up had a supply that had not failed when it began. -/
def GaveUp (t : Tokenizer) : Prop :=
  t.final.status = .bufferExceeded ∧ t.window.given.isOk = true

/-- A call that stops ends the run. -/
theorem marks_of_stop (error : t.next.1 = .error) : t.marks = [] ∧ t.final = t.next.2 :=
  marks_of_error (Prod.ext error rfl)

/-- A call that gives what the reading gives is the first step of the run. -/
theorem Agrees.marks_of_gives {event : Event} {r' : Reading}
    (agrees : Agrees input ending policy t.next (.gives event r'))
    (gives : r.next policy = .gives event r') :
    t.marks = r'.mark event :: t.next.2.marks ∧ t.final = t.next.2.final ∧
      t.next.2.window.remaining < t.window.remaining := by
  obtain ⟨same, follows⟩ := agrees
  have some : t.next.1.kind ≠ .error := by
    rw [same]
    exact Reading.kind_of_gives gives
  obtain ⟨marks, final⟩ := marks_of_event (Prod.eta t.next).symm some
  refine ⟨?_, final, remaining_next_lt (Prod.eta t.next).symm some⟩
  rw [marks, same, Reading.mark, ← follows.nesting, ← follows.offset]
  rfl

/-- A call that halts where the reading does ends the run there. -/
theorem Agrees.marks_of_halts {halt : Halt} {place : Reading}
    (agrees : Agrees input ending policy t.next (.halts halt place)) :
    t.marks = [] ∧ t.final.StopsAt halt place := by
  obtain ⟨error, nesting, offset, explains⟩ := agrees
  obtain ⟨none, final⟩ := marks_of_stop error
  rw [final]
  exact ⟨none, nesting, offset, explains⟩

/-- A tokenizer goes along the reading that it follows until that halts, or gives up before. -/
theorem Follows.run {t : Tokenizer} {r : Reading} (h : Follows input ending policy t r)
    (ended : ending.isEndOfInput = true) :
    ∃ q, r.Run policy t.marks q ∧ t.EndsInError ∧
      (GaveUp t ∨
        ∃ halt place, q.next policy = .halts halt place ∧ t.final.StopsAt halt place) := by
  rcases h.next_of_ended ended with ⟨error, status, _, fine⟩ | agrees
  · obtain ⟨none, final⟩ := marks_of_stop error
    refine ⟨r, none ▸ .nil, endsInError_of_error (Prod.ext error rfl), .inl ⟨?_, fine⟩⟩
    rw [final]
    exact status
  · cases reply : r.next policy with
    | gives event r' =>
        rw [reply] at agrees
        obtain ⟨marks, final, less⟩ := agrees.marks_of_gives reply
        obtain ⟨q, run, ends, outcome⟩ := agrees.2.run ended
        refine ⟨q, ?_, ?_, ?_⟩
        · rw [marks]
          exact .cons reply run
        · refine endsInError_of_event (Prod.eta t.next).symm ?_ ends
          rw [agrees.1]
          exact Reading.kind_of_gives reply
        · unfold GaveUp at *
          rw [final]
          exact outcome.imp_left (And.imp_right (Window.fine_of_given (onward_next t).given))
    | halts halt place =>
        rw [reply] at agrees
        obtain ⟨none, stopsAt⟩ := agrees.marks_of_halts
        exact ⟨r, none ▸ .nil, endsInError_of_error (Prod.ext agrees.1 rfl),
          .inr ⟨halt, place, reply, stopsAt⟩⟩
termination_by t.window.remaining

/-! ## Beginnings -/

/-- Whether the log that the options name could be opened. -/
def LogOpens (o : Options) : Prop := (Log.opened o.sanitize).1.isOk = true

theorem follows_ofWindow {w : Window} {o : Options} (opens : LogOpens o)
    (shows : w.Shows input ending) (fits : ¬ w.Overflows) (len : w.len = 0)
    (cursor : w.cursor = 0) :
    Follows input ending o.trailingComma (ofWindow w o) (.start input) where
  shows := shows
  fits := fits
  len := len
  offset := cursor
  rest := rfl
  policy := rfl
  nesting := rfl
  needComma := rfl
  latched := opens
  cut := nofun

theorem follows_ofBytes {o : Options} (opens : LogOpens o) (input : Bytes) :
    Follows input .endOfInput o.trailingComma (ofBytes input o) (.start input) :=
  follows_ofWindow opens (Window.shows_ofBytes input) nofun rfl rfl

/-- Without its log a tokenizer gives no event. -/
theorem stops_without_log {o : Options} (fails : ¬ LogOpens o) (w : Window) :
    (ofWindow w o).marks = [] ∧ (ofWindow w o).final = ofWindow w o := by
  have stopped : (ofWindow w o).next = (.error, ofWindow w o) := by
    rw [next]
    exact if_neg fails
  exact marks_of_error stopped

/-- The run over the whole input comes to where its reading halts. -/
theorem run_ofBytes {o : Options} (opens : LogOpens o) (input : Bytes) :
    ∃ q halt place, (Reading.start input).Run o.trailingComma (ofBytes input o).marks q ∧
      q.next o.trailingComma = .halts halt place ∧ (ofBytes input o).final.StopsAt halt place := by
  obtain ⟨q, run, _, gaveUp | ⟨halt, place, stops, stopsAt⟩⟩ :=
    (follows_ofBytes opens input).run rfl
  · exact absurd gaveUp.2 nofun
  · exact ⟨q, halt, place, run, stops, stopsAt⟩

theorem endsInError_ofBytes {o : Options} (opens : LogOpens o) (input : Bytes) :
    (ofBytes input o).EndsInError := by
  obtain ⟨_, _, ends, _⟩ := (follows_ofBytes opens input).run rfl
  exact ends

/-- A run of the reading that halts is the run of the tokenizer. -/
theorem ofBytes_of_run {o : Options} (opens : LogOpens o) {marks : List Mark} {q place : Reading}
    {halt : Halt} (run : (Reading.start input).Run o.trailingComma marks q)
    (stops : q.next o.trailingComma = .halts halt place) :
    (ofBytes input o).marks = marks ∧ (ofBytes input o).final.StopsAt halt place := by
  obtain ⟨q', halt', place', run', stops', stopsAt⟩ := run_ofBytes opens input
  obtain ⟨same, rfl⟩ := (run'.isPrefix run ⟨halt, place, stops⟩).2 ⟨halt', place', stops'⟩
  obtain ⟨rfl, rfl⟩ := Reply.halts.inj (stops'.symm.trans stops)
  exact ⟨same, stopsAt⟩

end Tokenizer

end JsonEvents
