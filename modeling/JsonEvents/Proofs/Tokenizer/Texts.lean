import JsonEvents.Proofs.Grammar.Accepted
import JsonEvents.Proofs.Grammar.Sound
import JsonEvents.Proofs.Tokenizer.Runs

/-!
# Texts and their events

A JSON text gives the events of its value tree and then the end of the input.
What comes to the end of its input without trailing commas is a JSON text, as
long as no object or array was opened where a key should be, which the
tokenizer does not refuse.
-/

namespace JsonEvents.Tokenizer

open Ascii Grammar

variable {input : Bytes} {o : Options}

theorem map_turns (context : Context) (marks : List Mark) :
    (Mark.turns context marks).map Prod.snd = marks.map Mark.event := by
  induction marks generalizing context with
  | nil => rfl
  | cons mark marks ih => exact congrArg (List.cons mark.event) (ih mark.context)

/-- What the reading of an input passes over until it is at its end with nothing open. -/
theorem ofBytes_of_passes {turns : List (Context × Event)} {q : Reading} {b : Bytes}
    {needComma : Bool} (opens : LogOpens o)
    (passes : Reading.Passes o.trailingComma (.start input) turns q)
    (there : q.IsAt b .bottom needComma) (blank : IsBlank b) :
    (ofBytes input o).turns = turns ∧
      ∃ place, (ofBytes input o).final.StopsAt .ended place ∧ place.nesting = .bottom := by
  obtain ⟨marks, run, rfl⟩ := passes
  obtain ⟨same, stopsAt⟩ := ofBytes_of_run opens run (Reading.next_of_blank there blank)
  exact ⟨congrArg (Mark.turns .value) same, _, stopsAt, there.nesting⟩

theorem turns_of_isText {v : Value} (opens : LogOpens o) (text : IsText v input) :
    (ofBytes input o).turns = v.turns .value ∧
      ∃ place, (ofBytes input o).final.StopsAt .ended place ∧ place.nesting = .bottom := by
  obtain ⟨q, b, passes, there, blank⟩ := Reading.passes_of_isText text
  exact ofBytes_of_passes opens passes there blank

theorem turns_of_blank (opens : LogOpens o) (blank : IsBlank input) :
    (ofBytes input o).turns = [] := by
  have passes : Reading.Passes o.trailingComma (.start input) [] (.start input) := ⟨[], .nil, rfl⟩
  exact (ofBytes_of_passes opens passes ⟨rfl, rfl, rfl, rfl⟩ blank).1

/--
A JSON text gives the events of its value tree and then the error event, with
the input at its end and nothing open, whatever becomes of trailing commas.
-/
theorem events_of_isText {v : Value} (opens : LogOpens o) (text : IsText v input) :
    (ofBytes input o).runOnce.1.map Step.event = v.events ++ [.error] ∧
      (ofBytes input o).final.status.isEndOfInput = true ∧
      (ofBytes input o).final.depth = 1 ∧ (ofBytes input o).final.context = .value := by
  obtain ⟨turns, place, stopsAt, nesting⟩ := turns_of_isText opens text
  have bottom := stopsAt.nesting.trans nesting
  have steps : (ofBytes input o).steps.map Step.event = v.events := by
    have events := congrArg (List.map Prod.snd) turns
    rw [Tokenizer.turns, map_turns, Value.map_turns, marks, List.map_map] at events
    exact events
  refine ⟨?_, stopsAt.explains, congrArg Nesting.depth bottom, congrArg Nesting.top bottom⟩
  rw [endsInError_ofBytes opens input, List.map_append, steps]
  rfl

/-- An object in an array, with white space of every kind. -/
theorem events_of_object_in_array :
    let input := Bytes.ofString "\t[ \x7b\"k\" :\n-1.5e3 \x7d,\r true]"
    let v := Value.array
      [.object [(Bytes.ofString "\"k\"", .number (Bytes.ofString "-1.5e3"))],
        .literal (Bytes.ofString "true")]
    LogOpens {} ∧ IsText v input ∧
      (ofBytes input {}).runOnce.1.map Step.event = v.events ++ [.error] := by
  intro input v
  have opens : LogOpens {} := rfl
  have key : IsString (Bytes.ofString "\"k\"") :=
    .quoted (s := [107]) (.plain (by decide) (by decide) (by decide) .none)
  have number : IsNumber (Bytes.ofString "-1.5e3") :=
    .parts (m := [minus]) (i := [49]) (f := [point, 53]) (e := [lowerE, 51]) .minus
      (.digits (by decide) (by decide)) (.digits rfl (by decide)) (.digits rfl rfl (by decide))
  have member : Writes (.value (.object [(_, .number _)])) _ :=
    .object (a := []) (b := [space]) (by decide)
      (.member (a := [space]) (b := [lineFeed]) key (by decide) (by decide) (.number number))
      (by decide)
  have elements : Writes (.elements [_, .literal (Bytes.ofString "true")]) _ :=
    .elements (a := []) (b := [carriageReturn, space]) member (by decide) (by decide)
      (.element (.literal (by decide)))
  have text : IsText v input :=
    ⟨[tab], _, [], by decide, .array (a := [space]) (b := []) (by decide) elements (by decide),
      by decide, by decide⟩
  exact ⟨opens, text, (events_of_isText opens text).1⟩

/-! ## Only texts -/

theorem logOpens_of_ended (ended : (ofBytes input o).final.status.isEndOfInput = true) :
    LogOpens o := by
  by_cases opens : LogOpens o
  · exact opens
  · have final := (stops_without_log opens (.ofBytes input)).2
    have latched : (ofBytes input o).final.status = (Log.opened o.sanitize).1 := by
      rw [ofBytes, final]
      exact if_neg opens
    rw [latched] at ended
    unfold Log.opened at ended
    split at ended
    · cases ended
    · split at ended <;> cases ended

theorem bottom_of_depth {n : Nesting} (depth : n.depth = 1) (context : n.top = .value) :
    n = .bottom := by
  apply Nesting.eq_of_contexts
  have none : n.outer = [] := List.eq_nil_of_length_eq_zero (by have := n.depth_eq; omega)
  rw [Nesting.contexts, context, none]
  rfl

/--
Without trailing commas, an input that comes to its end with nothing open, and
with no string cut short, is white space or a JSON text exactly when no object
or array was opened where a key should be.
-/
theorem isText_iff_not_opensAsKey (rejects : o.trailingComma = .reject)
    (ended : (ofBytes input o).final.status.isEndOfInput = true)
    (depth : (ofBytes input o).final.depth = 1)
    (context : (ofBytes input o).final.context = .value)
    (closed : ∀ step ∈ (ofBytes input o).steps, step.event.kind = .string →
      ¬ IsOpenString step.event.data) :
    (IsBlank input ∨ ∃ v, IsText v input) ↔
      ∀ turn ∈ (ofBytes input o).turns, ¬ OpensAsKey turn := by
  have opens := logOpens_of_ended ended
  constructor
  · rintro (blank | ⟨v, text⟩)
    · rw [turns_of_blank opens blank]
      nofun
    · rw [(turns_of_isText opens text).1]
      have outside : Context.value ≠ .objectKey := nofun
      exact v.not_opensAsKey outside
  · intro noKeys
    obtain ⟨q, halt, place, run, stops, stopsAt⟩ := run_ofBytes opens input
    rw [rejects] at run stops
    have outermost : place.nesting = .bottom := by
      rw [← stopsAt.nesting]
      exact bottom_of_depth depth context
    have closed' : ∀ mark ∈ (ofBytes input o).marks, mark.event.kind = .string →
        ¬ IsOpenString mark.event.data := by
      intro mark member
      obtain ⟨step, given, rfl⟩ := List.mem_map.mp member
      exact closed step given
    cases halt with
    | ended => exact Reading.isText_of_run run stops outermost noKeys closed'
    | refused fault =>
        have explained := stopsAt.explains
        simp only [Explains, Status.isRefusal, Status.isEndOfInput, Bool.and_eq_true,
          beq_iff_eq] at explained ended
        rw [explained.1] at ended
        cases ended.1

/-- An object as the only key of an object comes to its end, and is no JSON text. -/
theorem not_isText_object_as_key :
    let input := Bytes.ofString "\x7b\x7b\x7d\x7d"
    (ofBytes input {}).final.status.isEndOfInput = true ∧ (ofBytes input {}).final.depth = 1 ∧
      (ofBytes input {}).final.context = .value ∧
      (∀ step ∈ (ofBytes input {}).steps, step.event.kind = .string →
        ¬ IsOpenString step.event.data) ∧
      ¬ (IsBlank input ∨ ∃ v, IsText v input) := by
  intro input
  have ended : (ofBytes input {}).final.status.isEndOfInput = true := by decide +kernel
  have depth : (ofBytes input {}).final.depth = 1 := by decide +kernel
  have context : (ofBytes input {}).final.context = .value := by decide +kernel
  have noStrings : ∀ step ∈ (ofBytes input {}).steps, step.event.kind ≠ .string := by
    decide +kernel
  have closed : ∀ step ∈ (ofBytes input {}).steps, step.event.kind = .string →
      ¬ IsOpenString step.event.data :=
    fun step member isString => absurd isString (noStrings step member)
  refine ⟨ended, depth, context, closed, fun text => ?_⟩
  have noKeys := (isText_iff_not_opensAsKey rfl ended depth context closed).mp text
  have asKey : ∃ turn ∈ (ofBytes input {}).turns, OpensAsKey turn := by decide +kernel
  obtain ⟨turn, member, opens⟩ := asKey
  exact noKeys turn member opens

end JsonEvents.Tokenizer
