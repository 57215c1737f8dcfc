import JsonEvents.Proofs.Reading.Tokens

/-!
# Runs of a reading

`Run policy r marks q` takes a reading from `r` to `q` event by event and keeps
what can be seen after each one.  Where a run has come as far as it can is
determined by where it began (`Run.isPrefix`).
-/

namespace JsonEvents

/-- An event, and where the tokenizer stands after it. -/
structure Mark where
  event : Event
  context : Context
  depth : Nat
  offset : Nat
  deriving DecidableEq

namespace Mark

/-- The events of a run that begins in a context, each with the context that it was met in. -/
def turns (context : Context) : List Mark → List (Context × Event)
  | [] => []
  | mark :: marks => (context, mark.event) :: turns mark.context marks

/-- Whether the event is a scalar value; a string is a key where a value is expected behind it. -/
def isScalar (m : Mark) : Bool :=
  m.event.kind == .number || m.event.kind == .literal ||
    (m.event.kind == .string && m.context != .objectValue)

end Mark

namespace Reading

def mark (r : Reading) (event : Event) : Mark :=
  ⟨event, r.nesting.top, r.nesting.depth, r.offset⟩

inductive Run (policy : TrailingComma) : Reading → List Mark → Reading → Prop
  | nil {r : Reading} : Run policy r [] r
  | cons {r r' q : Reading} {event : Event} {marks : List Mark}
      (gives : r.next policy = .gives event r') (rest : Run policy r' marks q) :
      Run policy r (r'.mark event :: marks) q

/-- Whether there is no event from here on. -/
def Halts (policy : TrailingComma) (r : Reading) : Prop :=
  ∃ halt place, r.next policy = .halts halt place

variable {policy : TrailingComma} {p q r : Reading} {marks more : List Mark}

theorem not_halts_of_gives {event : Event} (gives : r.next policy = .gives event q) :
    ¬ Halts policy r := by
  rintro ⟨halt, place, halts⟩
  rw [gives] at halts
  cases halts

theorem Run.append (h : Run policy r marks q) (h' : Run policy q more p) :
    Run policy r (marks ++ more) p := by
  induction h with
  | nil => exact h'
  | cons gives _ ih => exact .cons gives (ih h')

theorem Run.single {event : Event} (gives : r.next policy = .gives event q) :
    Run policy r [q.mark event] q := .cons gives .nil

theorem Run.turns_append (h : Run policy r marks q) (more : List Mark) :
    Mark.turns r.nesting.top (marks ++ more) =
      Mark.turns r.nesting.top marks ++ Mark.turns q.nesting.top more := by
  induction h with
  | nil => rfl
  | cons gives _ ih => exact congrArg (List.cons _) ih

/-- Of two runs from one place, one that has halted goes at least as far as the other. -/
theorem Run.isPrefix (h : Run policy r marks q) (h' : Run policy r more p)
    (halts : Halts policy p) : marks <+: more ∧ (Halts policy q → marks = more ∧ q = p) := by
  induction h generalizing more with
  | @nil r =>
      constructor
      · exact List.nil_prefix
      · rintro ⟨halt, place, stops⟩
        cases h' with
        | nil => exact ⟨rfl, rfl⟩
        | cons gives _ => rw [stops] at gives; cases gives
  | cons gives _ ih =>
      cases h' with
      | nil =>
          obtain ⟨halt, place, stops⟩ := halts
          rw [stops] at gives
          cases gives
      | cons gives' rest' =>
          obtain ⟨rfl, rfl⟩ := Reply.gives.inj (gives.symm.trans gives')
          obtain ⟨front, whole⟩ := ih rest'
          constructor
          · exact List.cons_prefix_cons.mpr ⟨rfl, front⟩
          · intro stops
            obtain ⟨rfl, rfl⟩ := whole stops
            exact ⟨rfl, rfl⟩

end Reading

end JsonEvents
