import JsonEvents.Tokenizer.Progress

/-!
# Runs of a tokenizer

A run calls `next` again and again and keeps what each call gave together with
a snapshot of the tokenizer after it.
-/

namespace JsonEvents

/-- What can be seen of a tokenizer between two calls. -/
structure Snapshot where
  context : Context
  depth : Nat
  offset : Nat
  atEnd : Bool
  status : Status
  deriving DecidableEq

/-- What one call gave, and what could be seen after it. -/
structure Step where
  event : Event
  after : Snapshot
  deriving DecidableEq

namespace Tokenizer

def snapshot (t : Tokenizer) : Snapshot :=
  { context := t.context, depth := t.depth, offset := t.offset, atEnd := t.isAtEnd,
    status := t.status }

/-- Call until an error event was given; the newest step comes first. -/
def collect (t : Tokenizer) (steps : List Step) : List Step × Tokenizer :=
  match _h : t.next with
  | (event, t') =>
      if event.kind = .error then (⟨event, t'.snapshot⟩ :: steps, t')
      else collect t' (⟨event, t'.snapshot⟩ :: steps)
termination_by t.window.remaining
decreasing_by exact remaining_next_lt _h ‹_›

/-- The steps up to the first error event, which makes the last one, and the tokenizer then. -/
def runOnce (t : Tokenizer) : List Step × Tokenizer :=
  let (steps, t) := t.collect []
  (steps.reverse, t)

/-- The steps up to the error event of the given number. -/
def run (t : Tokenizer) : Nat → List Step × Tokenizer
  | 0 => ([], t)
  | errors + 1 =>
      let (steps, t) := t.runOnce
      let (more, t) := t.run errors
      (steps ++ more, t)

/-- The steps of exactly so many calls, the newest one first. -/
def collectCalls (t : Tokenizer) (calls : Nat) (steps : List Step) : List Step × Tokenizer :=
  match calls with
  | 0 => (steps, t)
  | calls + 1 =>
      let (event, t) := t.next
      t.collectCalls calls (⟨event, t.snapshot⟩ :: steps)

def runCalls (t : Tokenizer) (calls : Nat) : List Step × Tokenizer :=
  let (steps, t) := t.collectCalls calls []
  (steps.reverse, t)

/-- The steps before the first error event. -/
def steps (t : Tokenizer) : List Step := t.runOnce.1.dropLast

/-- The tokenizer once it has given its first error event. -/
def final (t : Tokenizer) : Tokenizer := t.runOnce.2

theorem collect_of_error {t t' : Tokenizer} {event : Event} (h : t.next = (event, t'))
    (error : event.kind = .error) (steps : List Step) :
    t.collect steps = (⟨event, t'.snapshot⟩ :: steps, t') := by
  rw [collect]
  split
  next event t' same =>
    obtain ⟨rfl, rfl⟩ := Prod.mk.inj (same.symm.trans h)
    exact if_pos error

theorem collect_of_event {t t' : Tokenizer} {event : Event} (h : t.next = (event, t'))
    (some : event.kind ≠ .error) (steps : List Step) :
    t.collect steps = t'.collect (⟨event, t'.snapshot⟩ :: steps) := by
  rw [collect]
  split
  next event t' same =>
    obtain ⟨rfl, rfl⟩ := Prod.mk.inj (same.symm.trans h)
    exact if_neg some

theorem collect_append (t : Tokenizer) (steps more : List Step) :
    t.collect (steps ++ more) = ((t.collect steps).1 ++ more, (t.collect steps).2) := by
  have h : t.next = (t.next.1, t.next.2) := rfl
  by_cases error : t.next.1.kind = .error
  · rw [collect_of_error h error, collect_of_error h error, List.cons_append]
  · rw [collect_of_event h error, collect_of_event h error, ← List.cons_append]
    exact collect_append t.next.2 _ more
termination_by t.window.remaining
decreasing_by exact remaining_next_lt h error

theorem runOnce_of_error {t t' : Tokenizer} {event : Event} (h : t.next = (event, t'))
    (error : event.kind = .error) : t.runOnce = ([⟨event, t'.snapshot⟩], t') := by
  unfold runOnce
  rw [collect_of_error h error]
  rfl

theorem runOnce_of_event {t t' : Tokenizer} {event : Event} (h : t.next = (event, t'))
    (some : event.kind ≠ .error) :
    t.runOnce = (⟨event, t'.snapshot⟩ :: t'.runOnce.1, t'.runOnce.2) := by
  have rest := collect_append t' [] [⟨event, t'.snapshot⟩]
  rw [List.nil_append] at rest
  unfold runOnce
  rw [collect_of_event h some, rest]
  simp

theorem runOnce_ne_nil (t : Tokenizer) : t.runOnce.1 ≠ [] := by
  have h : t.next = (t.next.1, t.next.2) := rfl
  by_cases error : t.next.1.kind = .error
  · rw [runOnce_of_error h error]
    exact List.cons_ne_nil _ _
  · rw [runOnce_of_event h error]
    exact List.cons_ne_nil _ _

theorem steps_of_error {t t' : Tokenizer} {event : Event} (h : t.next = (event, t'))
    (error : event.kind = .error) : t.steps = [] ∧ t.final = t' := by
  simp [steps, final, runOnce_of_error h error]

theorem steps_of_event {t t' : Tokenizer} {event : Event} (h : t.next = (event, t'))
    (some : event.kind ≠ .error) :
    t.steps = ⟨event, t'.snapshot⟩ :: t'.steps ∧ t.final = t'.final := by
  simp [steps, final, runOnce_of_event h some, List.dropLast_cons_of_ne_nil (runOnce_ne_nil t')]

end Tokenizer

end JsonEvents
