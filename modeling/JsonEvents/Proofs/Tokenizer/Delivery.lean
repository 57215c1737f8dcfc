import JsonEvents.Proofs.Tokenizer.Runs

/-!
# The pieces of a delivery

What a reader delivers in pieces gives what the whole input gives, up to a
lexeme that does not fit.
-/

namespace JsonEvents.Tokenizer

/-- Two tokenizers have stopped for one reason in one place. -/
structure StopsLike (t u : Tokenizer) : Prop where
  category : t.status.category = u.status.category
  reason : t.status.reason = u.status.reason
  context : t.context = u.context
  depth : t.depth = u.depth
  offset : t.offset = u.offset

variable {t u : Tokenizer}

/-- One reason explains statuses of one kind only. -/
theorem Explains.agree {s s' : Status} {halt : Halt} (h : Explains s halt)
    (h' : Explains s' halt) : s.category = s'.category ∧ s.reason = s'.reason := by
  cases halt with
  | ended =>
      simp only [Explains, Status.isEndOfInput, Bool.and_eq_true, beq_iff_eq] at *
      exact ⟨h.1.trans h'.1.symm, h.2.trans h'.2.symm⟩
  | refused fault =>
      simp only [Explains, Status.isRefusal, Bool.and_eq_true, beq_iff_eq] at *
      exact ⟨h.1.trans h'.1.symm, h.2.trans h'.2.symm⟩

theorem StopsAt.stopsLike {halt : Halt} {place : Reading} (h : t.StopsAt halt place)
    (h' : u.StopsAt halt place) : t.StopsLike u := by
  obtain ⟨category, reason⟩ := h.explains.agree h'.explains
  have nesting := h.nesting.trans h'.nesting.symm
  exact ⟨category, reason, congrArg Nesting.top nesting, congrArg Nesting.depth nesting,
    h.offset.trans h'.offset.symm⟩

/-- What explains the end of one run explains that of the other. -/
theorem StopsLike.explains {halt : Halt} (h : t.StopsLike u) (explains : Explains u.status halt) :
    Explains t.status halt := by
  cases halt with
  | ended => rwa [Explains, Status.isEndOfInput, h.category, h.reason]
  | refused fault => rwa [Explains, Status.isRefusal, h.category, h.reason]

/-- Without its log no tokenizer gets anywhere, whatever its input. -/
theorem stopsLike_without_log {o : Options} (fails : ¬ LogOpens o) {v w : Window}
    (cursor : v.cursor = w.cursor) :
    (ofWindow v o).marks = [] ∧ (ofWindow w o).marks = [] ∧
      (ofWindow v o).final.StopsLike (ofWindow w o).final := by
  obtain ⟨none, final⟩ := stops_without_log fails v
  obtain ⟨none', final'⟩ := stops_without_log fails w
  have latched : (ofWindow v o).status = (ofWindow w o).status :=
    (if_neg fails).trans (if_neg fails).symm
  rw [final, final']
  exact ⟨none, none', congrArg Status.category latched, congrArg Status.reason latched, rfl, rfl,
    cursor⟩

/-- A tokenizer follows the reading of what its reader is going to deliver, however that ends. -/
theorem follows_of_failed {o : Options} {reader : Reader} (opens : LogOpens o)
    (steady : reader.IsSteady) (failed : reader.ending.isOk = false)
    (other : reader.ending.isBufferExceeded = false) :
    Follows reader.pending reader.ending o.trailingComma (ofReader reader o)
      (.start reader.pending) := by
  have fits : ¬ (Window.ofReader reader o).Overflows := by
    intro spilled
    cases spilled
  exact follows_ofWindow opens (Window.shows_ofReader o steady failed other) fits rfl rfl

theorem follows_ofReader {o : Options} {reader : Reader} (opens : LogOpens o)
    (steady : reader.IsSteady) (ended : reader.ending.isEndOfInput = true) :
    Follows reader.pending reader.ending o.trailingComma (ofReader reader o)
      (.start reader.pending) :=
  follows_of_failed opens steady (Status.isOk_of_isEndOfInput ended)
    (Status.isBufferExceeded_of_isEndOfInput ended)

/--
What a reader delivers in pieces, each read bringing something until the end
comes, gives what the whole input gives: the same events in the same places
and the same end, or the front of them when a lexeme does not fit.
-/
theorem marks_ofReader {input : Bytes} (o : Options) {reader : Reader} (steady : reader.IsSteady)
    (delivers : reader.pending = input) (ended : reader.ending.isEndOfInput = true) :
    (ofReader reader o).marks <+: (ofBytes input o).marks ∧
      ((ofReader reader o).final.status.isBufferExceeded = false →
        (ofReader reader o).marks = (ofBytes input o).marks ∧
          (ofReader reader o).final.StopsLike (ofBytes input o).final) := by
  subst delivers
  by_cases opens : LogOpens o
  · obtain ⟨p, halt, place, whole, stops, stopsAt⟩ := run_ofBytes opens reader.pending
    obtain ⟨q, pieces, _, outcome⟩ := (follows_ofReader opens steady ended).run ended
    obtain ⟨front, same⟩ := pieces.isPrefix whole ⟨halt, place, stops⟩
    constructor
    · exact front
    · intro fits
      rcases outcome with ⟨spilled, _⟩ | ⟨halt', place', stops', stopsAt'⟩
      · rw [spilled] at fits
        cases fits
      · obtain ⟨marks, rfl⟩ := same ⟨halt', place', stops'⟩
        obtain ⟨rfl, rfl⟩ := Reply.halts.inj (stops'.symm.trans stops)
        exact ⟨marks, stopsAt'.stopsLike stopsAt⟩
  · -- Neither tokenizer gets anywhere without its log.
    obtain ⟨none, final⟩ := stops_without_log opens (.ofBytes reader.pending)
    obtain ⟨none', final'⟩ := stops_without_log opens (.ofReader reader o)
    rw [ofReader, ofBytes, none, none', final, final']
    refine ⟨List.nil_prefix, fun _ => ⟨rfl, ?_⟩⟩
    have latched : ∀ w, (ofWindow w o).status = (Log.opened o.sanitize).1 := fun w => if_neg opens
    constructor
    · rw [latched, latched]
    · rw [latched, latched]
    · rfl
    · rfl
    · rfl

/-- A literal and a number that are cut by reads of at most two bytes. -/
theorem marks_ofReader_across_reads :
    let reader : Reader :=
      { pieces := [Bytes.ofString "[tr", Bytes.ofString "ue, 1", Bytes.ofString "05]"]
        most := some 2 }
    let o : Options := { minBufferSize := 4, maxBufferSize := 8 }
    reader.IsSteady ∧ reader.ending.isEndOfInput = true ∧
      (ofReader reader o).marks = (ofBytes (Bytes.ofString "[true, 105]") o).marks ∧
      (ofReader reader o).final.StopsLike (ofBytes (Bytes.ofString "[true, 105]") o).final := by
  intro reader o
  have steady : reader.IsSteady := ⟨by decide, by decide⟩
  have fits : (ofReader reader o).final.status.isBufferExceeded = false := by decide +kernel
  exact ⟨steady, rfl, (marks_ofReader o steady (by decide) rfl).2 fits⟩

end JsonEvents.Tokenizer
