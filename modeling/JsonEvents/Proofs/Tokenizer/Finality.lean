import JsonEvents.Proofs.Reading.Beyond
import JsonEvents.Proofs.Tokenizer.Runs

/-!
# Events that are final

An event behind which there is another one does not depend on where the text
ends: every text that goes on gives it too (`marks_append`).  Only the last
event of a text that is cut off can be another one when the text goes on.
-/

namespace JsonEvents

namespace Reading

variable {policy : TrailingComma} {p q r : Reading} {marks more : List Mark}

/-- There is no event behind the place where a reading halts. -/
theorem Run.eq_nil_of_halts (h : Run policy r marks q) (halts : Halts policy r) : marks = [] := by
  cases h with
  | nil => rfl
  | cons gives _ => exact absurd halts (not_halts_of_gives gives)

/-- An event that was looked for beyond the text is followed by none. -/
theorem halts_of_beyond {event : Event} {r' : Reading} (gives : r.next policy = .gives event r')
    (beyond : ¬ r.LooksInside policy) : Halts policy r' := by
  rcases last_or_halts gives beyond with ⟨nothing, _⟩ | ⟨_, halts⟩
  · exact ⟨.ended, r', next_of_nothing nothing⟩
  · exact halts

/-- What a reading gives before its last event it gives in every text that goes on. -/
theorem Run.dropLast_isPrefix (h : Run policy r marks q) (behind : Bytes)
    (h' : Run policy (r.extend behind) more p) (halts : Halts policy p) :
    marks.dropLast <+: more := by
  induction h generalizing more with
  | nil => exact List.nil_prefix
  | @cons r r' q event marks gives rest ih =>
      by_cases inside : r.LooksInside policy
      · have same := next_extend behind (next_eq_gives.mp gives).1 inside
        rw [gives] at same
        cases h' with
        | nil => exact absurd halts (not_halts_of_gives same)
        | cons gives' rest' =>
            obtain ⟨rfl, rfl⟩ := Reply.gives.inj (same.symm.trans gives')
            cases marks with
            | nil => exact List.nil_prefix
            | cons mark marks => exact List.cons_prefix_cons.mpr ⟨rfl, ih rest'⟩
      · -- The event is the last one, and nothing is claimed of it.
        rw [rest.eq_nil_of_halts (halts_of_beyond gives inside)]
        exact List.nil_prefix

end Reading

namespace Tokenizer

/--
Whatever stands behind a text, and however the run over the text alone ends, the
events that it gives before its last one are the first events of the run over
all of it, in the same contexts and places.
-/
theorem marks_append (input behind : Bytes) (o : Options) :
    (ofBytes input o).marks.dropLast <+: (ofBytes (input ++ behind) o).marks := by
  by_cases opens : LogOpens o
  · obtain ⟨q, _, _, part, _⟩ := run_ofBytes opens input
    obtain ⟨p, halt, place, whole, stops, _⟩ := run_ofBytes opens (input ++ behind)
    exact part.dropLast_isPrefix behind whole ⟨halt, place, stops⟩
  · rw [ofBytes, (stops_without_log opens _).1]
    exact List.nil_prefix

/-- The last event of a text is not final: a number may go on. -/
example :
    (ofBytes (Bytes.ofString "[1,2") {}).marks.map Mark.event =
        [⟨.startArray, Bytes.ofString "["⟩, ⟨.number, Bytes.ofString "1"⟩,
          ⟨.number, Bytes.ofString "2"⟩] ∧
      (ofBytes (Bytes.ofString "[1,23") {}).marks.map Mark.event =
        [⟨.startArray, Bytes.ofString "["⟩, ⟨.number, Bytes.ofString "1"⟩,
          ⟨.number, Bytes.ofString "23"⟩] := by
  decide +kernel

end Tokenizer

end JsonEvents
