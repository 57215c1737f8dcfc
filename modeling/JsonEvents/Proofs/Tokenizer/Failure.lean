import JsonEvents.Proofs.Reading.Beyond
import JsonEvents.Proofs.Tokenizer.Delivery
import JsonEvents.Proofs.Tokenizer.Looked

/-!
# Sources that fail

Where its source fails a tokenizer does what the reading of its bytes does, up
to the reply that is about their end; there it tells the failure
(`Follows.next_of_failing`).  So it gives nothing that more bytes would change,
unless the bytes stop short of the end of a number or a literal
(`marks_of_failing`).
-/

namespace JsonEvents.Tokenizer

open Reading (Run LooksInside StopsShort)

variable {input : Bytes} {ending : Status} {policy : TrailingComma} {t : Tokenizer} {r : Reading}

/-! ## Calls -/

theorem Follows.length (h : Follows input ending policy t r) :
    r.offset + r.rest.length = input.length := by
  have length := h.shows.holds.length
  have arrived := h.shows.arrived
  have offset := h.offset
  rw [← h.rest, List.length_drop]
  omega

theorem Follows.whole (h : Follows input ending policy t r)
    (failing : ending.isEndOfInput = false) : r.cut = false := by
  cases cut : r.cut with
  | false => rfl
  | true => exact absurd (failing.symm.trans (h.cut cut).2) Bool.false_ne_true

/-- What is told of a reply that looks beyond the input is told at its end. -/
theorem Follows.given_of_beyond (h : Follows input ending policy t r) (whole : r.cut = false)
    (fits : ¬ t.next.2.window.Overflows) (beyond : ¬ r.LooksInside policy) :
    t.next.2.window.given = ending := by
  have text := h.front.follows.length
  refine (h.looked_next whole).spent fits ?_
  unfold LooksInside at beyond
  omega

/-- A call that agrees, though the source fails at the end, is not about the end. -/
theorem Follows.not_isLast (h : Follows input ending policy t r) (whole : r.cut = false)
    (agrees : Agrees input ending policy t.next (r.next policy))
    (shown : ¬ Hides ending t.next.2.window (r.next policy)) : ¬ (r.next policy).IsLast := by
  cases reply : r.next policy with
  | halts halt place =>
      rw [reply] at shown
      exact shown
  | gives e r' =>
      rw [reply] at agrees shown
      rintro ⟨nothing, cut | number⟩
      · exact shown ⟨nothing, .inl cut⟩
      · have beyond := Reading.not_looksInside_of_number reply number nothing
        have given := h.given_of_beyond whole agrees.2.fits beyond
        have scalar : (r'.mark e).isScalar = true := by
          simp [Mark.isScalar, Reading.mark, number]
        exact shown ⟨nothing, .inr ⟨scalar, given⟩⟩

/-- Where the source fails a call gives up, or tells the failure, or does what the reading does. -/
theorem Follows.next_of_failing (h : Follows input ending policy t r)
    (failing : ending.isEndOfInput = false) :
    GivesUp t.window t.next ∨
      (t.next.1 = .error ∧ t.next.2.status = ending ∧
        Hides ending t.next.2.window (r.next policy)) ∨
      Agrees input ending policy t.next (r.next policy) ∧
        ¬ Hides ending t.next.2.window (r.next policy) := by
  refine h.next.imp_right fun does => ?_
  cases does with
  | agrees agrees shown =>
      exact .inr ⟨agrees, shown.resolve_left (by rw [failing]; exact Bool.false_ne_true)⟩
  | stops error status _ hidden => exact .inl ⟨error, status, hidden⟩

/-- What is given though the source fails was found in the input alone, if that does not stop short. -/
theorem Follows.looksInside (h : Follows input ending policy t r)
    (failing : ending.isEndOfInput = false)
    (agrees : Agrees input ending policy t.next (r.next policy))
    (shown : ¬ Hides ending t.next.2.window (r.next policy)) (long : ¬ r.StopsShort policy) :
    r.LooksInside policy := by
  have whole := h.whole failing
  refine Classical.byContradiction fun beyond => ?_
  rcases Reading.last_or_stopsShort whole beyond with last | short
  · exact h.not_isLast whole agrees shown last
  · exact long short

theorem Explains.isCorruption {s : Status} {fault : Fault} (h : Explains s (.refused fault)) :
    s.isCorruption = true := by
  simp only [Explains, Status.isRefusal, Bool.and_eq_true] at h
  exact h.1

/-! ## Runs -/

/-- No place that a reading comes to stops short. -/
def NeverShort (policy : TrailingComma) (r : Reading) : Prop :=
  ∀ marks q, Run policy r marks q → ¬ q.StopsShort policy

theorem NeverShort.of_gives {r' : Reading} {e : Event} (h : NeverShort policy r)
    (gives : r.next policy = .gives e r') : NeverShort policy r' :=
  fun _ _ run => h _ _ (.cons gives run)

theorem NeverShort.of_inside {r' : Reading} {e : Event} (inside : r.LooksInside policy)
    (gives : r.next policy = .gives e r') (rest : NeverShort policy r') : NeverShort policy r := by
  intro marks q run short
  cases run with
  | nil => exact short.beyond inside
  | cons gives' rest' =>
      obtain ⟨rfl, rfl⟩ := Reply.gives.inj (gives.symm.trans gives')
      exact rest _ _ rest' short

theorem NeverShort.of_nothing (nothing : r.rest = []) : NeverShort policy r := by
  intro marks q run short
  exact run.rest_ne_nil short.rest_ne_nil nothing

/-- Why a run has ended: it gave up, or it told the failure, or a text that goes on is refused too. -/
inductive Breaks (ending : Status) (policy : TrailingComma) (t : Tokenizer) (q : Reading) : Prop
  | spilled (status : t.status = .bufferExceeded)
  | failed (status : t.status = ending)
  | refused {fault : Fault} {place : Reading}
      (stops : q.next policy = .halts (.refused fault) place)
      (stopsAt : t.StopsAt (.refused fault) place)

/-- What is given before the source fails is given in every text that goes on where it failed. -/
theorem Follows.run_of_failing {t : Tokenizer} {r : Reading} (h : Follows input ending policy t r)
    (failing : ending.isEndOfInput = false) (never : NeverShort policy r) (behind : Bytes) :
    ∃ q, (r.extend behind).Run policy t.marks q ∧ t.final.Breaks ending policy q := by
  rcases h.next_of_failing failing with ⟨error, status, _⟩ | ⟨error, status, _⟩ | ⟨agrees, shown⟩
  · obtain ⟨none, final⟩ := marks_of_stop error
    exact ⟨r.extend behind, none ▸ .nil, final ▸ .spilled status⟩
  · obtain ⟨none, final⟩ := marks_of_stop error
    exact ⟨r.extend behind, none ▸ .nil, final ▸ .failed status⟩
  · -- What is given without a look behind the input is given whatever stands there.
    have whole := h.whole failing
    have same := Reading.next_extend behind whole
      (h.looksInside failing agrees shown (never [] r .nil))
    cases reply : r.next policy with
    | gives event r' =>
        rw [reply] at agrees same
        obtain ⟨marks, final, less⟩ := agrees.marks_of_gives reply
        obtain ⟨q, run, breaks⟩ := agrees.2.run_of_failing failing (never.of_gives reply) behind
        have goes := Run.cons same run
        refine ⟨q, ?_, final ▸ breaks⟩
        rw [marks]
        exact goes
    | halts halt place =>
        rw [reply] at agrees same shown
        obtain ⟨none, stopsAt⟩ := agrees.marks_of_halts
        cases halt with
        | ended => exact absurd (Reading.next_eq_ended whole reply).2 shown
        | refused fault =>
            exact ⟨r.extend behind, none ▸ .nil,
              .refused same ⟨stopsAt.nesting, stopsAt.offset, stopsAt.explains⟩⟩
termination_by t.window.remaining

/--
Where the source fails, what was given before is given by every text that goes
on where it failed, and the run ends with the failure, or as that text is
refused too, unless a lexeme does not fit.  The bytes that the source brought
must not stop short of the end of a number or a literal.
-/
theorem marks_of_failing {o : Options} {reader : Reader} (steady : reader.IsSteady)
    (failed : reader.ending.isOk = false) (other : reader.ending.isBufferExceeded = false)
    (failing : reader.ending.isEndOfInput = false)
    (never : NeverShort o.trailingComma (.start reader.pending)) (behind : Bytes) :
    (ofReader reader o).marks <+: (ofBytes (reader.pending ++ behind) o).marks ∧
      ((ofReader reader o).final.status.isBufferExceeded = false →
        (ofReader reader o).final.status = reader.ending ∨
          (LogOpens o → (ofReader reader o).final.status.isCorruption = true) ∧
            (ofReader reader o).final.StopsLike
              (ofBytes (reader.pending ++ behind) o).final) := by
  by_cases opens : LogOpens o
  · obtain ⟨q, front, breaks⟩ :=
      (follows_of_failed opens steady failed other).run_of_failing failing never behind
    obtain ⟨p, halt, place, whole, stops, stopsAt⟩ := run_ofBytes opens (reader.pending ++ behind)
    obtain ⟨begins, same⟩ := front.isPrefix whole ⟨halt, place, stops⟩
    refine ⟨begins, fun fits => ?_⟩
    cases breaks with
    | spilled status =>
        rw [status] at fits
        cases fits
    | failed status => exact .inl status
    | refused stops' stopsAt' =>
        obtain ⟨_, rfl⟩ := same ⟨_, _, stops'⟩
        obtain ⟨rfl, rfl⟩ := Reply.halts.inj (stops'.symm.trans stops)
        exact .inr ⟨fun _ => stopsAt'.explains.isCorruption, stopsAt'.stopsLike stopsAt⟩
  · obtain ⟨none, _, like⟩ := stopsLike_without_log opens
      (v := .ofReader reader o) (w := .ofBytes (reader.pending ++ behind)) rfl
    rw [ofReader, none]
    exact ⟨List.nil_prefix, fun _ => .inr ⟨fun opens' => absurd opens' opens, like⟩⟩

/-- A source that fails behind a string, with a number before it. -/
theorem marks_of_failing_behind_string :
    let reader : Reader :=
      { pieces := [Bytes.ofString "[1", Bytes.ofString "2, \"ab\""]
        ending := .plain .ioError .unspecified }
    let behind := Bytes.ofString "]"
    reader.IsSteady ∧ NeverShort .reject (.start reader.pending) ∧
      (ofReader reader {}).marks <+: (ofBytes (reader.pending ++ behind) {}).marks ∧
      (ofReader reader {}).marks.length = 3 ∧ (ofReader reader {}).final.status = reader.ending := by
  intro reader behind
  have steady : reader.IsSteady := ⟨by decide, by decide⟩
  let inArray (text : String) (offset : Nat) (needComma : Bool) : Reading :=
    ⟨Bytes.ofString text, offset, Nesting.bottom.push .array, needComma, false⟩
  have opening : (Reading.start reader.pending).next .reject =
      .gives ⟨.startArray, Bytes.ofString "["⟩ (inArray "12, \"ab\"" 1 false) := by
    decide +kernel
  have number : (inArray "12, \"ab\"" 1 false).next .reject =
      .gives ⟨.number, Bytes.ofString "12"⟩ (inArray ", \"ab\"" 3 true) := by
    decide +kernel
  have string : (inArray ", \"ab\"" 3 true).next .reject =
      .gives ⟨.string, Bytes.ofString "\"ab\""⟩ (inArray "" 9 true) := by
    decide +kernel
  have never : NeverShort .reject (.start reader.pending) :=
    .of_inside (by decide +kernel) opening <| .of_inside (by decide +kernel) number <|
      .of_inside (by decide +kernel) string <| .of_nothing rfl
  obtain ⟨front, ends⟩ := marks_of_failing (o := {}) steady rfl rfl rfl never behind
  have noRefusal : (ofReader reader {}).final.status.isCorruption = false := by decide +kernel
  refine ⟨steady, never, front, by decide +kernel, (ends (by decide +kernel)).resolve_right ?_⟩
  rintro ⟨refusal, _⟩
  rw [refusal rfl] at noRefusal
  cases noRefusal

/-! ## Texts that stop short -/

/--
What a run gave and why it ended, when no run over a certain text that goes on
gives that first and ends for that reason.
-/
def IsChanged (ending : Status) (policy : TrailingComma) (t : Tokenizer) (r : Reading) : Prop :=
  ∃ behind, ∀ marks q halt place, (r.extend behind).Run policy marks q →
    q.next policy = .halts halt place → t.marks <+: marks →
      t.final.status ≠ ending ∧ ¬ Explains t.final.status halt

theorem Hides.place_eq_nil {w : Window} {reply : Reply} (h : Hides ending w reply) :
    reply.place.rest = [] := by
  cases reply with
  | gives event after => exact h.1
  | halts halt place => exact h

/-- A failure where the text stops short is passed off as a fault of it, or cuts a number off. -/
theorem Follows.isChanged_of_stopsShort (h : Follows input ending policy t r)
    (failing : ending.isEndOfInput = false) (plain : ending.isCorruption = false)
    (fits : t.final.status.isBufferExceeded = false) (short : r.StopsShort policy) :
    t.IsChanged ending policy r := by
  obtain ⟨behind, e, r', gives, nothing, other⟩ := short.exists_behind
  have ends : r'.next policy = _ := Reading.next_of_nothing nothing
  refine ⟨behind, fun marks q halt place run stops front => ?_⟩
  obtain ⟨rfl, rfl⟩ := ((Run.single gives).isPrefix run ⟨halt, place, stops⟩).2 ⟨_, _, ends⟩
  obtain ⟨rfl, rfl⟩ := Reply.halts.inj (ends.symm.trans stops)
  rcases h.next_of_failing failing with ⟨error, status, _⟩ | ⟨_, _, hidden⟩ | ⟨agrees, _⟩
  · rw [(marks_of_stop error).2, status] at fits
    cases fits
  · exact absurd hidden.place_eq_nil short.place_ne_nil
  · cases reply : r.next policy with
    | gives event r'' =>
        rw [reply] at agrees
        rw [(agrees.marks_of_gives reply).1] at front
        obtain ⟨same, _⟩ := List.cons_prefix_cons.mp front
        obtain rfl : event = e := congrArg Mark.event same
        exact absurd reply (other r'')
    | halts halt place =>
        have some := short.place_ne_nil
        rw [reply] at agrees some
        have explains := agrees.marks_of_halts.2.explains
        cases halt with
        | ended => exact absurd (Reading.next_eq_ended short.whole reply).2 some
        | refused fault =>
            have refusal := explains.isCorruption
            constructor
            · intro same
              rw [same, plain] at refusal
              cases refusal
            · intro ended
              rw [Status.isCorruption_of_isEndOfInput ended] at refusal
              cases refusal

/-- What is changed behind an event is changed before it. -/
theorem IsChanged.of_gives {e : Event} {r' : Reading} (rest : t.next.2.IsChanged ending policy r')
    (agrees : Agrees input ending policy t.next (.gives e r'))
    (gives : r.next policy = .gives e r') (inside : r.LooksInside policy) :
    t.IsChanged ending policy r := by
  obtain ⟨behind, changed⟩ := rest
  obtain ⟨same, final, _⟩ := agrees.marks_of_gives gives
  have extended := Reading.next_extend behind (Reading.next_eq_gives.mp gives).1 inside
  rw [gives] at extended
  refine ⟨behind, fun marks q halt place run stops front => ?_⟩
  cases run with
  | nil =>
      rw [extended] at stops
      cases stops
  | cons gives' run' =>
      obtain ⟨rfl, rfl⟩ := Reply.gives.inj (extended.symm.trans gives')
      rw [same] at front
      rw [final]
      exact changed _ _ _ _ run' stops (List.cons_prefix_cons.mp front).2

/-- Where a reading comes to a place that stops short, a failure there changes what is given. -/
theorem Follows.isChanged {marks : List Mark} {q : Reading} (h : Follows input ending policy t r)
    (failing : ending.isEndOfInput = false) (plain : ending.isCorruption = false)
    (fits : t.final.status.isBufferExceeded = false) (run : r.Run policy marks q)
    (short : q.StopsShort policy) : t.IsChanged ending policy r := by
  induction run generalizing t with
  | nil => exact h.isChanged_of_stopsShort failing plain fits short
  | @cons r r' q event marks gives rest ih =>
      by_cases early : r.StopsShort policy
      · exact h.isChanged_of_stopsShort failing plain fits early
      · have some : (r.next policy).place.rest ≠ [] := by
          rw [gives]
          exact rest.rest_ne_nil short.rest_ne_nil
        rcases h.next_of_failing failing with ⟨error, status, _⟩ | ⟨_, _, hidden⟩ | ⟨agrees, shown⟩
        · rw [(marks_of_stop error).2, status] at fits
          cases fits
        · exact absurd hidden.place_eq_nil some
        · have inside := h.looksInside failing agrees shown early
          rw [gives] at agrees
          rw [(agrees.marks_of_gives gives).2.1] at fits
          exact (ih agrees.2 fits short).of_gives agrees gives inside

/--
Conversely, where the bytes that the source brought stop short of the end of a
number or a literal, there is a text that goes on from them and does not give
what was given before the failure, or ends for another reason.
-/
theorem exists_behind_of_stopsShort {o : Options} {reader : Reader} {marks : List Mark}
    (opens : LogOpens o) (steady : reader.IsSteady) (failed : reader.ending.isOk = false)
    (other : reader.ending.isBufferExceeded = false)
    (failing : reader.ending.isEndOfInput = false) (plain : reader.ending.isCorruption = false)
    (fits : (ofReader reader o).final.status.isBufferExceeded = false)
    (run : (Reading.start reader.pending).Run o.trailingComma marks r)
    (short : r.StopsShort o.trailingComma) :
    ∃ behind, (ofReader reader o).marks <+: (ofBytes (reader.pending ++ behind) o).marks →
      (ofReader reader o).final.status ≠ reader.ending ∧
        ¬ (ofReader reader o).final.StopsLike (ofBytes (reader.pending ++ behind) o).final := by
  obtain ⟨behind, changed⟩ :=
    (follows_of_failed opens steady failed other).isChanged failing plain fits run short
  refine ⟨behind, fun front => ?_⟩
  obtain ⟨q, halt, place, whole, stops, stopsAt⟩ := run_ofBytes opens (reader.pending ++ behind)
  obtain ⟨told, unexplained⟩ := changed _ q halt place whole stops front
  exact ⟨told, fun like => unexplained (like.explains stopsAt.explains)⟩

end JsonEvents.Tokenizer
