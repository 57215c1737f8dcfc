import JsonEvents.Proofs.Grammar.Scanned
import JsonEvents.Proofs.Tokenizer.Failure

/-!
# The status of the last read

A source tells that it failed with its last bytes or by a read of its own.  A
tokenizer keeps back a scalar value that comes to the end of what was read: in
the second case only where more bytes could make another value of it, and in
the first case always (`marks_endsWithLast`).
-/

namespace JsonEvents

open Ascii

/-! ## Supplies that tell their end early -/

namespace Supply

/-- Whether the end is told with the last byte already. -/
def IsEager : Supply → Prop
  | .nothing => True
  | .stream str => str.reader.endsWithLast = true ∧ str.reader.ending.isOk = false ∧
      (str.reader.pieces = [] → str.status.isOk = false)

end Supply

namespace Stream

theorem isEager_refill (seg : Segment) (str : Stream) (need : Nat)
    (eager : (Supply.stream str).IsEager) : (Supply.stream (refill seg str need).2.2).IsEager := by
  refine refill_keeps (I := fun str => (Supply.stream str).IsEager)
    (fun _ eager => ⟨eager.1, eager.2.1, fun _ => rfl⟩) ?_ seg str need eager
  intro seg str need ok eager
  obtain ⟨first, failed, told⟩ := eager
  generalize room (seg.bytes.size - seg.start) need str.limit str.capacity = capacity
  unfold fetch Reader.read
  dsimp only
  split
  · next pieces =>
      rw [told pieces] at ok
      cases ok
  · next piece rest pieces =>
      refine ⟨first, failed, fun nothing => ?_⟩
      dsimp only at nothing ⊢
      rw [first, nothing]
      exact failed

end Stream

namespace Window

variable {input : Bytes} {ending : Status} {v w : Window}

theorem Onward.eager (h : Onward w v) (eager : w.supply.IsEager) : v.supply.IsEager :=
  h.keeps Stream.isEager_refill eager

/-- Where no byte is left a supply that tells its end early has told it. -/
theorem Shows.given_of_eager (h : w.Shows input ending) (eager : w.supply.IsEager)
    (fits : ¬ w.Overflows) (spent : w.pending = []) : w.given = ending := by
  rcases h.given_eq with ok | spilled | ⟨given, _⟩
  · have supplied := h.supply
    unfold given at ok
    unfold pending at spent
    cases supply : w.supply with
    | nothing =>
        rw [supply] at ok
        cases ok
    | stream str =>
        rw [supply] at ok spent eager supplied
        have nothing : str.reader.pieces = [] := by
          refine List.eq_nil_iff_forall_not_mem.mpr fun piece member => ?_
          have empty : piece = [] := List.flatten_eq_nil_iff.mp spent piece member
          exact supplied.steady.pieces (empty ▸ member)
        have told := eager.2.2 nothing
        rw [show str.status = .ok from ok] at told
        cases told
  · exact absurd spilled fits
  · exact given

end Window

/-! ## Values that are kept back -/

namespace Mark

/-- Whether more bytes could make another value of it: a number, or a string that is not closed. -/
def mayGoOn (m : Mark) : Bool :=
  m.event.kind == .number || m.event.kind == .string && !(Scan.string m.event.data).1

/--
Whether a failure of the source behind so many bytes keeps the event back;
`early` says that the failure came with the last bytes.
-/
def isWithheld (early : Bool) (size : Nat) (m : Mark) : Bool :=
  m.offset == size && (m.mayGoOn || early && m.isScalar)

theorem isWithheld_iff {early : Bool} {size : Nat} {m : Mark} :
    m.isWithheld early size = true ↔
      m.offset = size ∧ (m.mayGoOn = true ∨ early = true ∧ m.isScalar = true) := by
  simp [isWithheld]

/-- When the failure came with the last bytes any scalar value is kept back, beside what is anyway. -/
theorem not_isWithheld_true (size : Nat) (m : Mark) :
    (!m.isWithheld true size) =
      (!(m.offset == size && m.isScalar) && !m.isWithheld false size) := by
  unfold isWithheld
  cases m.offset == size <;> cases m.mayGoOn <;> cases m.isScalar <;> rfl

end Mark

namespace Reading

variable {policy : TrailingComma} {q r r' : Reading} {e : Event}

theorem not_mayGoOn_of_closed {n : Nat} (isQuote : q.byte = quote)
    (closed : Scan.string q.rest = (true, n)) :
    (r'.mark ⟨.string, q.rest.take n⟩).mayGoOn = false := by
  have isQuote : Scan.byte q.rest 0 = quote := isQuote
  have whole := Scan.string_of_isString (Scan.isString_take isQuote closed)
  rw [Mark.mayGoOn, mark, whole]
  rfl

/-- Only a number, or a string that the input ends in, may go on. -/
theorem mayGoOn_iff (h : r.next policy = .gives e r') :
    (r'.mark e).mayGoOn = true ↔ r'.cut = true ∨ e.kind = .number := by
  obtain ⟨whole, q, leads, token⟩ := next_eq_gives.mp h
  have whole : q.cut = false := leads.cut_eq.trans whole
  cases token with
  | @opens l => cases l <;> simp [Mark.mayGoOn, mark, advance, Listed.startKind, whole]
  | @closes l => cases l <;> simp [Mark.mayGoOn, mark, advance, Listed.endKind, whole]
  | key free inside isQuote closed isColon =>
      rw [not_mayGoOn_of_closed isQuote closed]
      simp [advance, skipBlanks, whole]
  | @scalar kind n free outside scanned =>
      cases scanned with
      | string isQuote closed =>
          rw [not_mayGoOn_of_closed isQuote closed]
          simp [advance, whole]
      | number found => simp [Mark.mayGoOn, mark]
      | literal found => simp [Mark.mayGoOn, mark, advance, whole]
  | @openString n free outside isQuote unclosed nothing =>
      have all : q.rest.take n = q.rest := List.take_of_length_le (List.drop_eq_nil_iff.mp nothing)
      simp [Mark.mayGoOn, mark, all, unclosed]

end Reading

namespace Tokenizer

variable {input : Bytes} {ending : Status} {policy : TrailingComma} {t : Tokenizer}
  {r r' : Reading} {e : Event} {early : Bool}

/-! ## Calls -/

/--
How the failure of the source is told.  If by a read of its own it has not been
told yet, but where there is no event any more.
-/
inductive Tells (policy : TrailingComma) (t : Tokenizer) (r : Reading) : Bool → Prop
  | early (eager : t.window.supply.IsEager) : Tells policy t r true
  | late (late : t.window.supply.IsLate) (fresh : t.window.given = .ok ∨ Reading.Halts policy r) :
      Tells policy t r false

/-- Where the input is at its end an eager reader has told its failure. -/
theorem Follows.given_of_eager (h : Follows input ending policy t r)
    (eager : t.window.supply.IsEager) (nothing : r.rest = []) : t.window.given = ending := by
  have text := h.length
  have length := h.shows.holds.length
  have arrived := h.shows.arrived
  have offset := h.offset
  rw [nothing, List.length_nil] at text
  exact h.shows.given_of_eager eager h.fits (List.eq_nil_of_length_eq_zero (by omega))

/-- An event of a late reader that is looked for in the input alone leaves the failure untold. -/
theorem Follows.given_of_inside (h : Follows input ending policy t r) (whole : r.cut = false)
    (late : t.window.supply.IsLate) (fresh : t.window.given = .ok)
    (fits : ¬ t.next.2.window.Overflows) (inside : r.LooksInside policy) :
    t.next.2.window.given = .ok := by
  have text := h.front.follows.length
  refine (h.looked_next whole).fresh fits late fresh ?_
  unfold Reading.LooksInside at inside
  omega

/-- The place behind the last byte is where nothing is left. -/
theorem Follows.offset_of_gives (h : Follows input ending policy t r)
    (gives : r.next policy = .gives e r') : r'.offset = input.length ↔ r'.rest = [] := by
  have text := h.length
  have length := Reading.length_of_gives gives
  rw [← List.length_eq_zero_iff]
  omega

/-- What the failure of the source hides at the end of the input is to be withheld. -/
theorem Tells.isWithheld (tells : Tells policy t r early) (h : Follows input ending policy t r)
    (gives : r.next policy = .gives e r')
    (hidden : Hides ending t.next.2.window (.gives e r')) :
    (r'.mark e).isWithheld early input.length = true := by
  have whole := (Reading.next_eq_gives.mp gives).1
  obtain ⟨nothing, why⟩ := hidden
  refine Mark.isWithheld_iff.mpr ⟨(h.offset_of_gives gives).mpr nothing, ?_⟩
  rcases why with cut | ⟨scalar, given⟩
  · exact .inl ((Reading.mayGoOn_iff gives).mpr (.inl cut))
  · cases tells with
    | early eager => exact .inr ⟨rfl, scalar⟩
    | late late fresh =>
        have fresh := fresh.resolve_right (Reading.not_halts_of_gives gives)
        have fits : ¬ t.next.2.window.Overflows := by
          intro spilled
          exact h.shows.ending_ne (given.symm.trans spilled)
        have beyond : ¬ r.LooksInside policy := by
          intro inside
          have failed := h.shows.failed
          rw [← given, h.given_of_inside whole late fresh fits inside] at failed
          cases failed
        have last := (Reading.last_or_halts gives beyond).resolve_right fun more => more.1 nothing
        exact .inl ((Reading.mayGoOn_iff gives).mpr last.2)

/-- What is withheld at the end of the input is hidden by the failure of the source. -/
theorem Tells.not_isWithheld (tells : Tells policy t r early) (h : Follows input ending policy t r)
    (gives : r.next policy = .gives e r')
    (agrees : Agrees input ending policy t.next (.gives e r'))
    (shown : ¬ Hides ending t.next.2.window (.gives e r')) :
    (r'.mark e).isWithheld early input.length = false := by
  have whole := (Reading.next_eq_gives.mp gives).1
  have notLast := h.not_isLast whole (by rwa [gives]) (by rwa [gives])
  rw [gives] at notLast
  refine Bool.eq_false_iff.mpr fun withheld => ?_
  obtain ⟨last, why⟩ := Mark.isWithheld_iff.mp withheld
  have nothing := (h.offset_of_gives gives).mp last
  rcases why with goesOn | ⟨rfl, scalar⟩
  · exact notLast ⟨nothing, (Reading.mayGoOn_iff gives).mp goesOn⟩
  · cases tells with
    | early eager =>
        have given := agrees.2.given_of_eager ((onward_next t).eager eager) nothing
        exact shown ⟨nothing, .inr ⟨scalar, given⟩⟩

/-- What is known of the failure before a call is known behind it. -/
theorem Tells.step (tells : Tells policy t r early) (h : Follows input ending policy t r)
    (gives : r.next policy = .gives e r')
    (agrees : Agrees input ending policy t.next (.gives e r'))
    (notLast : ¬ (Reply.gives e r').IsLast) : Tells policy t.next.2 r' early := by
  have whole := (Reading.next_eq_gives.mp gives).1
  cases tells with
  | early eager => exact .early ((onward_next t).eager eager)
  | late late fresh =>
      refine .late ((onward_next t).late late) ?_
      by_cases inside : r.LooksInside policy
      · have fresh := fresh.resolve_right (Reading.not_halts_of_gives gives)
        exact .inl (h.given_of_inside whole late fresh agrees.2.fits inside)
      · exact .inr ((Reading.last_or_halts gives inside).resolve_left notLast).2

/-! ## Runs -/

/-- Why a run ended where a reading halts: for the failure at the end of the input only. -/
structure Fails (ending : Status) (t : Tokenizer) (halt : Halt) (place : Reading) : Prop where
  told : place.rest = [] → t.status = ending
  explains : place.rest ≠ [] → Explains t.status halt

theorem Fails.agree {t u : Tokenizer} {halt : Halt} {place : Reading}
    (h : t.Fails ending halt place) (h' : u.Fails ending halt place) :
    t.status.category = u.status.category ∧ t.status.reason = u.status.reason := by
  by_cases nothing : place.rest = []
  · rw [h.told nothing, h'.told nothing]
    exact ⟨rfl, rfl⟩
  · exact (h.explains nothing).agree (h'.explains nothing)

/-- Where the source fails a run gives what the reading gives, except what is withheld. -/
theorem Follows.run_withheld {t : Tokenizer} {r : Reading} (h : Follows input ending policy t r)
    (failing : ending.isEndOfInput = false) (tells : Tells policy t r early)
    (fits : t.final.status.isBufferExceeded = false) :
    ∃ marks q halt place, r.Run policy marks q ∧ q.next policy = .halts halt place ∧
      t.marks = marks.filter (!·.isWithheld early input.length) ∧
      t.final.Fails ending halt place := by
  rcases h.next_of_failing failing with ⟨error, status, _⟩ | ⟨error, status, hidden⟩ | ⟨agrees, shown⟩
  · rw [(marks_of_stop error).2, status] at fits
    cases fits
  · obtain ⟨none, final⟩ := marks_of_stop error
    rw [final, none]
    have fails {halt : Halt} {place : Reading} (nothing : place.rest = []) :
        t.next.2.Fails ending halt place := ⟨fun _ => status, fun some => absurd nothing some⟩
    cases reply : r.next policy with
    | gives e r' =>
        rw [reply] at hidden
        have withheld := tells.isWithheld h reply hidden
        refine ⟨_, r', _, r', .single reply, Reading.next_of_nothing hidden.1, ?_, fails hidden.1⟩
        rw [List.filter_cons_of_neg (by rw [withheld]; exact Bool.false_ne_true)]
        rfl
    | halts halt place =>
        rw [reply] at hidden
        exact ⟨[], r, halt, place, .nil, reply, rfl, fails hidden⟩
  · have notLast := h.not_isLast (h.whole failing) agrees shown
    cases reply : r.next policy with
    | gives e r' =>
        rw [reply] at agrees shown notLast
        obtain ⟨marks, final, less⟩ := agrees.marks_of_gives reply
        rw [final] at fits ⊢
        obtain ⟨more, q, halt, place, run, stops, same, fails⟩ :=
          agrees.2.run_withheld failing (tells.step h reply agrees notLast) fits
        have kept := tells.not_isWithheld h reply agrees shown
        refine ⟨_, q, halt, place, .cons reply run, stops, ?_, fails⟩
        rw [List.filter_cons_of_pos (by rw [kept]; rfl), ← same, marks]
    | halts halt place =>
        rw [reply] at agrees shown
        obtain ⟨none, stopsAt⟩ := agrees.marks_of_halts
        rw [none]
        exact ⟨[], r, halt, place, .nil, reply, rfl, fun nothing => absurd nothing shown,
          fun _ => stopsAt.explains⟩
termination_by t.window.remaining

theorem tells_ofReader {o : Options} {reader : Reader} (failed : reader.ending.isOk = false)
    (some : reader.pending ≠ []) : Tells policy (ofReader reader o) r reader.endsWithLast := by
  cases first : reader.endsWithLast with
  | false => exact .late first (.inl rfl)
  | true =>
      refine .early ⟨first, failed, fun nothing => absurd ?_ some⟩
      have nothing : reader.pieces = [] := nothing
      rw [Reader.pending, nothing]
      rfl

/-- What a reader that fails gives is what its bytes give, but for what is withheld at their end. -/
theorem marks_of_withheld {o : Options} {reader : Reader} (opens : LogOpens o)
    (steady : reader.IsSteady) (some : reader.pending ≠ []) (failed : reader.ending.isOk = false)
    (other : reader.ending.isBufferExceeded = false)
    (failing : reader.ending.isEndOfInput = false)
    (fits : (ofReader reader o).final.status.isBufferExceeded = false) :
    ∃ q halt place,
      (Reading.start reader.pending).Run o.trailingComma (ofBytes reader.pending o).marks q ∧
      q.next o.trailingComma = .halts halt place ∧
      (ofReader reader o).marks = (ofBytes reader.pending o).marks.filter
        (!·.isWithheld reader.endsWithLast reader.pending.length) ∧
      (ofReader reader o).final.Fails reader.ending halt place := by
  obtain ⟨marks, q, halt, place, run, stops, given, fails⟩ :=
    (follows_of_failed opens steady failed other).run_withheld failing (tells_ofReader failed some)
      fits
  obtain rfl := (ofBytes_of_run opens run stops).1
  exact ⟨q, halt, place, run, stops, given, fails⟩

/--
Two readers bring the same bytes and then fail in the same way, the first with
its last bytes and the second behind them.  Unless a lexeme does not fit, the
second run gives all that the bytes give, up to a number or an unclosed string
that comes to their end; the first one does not give any other scalar value
that comes to their end either.  Both end for the same reason.
-/
theorem marks_endsWithLast {o : Options} {early late : Reader} (steady : early.IsSteady)
    (steady' : late.IsSteady) (first : early.endsWithLast = true)
    (behind : late.endsWithLast = false) (some : late.pending ≠ [])
    (same : early.pending = late.pending) (ends : early.ending = late.ending)
    (failed : late.ending.isOk = false) (other : late.ending.isBufferExceeded = false)
    (fits : (ofReader early o).final.status.isBufferExceeded = false)
    (fits' : (ofReader late o).final.status.isBufferExceeded = false) :
    (ofReader late o).marks = (ofBytes late.pending o).marks.filter (fun m =>
        late.ending.isEndOfInput || !(m.offset == late.pending.length && m.mayGoOn)) ∧
      (ofReader early o).marks = (ofReader late o).marks.filter (fun m =>
        late.ending.isEndOfInput || !(m.offset == late.pending.length && m.isScalar)) ∧
      (ofReader early o).final.status.category = (ofReader late o).final.status.category ∧
      (ofReader early o).final.status.reason = (ofReader late o).final.status.reason := by
  by_cases opens : LogOpens o
  · cases ended : late.ending.isEndOfInput with
    | true =>
        obtain ⟨marks, like⟩ := (marks_ofReader o steady same (by rwa [ends])).2 fits
        obtain ⟨marks', like'⟩ := (marks_ofReader o steady' rfl ended).2 fits'
        have all (ms : List Mark) : ms.filter (fun _ => true) = ms :=
          List.filter_eq_self.mpr fun _ _ => rfl
        simp only [Bool.true_or, all]
        exact ⟨marks', marks.trans marks'.symm, like.category.trans like'.category.symm,
          like.reason.trans like'.reason.symm⟩
    | false =>
        obtain ⟨q, halt, place, run, stops, given, fails⟩ := marks_of_withheld opens steady
          (by rwa [same]) (by rwa [ends]) (by rwa [ends]) (by rwa [ends]) fits
        obtain ⟨q', halt', place', run', stops', given', fails'⟩ :=
          marks_of_withheld opens steady' some failed other ended fits'
        rw [first, same] at given
        rw [behind] at given'
        rw [same] at run
        rw [ends] at fails
        -- Both run along the reading of the same bytes, and so to the same place.
        obtain ⟨_, rfl⟩ := (run.isPrefix run' ⟨_, _, stops'⟩).2 ⟨_, _, stops⟩
        obtain ⟨rfl, rfl⟩ := Reply.halts.inj (stops.symm.trans stops')
        obtain ⟨category, reason⟩ := fails.agree fails'
        rw [given', given, List.filter_filter]
        refine ⟨List.filter_congr fun m _ => ?_, List.filter_congr fun m _ => ?_, category, reason⟩
        · rw [Mark.isWithheld, Bool.false_and, Bool.or_false, Bool.false_or]
        · rw [Bool.false_or]
          exact m.not_isWithheld_true _
  · obtain ⟨none, none', like⟩ := stopsLike_without_log opens
      (v := .ofReader early o) (w := .ofReader late o) rfl
    obtain ⟨_, none'', _⟩ := stopsLike_without_log opens
      (v := .ofReader early o) (w := .ofBytes late.pending) rfl
    rw [ofReader, ofReader, ofBytes, none, none', none'']
    exact ⟨rfl, rfl, like.category, like.reason⟩

/-- A literal at the end of what was read is given if the failure comes behind it only. -/
theorem marks_endsWithLast_literal :
    let early : Reader :=
      { pieces := [Bytes.ofString "null"], ending := .plain .ioError .unspecified
        endsWithLast := true }
    let late : Reader :=
      { pieces := [Bytes.ofString "nu", Bytes.ofString "ll"], ending := .plain .ioError .unspecified }
    early.IsSteady ∧ late.IsSteady ∧ early.pending = late.pending ∧
      (ofReader late {}).marks = [⟨⟨.literal, Bytes.ofString "null"⟩, .value, 1, 4⟩] ∧
      (ofReader early {}).marks = [] ∧
      (ofReader early {}).final.status.category = (ofReader late {}).final.status.category := by
  intro early late
  have steady : early.IsSteady := ⟨by decide, by decide⟩
  have steady' : late.IsSteady := ⟨by decide, by decide⟩
  have same : early.pending = late.pending := by decide
  have gives : (ofReader late {}).marks = [⟨⟨.literal, Bytes.ofString "null"⟩, .value, 1, 4⟩] := by
    decide +kernel
  obtain ⟨_, lost, category, _⟩ := marks_endsWithLast (o := {}) steady steady' rfl rfl (by decide)
    same rfl rfl rfl (by decide +kernel) (by decide +kernel)
  refine ⟨steady, steady', same, gives, ?_, category⟩
  rw [lost, gives]
  decide +kernel

end Tokenizer

end JsonEvents
