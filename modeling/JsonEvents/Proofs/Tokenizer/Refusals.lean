import JsonEvents.Proofs.Excerpt
import JsonEvents.Proofs.Location
import JsonEvents.Proofs.Reading.Places
import JsonEvents.Proofs.Tokenizer.Blame
import JsonEvents.Proofs.Tokenizer.Delivery

/-!
# Where a refused document is at fault

A run that ends because the document is at fault has latched the report of a
fault where its window is (`Follows.refusal`).  No NUL and no half of a pair is
in front of that place, so the report gives its line and column in the input
(`message_of_refusal`).
-/

namespace JsonEvents

open Ascii

/-! ## Messages without NUL -/

namespace Digits

theorem digits_no_nul (n : Nat) : (0 : UInt8) ∉ digits n :=
  fun member => absurd (space_le_of_mem_digits member) (by decide)

end Digits

namespace Excerpt

theorem render_no_nul (text : Bytes) (column line : Nat) :
    (0 : UInt8) ∉ (ofLine text column).render line := by
  have top : (0 : UInt8) ∉ (ofLine text column).topLine line :=
    fun member => absurd (space_le_of_mem_topLine member) (by decide)
  have spaces : (0 : UInt8) ∉ List.replicate ((ofLine text column).column + 6) space :=
    fun member => absurd (List.eq_of_mem_replicate member) (by decide)
  simp only [render, caretLine, List.mem_append, not_or, and_assoc]
  exact ⟨top, by decide, spaces, by decide⟩

end Excerpt

namespace Fault

theorem text_no_nul (fault : Fault) : (0 : UInt8) ∉ Bytes.ofString fault.text := by
  cases fault <;> decide

/-- The report of a fault is all of its message where the window holds the input from its start. -/
theorem text_of_based {w : Window} (fault : Fault) (based : w.base = 0) :
    (fault.message w).text =
      (Location.ofBytes w.bytes.toList (w.cursor : Int)).2.report (Bytes.ofString fault.text) := by
  rw [message, if_pos based]
  simp [Message.text]

/-- What is told of the place of a fault once input has been discarded. -/
def offsetText (fault : Fault) (offset base : Nat) : Bytes :=
  Bytes.ofString fault.text ++ Bytes.ofString ": at byte offset " ++ Digits.digits offset ++
    Bytes.ofString " (line numbers are unavailable once input has been discarded (" ++
    Digits.digits base ++ Bytes.ofString " bytes so far))"

theorem text_of_discarded {w : Window} (fault : Fault) (discarded : w.base ≠ 0) :
    (fault.message w).text = fault.offsetText w.cursor w.base := by
  have detail : (Bytes.ofString "at byte offset " ++ Digits.digits w.cursor).isEmpty = false := rfl
  have hint : (Bytes.ofString "line numbers are unavailable once input has been discarded (" ++
      Digits.digits w.base ++ Bytes.ofString " bytes so far)").isEmpty = false := rfl
  have front : Bytes.ofString ": at byte offset " =
      Bytes.ofString ": " ++ Bytes.ofString "at byte offset " := by decide
  have middle : Bytes.ofString
      " (line numbers are unavailable once input has been discarded (" =
      Bytes.ofString " (" ++ Bytes.ofString
        "line numbers are unavailable once input has been discarded (" := by decide
  have rear : Bytes.ofString " bytes so far))" =
      Bytes.ofString " bytes so far)" ++ Bytes.ofString ")" := by decide
  rw [message, if_neg discarded, Message.text, detail, hint, offsetText, front, middle, rear]
  simp only [Bool.false_eq_true, if_false, List.append_assoc]

/-- No message of a fault is cut short. -/
theorem message_no_nul (fault : Fault) (w : Window) : (0 : UInt8) ∉ (fault.message w).text := by
  have what := fault.text_no_nul
  by_cases based : w.base = 0
  · have context : (0 : UInt8) ∉ (Location.ofBytes w.bytes.toList (w.cursor : Int)).2.context := by
      rw [Location.ofBytes_eq_found]
      exact Excerpt.render_no_nul _ _ _
    rw [fault.text_of_based based]
    simp only [Location.report, List.mem_append, not_or, and_assoc]
    exact ⟨what, by decide, Digits.digits_no_nul _, by decide, Digits.digits_no_nul _, by decide,
      context⟩
  · rw [fault.text_of_discarded based]
    simp only [offsetText, List.mem_append, not_or, and_assoc]
    exact ⟨what, by decide, Digits.digits_no_nul _, by decide, Digits.digits_no_nul _, by decide⟩

end Fault

namespace Tokenizer

open Window (Along)

variable {input : Bytes} {ending : Status} {policy : TrailingComma} {t : Tokenizer} {r : Reading}
  {w : Window}

/-! ## The last call of a run -/

/-- A window on an input that only comes to its end blames nobody. -/
theorem isCorruption_status (shows : w.Shows input ending) (ended : ending.isEndOfInput = true) :
    w.status.isCorruption = false := by
  by_cases spilled : w.Overflows
  · rw [Window.status_of_overflow spilled]
    rfl
  · rcases shows.status_cases spilled with ok | same
    · rw [ok]
      rfl
    · rw [same]
      exact Status.isCorruption_of_isEndOfInput ended

/-- A run ends with the first call that gives the error event. -/
theorem Follows.last {t : Tokenizer} {r : Reading} (h : Follows input ending policy t r)
    (ended : ending.isEndOfInput = true) :
    ∃ u q, r.Run policy t.marks q ∧ Follows input ending policy u q ∧
      t.window.Along u.window ∧ u.next.1 = .error ∧ t.final = u.next.2 := by
  rcases h.next_of_ended ended with gaveUp | agrees
  · obtain ⟨none, final⟩ := marks_of_stop gaveUp.error
    exact ⟨t, r, none ▸ .nil, h, .refl _, gaveUp.error, final⟩
  · cases reply : r.next policy with
    | gives event r' =>
        rw [reply] at agrees
        obtain ⟨marks, final, less⟩ := agrees.marks_of_gives reply
        obtain ⟨u, q, run, follows, along, error, final'⟩ := agrees.2.last ended
        refine ⟨u, q, ?_, follows, (leavesOff_next t).along.trans along, error, final.trans final'⟩
        rw [marks]
        exact .cons reply run
    | halts halt place =>
        rw [reply] at agrees
        obtain ⟨none, final⟩ := marks_of_stop agrees.1
        exact ⟨t, r, none ▸ .nil, h, .refl _, agrees.1, final⟩
termination_by t.window.remaining

/-- A corruption that a call has left latched is a refusal where its window is. -/
theorem Follows.blames (h : Follows input ending policy t r) (ended : ending.isEndOfInput = true)
    (corrupt : t.next.2.status.isCorruption = true) :
    ∃ fault : Fault, t.next.2.status =
      .withText .corruption fault.reason (fault.message t.next.2.window).text := by
  obtain ⟨along, latch⟩ := leavesOff_next t
  have calm := isCorruption_status (along.shows h.shows) ended
  have latched : t.next.2.status = t.next.2.latched := by
    unfold Tokenizer.status at corrupt ⊢
    split
    · next ok =>
        rw [if_pos ok, calm] at corrupt
        cases corrupt
    · rfl
  rw [latched] at corrupt ⊢
  rcases latch with kept | ⟨v, further, status⟩ | refused
  · have quiet : t.latched.isCorruption = false := by
      cases cut : r.cut with
      | true => exact Status.isCorruption_of_isEndOfInput (h.cut cut).1
      | false =>
          have ok := h.latched
          rw [cut, Bool.not_false, Status.isOk_iff] at ok
          rw [ok]
          rfl
    rw [kept, quiet] at corrupt
    cases corrupt
  · rw [status, isCorruption_status (further.shows h.shows) ended] at corrupt
    cases corrupt
  · exact refused

/-- Where a run ends because the document is at fault. -/
structure IsRefused (input : Bytes) (ending : Status) (t : Tokenizer) (fault : Fault)
    (place : Reading) : Prop where
  stop : (Reading.start input).IsStop place
  offset : t.final.window.cursor = place.offset
  shows : t.final.window.Shows input ending
  along : t.window.Along t.final.window
  status : t.final.status =
    .withText .corruption fault.reason (fault.message t.final.window).text

theorem Follows.refusal (h : Follows input ending policy t (.start input))
    (ended : ending.isEndOfInput = true) (corrupt : t.final.status.isCorruption = true) :
    ∃ fault place, IsRefused input ending t fault place := by
  obtain ⟨u, q, run, follows, along, error, final⟩ := h.last ended
  rw [final] at corrupt
  obtain ⟨fault, status⟩ := follows.blames ended corrupt
  have along' := along.trans (leavesOff_next u).along
  rcases follows.next_of_ended ended with ⟨_, exceeded⟩ | agrees
  · rw [exceeded] at corrupt
    cases corrupt
  · cases reply : q.next policy with
    | gives event r' =>
        rw [reply] at agrees
        exact absurd (agrees.1.symm.trans error ▸ rfl) (Reading.kind_of_gives reply)
    | halts halt place =>
        rw [reply] at agrees
        obtain ⟨_, _, offset, explains⟩ := agrees
        have whole : q.cut = false := by
          cases cut : q.cut with
          | false => rfl
          | true =>
              rw [Reading.next, cut, if_pos rfl] at reply
              obtain ⟨rfl, _⟩ := Reply.halts.inj reply
              rw [Status.isCorruption_of_isEndOfInput explains] at corrupt
              cases corrupt
        have stop := Reading.isStop_of_halts whole reply
        refine ⟨fault, place, ⟨run.crosses.trans stop.crosses, stop.dark⟩, ?_, ?_, ?_, ?_⟩
        · rw [final]
          exact offset
        · rw [final]
          exact along'.shows h.shows
        · rw [final]
          exact along'
        · rw [final]
          exact status

/-! ## What the message says -/

/-- The window holds the input from its start on, as far as the place of the fault at least. -/
theorem IsRefused.held {fault : Fault} {place : Reading} (h : IsRefused input ending t fault place)
    (based : t.final.window.base = 0) :
    ∃ behind, input = t.final.window.bytes.toList ++ behind ∧
      t.final.offset ≤ t.final.window.bytes.toList.length := by
  have block := h.shows.holds.block
  have arrived := h.shows.arrived
  rw [based, List.drop_zero] at block
  refine ⟨t.final.window.pending, block, ?_⟩
  rw [Segment.fill, based, Nat.zero_add] at arrived
  rwa [Array.length_toList]

theorem IsRefused.message {fault : Fault} {place : Reading}
    (h : IsRefused input ending t fault place) :
    t.final.status.message = (fault.message t.final.window).text := by
  rw [h.status]
  exact Bytes.untilNul_of_no_nul (fault.message_no_nul _)

theorem IsRefused.message_of_based {fault : Fault} {place : Reading}
    (h : IsRefused input ending t fault place) (based : t.final.window.base = 0) :
    t.final.status.message =
      Location.report
        { line := Lines.number (input.take t.final.offset) t.final.offset
          column := Lines.column (input.take t.final.offset) t.final.offset
          context :=
            (Location.ofPlace t.final.window.bytes.toList t.final.offset).context }
        (Bytes.ofString fault.text) := by
  obtain ⟨behind, text, inside⟩ := h.held based
  obtain ⟨_, clean, noFeed⟩ := h.stop.of_start
  rw [← h.offset] at clean noFeed
  rw [h.message, fault.text_of_based based]
  exact congrArg (Location.report · _) (Location.ofBytes_of_held text inside clean noFeed)

/-- A tokenizer before its first call, over a text at hand or over what a reader delivers. -/
inductive BeginsOver (input : Bytes) (o : Options) : Tokenizer → Prop
  | ofBytes : BeginsOver input o (ofBytes input o)
  | ofReader {reader : Reader} (steady : reader.IsSteady) (delivers : reader.pending = input)
      (ended : reader.ending.isEndOfInput = true) : BeginsOver input o (ofReader reader o)

theorem isCorruption_opened (o : Options) : (Log.opened o).1.isCorruption = false := by
  unfold Log.opened
  split
  · rfl
  · split <;> rfl

/-- Without its log a tokenizer does not come to the document. -/
theorem logOpens_of_corruption {o : Options}
    (corrupt : (ofWindow w o).final.status.isCorruption = true) : LogOpens o := by
  apply Classical.byContradiction
  intro fails
  have latched : (ofWindow w o).status = (Log.opened o.sanitize).1 := if_neg fails
  rw [(stops_without_log fails w).2, latched, isCorruption_opened] at corrupt
  cases corrupt

theorem BeginsOver.refusal {o : Options} (h : BeginsOver input o t)
    (corrupt : t.final.status.isCorruption = true) :
    ∃ ending fault place, IsRefused input ending t fault place := by
  cases h with
  | ofBytes =>
      have opens := logOpens_of_corruption corrupt
      exact ⟨_, (follows_ofBytes opens input).refusal rfl corrupt⟩
  | ofReader steady delivers ended =>
      subst delivers
      have opens := logOpens_of_corruption corrupt
      exact ⟨_, (follows_ofReader opens steady ended).refusal ended corrupt⟩

/--
Where a run over a text, at hand or delivered, ends because of a corruption,
its message names a fault and the place of the next byte that was not used.
While the window holds the text from its start on, as it always does for a text
at hand, that is the line and column, by the line ends in front of the place,
with an excerpt of what is held of the line; otherwise it is the offset.
-/
theorem message_of_refusal {o : Options} (begins : BeginsOver input o t)
    (corrupt : t.final.status.isCorruption = true) :
    (t = ofBytes input o → t.final.window.base = 0) ∧
      ∃ fault : Fault, t.final.status.reason = fault.reason ∧
        (t.final.window.base = 0 →
          t.final.status.message =
            Location.report
              { line := Lines.number (input.take t.final.offset) t.final.offset
                column := Lines.column (input.take t.final.offset) t.final.offset
                context :=
                  (Location.ofPlace t.final.window.bytes.toList t.final.offset).context }
              (Bytes.ofString fault.text)) ∧
        (t.final.window.base ≠ 0 →
          t.final.status.message = fault.offsetText t.final.offset t.final.window.base) := by
  obtain ⟨ending, fault, place, refused⟩ := begins.refusal corrupt
  refine ⟨?_, fault, ?_, refused.message_of_based, ?_⟩
  · rintro rfl
    exact refused.along.base rfl
  · rw [refused.status]
    rfl
  · intro discarded
    rw [refused.message, fault.text_of_discarded discarded]
    rfl

/-- A comma is missing on the second line, with all of the text in sight and with little of it. -/
theorem message_of_refusal_on_second_line :
    let input := Bytes.ofString "[1,\r\n2 true]"
    let reader : Reader := { pieces := [input] }
    let o : Options := { minBufferSize := 4, maxBufferSize := 4 }
    (ofBytes input o).final.status.message =
        Location.report
          { line := 2, column := 3, context := (Location.ofPlace input 7).context }
          (Bytes.ofString Fault.missingComma.text) ∧
      reader.IsSteady ∧
      (ofReader reader o).final.status.message = Fault.missingComma.offsetText 7 4 := by
  intro input reader o
  have steady : reader.IsSteady := ⟨by decide, by decide⟩
  have missing : ∀ fault : Fault, Reason.noComma = fault.reason → fault = .missingComma := by
    intro fault same
    cases fault <;> first | rfl | cases same
  obtain ⟨corrupt, why, place, held⟩ : (ofBytes input o).final.status.isCorruption = true ∧
      (ofBytes input o).final.status.reason = .noComma ∧ (ofBytes input o).final.offset = 7 ∧
      (ofBytes input o).final.window.bytes.toList = input := by
    decide +kernel
  obtain ⟨corrupt', why', place', base⟩ : (ofReader reader o).final.status.isCorruption = true ∧
      (ofReader reader o).final.status.reason = .noComma ∧ (ofReader reader o).final.offset = 7 ∧
      (ofReader reader o).final.window.base = 4 := by
    decide +kernel
  obtain ⟨based, fault, reason, report, _⟩ := message_of_refusal (.ofBytes (o := o)) corrupt
  obtain ⟨_, fault', reason', _, discarded⟩ :=
    message_of_refusal (.ofReader (o := o) steady rfl rfl) corrupt'
  obtain rfl := missing fault (why.symm.trans reason)
  obtain rfl := missing fault' (why'.symm.trans reason')
  refine ⟨?_, steady, ?_⟩
  · rw [report (based rfl), place, held]
    decide +kernel
  · rw [discarded (by rw [base]; decide), place', base]

end Tokenizer

end JsonEvents
