import JsonEvents.Listing
import JsonEvents.Proofs.Grammar.Accepted
import JsonEvents.Proofs.Reading.Text
import JsonEvents.Proofs.Tokenizer.Delivery
import JsonEvents.Proofs.Tokenizer.Stack
import JsonEvents.Proofs.Tokenizer.Texts

/-!
# What the exit code of a listing tells

A listing exits with 0 when the document came to its end with no list open.
That is so of the documents whose brackets and strings are all closed, and of
one kind of document more: a string alone that lacks its closing quote.
-/

namespace JsonEvents

open Ascii Grammar

/-! ## Strings that the input ends in -/

namespace Scan

theorem stringRest_of_openUnits {u : Bytes} (units : AreOpenUnits u) :
    stringRest false u = (false, u.length) := by
  induction units with
  | none => rfl
  | backslash => rfl
  | plain some noQuote noBackslash _ ih =>
      have plain := beq_eq_false_iff_ne.mpr noBackslash
      rw [stringRest_cons _ some fun closes => noQuote closes.1, plain, Bool.false_and, ih]
      rfl
  | @escaped c u some _ ih =>
      have escape := stringRest_cons (c := backslash) (c :: u) (by decide)
        (show ¬ (backslash = quote ∧ false = false) by decide)
      have inside := stringRest_cons u some
        (show ¬ (c = quote ∧ true = false) from fun closes => nomatch closes.2)
      rw [Bool.not_true, Bool.and_false, ih] at inside
      rw [beq_self_eq_true, Bool.not_false, Bool.and_true, inside] at escape
      exact escape

theorem string_of_isOpenString {s : Bytes} (h : IsOpenString s) : string s = (false, s.length) := by
  cases h with
  | quoted units =>
      rw [string, List.drop_one, List.tail_cons, stringRest_of_openUnits units]
      rfl

/-- A string that is closed is none that the input ends in. -/
theorem not_isOpenString {s : Bytes} (closed : IsString s) : ¬ IsOpenString s := by
  intro cut
  have scans := (string_of_isString closed).symm.trans (string_of_isOpenString cut)
  cases (Prod.mk.inj scans).1

end Scan

/-- A document that is nothing but a string without its closing quote. -/
def EndsInString (s : Bytes) : Prop := ∃ a u, IsBlank a ∧ IsOpenString u ∧ s = a ++ u

/-! ## Brackets of a reading -/

namespace Reading

variable {policy : TrailingComma} {p q r : Reading} {past : List Event} {ls : List Listed}
  {e : Event} {marks : List Mark} {place : Reading} {s : Bytes}

/-- The lists that the events before a place have left open are open there, and behind a complete
document a comma would be due. -/
structure Stands (past : List Event) (r : Reading) (ls : List Listed) : Prop where
  leaves : Leaves (brackets past) ls
  holds : r.nesting.Holds ls
  complete : past ≠ [] → ls = [] → r.cut = false → r.needComma = true

theorem stands_start (s : Bytes) : Stands [] (start s) [] where
  leaves := .balanced .nil
  holds := Nesting.holds_bottom
  complete := fun some => absurd rfl some

theorem Stands.leads (h : Stands past r ls) (leads : Leads policy r q) : Stands past q ls where
  leaves := h.leaves
  holds := leads.nesting_eq ▸ h.holds
  complete := by
    intro some whole uncut
    cases leads with
    | blanks => exact h.complete some whole uncut
    | comma _ separates =>
        -- No comma separates anything outside of all lists.
        have outside := h.holds.top_eq_value.mpr whole
        rcases (of_separates separates).1 with isArray | isKey
        · exact absurd (outside.symm.trans isArray) nofun
        · exact absurd (outside.symm.trans isKey) nofun

theorem Stands.token (h : Stands past q ls) (token : Token q e r) :
    ∃ ls', Stands (past ++ [e]) r ls' := by
  have leaves := h.leaves
  cases token with
  | @opens l =>
      refine ⟨l :: ls, ?_, h.holds.push l, nofun⟩
      rw [brackets_append_some (Kind.bracket?_startKind l)]
      exact leaves.opens l
  | @closes l inside =>
      obtain ⟨ls, rfl⟩ : ∃ ls', ls = l :: ls' := by
        have top := h.holds.top
        rw [inside, l.listed?_context] at top
        exact List.head?_eq_some_iff.mp top.symm
      refine ⟨ls, ?_, h.holds.pop, fun _ _ _ => rfl⟩
      rw [brackets_append_some (Kind.bracket?_endKind l)]
      exact leaves.closes
  | key free inside =>
      refine ⟨ls, ?_, h.holds.setTop (by rw [inside]; rfl), ?_⟩
      · rwa [brackets_append_none rfl]
      · intro _ whole
        exact absurd ((h.holds.top_eq_value.mpr whole).symm.trans inside) nofun
  | @scalar kind n free outside scanned =>
      have none : kind.bracket? = none := by
        cases scanned <;> rfl
      refine ⟨ls, ?_, h.holds.setTop (Context.listed?_afterValue _), fun _ _ _ => rfl⟩
      rwa [brackets_append_none none]
  | openString =>
      refine ⟨ls, ?_, h.holds, nofun⟩
      rwa [brackets_append_none rfl]

theorem Stands.next (h : Stands past r ls) (gives : r.next policy = .gives e q) :
    ∃ ls', Stands (past ++ [e]) q ls' := by
  obtain ⟨_, p, leads, token⟩ := next_eq_gives.mp gives
  exact (h.leads leads).token token

theorem Stands.run (h : Stands past r ls) (run : Run policy r marks q) :
    ∃ ls', Stands (past ++ marks.map Mark.event) q ls' := by
  induction run generalizing past ls with
  | nil =>
      rw [List.map_nil, List.append_nil]
      exact ⟨ls, h⟩
  | cons gives _ ih =>
      obtain ⟨ls', after⟩ := h.next gives
      obtain ⟨ls'', behind⟩ := ih after
      rw [List.append_assoc] at behind
      exact ⟨ls'', behind⟩

theorem nesting_of_ended (ends : q.next policy = .halts .ended place) :
    place.nesting = q.nesting := by
  cases cut : q.cut with
  | true =>
      rw [next, if_pos cut] at ends
      cases ends
      rfl
  | false => exact (next_eq_ended cut ends).1.nesting_eq

/-- Where a document ends all its brackets are closed just when no list is open. -/
theorem balanced_iff_of_run (run : Run policy (start s) marks q)
    (ends : q.next policy = .halts .ended place) :
    Balanced (brackets (marks.map Mark.event)) ↔
      place.nesting.depth = 1 ∧ place.nesting.top = .value := by
  obtain ⟨ls, stands⟩ := (stands_start s).run run
  rw [nesting_of_ended ends, stands.holds.top_eq_value, stands.holds.depth]
  refine stands.leaves.balanced_iff.trans ⟨?_, And.right⟩
  rintro rfl
  exact ⟨rfl, rfl⟩

/-! ## Strings of a reading -/

/-- An event behind which the reading goes on is no string that the input ends in. -/
theorem Token.closed (token : Token p e q) (whole : q.cut = false) :
    e.kind = .string → ¬ IsOpenString e.data := by
  intro isString
  cases token with
  | @opens l => exact absurd isString l.startKind_ne.1
  | @closes l => exact absurd isString l.endKind_ne.1
  | key free inside isQuote closed =>
      exact Scan.not_isOpenString (Scan.isString_take isQuote closed)
  | scalar free outside scanned =>
      cases scanned with
      | string isQuote closed => exact Scan.not_isOpenString (Scan.isString_take isQuote closed)
      | number | literal => cases isString
  | openString => cases whole

/-- A string that the input ends in stands alone when no list is open there. -/
theorem endsInString_of_token (stands : Stands past r ls) (leads : Leads policy r p)
    (token : Token p e q) (cut : q.cut = true) (whole : r.cut = false)
    (outermost : q.nesting = .bottom) : past = [] ∧ EndsInString r.rest := by
  have stands := stands.leads leads
  have uncut : p.cut = false := leads.cut_eq.trans whole
  obtain ⟨g, gap, text, _⟩ := leads.gap
  cases token with
  | opens | closes | key | scalar => exact absurd (uncut.symm.trans cut) nofun
  | @openString n free outside isQuote unclosed nothing =>
      have none : ls = [] := by
        apply stands.holds.top_eq_value.mp
        have outermost : p.nesting = .bottom := outermost
        rw [outermost]
        rfl
      have first : past = [] := by
        cases past with
        | nil => rfl
        | cons => exact absurd (free.symm.trans (stands.complete nofun none uncut)) nofun
      refine ⟨first, g, p.rest, ?_, ?_, text⟩
      · cases gap with
        | blank blank => exact blank
        | comma _ _ separates =>
            have outermost : p.nesting = .bottom := outermost
            rw [← leads.nesting_eq, outermost] at separates
            cases separates
      · have cut := Scan.isOpenString_take isQuote unclosed nothing
        rwa [List.take_of_length_le (List.drop_eq_nil_iff.mp nothing)] at cut

/-- A document that comes to its end with no list open has closed all its strings, or is one. -/
theorem Run.closed_or_endsInString (stands : Stands past r ls) (run : Run policy r marks q)
    (ends : q.next policy = .halts .ended place) (outermost : place.nesting = .bottom)
    (whole : r.cut = false) :
    (∀ mark ∈ marks, mark.event.kind = .string → ¬ IsOpenString mark.event.data) ∨
      past = [] ∧ EndsInString r.rest := by
  induction run generalizing past ls with
  | nil => exact .inl nofun
  | @cons r r' q event marks gives rest ih =>
      obtain ⟨_, p, leads, token⟩ := next_eq_gives.mp gives
      obtain ⟨ls', after⟩ := stands.next gives
      cases cut : r'.cut with
      | true =>
          have halts : r'.next policy = .halts .ended r' := if_pos cut
          cases rest with
          | nil =>
              obtain ⟨_, rfl⟩ := Reply.halts.inj (halts.symm.trans ends)
              exact .inr (endsInString_of_token stands leads token cut whole outermost)
          | cons gives => exact absurd (halts.symm.trans gives) nofun
      | false =>
          rcases ih after ends cut with closed | ⟨none, _⟩
          · exact .inl (List.forall_mem_cons.mpr ⟨token.closed cut, closed⟩)
          · exact absurd none (List.append_ne_nil_of_right_ne_nil past (List.cons_ne_nil _ _))

theorem run_of_endsInString (h : EndsInString s) :
    ∃ marks q, Run policy (start s) marks q ∧ q.next policy = .halts .ended q ∧
      q.nesting = .bottom := by
  obtain ⟨a, u, blank, cut, rfl⟩ := h
  have isQuote : Scan.byte u 0 = quote := by
    cases cut
    rfl
  have scans := Scan.string_of_isOpenString cut
  have here : (start (a ++ u)).IsAt (a ++ u) .bottom false := ⟨rfl, rfl, rfl, rfl⟩
  have meets : ∃ p, (start (a ++ u)).Leads policy p ∧ p.IsAt u .bottom false :=
    leads_of_blank here blank (by rw [isQuote]; rfl) (by rw [isQuote]; decide)
  obtain ⟨p, leads, there⟩ := meets
  have token := Token.openString (q := p) (n := u.length) there.needComma
    (by rw [there.nesting]; nofun) (by rw [byte, there.rest, isQuote]) (by rw [there.rest, scans])
    (by rw [there.rest, List.drop_length])
  have gives := next_eq_gives.mpr ⟨rfl, p, leads, token⟩
  exact ⟨_, _, .single gives, rfl, there.nesting⟩

end Reading

/-! ## Documents -/

namespace Tokenizer.StopsAt

variable {t : Tokenizer} {halt : Halt} {place : Reading}

/-- A refusal is a corruption, and no end of the input. -/
theorem isEndOfInput_iff (h : t.StopsAt halt place) :
    t.status.isEndOfInput = true ↔ halt = .ended := by
  have explains := h.explains
  cases halt with
  | ended => exact ⟨fun _ => rfl, fun _ => explains⟩
  | refused fault =>
      simp only [Explains, Status.isRefusal, Bool.and_eq_true, beq_iff_eq] at explains
      rw [Status.isEndOfInput, explains.1]
      refine iff_of_false Bool.false_ne_true ?_
      intro ended
      cases ended

theorem fits (h : t.StopsAt halt place) : t.status.isBufferExceeded = false := by
  have explains := h.explains
  cases halt with
  | ended => exact Status.isBufferExceeded_of_isEndOfInput explains
  | refused fault =>
      simp only [Explains, Status.isRefusal, Bool.and_eq_true, beq_iff_eq] at explains
      rw [Status.isBufferExceeded, explains.1]
      rfl

end Tokenizer.StopsAt

/-- The document comes to its end, and every bracket and every string of it is closed. -/
structure IsWhole (content : Bytes) : Prop where
  ended : (Tokenizer.ofBytes content {}).final.status.isEndOfInput = true
  nested : Balanced (brackets ((Tokenizer.ofBytes content {}).steps.map Step.event))
  closed : ∀ step ∈ (Tokenizer.ofBytes content {}).steps, step.event.kind = .string →
    ¬ IsOpenString step.event.data

section

variable {content : Bytes} {marks : List Mark} {q place : Reading} {halt : Halt}

/-- Options that differ in their log give the same run. -/
theorem isWhole_iff (run : (Reading.start content).Run .reject marks q)
    (stops : q.next .reject = .halts halt place) :
    IsWhole content ↔ halt = .ended ∧ Balanced (brackets (marks.map Mark.event)) ∧
      ∀ mark ∈ marks, mark.event.kind = .string → ¬ IsOpenString mark.event.data := by
  have opens : Tokenizer.LogOpens {} := rfl
  obtain ⟨same, stopsAt⟩ := Tokenizer.ofBytes_of_run (o := {}) opens run stops
  have ended := stopsAt.isEndOfInput_iff
  subst same
  have events : (Tokenizer.ofBytes content {}).marks.map Mark.event =
      (Tokenizer.ofBytes content {}).steps.map Step.event := by
    rw [Tokenizer.marks, List.map_map]
    rfl
  rw [events]
  constructor
  · intro whole
    refine ⟨ended.mp whole.ended, whole.nested, ?_⟩
    intro mark member
    obtain ⟨step, given, rfl⟩ := List.mem_map.mp member
    exact whole.closed step given
  · rintro ⟨isEnd, nested, closed⟩
    exact ⟨ended.mpr isEnd, nested, fun step given => closed _ (List.mem_map_of_mem given)⟩

/-- The document ends with no list open just when it is whole, or is a string cut short. -/
theorem stops_outside_iff (run : (Reading.start content).Run .reject marks q)
    (stops : q.next .reject = .halts halt place) :
    halt = .ended ∧ place.nesting.depth = 1 ∧ place.nesting.top = .value ↔
      IsWhole content ∨ EndsInString content := by
  constructor
  · rintro ⟨rfl, depth, context⟩
    have outermost := Tokenizer.bottom_of_depth depth context
    rcases run.closed_or_endsInString (Reading.stands_start content) stops outermost rfl with
      closed | ⟨_, cut⟩
    · have nested := (Reading.balanced_iff_of_run run stops).mpr ⟨depth, context⟩
      exact .inl ((isWhole_iff run stops).mpr ⟨rfl, nested, closed⟩)
    · exact .inr cut
  · rintro (whole | cut)
    · obtain ⟨rfl, nested, _⟩ := (isWhole_iff run stops).mp whole
      exact ⟨rfl, (Reading.balanced_iff_of_run run stops).mp nested⟩
    · obtain ⟨_, q', run', stops', outermost⟩ := Reading.run_of_endsInString cut
      obtain ⟨_, rfl⟩ := (run.isPrefix run' ⟨_, _, stops'⟩).2 ⟨_, _, stops⟩
      obtain ⟨rfl, rfl⟩ := Reply.halts.inj (stops.symm.trans stops')
      rw [outermost]
      exact ⟨rfl, rfl, rfl⟩

end

/-! ## Exit codes -/

namespace Listing

variable {name content : Bytes} {args : List Bytes} {reader : Reader} {verbose : Bool}
  {openReader : Bytes → Except Status Reader}

theorem complaint?_eq_none {t : Tokenizer} :
    complaint? name t = none ↔
      t.status.isEndOfInput = true ∧ t.depth = 1 ∧ t.context = .value := by
  unfold complaint?
  cases t.status.isEndOfInput <;> simp

theorem exitCode_list (name : Bytes) (reader : Reader) (o : Options) :
    ((list name reader o).exitCode = 0 ∨ (list name reader o).exitCode = 1) ∧
      ((list name reader o).exitCode = 0 ↔
        complaint? name (Tokenizer.ofReader reader o).final = none) := by
  unfold list Tokenizer.final
  dsimp only
  split
  · next errors some => exact ⟨.inr rfl, nofun, fun none => nomatch some.symm.trans none⟩
  · next none => exact ⟨.inl rfl, fun _ => none, fun _ => rfl⟩

/-- The options that a listing is made with; the flag asks for a log. -/
def options (verbose : Bool) : Options := { logLevel := if verbose then .trace else .off }

theorem logOpens_options (verbose : Bool) : Tokenizer.LogOpens (options verbose) := by
  cases verbose <;> rfl

theorem command_of_request (asked : Request.extend {} args = some ⟨verbose, some name⟩)
    (opened : openReader name = .ok reader) :
    command openReader args = list name reader (options verbose) := by
  rw [command, asked]
  dsimp only
  rw [opened]
  rfl

/--
A listing exits with 0 or 1, however its file is read; and with 0 just when no
lexeme was too long, and the document is whole or is nothing but a string that
lacks its closing quote.
-/
theorem exitCode_eq_zero_iff (asked : Request.extend {} args = some ⟨verbose, some name⟩)
    (opened : openReader name = .ok reader) (steady : reader.IsSteady)
    (delivers : reader.pending = content) (ended : reader.ending.isEndOfInput = true) :
    ((command openReader args).exitCode = 0 ∨ (command openReader args).exitCode = 1) ∧
      ((command openReader args).exitCode = 0 ↔
        (Tokenizer.ofReader reader (options verbose)).final.status.isBufferExceeded = false ∧
          (IsWhole content ∨ EndsInString content)) := by
  subst delivers
  rw [command_of_request asked opened]
  obtain ⟨codes, zero⟩ := exitCode_list name reader (options verbose)
  refine ⟨codes, ?_⟩
  rw [zero, complaint?_eq_none]
  have follows := Tokenizer.follows_ofReader (logOpens_options verbose) steady ended
  obtain ⟨q, run, _, gaveUp | ⟨halt, place, stops, stopsAt⟩⟩ := follows.run ended
  · rw [gaveUp.1]
    exact ⟨fun h => absurd h.1 nofun, fun h => absurd h.1 nofun⟩
  · rw [stopsAt.fits, stopsAt.isEndOfInput_iff, Tokenizer.depth, Tokenizer.context,
      stopsAt.nesting, stops_outside_iff run stops]
    exact (and_iff_right rfl).symm

/-- A string that lacks its closing quote is listed as if it were whole. -/
theorem exitCode_eq_zero_of_open_string :
    let content := Bytes.ofString "\"ab"
    let reader : Reader := { pieces := [content], most := some 2 }
    let outcome := command (fun _ => .ok reader) [Bytes.ofString "str"]
    reader.IsSteady ∧ reader.pending = content ∧ reader.ending.isEndOfInput = true ∧
      outcome.exitCode = 0 ∧ ¬ IsWhole content := by
  intro content reader outcome
  have steady : reader.IsSteady := ⟨by decide, by decide⟩
  have cut : IsOpenString content := .quoted (.plain (by decide) (by decide) (by decide)
    (.plain (by decide) (by decide) (by decide) .none))
  have code : outcome.exitCode = 0 ↔ _ :=
    (exitCode_eq_zero_iff rfl rfl steady rfl rfl).2
  refine ⟨steady, rfl, rfl, ?_, ?_⟩
  · exact code.mpr ⟨by decide +kernel, .inr ⟨[], content, nofun, cut, rfl⟩⟩
  · intro whole
    have given : ∃ step ∈ (Tokenizer.ofBytes content {}).steps,
        step.event.kind = .string ∧ step.event.data = content := by decide +kernel
    obtain ⟨step, member, isString, same⟩ := given
    exact whole.closed step member isString (same ▸ cut)

end Listing

end JsonEvents
