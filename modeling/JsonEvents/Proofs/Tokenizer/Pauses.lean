import Mathlib.Data.List.Nodup
import JsonEvents.Proofs.Tokenizer.Capacity
import JsonEvents.Proofs.Tokenizer.InStep

/-!
# Reads without bytes

A read that succeeds without bytes makes one look show NUL.  It does no harm
where white space ends in front of a token, since the byte there is looked at
again, nor where nothing is looked at any more (`Reading.Spares`).  A reader
whose pauses are all at such places is read as if it had none
(`runOnce_of_spared`).  Anywhere else what is being recognized is cut short.
-/

namespace JsonEvents

open Ascii

namespace Reader

/-- The same bytes without the reads that bring none. -/
def withoutPauses (r : Reader) : Reader := { r with pieces := r.pieces.filter (· ≠ []) }

variable {r s : Reader}

theorem gaps_filter (place : Nat) (pieces : List Bytes) :
    gaps place (pieces.filter (· ≠ [])) = [] := by
  induction pieces generalizing place with
  | nil => rfl
  | cons piece rest ih =>
      rw [List.filter_cons]
      split
      · next some =>
          rw [gaps, if_neg (of_decide_eq_true some)]
          exact ih _
      · exact ih place

theorem pending_withoutPauses (r : Reader) : r.withoutPauses.pending = r.pending :=
  List.flatten_filter_ne_nil

theorem isSteady_withoutPauses (most : r.most ≠ some 0) : r.withoutPauses.IsSteady where
  pieces member := of_decide_eq_true (List.mem_filter.mp member).2 rfl
  most := most

theorem inStep_withoutPauses (late : r.endsWithLast = false) : r.InStep r.withoutPauses :=
  ⟨rfl, rfl, rfl, rfl, late, late⟩

end Reader

namespace Window

variable {places : List Nat} {u v w : Window}

/-- How far looks went is only counted. -/
theorem InStep.forget (h : w.InStep places u) (n : Nat) : w.InStep places { u with reach := n } :=
  ⟨h.segment, h.supply⟩

/-- Who never pauses is in step with itself, however far it has looked. -/
theorem InStep.self (h : w.InStep places u) (n : Nat) : InStep [] { u with reach := n } u := by
  obtain ⟨str, other, supply, supply', inStep, gaps⟩ := h.supply
  have pieces := inStep.reader.pieces
  have reader : other.reader.InStep other.reader := by
    refine ⟨?_, rfl, rfl, rfl, inStep.reader.late', inStep.reader.late'⟩
    rw [pieces, List.filter_filter]
    simp only [Bool.and_self]
  refine ⟨rfl, other, other, supply', supply', ⟨reader, rfl, rfl, rfl, ?_⟩, ?_⟩
  · rw [inStep.status, pieces]
    refine inStep.spent.imp_right (.imp_right fun nothing => ?_)
    rw [nothing, List.filter_nil]
  · rw [Stream.gaps, pieces]
    exact Reader.gaps_filter _ _

theorem InStep.trans (h : w.InStep places v) (h' : v.InStep [] u) : w.InStep places u := by
  obtain ⟨str, middle, supply, supplyMiddle, inStep, gaps⟩ := h.supply
  obtain ⟨middle', other, supplyMiddle', supply', inStep', _⟩ := h'.supply
  obtain rfl : middle = middle' := Supply.stream.inj (supplyMiddle.symm.trans supplyMiddle')
  have reader := inStep.reader
  have reader' := inStep'.reader
  have pieces : other.reader.pieces = str.reader.pieces.filter (· ≠ []) := by
    rw [reader'.pieces, reader.pieces, List.filter_filter]
    simp only [Bool.and_self]
  exact ⟨h'.segment.trans h.segment, str, other, supply, supply',
    ⟨⟨pieces, reader'.most.trans reader.most, reader'.ending.trans reader.ending,
      reader'.grants.trans reader.grants, reader.late, reader'.late'⟩,
      inStep'.status.trans inStep.status, inStep'.capacity.trans inStep.capacity,
      inStep'.limit.trans inStep.limit, inStep.spent⟩, gaps⟩

theorem inStep_ofReader (o : Options) {reader : Reader} (late : reader.endsWithLast = false) :
    (ofReader reader o).InStep (Reader.gaps 0 reader.pieces) (ofReader reader.withoutPauses o) :=
  ⟨rfl, _, _, rfl, rfl, ⟨Reader.inStep_withoutPauses late, rfl, rfl, rfl, .inl rfl⟩, rfl⟩

end Window

namespace Reading

variable {policy : TrailingComma} {places others : List Nat} {q r : Reading}

/--
Whether a pause at a place does no harm to the next call: bytes there were used
before, or white space in front of a token ends there, or it is behind all that
the call looks at.
-/
def Spares (policy : TrailingComma) (r : Reading) (place : Nat) : Prop :=
  place < r.offset ∨ place ∈ r.fronts policy ∨ r.far policy ≤ place

instance (policy : TrailingComma) (r : Reading) (place : Nat) :
    Decidable (r.Spares policy place) :=
  inferInstanceAs (Decidable (_ ∨ _ ∨ _))

/-- Pauses at the places do no harm to any call, up to the end of the input inside of a string. -/
def AlwaysSpares (policy : TrailingComma) (r : Reading) (places : List Nat) : Prop :=
  ∀ marks q, Run policy r marks q → q.cut = false → ∀ place ∈ places, q.Spares policy place

theorem AlwaysSpares.of_gives {event : Event} (h : AlwaysSpares policy r places)
    (gives : r.next policy = .gives event q) (fewer : others ⊆ places) :
    AlwaysSpares policy q others :=
  fun _ p run whole place member => h _ p (.cons gives run) whole place (fewer member)

theorem AlwaysSpares.of_here {event : Event} (here : ∀ place ∈ places, r.Spares policy place)
    (gives : r.next policy = .gives event q) (rest : AlwaysSpares policy q places) :
    AlwaysSpares policy r places := by
  intro marks p run whole
  cases run with
  | nil => exact here
  | cons gives' run =>
      obtain ⟨rfl, rfl⟩ := Reply.gives.inj (gives'.symm.trans gives)
      exact rest _ p run whole

theorem AlwaysSpares.of_halts (here : ∀ place ∈ places, r.Spares policy place)
    (halts : r.Halts policy) : AlwaysSpares policy r places := by
  intro marks p run _
  cases run with
  | nil => exact here
  | cons gives => exact absurd halts (not_halts_of_gives gives)

end Reading

namespace Tokenizer

variable {places : List Nat} {most : Nat} {input : Bytes} {ending : Status}
  {policy : TrailingComma} {t u v : Tokenizer} {r : Reading}

theorem Paired.trans {x y z : Event × Tokenizer} (h : Paired places x y) (h' : Paired [] y z) :
    Paired places x z := by
  obtain ⟨event, same, window⟩ := h
  obtain ⟨event', same', window'⟩ := h'
  refine ⟨event'.trans event, ?_, window.trans window'⟩
  rw [same', same]

theorem Follows.forget (h : Follows input ending policy t r) (n : Nat) :
    Follows input ending policy { t with window := { t.window with reach := n } } r :=
  { h with
    shows := ⟨h.shows.holds, h.shows.arrived, h.shows.supply, h.shows.failed, h.shows.other⟩ }

/-- A first call looks as far as the reading does, or beyond all that there is room for. -/
theorem Follows.near_next (follows : Follows input ending policy t r) (whole : r.cut = false)
    (tops : t.window.supply.Tops most) (first : t.window.reach = 0) :
    t.next.2.window.Near (r.looks policy) most := by
  have looked := follows.looked_next whole
  unfold Window.Near
  by_cases spilled : t.next.2.window.Overflows
  · have less := looked.spills follows.fits spilled most tops
    omega
  · have reach := looked.reach spilled
    omega

/-- A call is the same with pauses that do it no harm as without them. -/
theorem Follows.paired_next {w : Window} (follows : Follows input ending policy t r)
    (whole : r.cut = false) (h : w.InStep places t.window) (tops : t.window.supply.Tops most)
    (clear : ∀ place ∈ places.diff (r.fronts policy), r.far policy ≤ place) :
    Paired (places.diff (r.fronts policy)) { t with window := w }.next t.next := by
  -- Only the looks of this call count, so a third tokenizer forgets the earlier ones.
  have fresh := follows.forget 0
  have first := fresh.next_inStep whole (h.forget 0) tops (Reading.looks_pos policy r) clear
    (fresh.near_next whole tops rfl)
  have none : ∀ place ∈ List.diff [] (r.fronts policy),
      (r.front policy).1.offset + (most + 1) ≤ place := by
    rw [List.nil_diff]
    nofun
  have second := follows.next_inStep whole (h.self 0) tops (Nat.succ_pos most) none
    (Nat.le_succ_of_le (Nat.min_le_right _ _))
  rw [List.nil_diff] at second
  exact first.trans second

/-! ## Runs -/

/-- A pause that is still to come and does no harm is at a front or behind all looks. -/
theorem Follows.clear {w : Window} (follows : Follows input ending policy t r)
    (h : w.InStep places t.window) (single : places.Nodup)
    (spared : ∀ place ∈ places, r.Spares policy place) :
    ∀ place ∈ places.diff (r.fronts policy), r.far policy ≤ place := by
  intro place member
  obtain ⟨inside, behindFronts⟩ := single.mem_sdiff_iff.mp member
  rcases spared place inside with used | front | behind
  · have fits : ¬ w.Overflows := by
      rw [Window.Overflows, ← h.given]
      exact follows.fits
    have fill : t.window.fill = w.fill := congrArg Segment.fill h.segment
    have ahead := (h.le_of_mem fits inside).1
    have arrived := follows.shows.arrived
    have offset := follows.offset
    omega
  · exact absurd front behindFronts
  · exact behind

/-- Calls that stop in step end the run with one step. -/
theorem runOnce_of_stops {t u : Tokenizer} (paired : Paired places t.next u.next)
    (error : u.next.1.kind = .error) : u.runOnce.1 = t.runOnce.1 := by
  rw [runOnce_of_error (Prod.eta u.next).symm error,
    runOnce_of_error (Prod.eta t.next).symm (paired.event ▸ error), paired.event,
    paired.inStep.snapshot]

/-- Behind an event the tokenizer follows the reading behind it. -/
theorem Follows.next_of_event (follows : Follows input ending policy t r)
    (some : t.next.1.kind ≠ .error) :
    ∃ event r', r.next policy = .gives event r' ∧ Follows input ending policy t.next.2 r' := by
  rcases follows.next with gaveUp | does
  · exact absurd (congrArg Event.kind gaveUp.error) some
  · cases reply : r.next policy with
    | gives event r' =>
        rw [reply] at does
        cases does with
        | agrees agrees => exact ⟨event, r', rfl, agrees.2⟩
        | stops error => exact absurd (congrArg Event.kind error) some
    | halts halt place =>
        rw [reply] at does
        cases does with
        | agrees agrees => exact absurd (congrArg Event.kind agrees.1) some
        | stops error => exact absurd (congrArg Event.kind error) some

/-- Pauses that do no harm to any call leave the run as it is. -/
theorem Follows.runOnce_eq {t u : Tokenizer} {r : Reading} {places : List Nat}
    (follows : Follows input ending policy u r) (h : InStep places t u)
    (tops : u.window.supply.Tops most) (single : places.Nodup)
    (spared : r.AlwaysSpares policy places) : u.runOnce.1 = t.runOnce.1 := by
  cases cut : r.cut with
  | true =>
      have latched : u.latched.isOk = false := by rw [follows.latched, cut]; rfl
      have stopped : u.next = (.error, u) := by
        rw [Tokenizer.next, latched]
        rfl
      have stopped' : t.next = (.error, t) := by
        rw [h.same] at latched
        rw [Tokenizer.next, latched]
        rfl
      rw [runOnce_of_error stopped rfl, runOnce_of_error stopped' rfl, h.snapshot]
  | false =>
      have clear := follows.clear h.window single (spared [] r .nil cut)
      have paired : Paired (places.diff (r.fronts policy)) t.next u.next := by
        have called := follows.paired_next cut h.window tops clear
        rw [h.same] at called ⊢
        exact called
      by_cases error : u.next.1.kind = .error
      · exact runOnce_of_stops paired error
      · obtain ⟨event, r', gives, follows'⟩ := follows.next_of_event error
        have less := remaining_next_lt (Prod.eta u.next).symm error
        have rest := follows'.runOnce_eq paired.inStep ((onward_next u).tops tops)
          (single.sublist (List.diff_sublist _ _)) (spared.of_gives gives (List.diff_subset _ _))
        rw [runOnce_of_event (Prod.eta u.next).symm error,
          runOnce_of_event (Prod.eta t.next).symm (paired.event ▸ error), paired.event,
          paired.inStep.snapshot, rest]
termination_by u.window.remaining

/--
Reads without bytes, one at a place, change nothing of a run where they do no
harm to any of its calls: every event and all that can be seen after it is as
if the reader had made no such read, up to the error event and its status.
-/
theorem runOnce_of_spared (o : Options) {reader : Reader} (most : reader.most ≠ some 0)
    (late : reader.endsWithLast = false) (failed : reader.ending.isOk = false)
    (other : reader.ending.isBufferExceeded = false)
    (single : (Reader.gaps 0 reader.pieces).Nodup)
    (spared : (Reading.start reader.pending).AlwaysSpares o.trailingComma
      (Reader.gaps 0 reader.pieces)) :
    (ofReader reader o).runOnce.1 = (ofReader reader.withoutPauses o).runOnce.1 := by
  have inStep : InStep (Reader.gaps 0 reader.pieces) (ofReader reader o)
      (ofReader reader.withoutPauses o) := ⟨rfl, Window.inStep_ofReader o late⟩
  by_cases opens : LogOpens o
  · have follows := follows_of_failed opens (Reader.isSteady_withoutPauses most) failed other
    rw [Reader.pending_withoutPauses] at follows
    obtain ⟨top, climbs⟩ :=
      Stream.exists_climbs o.sanitize_min_pos (Options.sanitize_min_bounds o).2
    exact (follows.runOnce_eq inStep climbs single spared).symm
  · have stopped (w : Window) : (ofWindow w o).next = (.error, ofWindow w o) := if_neg opens
    rw [ofReader, ofReader, runOnce_of_error (stopped _) rfl, runOnce_of_error (stopped _) rfl]
    exact congrArg (fun s => [Step.mk .error s]) inStep.snapshot.symm

/-- A pause in front of each token and one at the end of the input. -/
theorem runOnce_of_pauses_at_fronts :
    let reader : Reader :=
      { pieces := [[], Bytes.ofString "[", [], Bytes.ofString "\"a\"", [], Bytes.ofString ",", [],
          Bytes.ofString "null", [], Bytes.ofString "]", []] }
    Reader.gaps 0 reader.pieces = [0, 1, 4, 5, 9, 10] ∧
      (Reading.start reader.pending).AlwaysSpares .reject (Reader.gaps 0 reader.pieces) ∧
      (ofReader reader {}).runOnce.1 = (ofReader reader.withoutPauses {}).runOnce.1 := by
  intro reader
  let inArray (text : String) (offset : Nat) (needComma : Bool) : Reading :=
    ⟨Bytes.ofString text, offset, Nesting.bottom.push .array, needComma, false⟩
  let behind : Reading := ⟨[], 10, .bottom, true, false⟩
  have opening : (Reading.start reader.pending).next .reject =
      .gives ⟨.startArray, Bytes.ofString "["⟩ (inArray "\"a\",null]" 1 false) := by
    decide +kernel
  have string : (inArray "\"a\",null]" 1 false).next .reject =
      .gives ⟨.string, Bytes.ofString "\"a\""⟩ (inArray ",null]" 4 true) := by
    decide +kernel
  have literal : (inArray ",null]" 4 true).next .reject =
      .gives ⟨.literal, Bytes.ofString "null"⟩ (inArray "]" 9 true) := by
    decide +kernel
  have closing : (inArray "]" 9 true).next .reject =
      .gives ⟨.endArray, Bytes.ofString "]"⟩ behind := by
    decide +kernel
  have spared : (Reading.start reader.pending).AlwaysSpares .reject (Reader.gaps 0 reader.pieces) :=
    .of_here (by decide +kernel) opening <| .of_here (by decide +kernel) string <|
      .of_here (by decide +kernel) literal <| .of_here (by decide +kernel) closing <|
        .of_halts (by decide +kernel) ⟨.ended, behind, by decide +kernel⟩
  have single : (Reader.gaps 0 reader.pieces).Nodup := by decide
  exact ⟨by decide, spared, runOnce_of_spared {} (by decide) rfl rfl rfl single spared⟩

/-- A pause inside of a literal, which is then no literal. -/
example :
    let reader : Reader := { pieces := [Bytes.ofString "tr", [], Bytes.ofString "ue"] }
    (ofReader reader {}).steps = [] ∧
      (ofReader reader.withoutPauses {}).steps.map Step.event =
        [⟨.literal, Bytes.ofString "true"⟩] := by
  decide +kernel

end Tokenizer

end JsonEvents
