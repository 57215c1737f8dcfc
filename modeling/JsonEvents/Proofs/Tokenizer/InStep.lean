import Mathlib.Data.List.Basic
import JsonEvents.Proofs.Tokenizer.Looked
import JsonEvents.Proofs.Window.Abreast

/-!
# Calls in step

Two tokenizers are in step if their windows are and they differ in nothing else.
A call keeps them in step (`Follows.next_inStep`) if each pause of the first is
at the front of the token, where white space in front of a token ends, or
behind everything that the call looks at.
-/

namespace JsonEvents

open Ascii

namespace Reading

/-- Where white space ends in front of the next token: before the comma there, and behind it. -/
def fronts (policy : TrailingComma) (r : Reading) : List Nat :=
  let q := r.skipBlanks
  if q.byte = comma ∧ ¬ Front.isStray policy q.nesting.top q.needComma then
    [q.offset, (q.advance 1).skipBlanks.offset]
  else
    [q.offset]

variable {policy : TrailingComma} {r : Reading}

theorem fronts_of_comma (isComma : r.skipBlanks.byte = comma)
    (separates : ¬ Front.isStray policy r.skipBlanks.nesting.top r.skipBlanks.needComma) :
    r.fronts policy = [r.skipBlanks.offset, (r.skipBlanks.advance 1).skipBlanks.offset] :=
  if_pos ⟨isComma, separates⟩

theorem fronts_of_other
    (other : ¬ (r.skipBlanks.byte = comma ∧
      ¬ Front.isStray policy r.skipBlanks.nesting.top r.skipBlanks.needComma)) :
    r.fronts policy = [r.skipBlanks.offset] := if_neg other

/-- The place behind all that is looked at for the next event. -/
def far (policy : TrailingComma) (r : Reading) : Nat := (r.front policy).1.offset + r.looks policy

end Reading

/-- Two fronts that differ in their windows alone, which are in step. -/
structure Front.InStep (places : List Nat) (f g : Front) : Prop where
  byte : g.byte = f.byte
  needComma : g.needComma = f.needComma
  fault : g.fault = f.fault
  window : f.window.InStep places g.window

namespace Tokenizer

open Window (Abreast Near)

/-- Two tokenizers that differ in their windows alone, which are in step. -/
structure InStep (places : List Nat) (t u : Tokenizer) : Prop where
  same : u = { t with window := u.window }
  window : t.window.InStep places u.window

/-- Two calls that gave the same event and left tokenizers in step. -/
structure Paired (places : List Nat) (result result' : Event × Tokenizer) : Prop where
  event : result'.1 = result.1
  inStep : InStep places result.2 result'.2

variable {start far most : Nat} {places : List Nat} {t : Tokenizer} {u v w : Window}

/-! ## What a call ends with -/

theorem InStep.snapshot {t u : Tokenizer} (h : InStep places t u) : u.snapshot = t.snapshot := by
  obtain ⟨same, window⟩ := h
  have cursor : u.window.cursor = t.window.cursor := congrArg Segment.cursor window.segment
  rw [same]
  simp only [Tokenizer.snapshot, context, depth, offset, Tokenizer.isAtEnd, Tokenizer.status,
    cursor, window.isAtEnd, window.status]

theorem paired_stop (h : w.InStep places u) (t : Tokenizer) (s : Status) :
    Paired places ({ t with window := w }.stop s) ({ t with window := u }.stop s) := by
  have cursor : u.cursor = w.cursor := congrArg Segment.cursor h.segment
  refine ⟨rfl, ?_, h⟩
  simp only [stop, offset, cursor]

theorem message_of_segment (fault : Fault) (same : u.toSegment = w.toSegment) :
    fault.message u = fault.message w := by
  unfold Fault.message
  rw [same]

theorem paired_refuse (h : w.InStep places u) (t : Tokenizer) (fault : Fault) :
    Paired places ({ t with window := w }.refuse fault) ({ t with window := u }.refuse fault) := by
  refine ⟨rfl, ?_, h⟩
  simp only [refuse, message_of_segment fault h.segment]

theorem failure_of_inStep (h : w.InStep places u) (t : Tokenizer) :
    { t with window := u }.failure? = { t with window := w }.failure? := by
  simp only [failure?, h.status]

theorem paired_refuseUnlessFailed (h : w.InStep places u) (t : Tokenizer) (fault : Fault) :
    Paired places ({ t with window := w }.refuseUnlessFailed fault)
      ({ t with window := u }.refuseUnlessFailed fault) := by
  unfold refuseUnlessFailed
  rw [failure_of_inStep h]
  split
  · exact paired_stop h t _
  · exact paired_refuse h t fault

theorem paired_emit (h : w.InStep places u) (t : Tokenizer) (kind : Kind) :
    Paired places ({ t with window := w }.emit kind) ({ t with window := u }.emit kind) := by
  refine ⟨?_, rfl, h.skip⟩
  exact congrArg (fun s : Segment => Event.mk kind s.lexeme) h.segment

theorem paired_emitBracket (h : w.InStep places u) (t : Tokenizer) (kind : Kind)
    (nesting : Nesting) (needComma : Bool) :
    Paired places ({ t with window := w }.emitBracket kind nesting needComma)
      ({ t with window := u }.emitBracket kind nesting needComma) :=
  paired_emit (h.extend 1) { t with nesting, needComma } kind

theorem paired_emitScalar (h : w.InStep places u) (t : Tokenizer) (kind : Kind) :
    Paired places ({ t with window := w }.emitScalar kind)
      ({ t with window := u }.emitScalar kind) := by
  unfold emitScalar
  rw [failure_of_inStep h]
  split
  · exact paired_stop h t _
  · exact paired_emit h
      { t with needComma := true, nesting := t.nesting.setTop t.context.afterValue } kind

theorem paired_emitOpenString (h : w.InStep places u) (t : Tokenizer) (s : Status) :
    Paired places ({ t with window := w }.emitOpenString s)
      ({ t with window := u }.emitOpenString s) := by
  have cursor : u.cursor = w.cursor := congrArg Segment.cursor h.segment
  unfold emitOpenString
  simp only [offset, cursor]
  exact paired_emit h { t with
    latched := s
    log := t.log.record .trace
      (Bytes.ofString "end of input inside a string at offset " ++ Digits.digits w.cursor) } .string

theorem paired_noToken (h : w.InStep places u) (t : Tokenizer) (c : UInt8) :
    Paired places ({ t with window := w }.noToken c) ({ t with window := u }.noToken c) := by
  have cursor : u.cursor = w.cursor := congrArg Segment.cursor h.segment
  unfold noToken
  simp only [h.status]
  split
  · split
    · exact paired_refuse h t _
    · split
      · refine ⟨rfl, ?_, h⟩
        simp only [offset, cursor, depth]
      · exact paired_stop h t _
  · exact paired_refuseUnlessFailed h t _

/-! ## Keys, strings and values -/

theorem paired_nextString (h : Abreast start far most places w u) (t : Tokenizer)
    (near : { t with window := u }.nextString.2.window.Near far most) :
    Paired places { t with window := w }.nextString { t with window := u }.nextString := by
  have recognized := h.string ((onward_string_nextString { t with window := u }).near near)
  rcases string : w.string with ⟨closed, v⟩
  rcases string' : u.string with ⟨closed', v'⟩
  rw [string, string'] at recognized
  obtain ⟨rfl, both⟩ : closed' = closed ∧ Abreast start far most places v v' := recognized
  have inStep := both.toInStep
  simp only [Tokenizer.nextString, string, string', inStep.status]
  split
  · exact paired_emitScalar inStep t .string
  · split
    · exact paired_refuse inStep t .nulByte
    · split
      · exact paired_emitOpenString inStep t _
      · exact paired_stop inStep t _

theorem paired_nextKey (h : Abreast start far most places w u) (t : Tokenizer)
    (near : { t with window := u }.nextKey.2.window.Near far most) :
    Paired places { t with window := w }.nextKey { t with window := u }.nextKey := by
  have recognized := h.string ((onward_string_nextKey { t with window := u }).near near)
  rcases string : w.string with ⟨closed, v⟩
  rcases string' : u.string with ⟨closed', v'⟩
  rw [string, string'] at recognized
  obtain ⟨rfl, both⟩ : closed' = closed ∧ Abreast start far most places v v' := recognized
  rcases seen : v.extendSpace.peek 0 with ⟨c, x⟩
  rcases seen' : v'.extendSpace.peek 0 with ⟨c', x'⟩
  simp only [Tokenizer.nextKey, string, string', seen, seen'] at near ⊢
  cases closed' with
  | false =>
      simp only [Bool.false_eq_true, if_false]
      exact paired_refuseUnlessFailed both.toInStep t .badKey
  | true =>
      simp only [if_true] at near ⊢
      have near'' : x'.Near far most := by
        split at near
        · exact near
        · rwa [window_refuseUnlessFailed] at near
      have spaces := both.extendSpace ((Window.Onward.of_peek seen').near near'')
      obtain ⟨rfl, looked⟩ := spaces.peek seen seen' near''
      have inStep : x.InStep places x' := looked.toInStep
      split
      · refine ⟨?_, rfl, (inStep.extend 1).skip⟩
        have lexeme : (x'.extend 1).lexeme = (x.extend 1).lexeme :=
          congrArg Segment.lexeme (inStep.extend 1).segment
        simp only [Window.shift, lexeme, both.len]
      · exact paired_refuseUnlessFailed inStep t .missingColon

theorem paired_nextScalar (h : Abreast start far most places w u) (t : Tokenizer) (c : UInt8)
    (near : ({ t with window := u }.nextScalar c).2.window.Near far most) :
    Paired places ({ t with window := w }.nextScalar c) ({ t with window := u }.nextScalar c) := by
  unfold Tokenizer.nextScalar at near ⊢
  by_cases isQuote : c = quote
  · rw [if_pos isQuote] at near
    rw [if_pos isQuote, if_pos isQuote]
    exact paired_nextString h t near
  · rw [if_neg isQuote] at near
    rw [if_neg isQuote, if_neg isQuote]
    rcases number : w.number with ⟨isNumber, v⟩
    rcases number' : u.number with ⟨isNumber', v'⟩
    rcases literal : v.literal with ⟨isLiteral, x⟩
    rcases literal' : v'.literal with ⟨isLiteral', x'⟩
    have recognized := h.number
    have onward := (Window.reaches_literal v').onward
    simp only [number', literal'] at near onward
    simp only [number, number', literal, literal'] at recognized ⊢
    have behind : x'.Onward (if isLiteral' then { t with window := x' }.emitScalar .literal
        else { t with window := x' }.noToken c).2.window := by
      split
      · exact onward_emitScalar (t := { t with window := x' }) .literal (.refl x')
      · exact onward_noToken (t := { t with window := x' }) c (.refl x')
    have near' : v'.Near far most := by
      split at near
      · exact (onward_emitScalar (t := { t with window := v' }) .number (.refl v')).near near
      · exact (onward.trans behind).near near
    obtain ⟨rfl, both⟩ := recognized near'
    cases isNumber' with
    | true => exact paired_emitScalar both.toInStep t .number
    | false =>
        simp only [Bool.false_eq_true, if_false] at near ⊢
        have recognized' := both.literal
        simp only [literal, literal'] at recognized'
        obtain ⟨rfl, both'⟩ := recognized' (behind.near near)
        cases isLiteral' with
        | true => exact paired_emitScalar both'.toInStep t .literal
        | false => exact paired_noToken both'.toInStep t c

theorem paired_perform (h : Abreast start far most places w u) (t : Tokenizer) (c : UInt8)
    (move : Move) (near : ({ t with window := u }.perform c move).2.window.Near far most) :
    Paired places ({ t with window := w }.perform c move)
      ({ t with window := u }.perform c move) := by
  cases move with
  | openObject => exact paired_emitBracket h.toInStep t _ _ _
  | closeObject => exact paired_emitBracket h.toInStep t _ _ _
  | openArray => exact paired_emitBracket h.toInStep t _ _ _
  | closeArray => exact paired_emitBracket h.toInStep t _ _ _
  | key => exact paired_nextKey h t near
  | value => exact paired_nextScalar h t c near
  | refuse fault => exact paired_refuse h.toInStep t fault

/-! ## The front of a token -/

variable {input : Bytes} {ending : Status} {policy : TrailingComma} {r : Reading}

/-- One pause where white space ends in front of a token does no harm. -/
theorem Follows.face (follows : Follows input ending policy t r) (h : w.InStep places t.window)
    (clear : ∀ place ∈ places.erase r.skipBlanks.offset, r.skipBlanks.offset < place) :
    (t.window.skipSpace.peek 0).1 = (w.skipSpace.peek 0).1 ∧
      (w.skipSpace.peek 0).2.InStep (places.erase r.skipBlanks.offset)
        (t.window.skipSpace.peek 0).2 := by
  have offset : t.window.skipSpace.cursor = r.skipBlanks.offset := follows.skipSpace.offset
  have faced := h.face follows.shows follows.len follows.fits
  rw [offset] at faced
  exact faced clear

theorem Follows.front_inStep (follows : Follows input ending policy t r)
    (h : w.InStep places t.window)
    (clear : ∀ place ∈ places.diff (r.fronts policy), (r.front policy).1.offset < place) :
    Front.InStep (places.diff (r.fronts policy))
      (Front.of t.trailingComma t.context t.needComma w)
      (Front.of t.trailingComma t.context t.needComma t.window) := by
  have faced := follows.face h
  rcases seen : w.skipSpace.peek 0 with ⟨c, x⟩
  rcases seen' : t.window.skipSpace.peek 0 with ⟨c', x'⟩
  obtain ⟨byte, behind, decided⟩ := follows.skipSpace.peek seen'
  have nesting : t.context = r.skipBlanks.nesting.top := congrArg Nesting.top follows.nesting
  have needComma : t.needComma = r.skipBlanks.needComma := follows.needComma
  rw [seen, seen'] at faced
  unfold Reading.front at clear
  unfold Front.of
  rw [seen, seen', follows.policy, nesting, needComma]
  dsimp only at faced clear ⊢
  by_cases isComma : r.skipBlanks.byte = comma
  · rw [if_pos isComma] at clear
    by_cases stray : Front.isStray policy r.skipBlanks.nesting.top r.skipBlanks.needComma = true
    · rw [Reading.fronts_of_other fun both => both.2 stray, List.diff_cons, List.diff_nil]
        at clear ⊢
      rw [if_pos stray] at clear
      obtain ⟨rfl, inStep⟩ := faced clear
      simp only [if_pos (byte.trans isComma), if_pos stray]
      exact ⟨rfl, rfl, rfl, inStep⟩
    · rw [Reading.fronts_of_comma isComma stray, List.diff_cons, List.diff_cons, List.diff_nil]
        at clear ⊢
      rw [if_neg stray] at clear
      have after : r.skipBlanks.offset < (r.skipBlanks.advance 1).skipBlanks.offset :=
        Nat.lt_of_lt_of_le (Nat.lt_succ_self _) (Nat.le_add_right _ _)
      obtain ⟨rfl, inStep⟩ := faced fun place member => by
        by_cases here : place = (r.skipBlanks.advance 1).skipBlanks.offset
        · rw [here]
          exact after
        · exact Nat.lt_trans after (clear place ((List.mem_erase_of_ne here).mpr member))
      -- The comma was taken, and white space is skipped once more.
      have arrived := behind.arrived decided (by rw [isComma]; decide)
      have skipped := behind.skip (behind.shows.extend (n := 1) arrived) behind.fits
      obtain ⟨same, inStep'⟩ := skipped.face (inStep.extend 1).skip clear
      simp only [if_pos (byte.trans isComma), if_neg stray]
      exact ⟨same, rfl, congrArg (Front.faultBehind policy) same, inStep'⟩
  · rw [Reading.fronts_of_other fun both => isComma both.1, List.diff_cons, List.diff_nil]
      at clear ⊢
    rw [if_neg isComma] at clear
    obtain ⟨rfl, inStep⟩ := faced clear
    simp only [if_neg fun same => isComma (byte.symm.trans same)]
    exact ⟨rfl, rfl, rfl, inStep⟩

/-! ## Calls -/

/-- A call keeps tokenizers in step if it looks nowhere near a pause but in front of the token. -/
theorem Follows.next_inStep (follows : Follows input ending policy t r) (whole : r.cut = false)
    (h : w.InStep places t.window) (tops : t.window.supply.Tops most) (some : 0 < far)
    (clear : ∀ place ∈ places.diff (r.fronts policy), (r.front policy).1.offset + far ≤ place)
    (near : t.next.2.window.Near far most) :
    Paired (places.diff (r.fronts policy)) { t with window := w }.next t.next := by
  have latched : t.latched.isOk = true := by rw [follows.latched, whole]; rfl
  have fronts := follows.front_inStep h fun place member =>
    Nat.lt_of_lt_of_le (Nat.lt_add_of_pos_right some) (clear place member)
  have offset : t.front.window.offset = (r.front policy).1.offset :=
    follows.front.follows.offset_eq
  have tops' := (onward_facing t).tops tops
  rw [next_of_ok latched] at near
  rw [next_of_ok latched, next_of_ok (t := { t with window := w }) latched]
  change Front.InStep _ (Tokenizer.front { t with window := w }) t.front at fronts
  have same := fronts.needComma
  have aligned : (Tokenizer.front { t with window := w }).window.offset =
      (r.front policy).1.offset := by
    rw [← offset]
    exact congrArg Segment.offset fronts.window.segment.symm
  rw [← fronts.fault, ← fronts.byte, ← same]
  rw [facing, facing, ← same]
  cases found : t.front.fault with
  | some fault => exact paired_refuse fronts.window { t with needComma := t.front.needComma } fault
  | none =>
      rw [found] at near
      exact paired_perform ⟨fronts.window, aligned, tops', clear⟩
        { t with needComma := t.front.needComma } _ _ near

end Tokenizer

end JsonEvents
