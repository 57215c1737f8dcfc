import JsonEvents.Proofs.Tokenizer.Calls
import JsonEvents.Proofs.Window.Along

/-!
# Who is blamed

A call moves the window along its input, and it latches the status of a window
on the way or a refusal where the window is then (`leavesOff_next`).  So where the
source never speaks of a corruption, only a refusal does.
-/

namespace JsonEvents.Tokenizer

open Ascii
open Window (Along)

/-- How a call that began at a window leaves its own window and what was latched. -/
structure LeavesOff (w : Window) (latched : Status) (result : Event × Tokenizer) : Prop where
  along : w.Along result.2.window
  latch : result.2.latched = latched ∨ (∃ v, w.Along v ∧ result.2.latched = v.status) ∨
    ∃ fault : Fault, result.2.latched =
      .withText .corruption fault.reason (fault.message result.2.window).text

variable {t : Tokenizer} {v w : Window} {c : UInt8}

theorem LeavesOff.after {latched : Status} {result : Event × Tokenizer}
    (h : LeavesOff v latched result) (along : w.Along v) : LeavesOff w latched result := by
  refine ⟨along.trans h.along, h.latch.imp_right (.imp_left ?_)⟩
  rintro ⟨u, further, status⟩
  exact ⟨u, along.trans further, status⟩

/-! ## What a call ends with -/

theorem leavesOff_stop (h : w.Along t.window) : LeavesOff w t.latched (t.stop t.window.status) :=
  ⟨h, .inr (.inl ⟨t.window, h, rfl⟩)⟩

theorem leavesOff_refuse (h : w.Along t.window) (fault : Fault) :
    LeavesOff w t.latched (t.refuse fault) :=
  ⟨h, .inr (.inr ⟨fault, rfl⟩)⟩

theorem status_of_failure {s : Status} (h : t.failure? = some s) : s = t.window.status := by
  unfold failure? at h
  split at h
  · cases h
  · exact (Option.some.inj h).symm

theorem leavesOff_refuseUnlessFailed (h : w.Along t.window) (fault : Fault) :
    LeavesOff w t.latched (t.refuseUnlessFailed fault) := by
  unfold refuseUnlessFailed
  split
  · next failure =>
      rw [status_of_failure failure]
      exact leavesOff_stop h
  · exact leavesOff_refuse h fault

theorem leavesOff_emit (h : w.Along t.window) (kind : Kind) : LeavesOff w t.latched (t.emit kind) :=
  ⟨h.trans (.skip (.refl _)), .inl rfl⟩

theorem leavesOff_emitBracket (seen : w.peek 0 = (c, t.window)) (some : c ≠ 0) (kind : Kind)
    (nesting : Nesting) (needComma : Bool) :
    LeavesOff w t.latched (t.emitBracket kind nesting needComma) :=
  leavesOff_emit (t := { t with window := t.window.extend 1, nesting, needComma })
    (.of_take seen some (Nat.le_refl 1)) kind

theorem leavesOff_emitScalar (h : w.Along t.window) (kind : Kind) :
    LeavesOff w t.latched (t.emitScalar kind) := by
  unfold emitScalar
  split
  · next failure =>
      rw [status_of_failure failure]
      exact leavesOff_stop h
  · exact ⟨h.trans (.skip (.refl _)), .inl rfl⟩

theorem leavesOff_emitOpenString (h : w.Along t.window) :
    LeavesOff w t.latched (t.emitOpenString t.window.status) :=
  ⟨h.trans (.skip (.refl _)), .inr (.inl ⟨t.window, h, rfl⟩)⟩

theorem leavesOff_noToken (h : w.Along t.window) (c : UInt8) :
    LeavesOff w t.latched (t.noToken c) := by
  unfold noToken
  split
  · split
    · exact leavesOff_refuse h .nulByte
    · split
      · exact ⟨h, .inl rfl⟩
      · exact leavesOff_stop h
  · exact leavesOff_refuseUnlessFailed h .strayByte

/-! ## Keys, strings and values -/

theorem leavesOff_nextKey (seen : w.peek 0 = (c, t.window)) (some : c ≠ 0) :
    LeavesOff w t.latched t.nextKey := by
  have text := Window.along_string seen some
  rcases string : t.window.string with ⟨closed, v⟩
  rcases behind : v.extendSpace.peek 0 with ⟨d, u⟩
  rw [string] at text
  simp only [nextKey, string, behind]
  have spaces := text.trans (Window.along_extendSpace v)
  split
  · split
    · next isColon =>
        have took := Along.of_take behind (by rw [isColon]; decide) (Nat.le_refl 1)
        exact ⟨(spaces.trans took).trans (.skip (.refl _)), .inl rfl⟩
    · exact leavesOff_refuseUnlessFailed (t := { t with window := u })
        (spaces.trans (.of_peek behind)) .missingColon
  · exact leavesOff_refuseUnlessFailed (t := { t with window := v }) text .badKey

theorem leavesOff_nextString (seen : w.peek 0 = (c, t.window)) (some : c ≠ 0) :
    LeavesOff w t.latched t.nextString := by
  have text := Window.along_string seen some
  rcases string : t.window.string with ⟨closed, v⟩
  rw [string] at text
  simp only [nextString, string]
  split
  · exact leavesOff_emitScalar (t := { t with window := v }) text .string
  · split
    · exact leavesOff_refuse (t := { t with window := v }) text .nulByte
    · split
      · exact leavesOff_emitOpenString (t := { t with window := v }) text
      · exact leavesOff_stop (t := { t with window := v }) text

theorem leavesOff_nextScalar (seen : w.peek 0 = (c, t.window)) :
    LeavesOff w t.latched (t.nextScalar c) := by
  unfold nextScalar
  split
  · next isQuote => exact leavesOff_nextString seen (by rw [isQuote]; decide)
  · have digits := (Along.of_peek seen).trans (Window.along_number t.window)
    rcases number : t.window.number with ⟨isNumber, v⟩
    rw [number] at digits
    have letters := digits.trans (Window.along_literal v)
    rcases literal : v.literal with ⟨isLiteral, u⟩
    rw [literal] at letters
    simp only [literal]
    split
    · exact leavesOff_emitScalar (t := { t with window := v }) digits .number
    · split
      · exact leavesOff_emitScalar (t := { t with window := u }) letters .literal
      · exact leavesOff_noToken (t := { t with window := u }) letters c

theorem leavesOff_perform (context : Context) (needComma : Bool)
    (seen : w.peek 0 = (c, t.window)) :
    LeavesOff w t.latched (t.perform c (Move.of context needComma c)) := by
  have some : Move.of context needComma c ≠ .value → c ≠ 0 := ne_zero_of_move rfl
  generalize Move.of context needComma c = move at some
  cases move with
  | openObject | closeObject | openArray | closeArray =>
      exact leavesOff_emitBracket seen (some nofun) _ _ _
  | key => exact leavesOff_nextKey seen (some nofun)
  | value => exact leavesOff_nextScalar seen
  | refuse fault => exact leavesOff_refuse (.of_peek seen) fault

/-! ## Calls -/

theorem along_front (policy : TrailingComma) (context : Context) (needComma : Bool)
    (w : Window) :
    ∃ u, w.Along u ∧
      u.peek 0 = ((Front.of policy context needComma w).byte,
        (Front.of policy context needComma w).window) := by
  have blanks := Window.along_skipSpace w
  rcases seen : w.skipSpace.peek 0 with ⟨c, v⟩
  simp only [Front.of, seen]
  split
  · next isComma =>
      split
      · exact ⟨_, blanks, seen⟩
      · have took := Along.of_take seen (by rw [isComma]; decide) (Nat.le_refl 1)
        have behind := (blanks.trans took).trans (.skip (Window.along_skipSpace _))
        exact ⟨_, behind, rfl⟩
  · exact ⟨_, blanks, seen⟩

theorem leavesOff_next (t : Tokenizer) : LeavesOff t.window t.latched t.next := by
  cases ok : t.latched.isOk with
  | false =>
      unfold next
      rw [ok]
      exact ⟨.refl _, .inl rfl⟩
  | true =>
      obtain ⟨u, along, seen⟩ := along_front t.trailingComma t.context t.needComma t.window
      have done := leavesOff_perform (t := t.facing) t.context t.front.needComma seen
      rw [next_of_ok ok]
      split
      · exact leavesOff_refuse (t := t.facing) (along.trans (.of_peek seen)) _
      · exact done.after along

end JsonEvents.Tokenizer
