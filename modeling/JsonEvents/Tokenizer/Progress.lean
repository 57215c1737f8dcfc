import JsonEvents.Tokenizer.Basic
import JsonEvents.Tokenizer.Reaches

/-!
# Every event uses some of the input

An event other than the error event leaves less of the input than there was
before it (`remaining_next_lt`), so a run of a tokenizer comes to its end.
-/

namespace JsonEvents

open Ascii

namespace Front

/-- The byte in front was the last one looked at. -/
theorem of_peek (policy : TrailingComma) (context : Context) (needComma : Bool) (w : Window) :
    ∃ u, w.Reaches u ∧ u.peek 0 =
      ((Front.of policy context needComma w).byte, (Front.of policy context needComma w).window) := by
  unfold Front.of
  split
  next c v seen =>
    split
    · next isComma =>
        split
        · exact ⟨_, Window.reaches_skipSpace w, seen⟩
        · have took := Window.takes_extend seen (by rw [isComma]; decide) Nat.one_pos (Nat.le_refl _)
          have reached := took.reaches (Window.reaches_peek seen).fill
          exact ⟨_, (Window.reaches_skipSpace w).trans (reached.trans
            ((Window.reaches_skip took.arrived).trans (Window.reaches_skipSpace _))), rfl⟩
    · exact ⟨_, Window.reaches_skipSpace w, seen⟩

end Front

namespace Tokenizer

/-- The result is an error event, or the window was left behind a lexeme of at least one byte. -/
def Advances (w : Window) (result : Event × Tokenizer) : Prop :=
  result.1.kind ≠ .error → ∃ v, w.Takes v ∧ result.2.window = v.skip

theorem advances_error (w : Window) (t : Tokenizer) : Advances w (.error, t) :=
  fun h => absurd rfl h

theorem advances_refuseUnlessFailed (w : Window) (t : Tokenizer) (fault : Fault) :
    Advances w (t.refuseUnlessFailed fault) := by
  unfold refuseUnlessFailed
  split <;> exact advances_error _ _

theorem advances_emit {w : Window} {t : Tokenizer} (kind : Kind) (h : w.Takes t.window) :
    Advances w (t.emit kind) := fun _ => ⟨t.window, h, rfl⟩

theorem advances_emitScalar {w : Window} {t : Tokenizer} (kind : Kind) (h : w.Takes t.window) :
    Advances w (t.emitScalar kind) := by
  unfold emitScalar
  split
  · exact advances_error _ _
  · exact advances_emit kind h

theorem advances_noToken (w : Window) (t : Tokenizer) (c : UInt8) : Advances w (t.noToken c) := by
  unfold noToken
  split
  · split
    · exact advances_error _ _
    · split <;> exact advances_error _ _
  · exact advances_refuseUnlessFailed _ _ _

/-- A string takes its opening quote at least. -/
theorem takes_string {u v : Window} {c : UInt8} (h : u.peek 0 = (c, v)) (hc : c ≠ 0) :
    u.Takes v.string.2 :=
  (Window.takes_extend h hc Nat.one_pos (Nat.le_refl _)).trans_reaches
    (Window.reaches_stringRest _)

theorem advances_nextKey {u : Window} {t : Tokenizer} {c : UInt8}
    (h : u.peek 0 = (c, t.window)) (hc : c ≠ 0) : Advances u t.nextKey := by
  have took := takes_string h hc
  unfold nextKey
  split
  next closed w recognized =>
    rw [recognized] at took
    split
    · split
      next d v seen =>
        split
        · next isColon =>
            have reached := (Window.reaches_extendSpace w).trans
              (Window.reaches_extend seen (by rw [isColon]; decide) Nat.one_pos (Nat.le_refl _))
            exact fun _ => ⟨_, took.trans_reaches reached, rfl⟩
        · exact advances_refuseUnlessFailed _ _ _
    · exact advances_refuseUnlessFailed _ _ _

theorem advances_nextString {u : Window} {t : Tokenizer} {c : UInt8}
    (h : u.peek 0 = (c, t.window)) (hc : c ≠ 0) : Advances u t.nextString := by
  have took := takes_string h hc
  unfold nextString
  split
  next closed w recognized =>
    rw [recognized] at took
    dsimp only
    split
    · exact advances_emitScalar _ took
    · split
      · exact advances_error _ _
      · split
        · exact advances_emit _ took
        · exact advances_error _ _

theorem advances_nextScalar {u : Window} {t : Tokenizer} {c : UInt8}
    (h : u.peek 0 = (c, t.window)) : Advances u (t.nextScalar c) := by
  have looked := Window.reaches_peek h
  unfold nextScalar
  split
  · next isQuote => exact advances_nextString h (by rw [isQuote]; decide)
  · split
    next isNumber w recognized =>
      split
      · next found =>
          have took : t.window.Takes w := by
            have := Window.number_takes (w := t.window) (by rw [recognized]; exact found)
            rwa [recognized] at this
          exact advances_emitScalar _ (.of_reaches looked took)
      · split
        next isLiteral v recognized' =>
          split
          · next found =>
              have took : w.Takes v := by
                have := Window.literal_takes (w := w) (by rw [recognized']; exact found)
                rwa [recognized'] at this
              have kept : t.window.Reaches w := by
                have := Window.reaches_number t.window
                rwa [recognized] at this
              exact advances_emitScalar _ (.of_reaches looked (.of_reaches kept took))
          · exact advances_noToken _ _ _

theorem advances_emitBracket {u : Window} {t : Tokenizer} {c : UInt8} (kind : Kind)
    (nesting : Nesting) (needComma : Bool) (h : u.peek 0 = (c, t.window)) (hc : c ≠ 0) :
    Advances u (t.emitBracket kind nesting needComma) :=
  advances_emit kind (Window.takes_extend h hc Nat.one_pos (Nat.le_refl _))

theorem advances_perform {u : Window} {t : Tokenizer} {c : UInt8} {context : Context}
    {needComma : Bool} (h : u.peek 0 = (c, t.window)) :
    Advances u (t.perform c (Move.of context needComma c)) := by
  unfold perform
  split
  · next move => exact advances_emitBracket _ _ _ h (ne_zero_of_move move nofun)
  · next move => exact advances_emitBracket _ _ _ h (ne_zero_of_move move nofun)
  · next move => exact advances_emitBracket _ _ _ h (ne_zero_of_move move nofun)
  · next move => exact advances_emitBracket _ _ _ h (ne_zero_of_move move nofun)
  · next move => exact advances_nextKey h (ne_zero_of_move move nofun)
  · exact advances_nextScalar h
  · exact advances_error _ _

theorem advances_next (t : Tokenizer) : Advances t.window t.next := by
  unfold next
  split
  · obtain ⟨u, reached, looked⟩ :=
      Front.of_peek t.trailingComma t.context t.needComma t.window
    dsimp only
    split
    · exact advances_error _ _
    · intro some
      obtain ⟨v, took, window⟩ := advances_perform (t := { t with
        window := (Front.of t.trailingComma t.context t.needComma t.window).window
        needComma := (Front.of t.trailingComma t.context t.needComma t.window).needComma })
        looked some
      exact ⟨v, .of_reaches reached took, window⟩
  · exact advances_error _ _

/-- An event other than the error event leaves less of the input. -/
theorem remaining_next_lt {t t' : Tokenizer} {event : Event} (h : t.next = (event, t'))
    (some : event.kind ≠ .error) : t'.window.remaining < t.window.remaining := by
  have advances := advances_next t
  rw [h] at advances
  obtain ⟨v, took, window⟩ := advances some
  rw [show t'.window = v.skip from window]
  exact took.remaining_skip_lt

end Tokenizer

end JsonEvents
