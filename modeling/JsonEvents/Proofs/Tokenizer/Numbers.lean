import JsonEvents.Proofs.Numeral.Scanned
import JsonEvents.Proofs.Tokenizer.Blame
import JsonEvents.Proofs.Window.Numbers

/-!
# Number events

The bytes of a number event are a number of the grammar, in every run over an
input at hand or over a reader of any behaviour (`isNumber_of_events`).  Each
call that does not stop the tokenizer leaves it at the beginning of a lexeme, so
what the next number takes is all of its lexeme.
-/

namespace JsonEvents

open Ascii Grammar

/-! ## Lengths of a lexeme -/

namespace Window

variable {w : Window}

theorem len_spells (w : Window) (i : Nat) (word : Bytes) : (w.spells i word).2.len = w.len := by
  induction word generalizing w i with
  | nil => rfl
  | cons c word ih =>
      rw [spells_cons]
      split
      · exact (ih _ _).trans (len_peek w i)
      · exact len_peek w i

theorem len_oneOf {words : List Bytes} (lost : (w.oneOf words).1 = false) :
    (w.oneOf words).2.len = w.len := by
  induction words generalizing w with
  | nil => rfl
  | cons word words ih =>
      rw [oneOf_cons] at lost ⊢
      split at lost
      · cases lost
      · next other =>
          rw [if_neg other]
          exact (ih lost).trans (len_spells w 0 word)

theorem len_number (lost : w.number.1 = false) : w.number.2.len = w.len := by
  rw [number_eq] at lost ⊢
  split at lost
  · cases lost
  · next none =>
      rw [if_neg none]
      rfl

theorem len_skipSpace (first : w.len = 0) : w.skipSpace.len = 0 := by
  fun_induction Window.skipSpace w with
  | case1 w c v seen blank ih => exact ih rfl
  | case2 w c v seen => exact (len_of_peek seen).trans first

theorem len_front (policy : TrailingComma) (context : Context) (needComma : Bool)
    (first : w.len = 0) : (Front.of policy context needComma w).window.len = 0 := by
  have here : (w.skipSpace.peek 0).2.len = 0 := (len_peek _ 0).trans (len_skipSpace first)
  unfold Front.of
  dsimp only
  split
  · split
    · exact here
    · exact (len_peek _ 0).trans (len_skipSpace rfl)
  · exact here

end Window

namespace Tokenizer

variable {t : Tokenizer} {c : UInt8} {input : Bytes}

/-! ## One call -/

/-- A call that does not stop the tokenizer ends at the beginning of a lexeme, and the number that
it gives is one. -/
structure Clean (result : Event × Tokenizer) : Prop where
  fresh : result.2.latched.isOk = true → result.2.window.len = 0
  number : result.1.kind = .number → IsNumber result.1.data

theorem clean_stop {s : Status} (failed : s.isOk = false) : Clean (t.stop s) :=
  ⟨fun ok => absurd (failed.symm.trans ok) nofun, nofun⟩

theorem clean_refuse (fault : Fault) : Clean (t.refuse fault) := ⟨nofun, nofun⟩

theorem clean_refuseUnlessFailed (fault : Fault) : Clean (t.refuseUnlessFailed fault) := by
  unfold refuseUnlessFailed
  split
  · next failure => exact clean_stop (isOk_of_failure failure)
  · exact clean_refuse fault

theorem clean_emit {kind : Kind} (number : kind = .number → IsNumber t.window.lexeme) :
    Clean (t.emit kind) := ⟨fun _ => rfl, number⟩

theorem clean_emitScalar {kind : Kind} (number : kind = .number → IsNumber t.window.lexeme) :
    Clean (t.emitScalar kind) := by
  unfold emitScalar
  split
  · next failure => exact clean_stop (isOk_of_failure failure)
  · exact ⟨fun _ => rfl, number⟩

theorem clean_noToken (first : t.window.len = 0) (c : UInt8) : Clean (t.noToken c) := by
  unfold noToken
  split
  · split
    · exact clean_refuse .nulByte
    · next failed =>
        split
        · exact ⟨fun _ => first, nofun⟩
        · exact clean_stop (Bool.eq_false_iff.mpr failed)
  · exact clean_refuseUnlessFailed .strayByte

theorem clean_nextKey (t : Tokenizer) : Clean t.nextKey := by
  unfold nextKey
  dsimp only
  split
  · split
    · exact ⟨fun _ => rfl, nofun⟩
    · exact clean_refuseUnlessFailed .missingColon
  · exact clean_refuseUnlessFailed .badKey

theorem clean_nextString (t : Tokenizer) : Clean t.nextString := by
  unfold nextString
  dsimp only
  split
  · exact clean_emitScalar nofun
  · split
    · exact clean_refuse .nulByte
    · next failed =>
        split
        · exact ⟨fun _ => rfl, nofun⟩
        · exact clean_stop (Bool.eq_false_iff.mpr failed)

theorem clean_nextScalar (within : t.window.Within input) (first : t.window.len = 0) (c : UInt8) :
    Clean (t.nextScalar c) := by
  unfold nextScalar
  split
  · exact clean_nextString t
  · have number := within.lexeme_number first
    have noNumber := Window.len_number (w := t.window)
    rcases scanned : t.window.number with ⟨isNumber, v⟩
    rw [scanned] at number noNumber
    have noLiteral : v.literal.1 = false → v.literal.2.len = v.len := Window.len_oneOf
    rcases literal : v.literal with ⟨isLiteral, u⟩
    rw [literal] at noLiteral
    simp only [literal]
    split
    · next found => exact clean_emitScalar (t := { t with window := v }) fun _ => number found
    · next lost =>
        split
        · exact clean_emitScalar (t := { t with window := u }) nofun
        · next lost' =>
            have first := (noLiteral (Bool.eq_false_iff.mpr lost')).trans
              ((noNumber (Bool.eq_false_iff.mpr lost)).trans first)
            exact clean_noToken (t := { t with window := u }) first c

theorem clean_perform (within : t.window.Within input) (first : t.window.len = 0) (c : UInt8)
    (move : Move) : Clean (t.perform c move) := by
  cases move with
  | openObject | closeObject | openArray | closeArray => exact clean_emit nofun
  | key => exact clean_nextKey t
  | value => exact clean_nextScalar within first c
  | refuse fault => exact clean_refuse fault

theorem clean_next (within : t.window.Within input)
    (fresh : t.latched.isOk = true → t.window.len = 0) : Clean t.next := by
  cases ok : t.latched.isOk with
  | false =>
      unfold next
      rw [ok]
      exact ⟨fun ok' => absurd (ok.symm.trans ok') nofun, nofun⟩
  | true =>
      obtain ⟨u, along, seen⟩ := along_front t.trailingComma t.context t.needComma t.window
      have first := Window.len_front t.trailingComma t.context t.needComma (fresh ok)
      have facing : t.facing.window.Within input := by
        have looked := (within.along along).peek 0
        rw [seen] at looked
        exact looked
      rw [next_of_ok ok]
      split
      · exact clean_refuse _
      · exact clean_perform facing first _ _

/-! ## Runs -/

theorem isNumber_of_events (within : t.window.Within input)
    (fresh : t.latched.isOk = true → t.window.len = 0) (n : Nat) :
    ∀ e ∈ t.events n, e.kind = .number → IsNumber e.data := by
  induction n generalizing t with
  | zero => nofun
  | succ n ih =>
      have clean := clean_next within fresh
      have behind := ih (within.along (leavesOff_next t).along) clean.fresh
      rw [events, runCalls_succ]
      exact List.forall_mem_cons.mpr ⟨clean.number, behind⟩

/-- With the whole input in view the longest number is taken, and the lexeme stays as it was when
there is none.  The scanners take all of each number that a run gives, over whatever reader. -/
theorem numbers_taken_whole :
    (∀ w : Window, w.supply = .nothing → w.cursor ≤ w.fill →
      (w.number.1 = true → ∃ s, IsLongestNumber w.rest s ∧
        w.number.2.toSegment = w.toSegment.extend s.length) ∧
      (w.number.1 = false → (∀ s, s <+: w.rest → ¬ IsNumber s) ∧
        w.number.2.toSegment = w.toSegment)) ∧
    ∀ t : Tokenizer, (∃ input o, t = ofBytes input o) ∨ (∃ reader o, t = ofReader reader o) →
      ∀ n, ∀ e ∈ t.events n, e.kind = .number →
        ∃ negative d, Numeral.IsTakenWhole e.data negative d := by
  refine ⟨fun w whole arrived => Window.number_of_whole whole arrived, ?_⟩
  rintro t start n e member isNumber
  apply Numeral.exists_isTakenWhole
  rcases start with ⟨input, o, rfl⟩ | ⟨reader, o, rfl⟩
  · exact isNumber_of_events (Window.within_ofBytes input) (fun _ => rfl) n e member isNumber
  · exact isNumber_of_events (Window.within_ofReader reader o) (fun _ => rfl) n e member isNumber

/-- A mark and a sign that no digit follows are given back, and a number that comes in two reads is
taken whole. -/
theorem numbers_taken_whole_across_reads :
    let w := (Window.ofBytes (Bytes.ofString "[-1.5e+]")).extend 1
    let reader : Reader := { pieces := [Bytes.ofString "[-1.", Bytes.ofString "5]"] }
    let number := Bytes.ofString "-1.5"
    w.supply = .nothing ∧ w.cursor ≤ w.fill ∧
      w.number.1 = true ∧ IsLongestNumber w.rest number ∧
      ⟨.number, number⟩ ∈ (ofReader reader {}).events 2 ∧
      Numeral.scanDecimal number = Numeral.scanFloat number := by
  intro w reader number
  obtain ⟨ofWhole, ofRun⟩ := numbers_taken_whole
  have found : w.number.1 = true := by decide +kernel
  have given : ⟨.number, number⟩ ∈ (ofReader reader {}).events 2 := by decide +kernel
  obtain ⟨s, longest, taken⟩ := (ofWhole w rfl (by decide)).1 found
  have size : w.number.2.len = 1 + s.length := congrArg Segment.len taken
  have bytes : s = number := by
    have four : s.length = 4 := by
      have five : w.number.2.len = 5 := by decide +kernel
      omega
    rw [List.prefix_iff_eq_take.mp longest.front, four]
    decide +kernel
  obtain ⟨_, _, whole⟩ := ofRun _ (.inr ⟨reader, {}, rfl⟩) 2 _ given rfl
  have plain : ∀ c ∈ number, isExponentMark c = false := by decide +kernel
  exact ⟨rfl, by decide, found, bytes ▸ longest, given, whole.decimal plain⟩

end Tokenizer

end JsonEvents
