import JsonEvents.Proofs.Reading.Looks
import JsonEvents.Proofs.Scan.Extended

/-!
# Readings of a text that goes on

A reading that looks at nothing behind its text gives the same in every text
that goes on behind it (`next_extend`).
-/

namespace JsonEvents.Reading

open Ascii

/-- The same place in a text that goes on behind. -/
def extend (r : Reading) (t : Bytes) : Reading := { r with rest := r.rest ++ t }

end JsonEvents.Reading

namespace JsonEvents

/-- The same reply in a text that goes on behind. -/
def Reply.extend (t : Bytes) : Reply → Reply
  | .gives event after => .gives event (after.extend t)
  | .halts halt place => .halts halt (place.extend t)

namespace Reading

open Ascii

variable {policy : TrailingComma} {q r : Reading} {n : Nat}

/-- All that is looked at for the next event is in the text. -/
def LooksInside (policy : TrailingComma) (r : Reading) : Prop :=
  r.looks policy ≤ (r.front policy).1.rest.length

instance (policy : TrailingComma) (r : Reading) : Decidable (r.LooksInside policy) :=
  inferInstanceAs (Decidable (_ ≤ _))

theorem length_of_byte (some : r.byte ≠ nul) : 0 < r.rest.length := Scan.lt_length_of_byte some

theorem rest_of_length (some : 0 < r.rest.length) : r.rest ≠ [] := List.length_pos_iff.mp some

theorem byte_extend (t : Bytes) (some : r.rest ≠ []) : (r.extend t).byte = r.byte :=
  Scan.byte_append t (List.length_pos_iff.mpr some)

theorem advance_extend (t : Bytes) (inside : n ≤ r.rest.length) :
    (r.extend t).advance n = (r.advance n).extend t := by
  have rest : (r.rest ++ t).drop n = r.rest.drop n ++ t := Scan.drop_append t inside
  simp only [advance, extend, rest]

theorem skipBlanks_extend (t : Bytes) (some : r.skipBlanks.rest ≠ []) :
    (r.extend t).skipBlanks = r.skipBlanks.extend t := by
  have inside : Scan.blanks r.rest < r.rest.length :=
    Nat.lt_of_not_le fun behind => some (List.drop_eq_nil_of_le behind)
  have same : Scan.blanks (r.extend t).rest = Scan.blanks r.rest := Scan.run_extend t inside
  rw [skipBlanks, same, advance_extend t (Nat.le_of_lt inside), skipBlanks]

theorem front_extend (t : Bytes) (some : (r.front policy).1.rest ≠ []) :
    (r.extend t).front policy = ((r.front policy).1.extend t, (r.front policy).2) := by
  have first : r.skipBlanks.rest ≠ [] := by
    intro nothing
    have none : ¬ r.skipBlanks.byte = comma := by
      rw [byte, nothing]
      decide
    rw [front, if_neg none] at some
    exact some nothing
  have same := skipBlanks_extend t first
  have byte := byte_extend t first
  unfold front at some ⊢
  dsimp only at some ⊢
  rw [same, byte]
  by_cases isComma : r.skipBlanks.byte = comma
  · rw [if_pos isComma] at some ⊢
    rw [if_pos isComma]
    change (if Front.isStray policy r.skipBlanks.nesting.top r.skipBlanks.needComma = true then _
      else _) = _
    split
    · rfl
    · next separates =>
        rw [if_neg separates] at some
        have behind : (r.skipBlanks.advance 1).skipBlanks.rest ≠ [] := some
        have next := advance_extend t (List.length_pos_iff.mpr first)
        have byte := byte_extend t behind
        rw [next, skipBlanks_extend t behind]
        exact congrArg (fun c => (_, Front.faultBehind policy c)) byte
  · rw [if_neg isComma, if_neg isComma]

/-! ## Moves -/

theorem bracket_extend (t : Bytes) (kind : Kind) (nesting : Nesting) (needComma : Bool)
    (inside : 1 ≤ q.rest.length) :
    (q.extend t).bracket kind nesting needComma = (q.bracket kind nesting needComma).extend t := by
  have data : (q.rest ++ t).take 1 = q.rest.take 1 := List.take_append_of_le_length inside
  have rest : (q.rest ++ t).drop 1 = q.rest.drop 1 ++ t := Scan.drop_append t inside
  simp only [bracket, advance, extend, Reply.extend, data, rest]

theorem scalar_extend (t : Bytes) (kind : Kind) (inside : n ≤ q.rest.length) :
    (q.extend t).scalar kind n = (q.scalar kind n).extend t := by
  have data : (q.rest ++ t).take n = q.rest.take n := List.take_append_of_le_length inside
  have rest : (q.rest ++ t).drop n = q.rest.drop n ++ t := Scan.drop_append t inside
  simp only [scalar, advance, extend, Reply.extend, data, rest]

theorem key_extend (t : Bytes) (isQuote : q.byte = quote)
    (inside : Scan.keyLooks q.rest ≤ q.rest.length) : (q.extend t).key = q.key.extend t := by
  have bound := (Scan.string_bounds isQuote).2
  have same : Scan.string (q.extend t).rest = Scan.string q.rest :=
    Scan.string_extend t (Nat.le_trans (Nat.le_max_left _ _) inside)
  unfold Scan.keyLooks at inside
  unfold key
  rw [same]
  rcases scan : Scan.string q.rest with ⟨closed, n⟩
  rw [scan] at inside bound
  dsimp only at inside bound ⊢
  have behind := advance_extend t bound
  cases closed with
  | false =>
      rw [if_neg Bool.false_ne_true, if_neg Bool.false_ne_true, behind]
      rfl
  | true =>
      rw [if_pos rfl] at inside ⊢
      rw [if_pos rfl]
      have some : (q.advance n).skipBlanks.rest ≠ [] := by
        apply List.length_pos_iff.mp
        change 0 < ((q.rest.drop n).drop (Scan.blanks (q.rest.drop n))).length
        rw [List.length_drop, List.length_drop]
        omega
      have data : (q.rest ++ t).take n = q.rest.take n := List.take_append_of_le_length bound
      have next := advance_extend (n := 1) t (List.length_pos_iff.mpr some)
      rw [behind, skipBlanks_extend t some, byte_extend t some]
      split
      · rw [next]
        exact congrArg (fun data => Reply.gives ⟨.string, data⟩ _) data
      · rfl

theorem string_extend (t : Bytes) (isQuote : q.byte = quote)
    (inside : Scan.stringLooks q.rest ≤ q.rest.length) :
    (q.extend t).string = q.string.extend t := by
  have bound := (Scan.string_bounds isQuote).2
  have same : Scan.string (q.extend t).rest = Scan.string q.rest := Scan.string_extend t inside
  rw [Scan.stringLooks_eq] at inside
  unfold string
  rw [same]
  rcases scan : Scan.string q.rest with ⟨closed, n⟩
  rw [scan] at inside bound
  dsimp only at inside bound ⊢
  cases closed with
  | true => exact scalar_extend t .string bound
  | false =>
      rw [if_neg Bool.false_ne_true] at inside ⊢
      rw [if_neg Bool.false_ne_true]
      have some : q.rest.drop n ≠ [] := by
        apply List.length_pos_iff.mp
        rw [List.length_drop]
        omega
      have some' : (q.extend t).rest.drop n ≠ [] := by
        change (q.rest ++ t).drop n ≠ []
        rw [Scan.drop_append t bound]
        exact List.append_ne_nil_of_left_ne_nil some t
      rw [if_neg some, if_neg some', advance_extend t bound]
      rfl

theorem noToken_extend (t : Bytes) (some : q.rest ≠ []) :
    (q.extend t).noToken = q.noToken.extend t := by
  have some' : (q.extend t).rest ≠ [] := List.append_ne_nil_of_left_ne_nil some t
  rw [noToken, byte_extend t some, if_neg some', noToken, if_neg some]
  split <;> rfl

theorem value_extend (t : Bytes) (inside : Scan.scalarLooks q.rest ≤ q.rest.length) :
    (q.extend t).value = q.value.extend t := by
  have some := rest_of_length (Nat.lt_of_lt_of_le (Scan.scalarLooks_pos q.rest) inside)
  unfold Scan.scalarLooks at inside
  rw [value, byte_extend t some, value]
  by_cases isQuote : q.byte = quote
  · have isQuote' : Scan.byte q.rest 0 = quote := isQuote
    rw [if_pos isQuote'] at inside
    rw [if_pos isQuote, if_pos isQuote]
    exact string_extend t isQuote inside
  · have notQuote : ¬ Scan.byte q.rest 0 = quote := isQuote
    rw [if_neg notQuote] at inside
    rw [if_neg isQuote, if_neg isQuote]
    have number : Scan.number? (q.extend t).rest = Scan.number? q.rest :=
      Scan.number?_extend t (by omega)
    rw [number]
    cases found : Scan.number? q.rest with
    | some n => exact scalar_extend t .number (Scan.number?_bounds found).2
    | none =>
        rw [found] at inside
        have literal : Scan.literal? (q.extend t).rest = Scan.literal? q.rest :=
          Scan.literal?_extend t (Nat.le_trans (Nat.le_max_right _ _) inside)
        dsimp only
        rw [literal]
        cases found' : Scan.literal? q.rest with
        | some n => exact scalar_extend t .literal (Scan.literal?_bounds found').2
        | none => exact noToken_extend t some

theorem perform_extend (t : Bytes) {move : Move}
    (legal : Move.IsLegal q.nesting.top q.needComma q.byte move)
    (inside : q.moveLooks move ≤ q.rest.length) :
    (q.extend t).perform move = (q.perform move).extend t := by
  cases move with
  | openObject => exact bracket_extend t _ _ _ inside
  | closeObject => exact bracket_extend t _ _ _ inside
  | openArray => exact bracket_extend t _ _ _ inside
  | closeArray => exact bracket_extend t _ _ _ inside
  | key => exact key_extend t legal.2.2 inside
  | value => exact value_extend t inside
  | refuse fault => rfl

/-- What a reading gives without looking behind its text it gives in any that goes on. -/
theorem next_extend (t : Bytes) (whole : r.cut = false) (inside : r.LooksInside policy) :
    (r.extend t).next policy = (r.next policy).extend t := by
  unfold LooksInside at inside
  have some := rest_of_length (Nat.lt_of_lt_of_le (looks_pos policy r) inside)
  have front := front_extend t some
  have whole' : (r.extend t).cut = false := whole
  rw [next, whole', if_neg Bool.false_ne_true, front, next, whole, if_neg Bool.false_ne_true]
  unfold looks at inside
  rcases found : r.front policy with ⟨q, fault⟩
  rw [found] at inside some
  cases fault with
  | some fault => rfl
  | none =>
      have byte := byte_extend t some
      have legal := Move.isLegal_of q.nesting.top q.needComma q.byte
      dsimp only at byte inside ⊢
      rw [byte]
      exact perform_extend t legal inside

end Reading

end JsonEvents
