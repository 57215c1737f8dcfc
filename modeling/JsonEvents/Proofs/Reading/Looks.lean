import JsonEvents.Proofs.Reading.Text
import JsonEvents.Proofs.Scan.Looks

/-!
# How far a reading looks

`Reading.looks policy r` counts the bytes, from the first byte of the next token
on, up to the furthest one that has to be looked at for the next event.  All but
that one are of the token itself (`within_of_lt_looks`).
-/

namespace JsonEvents.Reading

open Ascii

/-- How many bytes are looked at for a move, from the byte in front on. -/
def moveLooks (q : Reading) : Move → Nat
  | .key => Scan.keyLooks q.rest
  | .value => Scan.scalarLooks q.rest
  | .openObject | .closeObject | .openArray | .closeArray | .refuse _ => 1

theorem moveLooks_pos (q : Reading) (move : Move) : 0 < q.moveLooks move := by
  cases move with
  | key => exact Scan.keyLooks_pos q.rest
  | value => exact Scan.scalarLooks_pos q.rest
  | openObject | closeObject | openArray | closeArray | refuse fault => exact Nat.one_pos

/-- How many bytes are looked at, from the first byte of the next token on. -/
def looks (policy : TrailingComma) (r : Reading) : Nat :=
  match r.front policy with
  | (_, some _) => 1
  | (q, none) => q.moveLooks (Move.of q.nesting.top q.needComma q.byte)

theorem looks_pos (policy : TrailingComma) (r : Reading) : 0 < r.looks policy := by
  unfold looks
  rcases r.front policy with ⟨q, fault⟩
  cases fault with
  | some => exact Nat.one_pos
  | none => exact moveLooks_pos q _

/--
The first `n` bytes are of one token: none of them is white space, or they are
of a string, or of a key and the white space in front of its colon.
-/
inductive Within (context : Context) (s : Bytes) (n : Nat) : Prop
  | word (spans : Scan.Spans Scan.dark s n)
  | string (isQuote : Scan.byte s 0 = quote) (inside : n ≤ (Scan.string s).2)
  | key (expected : context = .objectKey) (isQuote : Scan.byte s 0 = quote)
      (closed : (Scan.string s).1 = true)
      (inside : n ≤ (Scan.string s).2 + Scan.blanks (s.drop (Scan.string s).2))

variable {policy : TrailingComma} {context : Context} {q r : Reading} {s : Bytes} {n : Nat}

theorem Within.le (h : Within context s n) : n ≤ s.length := by
  cases h with
  | word spans => exact spans.le
  | string isQuote inside => exact Nat.le_trans inside (Scan.string_bounds isQuote).2
  | key _ isQuote _ inside =>
      have whole := (Scan.string_bounds isQuote).2
      have blanks : Scan.blanks (s.drop (Scan.string s).2) ≤ (s.drop (Scan.string s).2).length :=
        Scan.run_le _ _
      rw [List.length_drop] at blanks
      omega

theorem within_of_lt_stringLooks (isQuote : Scan.byte s 0 = quote)
    (less : n < Scan.stringLooks s) : Within context s n := by
  refine .string isQuote ?_
  rw [Scan.stringLooks_eq] at less
  split at less <;> omega

theorem within_of_lt_keyLooks (expected : context = .objectKey) (isQuote : Scan.byte s 0 = quote)
    (less : n < Scan.keyLooks s) : Within context s n := by
  by_cases inside : n < Scan.stringLooks s
  · exact within_of_lt_stringLooks isQuote inside
  · unfold Scan.keyLooks at less
    rcases scan : Scan.string s with ⟨closed, m⟩
    simp only [scan] at less
    cases closed with
    | false =>
        rw [if_neg Bool.false_ne_true] at less
        omega
    | true =>
        rw [if_pos rfl] at less
        refine .key expected isQuote (by rw [scan]) ?_
        rw [scan]
        dsimp only
        omega

theorem within_of_ahead {m : Nat} (ahead : Scan.Ahead Scan.dark s m) (less : n < m) :
    Within context s n := by
  obtain ⟨k, rfl, spans⟩ := ahead
  exact .word (spans.mono (Nat.le_of_lt_succ less))

theorem within_of_lt_scalarLooks (less : n < Scan.scalarLooks s) : Within context s n := by
  unfold Scan.scalarLooks at less
  split at less
  · next isQuote => exact within_of_lt_stringLooks isQuote less
  · split at less
    · exact within_of_ahead (Scan.ahead_number s).max_zero less
    · exact within_of_ahead ((Scan.ahead_number s).max (Scan.ahead_literal s)) less

/-- Where more than one byte is looked at, all but the last are of one token. -/
theorem within_of_lt_looks (some : 0 < n) (less : n < r.looks policy) :
    ∃ q, Leads policy r q ∧ Within r.nesting.top q.rest n := by
  unfold looks at less
  rcases front : r.front policy with ⟨q, fault⟩
  rw [front] at less
  cases fault with
  | some fault =>
      dsimp only at less
      omega
  | none =>
      have leads := front_eq_none.mp front
      refine ⟨q, leads, ?_⟩
      rw [← leads.nesting_eq]
      have legal := Move.isLegal_of q.nesting.top q.needComma q.byte
      dsimp only at less
      generalize Move.of q.nesting.top q.needComma q.byte = move at less legal
      cases move with
      | key => exact within_of_lt_keyLooks legal.2.1 legal.2.2 less
      | value => exact within_of_lt_scalarLooks less
      | openObject | closeObject | openArray | closeArray | refuse fault =>
          exact absurd (Nat.lt_of_lt_of_le less some) (Nat.lt_irrefl n)

end JsonEvents.Reading
