import JsonEvents.Proofs.Reading.Run
import JsonEvents.Proofs.Reading.Text

/-!
# The places that a reading comes to

A reading passes over no NUL (`Run.crosses`), and no white space is in front of
it where it halts (`isStop_of_halts`), so it never halts between a carriage
return and its line feed.
-/

namespace JsonEvents

open Ascii
open Bytes (no_nul_cons no_nul_append)

/-! ## Tokens without NUL -/

namespace Grammar

variable {s : Bytes}

theorem IsBlank.no_nul (h : IsBlank s) : (0 : UInt8) ∉ s :=
  fun member => ne_zero_of_isSpace (h 0 member) rfl

theorem AreDigits.no_nul (h : AreDigits s) : (0 : UInt8) ∉ s :=
  fun member => ne_zero_of_isDigit (h 0 member) rfl

theorem IsSign.no_nul (h : IsSign s) : (0 : UInt8) ∉ s := by
  cases h <;> decide

theorem IsInteger.no_nul (h : IsInteger s) : (0 : UInt8) ∉ s := by
  cases h with
  | zero => decide
  | digits leading digits => exact no_nul_cons (ne_zero_of_one_le leading.1) digits.no_nul

theorem IsFraction.no_nul (h : IsFraction s) : (0 : UInt8) ∉ s := by
  cases h with
  | none => exact List.not_mem_nil
  | digits digit digits =>
      exact no_nul_cons (by decide) (no_nul_cons (ne_zero_of_isDigit digit) digits.no_nul)

theorem IsExponent.no_nul (h : IsExponent s) : (0 : UInt8) ∉ s := by
  cases h with
  | none => exact List.not_mem_nil
  | digits mark digit digits =>
      exact no_nul_cons (ne_zero_of_isExponentMark mark)
        (no_nul_cons (ne_zero_of_isDigit digit) digits.no_nul)
  | signed mark signed digit digits =>
      exact no_nul_cons (ne_zero_of_isExponentMark mark)
        (no_nul_cons (ne_zero_of_isSign signed)
          (no_nul_cons (ne_zero_of_isDigit digit) digits.no_nul))

theorem IsNumber.no_nul (h : IsNumber s) : (0 : UInt8) ∉ s := by
  cases h with
  | parts sign integer fraction exponent =>
      exact no_nul_append sign.no_nul
        (no_nul_append integer.no_nul (no_nul_append fraction.no_nul exponent.no_nul))

theorem IsLiteral.no_nul (h : IsLiteral s) : (0 : UInt8) ∉ s := by
  have none : ∀ word ∈ ["true", "false", "null"].map Bytes.ofString, (0 : UInt8) ∉ word := by
    decide
  exact none s h

end Grammar

namespace Scan

variable {s : Bytes} {n : Nat}

/-- A string is taken up to the first NUL at most. -/
theorem stringRest_no_nul (escaped : Bool) (s : Bytes) :
    (0 : UInt8) ∉ s.take (stringRest escaped s).2 := by
  induction s generalizing escaped with
  | nil => exact List.not_mem_nil
  | cons c s ih =>
      by_cases isNul : c = nul
      · rw [isNul, stringRest_of_nul]
        exact List.not_mem_nil
      · by_cases closes : c = quote ∧ escaped = false
        · obtain ⟨rfl, rfl⟩ := closes
          rw [stringRest_of_close]
          exact no_nul_cons isNul List.not_mem_nil
        · rw [stringRest_cons s isNul closes]
          exact no_nul_cons isNul (ih _)

theorem string_no_nul (isQuote : byte s 0 = quote) : (0 : UInt8) ∉ s.take (string s).2 := by
  have first : s = quote :: s.drop 1 := eq_cons_of_byte isQuote (by decide)
  change (0 : UInt8) ∉ s.take ((stringRest false (s.drop 1)).2 + 1)
  rw [first]
  exact no_nul_cons (by decide) (stringRest_no_nul false (s.drop 1))

/-- Behind a string that is not closed there is NUL, or nothing. -/
theorem byte_of_open_rest {escaped : Bool} (lost : (stringRest escaped s).1 = false) :
    byte s (stringRest escaped s).2 = 0 := by
  induction s generalizing escaped with
  | nil => rfl
  | cons c s ih =>
      by_cases isNul : c = nul
      · rw [isNul]
        rfl
      · by_cases closes : c = quote ∧ escaped = false
        · obtain ⟨rfl, rfl⟩ := closes
          cases lost
        · rw [stringRest_cons s isNul closes] at lost ⊢
          exact ih lost

theorem byte_of_open (lost : (string s).1 = false) : byte (s.drop (string s).2) 0 = 0 := by
  have behind : byte (s.drop 1) (stringRest false (s.drop 1)).2 = 0 := byte_of_open_rest lost
  rw [byte_drop] at behind
  rw [byte_drop, Nat.add_zero, ← behind, Nat.add_comm]
  rfl

theorem Scalar.no_nul {kind : Kind} (h : Scalar s kind n) : (0 : UInt8) ∉ s.take n := by
  cases h with
  | string isQuote closed =>
      have clean := string_no_nul isQuote
      rwa [closed] at clean
  | number found => exact (isNumber_take found).no_nul
  | literal found => exact (isLiteral_take found).no_nul

/-- A run of bytes with a property stops at one without it. -/
theorem byte_of_run (p : UInt8 → Bool) (outside : p 0 = false) (s : Bytes) :
    p (byte (s.drop (run p s)) 0) = false := by
  induction s with
  | nil => exact outside
  | cons c s ih =>
      cases here : p c with
      | true =>
          rw [run_of_byte (s := c :: s) outside here]
          exact ih
      | false =>
          rw [run_of_not_byte (s := c :: s) here]
          exact here

end Scan

/-! ## Going on -/

namespace Reading

open Grammar

variable {policy : TrailingComma} {p q r : Reading} {e : Event} {n : Nat}

/-- What lies between two places of one text holds no NUL. -/
def Crosses (r p : Reading) : Prop :=
  ∃ taken, r.rest = taken ++ p.rest ∧ p.offset = r.offset + taken.length ∧ (0 : UInt8) ∉ taken

theorem Crosses.refl (r : Reading) : Crosses r r := ⟨[], rfl, rfl, List.not_mem_nil⟩

theorem Crosses.trans (h : Crosses r q) (h' : Crosses q p) : Crosses r p := by
  obtain ⟨front, text, offset, clean⟩ := h
  obtain ⟨back, text', offset', clean'⟩ := h'
  refine ⟨front ++ back, ?_, ?_, no_nul_append clean clean'⟩
  · rw [text, text', List.append_assoc]
  · rw [offset', offset, List.length_append, Nat.add_assoc]

theorem crosses_advance (inside : n ≤ r.rest.length) (clean : (0 : UInt8) ∉ r.rest.take n) :
    Crosses r (r.advance n) := by
  refine ⟨r.rest.take n, (List.take_append_drop n r.rest).symm, ?_, clean⟩
  rw [List.length_take, Nat.min_eq_left inside]
  rfl

theorem crosses_skipBlanks (r : Reading) : Crosses r r.skipBlanks :=
  crosses_advance (Scan.run_le isSpace r.rest) (Scan.isBlank_take r.rest).no_nul

theorem crosses_byte (some : r.byte ≠ 0) : Crosses r (r.advance 1) := by
  refine crosses_advance (Scan.lt_length_of_byte some) ?_
  rw [rest_of_byte rfl some]
  exact no_nul_cons some List.not_mem_nil

theorem crosses_string (isQuote : r.byte = quote) : Crosses r (r.advance (Scan.string r.rest).2) :=
  crosses_advance (Scan.string_bounds isQuote).2 (Scan.string_no_nul isQuote)

theorem Leads.crosses (h : Leads policy r q) : Crosses r q := by
  cases h with
  | blanks => exact r.crosses_skipBlanks
  | comma isComma =>
      have separator := crosses_byte (r := r.skipBlanks) (by rw [isComma]; decide)
      exact r.crosses_skipBlanks.trans (separator.trans (crosses_skipBlanks _))

theorem Token.crosses (h : Token q e r) : Crosses q r := by
  cases h with
  | @opens l free byte => exact crosses_byte (byte ▸ l.opening_ne)
  | @closes l inside byte => exact crosses_byte (byte ▸ l.closing_ne.1)
  | key free inside isQuote closed isColon =>
      have text := crosses_string isQuote
      rw [closed] at text
      exact text.trans ((crosses_skipBlanks _).trans (crosses_byte (by rw [isColon]; decide)))
  | scalar free outside scanned => exact crosses_advance scanned.bounds.2 scanned.no_nul
  | openString free outside isQuote unclosed =>
      have text := crosses_string isQuote
      rw [unclosed] at text
      exact text

theorem crosses_of_gives (h : r.next policy = .gives e p) : Crosses r p := by
  obtain ⟨_, q, leads, token⟩ := next_eq_gives.mp h
  exact leads.crosses.trans token.crosses

theorem Run.crosses {marks : List Mark} (h : Run policy r marks q) : Crosses r q := by
  induction h with
  | nil => exact .refl _
  | cons gives _ ih => exact (crosses_of_gives gives).trans ih

/-! ## Halting -/

theorem isSpace_skipBlanks (r : Reading) : isSpace r.skipBlanks.byte = false :=
  Scan.byte_of_run isSpace rfl r.rest

theorem isSpace_open (lost : (Scan.string r.rest).1 = false) :
    isSpace (r.advance (Scan.string r.rest).2).byte = false := by
  have isNul : (r.advance (Scan.string r.rest).2).byte = 0 := Scan.byte_of_open lost
  rw [isNul]
  rfl

/-- A place to halt at: no NUL has been passed over, and no white space is in front. -/
structure IsStop (r p : Reading) : Prop where
  crosses : Crosses r p
  dark : isSpace p.byte = false

theorem isStop_front (policy : TrailingComma) (r : Reading) : IsStop r (r.front policy).1 := by
  unfold front
  dsimp only
  split
  · next isComma =>
      split
      · exact ⟨r.crosses_skipBlanks, r.isSpace_skipBlanks⟩
      · have separator := crosses_byte (r := r.skipBlanks) (by rw [isComma]; decide)
        exact ⟨r.crosses_skipBlanks.trans (separator.trans (crosses_skipBlanks _)),
          isSpace_skipBlanks _⟩
  · exact ⟨r.crosses_skipBlanks, r.isSpace_skipBlanks⟩

variable {halt : Halt}

theorem isStop_key (isQuote : q.byte = quote) (h : q.key = .halts halt p) : IsStop q p := by
  cases closed : (Scan.string q.rest).1 with
  | false =>
      rw [key_of_open closed] at h
      obtain ⟨_, rfl⟩ := Reply.halts.inj h
      exact ⟨crosses_string isQuote, isSpace_open closed⟩
  | true =>
      rw [key_of_closed closed] at h
      split at h
      · cases h
      · obtain ⟨_, rfl⟩ := Reply.halts.inj h
        exact ⟨(crosses_string isQuote).trans (crosses_skipBlanks _), isSpace_skipBlanks _⟩

theorem isStop_string (isQuote : q.byte = quote) (h : q.string = .halts halt p) : IsStop q p := by
  have crosses := crosses_string isQuote
  have dark := isSpace_open (r := q)
  unfold Reading.string at h
  rcases scan : Scan.string q.rest with ⟨closed, n⟩
  rw [scan] at h crosses dark
  dsimp only at h
  split at h
  · cases h
  · next lost =>
      split at h
      · cases h
      · obtain ⟨_, rfl⟩ := Reply.halts.inj h
        exact ⟨crosses, dark (Bool.eq_false_iff.mpr lost)⟩

theorem isStop_value (dark : isSpace q.byte = false) (h : q.value = .halts halt p) :
    IsStop q p := by
  unfold value at h
  split at h
  · next isQuote => exact isStop_string isQuote h
  · split at h
    · cases h
    · split at h
      · cases h
      · unfold noToken at h
        have here : q = p := by
          split at h
          · split at h <;> exact (Reply.halts.inj h).2
          · exact (Reply.halts.inj h).2
        rw [← here]
        exact ⟨.refl q, dark⟩

theorem isStop_perform (dark : isSpace q.byte = false)
    (h : q.perform (Move.of q.nesting.top q.needComma q.byte) = .halts halt p) : IsStop q p := by
  have legal := Move.isLegal_of q.nesting.top q.needComma q.byte
  generalize Move.of q.nesting.top q.needComma q.byte = move at h legal
  cases move with
  | openObject | closeObject | openArray | closeArray => cases h
  | key => exact isStop_key legal.2.2 h
  | value => exact isStop_value dark h
  | refuse fault =>
      obtain ⟨_, rfl⟩ := Reply.halts.inj h
      exact ⟨.refl q, dark⟩

/-- Where a reading halts no white space is in front of it, unless it has ended in a string. -/
theorem isStop_of_halts (whole : r.cut = false) (h : r.next policy = .halts halt p) :
    IsStop r p := by
  have front := isStop_front policy r
  rw [next, whole, if_neg Bool.false_ne_true] at h
  rcases found : r.front policy with ⟨q, fault⟩
  rw [found] at h front
  cases fault with
  | some fault =>
      obtain ⟨_, rfl⟩ := Reply.halts.inj h
      exact front
  | none =>
      have stop := isStop_perform front.dark h
      exact ⟨front.crosses.trans stop.crosses, stop.dark⟩

/-! ## Seen from the start -/

variable {input : Bytes}

/-- The bytes in front of a place to halt at hold no NUL, and the place is not within a pair. -/
theorem IsStop.of_start (h : IsStop (start input) p) :
    p.offset ≤ input.length ∧ (∀ i < p.offset, Scan.byte input i ≠ 0) ∧
      Scan.byte input p.offset ≠ lineFeed := by
  obtain ⟨⟨taken, text, offset, clean⟩, dark⟩ := h
  have text : input = taken ++ p.rest := text
  have offset : p.offset = taken.length := offset.trans (Nat.zero_add _)
  rw [offset, text]
  refine ⟨?_, ?_, ?_⟩
  · rw [List.length_append]
    exact Nat.le_add_right _ _
  · intro i before isNul
    rw [Scan.byte, List.getElem?_append_left before, List.getElem?_eq_getElem before] at isNul
    exact clean (isNul ▸ List.getElem_mem before)
  · intro isFeed
    rw [Scan.byte, List.getElem?_append_right (Nat.le_refl _), Nat.sub_self] at isFeed
    have byte : p.byte = lineFeed := isFeed
    rw [byte] at dark
    cases dark

end Reading

end JsonEvents
