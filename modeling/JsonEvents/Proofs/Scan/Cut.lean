import JsonEvents.Proofs.Grammar.Scanned
import JsonEvents.Proofs.Scan.Extended

/-!
# Scalars that their text cuts short

A scan for a scalar value looks beyond the end of its text only where the text
is a number, or where it ends in the middle of a number or a literal
(`cut_of_scalarLooks`).
-/

namespace JsonEvents

/-- The text ends in the middle of a number or a literal, and is none as it stands. -/
structure Grammar.IsUnfinished (s : Bytes) : Prop where
  some : s ≠ []
  noNumber : ¬ IsNumber s
  noLiteral : ¬ IsLiteral s
  finished : ∃ t, IsNumber (s ++ t) ∨ IsLiteral (s ++ t)

namespace Scan

open Ascii Grammar

variable {s : Bytes} {m n : Nat}

/-! ## Numbers -/

/-- Behind the first `n` bytes the text ends in the middle of a fraction or an exponent. -/
structure Cuts (s : Bytes) (n : Nat) : Prop where
  inside : n < s.length
  goesOn : goesOn (byte s n) = true

theorem goesOn_of_isExponentMark {c : UInt8} (mark : isExponentMark c = true) :
    goesOn c = true := by
  rw [goesOn, mark, Bool.or_true]

theorem eq_nil_of_length (short : s.length < 1) : s = [] :=
  List.eq_nil_of_length_eq_zero (Nat.lt_one_iff.mp short)

theorem integer_cut (beyond : s.length < integerLooks s) :
    s = [] ∨ integer? s = some s.length := by
  rw [integerLooks] at beyond
  by_cases isZero : byte s 0 = zero
  · rw [if_pos isZero] at beyond
    exact .inl (eq_nil_of_length beyond)
  · rw [if_neg isZero] at beyond
    by_cases leading : one ≤ byte s 0 ∧ byte s 0 ≤ nine
    · rw [if_pos leading] at beyond
      have bound := digits_drop_le (n := 1) (lt_length_of_byte (ne_zero_of_one_le leading.1))
      right
      rw [integer?, if_neg isZero, if_pos leading]
      exact congrArg some (by omega)
    · rw [if_neg leading] at beyond
      exact .inl (eq_nil_of_length beyond)

/-- A fraction that runs to the end of the text, or is cut in front of its first digit. -/
theorem fraction_cut (beyond : s.length < fractionLooks s) :
    fraction s = (true, s.length) ∨ fraction s = (false, 0) ∧ s = [point] := by
  rw [fractionLooks] at beyond
  by_cases isPoint : byte s 0 = point
  · rw [if_pos isPoint] at beyond
    have first := eq_cons_of_byte isPoint (by decide)
    by_cases digit : isDigit (byte s 1) = true
    · rw [if_pos digit] at beyond
      have bound := digits_drop_le (n := 2) (lt_length_of_byte (ne_zero_of_isDigit digit))
      left
      rw [fraction, if_pos isPoint, if_pos digit]
      exact congrArg (Prod.mk true) (by omega)
    · rw [if_neg digit] at beyond
      have nothing : s.drop 1 = [] := List.drop_eq_nil_of_le (by omega)
      right
      rw [fraction, if_pos isPoint, if_neg digit]
      exact ⟨rfl, by rw [first, nothing]⟩
  · rw [if_neg isPoint] at beyond
    rw [eq_nil_of_length beyond]
    exact .inl rfl

/-- An exponent that runs to the end of the text, or is cut in front of its first digit. -/
theorem exponent_cut (beyond : s.length < exponentLooks s) :
    exponent s = s.length ∨
      exponent s = 0 ∧ isExponentMark (byte s 0) = true ∧ IsExponent (s ++ [zero]) := by
  rw [exponentLooks] at beyond
  by_cases mark : isExponentMark (byte s 0) = true
  · rw [if_pos mark] at beyond
    dsimp only at beyond
    rw [exponent, if_pos mark]
    dsimp only
    by_cases digit : isDigit (byte s (Window.exponentLead (byte s 1))) = true
    · rw [if_pos digit] at beyond
      have inside := lt_length_of_byte (ne_zero_of_isDigit digit)
      have bound := digits_drop_le (n := Window.exponentLead (byte s 1) + 1) inside
      left
      rw [if_pos digit]
      omega
    · rw [if_neg digit] at beyond
      rw [if_neg digit]
      have first := eq_cons_of_byte rfl (ne_zero_of_isExponentMark mark)
      refine .inr ⟨rfl, mark, ?_⟩
      by_cases signed : isSign (byte s 1) = true
      · rw [Window.exponentLead, if_pos signed] at beyond
        have nothing : (s.drop 1).drop 1 = [] := by
          rw [List.drop_drop]
          exact List.drop_eq_nil_of_le (by omega)
        have second := eq_cons_of_byte (byte_drop s 1 0) (ne_zero_of_isSign signed)
        rw [first, second, nothing]
        exact .signed mark signed rfl (by decide)
      · rw [Window.exponentLead, if_neg signed] at beyond
        have nothing : s.drop 1 = [] := List.drop_eq_nil_of_le (by omega)
        rw [first, nothing]
        exact .digits mark rfl (by decide)
  · rw [if_neg mark] at beyond
    rw [eq_nil_of_length beyond]
    exact .inl rfl

theorem tail_cut (beyond : s.length < tailLooks s) :
    tail s = s.length ∨
      Cuts s (tail s) ∧ ∃ f e, s ++ [zero] = f ++ e ∧ IsFraction f ∧ IsExponent e := by
  have bound := fraction_le s
  have front := isFraction_take s
  unfold tailLooks at beyond
  unfold tail
  by_cases early : s.length < fractionLooks s
  · rcases fraction_cut early with whole | ⟨none, rfl⟩
    · rw [whole]
      left
      dsimp only
      rw [List.drop_length, if_pos rfl]
      rfl
    · rw [none]
      exact .inr ⟨⟨by decide, rfl⟩, [point, zero], [], rfl, .digits rfl (by decide), .none⟩
  · rcases part : fraction s with ⟨goesOn, n⟩
    rw [part] at beyond bound front
    dsimp only at beyond bound front ⊢
    cases goesOn with
    | false =>
        rw [if_neg Bool.false_ne_true] at beyond
        omega
    | true =>
        rw [if_pos rfl] at beyond ⊢
        have size : (s.drop n).length = s.length - n := List.length_drop
        rcases exponent_cut (s := s.drop n) (by omega) with whole | ⟨none, mark, exponent⟩
        · left
          omega
        · have here : byte (s.drop n) 0 = byte s n := byte_drop s n 0
          have inside := lt_length_of_byte (ne_zero_of_isExponentMark mark)
          right
          rw [none, Nat.add_zero]
          rw [here] at mark
          refine ⟨⟨by omega, goesOn_of_isExponentMark mark⟩, s.take n, s.drop n ++ [zero], ?_,
            front, exponent⟩
          rw [← List.append_assoc, List.take_append_drop]

theorem number_cut (beyond : s.length < numberLooks s) :
    number? s = some s.length ∨
      IsNumber (s ++ [zero]) ∧ ∀ n, number? s = some n → Cuts s n := by
  have signed := sign_le s
  have front := isSign_take s
  have size : (s.drop (sign s)).length = s.length - sign s := List.length_drop
  unfold numberLooks at beyond
  dsimp only at beyond
  unfold number?
  by_cases early : (s.drop (sign s)).length < integerLooks (s.drop (sign s))
  · rcases integer_cut early with nothing | whole
    · -- There is nothing but a minus sign.
      have whole : s.take (sign s) = s := by
        have joined := List.take_append_drop (sign s) s
        rwa [nothing, List.append_nil] at joined
      rw [whole] at front
      rw [nothing]
      refine .inr ⟨?_, nofun⟩
      exact .parts front .zero .none .none
    · left
      rw [whole, Option.map_some]
      have behind : s.drop (sign s + (s.drop (sign s)).length) = [] :=
        List.drop_eq_nil_of_le (by omega)
      rw [behind, show tail [] = 0 from rfl]
      exact congrArg some (by omega)
  · cases found : integer? (s.drop (sign s)) with
    | none =>
        rw [found] at beyond
        dsimp only at beyond
        omega
    | some m =>
        have bound := (integer?_bounds found).2
        have size' : ((s.drop (sign s)).drop m).length = s.length - (sign s + m) := by
          rw [List.drop_drop, List.length_drop]
        rw [found] at beyond
        dsimp only at beyond
        rw [Option.map_some]
        rcases tail_cut (s := (s.drop (sign s)).drop m) (by omega) with
          whole | ⟨cuts, f, e, text, fraction, exponent⟩
        · rw [List.drop_drop] at whole size'
          left
          exact congrArg some (by omega)
        · right
          constructor
          · have joined : s ++ [zero] =
                s.take (sign s) ++ ((s.drop (sign s)).take m ++ (f ++ e)) := by
              rw [← text, ← List.append_assoc (List.take m _), List.take_append_drop,
                ← List.append_assoc, List.take_append_drop]
            rw [joined]
            exact .parts front (isInteger_take found) fraction exponent
          · intro n same
            obtain rfl := Option.some.inj same
            rw [List.drop_drop] at cuts size'
            have inside := cuts.inside
            refine ⟨by omega, ?_⟩
            rw [← byte_drop]
            exact cuts.goesOn

/-! ### What stands behind a number is looked at -/

theorem lt_fractionLooks (s : Bytes) : (fraction s).2 < fractionLooks s := by
  unfold fraction fractionLooks
  split
  · split
    · exact Nat.lt_succ_self _
    · exact Nat.two_pos
  · exact Nat.one_pos

theorem lt_exponentLooks (s : Bytes) : exponent s < exponentLooks s := by
  unfold exponent exponentLooks
  split
  · dsimp only
    split <;> omega
  · exact Nat.one_pos

theorem lt_tailLooks (s : Bytes) : tail s < tailLooks s := by
  have front := lt_fractionLooks s
  unfold tail tailLooks
  rcases part : fraction s with ⟨goesOn, n⟩
  rw [part] at front
  dsimp only at front ⊢
  cases goesOn with
  | true =>
      have behind := lt_exponentLooks (s.drop n)
      rw [if_pos rfl, if_pos rfl]
      omega
  | false =>
      rw [if_neg Bool.false_ne_true, if_neg Bool.false_ne_true]
      omega

theorem lt_numberLooks (found : number? s = some n) : n < numberLooks s := by
  unfold number? at found
  unfold numberLooks
  dsimp only
  cases leading : integer? (s.drop (sign s)) with
  | none =>
      rw [leading] at found
      cases found
  | some m =>
      rw [leading] at found
      obtain rfl := Option.some.inj found
      have behind := lt_tailLooks (s.drop (sign s + m))
      dsimp only
      rw [List.drop_drop]
      omega

/-! ## Literals -/

theorem spells_cut {word : Bytes} (beyond : s.length < spellsLooks s word) :
    s <+: word ∧ s.length < word.length := by
  induction word generalizing s with
  | nil => exact absurd beyond (Nat.not_lt_zero _)
  | cons c word ih =>
      cases s with
      | nil => exact ⟨List.nil_prefix, Nat.succ_pos _⟩
      | cons d s =>
          rw [spellsLooks, byte_cons, List.drop_one, List.tail_cons, List.length_cons] at beyond
          by_cases same : d = c
          · rw [if_pos same] at beyond
            obtain ⟨front, short⟩ := ih (s := s) (by omega)
            exact ⟨List.cons_prefix_cons.mpr ⟨same, front⟩, Nat.succ_lt_succ short⟩
          · rw [if_neg same] at beyond
            omega

theorem oneOf_cut {words : List Bytes} (beyond : s.length < oneOfLooks s words) :
    ∃ word ∈ words, s <+: word ∧ s.length < word.length := by
  induction words with
  | nil => exact absurd beyond (Nat.not_lt_zero _)
  | cons word rest ih =>
      rw [oneOfLooks] at beyond
      by_cases here : s.length < spellsLooks s word
      · exact ⟨word, List.mem_cons_self, spells_cut here⟩
      · split at beyond
        · omega
        · obtain ⟨other, member, cut⟩ := ih (by omega)
          exact ⟨other, List.mem_cons_of_mem word member, cut⟩

theorem isLiteral_of_mem {word : Bytes} (member : word ∈ Window.literals) : IsLiteral word := by
  have all : ∀ word ∈ Window.literals, IsLiteral word := by decide +kernel
  exact all word member

/-- No literal begins another one. -/
theorem eq_of_isLiteral {word : Bytes} (h : IsLiteral s) (h' : IsLiteral word)
    (front : s <+: word) : s = word := by
  have apart : ∀ s ∈ ["true", "false", "null"].map Bytes.ofString,
      ∀ word ∈ ["true", "false", "null"].map Bytes.ofString, s <+: word → s = word := by
    decide +kernel
  exact apart s h word h' front

/-- A text that begins with a literal is looked at no further than it goes. -/
theorem literalLooks_le (found : literal? s = some n) : literalLooks s ≤ s.length := by
  refine Nat.le_of_not_lt fun beyond => ?_
  obtain ⟨word, member, front, short⟩ := oneOf_cut beyond
  have begins := (List.take_prefix n s).trans front
  have whole := eq_of_isLiteral (isLiteral_take found) (isLiteral_of_mem member) begins
  have size := congrArg List.length whole
  rw [List.length_take] at size
  omega

/-! ## Scalars -/

/-- What becomes a number is no literal, whatever stands behind it. -/
theorem literal?_of_isNumber {t : Bytes} (h : IsNumber (s ++ t)) : literal? s = none := by
  cases found : literal? s with
  | none => rfl
  | some n =>
      have literal := literal?_append (isLiteral_take found) (s.drop n ++ t)
      rw [← List.append_assoc, List.take_append_drop] at literal
      have number := number?_of_isNumber h
      rw [number?_of_literal? literal] at number
      cases number

theorem isUnfinished_of_number (some : s ≠ []) (other : number? s ≠ Option.some s.length)
    (finished : IsNumber (s ++ [zero])) : IsUnfinished s where
  some := some
  noNumber := fun number => other (number?_of_isNumber number)
  noLiteral := by
    intro literal
    have whole := literal?_of_isLiteral literal
    rw [literal?_of_isNumber finished] at whole
    cases whole
  finished := ⟨[zero], .inl finished⟩

theorem isUnfinished_of_literal {word : Bytes} (some : s ≠ []) (other : number? s = none)
    (literal : IsLiteral word) (front : s <+: word) (short : s.length < word.length) :
    IsUnfinished s where
  some := some
  noNumber := by
    intro number
    have whole := number?_of_isNumber number
    rw [other] at whole
    cases whole
  noLiteral := by
    intro whole
    rw [eq_of_isLiteral whole literal front] at short
    exact Nat.lt_irrefl _ short
  finished := by
    obtain ⟨t, rfl⟩ := front
    exact ⟨t, .inr literal⟩

/-- Where a scan for a scalar looks beyond the text, the text is a number or cut short in one. -/
theorem cut_of_scalarLooks (some : s ≠ []) (noQuote : byte s 0 ≠ quote)
    (beyond : s.length < scalarLooks s) :
    number? s = Option.some s.length ∨ IsUnfinished s := by
  rw [scalarLooks, if_neg noQuote] at beyond
  by_cases whole : number? s = Option.some s.length
  · exact .inl whole
  · right
    by_cases early : s.length < numberLooks s
    · exact isUnfinished_of_number some whole ((number_cut early).resolve_left whole).1
    · split at beyond
      · omega
      · next none =>
          obtain ⟨word, member, front, short⟩ := oneOf_cut (s := s)
            (show s.length < literalLooks s by omega)
          exact isUnfinished_of_literal some (Option.not_isSome_iff_eq_none.mp none)
            (isLiteral_of_mem member) front short

/-- Of the scalars only a number is looked at beyond the text. -/
theorem Scalar.beyond {kind : Kind} (h : Scalar s kind n) (beyond : s.length < scalarLooks s) :
    kind = .number ∧ (n = s.length ∨ goesOn (byte s n) = true ∧ IsUnfinished s) := by
  have bounds := h.bounds
  unfold scalarLooks at beyond
  cases h with
  | string isQuote closed =>
      rw [if_pos isQuote, stringLooks_eq, closed, if_pos rfl] at beyond
      exact absurd beyond (Nat.not_lt_of_le bounds.2)
  | number found =>
      have noQuote : byte s 0 ≠ quote := Move.ne_of_isPlain (Move.isPlain_of_number? found) rfl
      have some : s ≠ [] := List.length_pos_iff.mp (Nat.lt_of_lt_of_le bounds.1 bounds.2)
      rw [if_neg noQuote, found, Option.isSome_some, if_pos rfl,
        Nat.max_eq_left (Nat.zero_le _)] at beyond
      refine ⟨rfl, ?_⟩
      rcases number_cut beyond with whole | ⟨finished, cuts⟩
      · exact .inl (Option.some.inj (found.symm.trans whole))
      · have part := cuts n found
        refine .inr ⟨part.goesOn, isUnfinished_of_number some ?_ finished⟩
        intro whole
        obtain rfl := Option.some.inj (found.symm.trans whole)
        exact Nat.lt_irrefl _ part.inside
  | literal found =>
      have none := number?_of_literal? found
      have looks := literalLooks_le found
      have noQuote : byte s 0 ≠ quote := Move.ne_of_isPlain (Move.isPlain_of_literal? found) rfl
      rw [if_neg noQuote] at beyond
      have early : s.length < numberLooks s := by
        split at beyond <;> omega
      rcases number_cut early with whole | ⟨finished, _⟩
      · rw [none] at whole
        cases whole
      · rw [literal?_of_isNumber finished] at found
        cases found

theorem number?_lt_scalarLooks (found : number? s = some n) : n < scalarLooks s := by
  have noQuote : byte s 0 ≠ quote := Move.ne_of_isPlain (Move.isPlain_of_number? found) rfl
  rw [scalarLooks, if_neg noQuote]
  exact Nat.lt_of_lt_of_le (lt_numberLooks found) (Nat.le_max_left _ _)

/-- What is cut short begins like a number or a literal. -/
theorem isPlain_of_isUnfinished (h : IsUnfinished s) : Move.isPlain (byte s 0) = true := by
  obtain ⟨t, finished⟩ := h.finished
  rw [← byte_append t (List.length_pos_iff.mpr h.some)]
  rcases finished with number | literal
  · exact Move.isPlain_of_number? (number?_of_isNumber number)
  · exact Move.isPlain_of_literal? (literal?_of_isLiteral literal)

/-- What is found in front of a text that is cut short is not the whole of it. -/
theorem lt_length_of_isUnfinished (h : IsUnfinished s)
    (found : number? s = some n ∨ literal? s = some n) : n < s.length := by
  have bound : n ≤ s.length := found.elim (fun h => (number?_bounds h).2) fun h =>
    (literal?_bounds h).2
  refine Nat.lt_of_le_of_ne bound ?_
  rintro rfl
  rcases found with number | literal
  · have whole := isNumber_take number
    rw [List.take_length] at whole
    exact h.noNumber whole
  · have whole := isLiteral_take literal
    rw [List.take_length] at whole
    exact h.noLiteral whole

/-- A number or a literal that is cut short is looked for beyond the text. -/
theorem lt_scalarLooks_of_isUnfinished (h : IsUnfinished s) : s.length < scalarLooks s := by
  obtain ⟨t, finished⟩ := h.finished
  have noQuote : byte s 0 ≠ quote := Move.ne_of_isPlain (isPlain_of_isUnfinished h) rfl
  have nothing (bound : (s ++ t).length ≤ s.length) : t = [] := by
    rw [List.length_append] at bound
    exact List.eq_nil_of_length_eq_zero (by omega)
  rw [scalarLooks, if_neg noQuote]
  refine Nat.lt_of_not_le fun inside => ?_
  have number := number?_extend (s := s) t (Nat.le_trans (Nat.le_max_left _ _) inside)
  rcases finished with isNumber | isLiteral
  · rw [number?_of_isNumber isNumber] at number
    rw [nothing (number?_bounds number.symm).2, List.append_nil] at isNumber
    exact h.noNumber isNumber
  · have found := literal?_of_isLiteral isLiteral
    rw [number?_of_literal? found] at number
    rw [← number] at inside
    have literal := literal?_extend (s := s) t (Nat.le_trans (Nat.le_max_right _ _) inside)
    rw [found] at literal
    rw [nothing (literal?_bounds literal.symm).2, List.append_nil] at isLiteral
    exact h.noLiteral isLiteral

end Scan

end JsonEvents
