import JsonEvents.Proofs.Grammar.Basic
import JsonEvents.Proofs.Reading.Tokens

/-!
# Scans find the tokens of the grammar

What a scan takes from the front of a text is a token of the grammar, and a
token that nothing continues is what a scan takes.
-/

namespace JsonEvents.Scan

open Ascii Grammar

/-! ## White space and digits -/

theorem all_take_run (p : UInt8 → Bool) (s : Bytes) : ∀ c ∈ s.take (run p s), p c = true := by
  induction s with
  | nil => exact nofun
  | cons c s ih =>
      intro d member
      by_cases h : p c = true
      · rw [run, List.takeWhile_cons_of_pos h, List.length_cons, List.take_succ_cons,
          List.mem_cons] at member
        rcases member with rfl | member
        · exact h
        · exact ih d member
      · rw [run, List.takeWhile_cons_of_neg h] at member
        cases member

theorem run_append {p : UInt8 → Bool} {s t : Bytes} (all : ∀ c ∈ s, p c = true)
    (stops : p (byte t 0) = false) : run p (s ++ t) = s.length := by
  have behind : run p t = 0 := run_of_not_byte stops
  rw [run, List.takeWhile_append_of_pos all, List.length_append, ← run, behind, Nat.add_zero]

theorem take_succ_of_byte {s : Bytes} {c : UInt8} {n : Nat} (h : byte s 0 = c) (hc : c ≠ 0) :
    s.take (n + 1) = c :: (s.drop 1).take n := by
  rw [eq_cons_of_byte h hc]
  rfl

theorem isBlank_take (s : Bytes) : IsBlank (s.take (blanks s)) := all_take_run isSpace s

theorem areDigits_take (s : Bytes) : AreDigits (s.take (digits s)) := all_take_run isDigit s

/-! ## Numbers -/

theorem isSign_take (s : Bytes) : IsSign (s.take (sign s)) := by
  by_cases negative : byte s 0 = minus
  · rw [sign, if_pos negative, eq_cons_of_byte negative (by decide)]
    exact .minus
  · rw [sign, if_neg negative]
    exact .none

theorem isInteger_take {s : Bytes} {n : Nat} (h : integer? s = some n) : IsInteger (s.take n) := by
  unfold integer? at h
  split at h
  · next isZero =>
      obtain rfl := Option.some.inj h
      rw [eq_cons_of_byte isZero (by decide)]
      exact .zero
  · split at h
    · next leading =>
        obtain rfl := Option.some.inj h
        rw [Nat.add_comm, take_succ_of_byte rfl (ne_zero_of_one_le leading.1)]
        exact .digits leading (areDigits_take _)
    · cases h

theorem isFraction_take (s : Bytes) : IsFraction (s.take (fraction s).2) := by
  unfold fraction
  split
  · next isPoint =>
      split
      · next digit =>
          have second : byte (s.drop 1) 0 = byte s 1 := byte_drop s 1 0
          have size : 2 + digits (s.drop 2) = digits (s.drop 2) + 1 + 1 := by omega
          rw [size, take_succ_of_byte isPoint (by decide),
            take_succ_of_byte second (ne_zero_of_isDigit digit), List.drop_drop]
          exact .digits digit (areDigits_take _)
      · exact .none
  · exact .none

theorem isExponent_take (s : Bytes) : IsExponent (s.take (exponent s)) := by
  have second : byte (s.drop 1) 0 = byte s 1 := byte_drop s 1 0
  have third : byte (s.drop 2) 0 = byte s 2 := byte_drop s 2 0
  unfold exponent
  split
  · next mark =>
      have first := fun n =>
        take_succ_of_byte (s := s) (n := n) rfl (ne_zero_of_isExponentMark mark)
      by_cases signed : isSign (byte s 1) = true
      · have lead : Window.exponentLead (byte s 1) = 2 := if_pos signed
        simp only [lead]
        split
        · next digit =>
            have size : 2 + 1 + digits (s.drop 3) = digits (s.drop 3) + 1 + 1 + 1 := by omega
            rw [size, first, take_succ_of_byte second (ne_zero_of_isSign signed), List.drop_drop,
              take_succ_of_byte third (ne_zero_of_isDigit digit), List.drop_drop]
            exact .signed mark signed digit (areDigits_take _)
        · exact .none
      · have lead : Window.exponentLead (byte s 1) = 1 := if_neg signed
        simp only [lead]
        split
        · next digit =>
            have size : 1 + 1 + digits (s.drop 2) = digits (s.drop 2) + 1 + 1 := by omega
            rw [size, first, take_succ_of_byte second (ne_zero_of_isDigit digit), List.drop_drop]
            exact .digits mark digit (areDigits_take _)
        · exact .none
  · exact .none

theorem isNumber_take {s : Bytes} {n : Nat} (h : number? s = some n) : IsNumber (s.take n) := by
  unfold number? at h
  cases leading : integer? (s.drop (sign s)) with
  | none => rw [leading] at h; cases h
  | some m =>
      rw [leading] at h
      obtain rfl := Option.some.inj h
      have behind : ∀ t : Bytes, ∃ f e, IsFraction f ∧ IsExponent e ∧ t.take (tail t) = f ++ e := by
        intro t
        unfold tail
        rcases part : fraction t with ⟨goesOn, k⟩
        have fraction := isFraction_take t
        rw [part] at fraction
        dsimp only
        rw [List.take_add]
        cases goesOn with
        | true => exact ⟨_, _, fraction, isExponent_take _, rfl⟩
        | false => exact ⟨_, _, fraction, .none, rfl⟩
      obtain ⟨f, e, fraction, exponent, text⟩ := behind (s.drop (sign s + m))
      rw [List.take_add, List.take_add, text, List.append_assoc]
      exact .parts (isSign_take s) (isInteger_take leading) fraction exponent

/-- Whether a byte behind a number would be taken with it. -/
def goesOn (c : UInt8) : Bool := isDigit c || c == point || isExponentMark c

theorem not_isDigit_of_isExponentMark {c : UInt8} (h : isExponentMark c = true) :
    isDigit c = false := by
  simp only [isExponentMark, Bool.or_eq_true, beq_iff_eq] at h
  rcases h with rfl | rfl <;> rfl

theorem digits_append {s t : Bytes} (all : AreDigits s) (stops : isDigit (byte t 0) = false) :
    digits (s ++ t) = s.length := run_append all stops

theorem integer?_digits {c : UInt8} (leading : one ≤ c ∧ c ≤ nine) (s : Bytes) :
    integer? (c :: s) = some (1 + digits s) := by
  have notZero : byte (c :: s) 0 ≠ zero := by
    rintro rfl
    exact absurd leading.1 (by decide)
  rw [integer?, if_neg notZero]
  exact if_pos leading

theorem fraction_digits {c : UInt8} (digit : isDigit c = true) (s : Bytes) :
    fraction (point :: c :: s) = (true, 2 + digits s) := by
  rw [fraction, if_pos (show byte (point :: c :: s) 0 = point from rfl)]
  exact if_pos digit

theorem not_isSign_of_isDigit {c : UInt8} (h : isDigit c = true) : isSign c = false := by
  cases signed : isSign c with
  | false => rfl
  | true =>
      simp only [isSign, Bool.or_eq_true, beq_iff_eq] at signed
      rcases signed with rfl | rfl <;> cases h

theorem exponent_digits {e c : UInt8} (mark : isExponentMark e = true) (digit : isDigit c = true)
    (s : Bytes) : exponent (e :: c :: s) = 2 + digits s := by
  have lead : Window.exponentLead (byte (e :: c :: s) 1) = 1 :=
    if_neg (Bool.eq_false_iff.mp (not_isSign_of_isDigit digit))
  rw [exponent, if_pos (show isExponentMark (byte (e :: c :: s) 0) = true from mark), lead]
  exact if_pos digit

theorem exponent_signed {e sign c : UInt8} (mark : isExponentMark e = true)
    (signed : isSign sign = true) (digit : isDigit c = true) (s : Bytes) :
    exponent (e :: sign :: c :: s) = 3 + digits s := by
  have lead : Window.exponentLead (byte (e :: sign :: c :: s) 1) = 2 := if_pos signed
  rw [exponent, if_pos (show isExponentMark (byte (e :: sign :: c :: s) 0) = true from mark), lead]
  exact if_pos digit

theorem exponent_append {s t : Bytes} (h : IsExponent s) (stops : goesOn (byte t 0) = false) :
    exponent (s ++ t) = s.length := by
  simp only [goesOn, Bool.or_eq_false_iff] at stops
  obtain ⟨⟨noDigit, _⟩, noMark⟩ := stops
  cases h with
  | none => exact if_neg (Bool.eq_false_iff.mp noMark)
  | @digits e c s mark digit all =>
      have size : digits (s ++ t) = s.length := digits_append all noDigit
      rw [List.cons_append, List.cons_append, exponent_digits mark digit, size, List.length_cons,
        List.length_cons]
      omega
  | @signed e sign c s mark signed digit all =>
      have size : digits (s ++ t) = s.length := digits_append all noDigit
      rw [List.cons_append, List.cons_append, List.cons_append, exponent_signed mark signed digit,
        size, List.length_cons, List.length_cons, List.length_cons]
      omega

theorem fraction_append {s t : Bytes} (h : IsFraction s) (noDigit : isDigit (byte t 0) = false)
    (noPoint : byte t 0 ≠ point) : fraction (s ++ t) = (true, s.length) := by
  cases h with
  | none => exact if_neg noPoint
  | @digits c s digit all =>
      have size : digits (s ++ t) = s.length := digits_append all noDigit
      rw [List.cons_append, List.cons_append, fraction_digits digit, size, List.length_cons,
        List.length_cons]
      exact congrArg (Prod.mk true) (by omega)

theorem integer?_append {s t : Bytes} (h : IsInteger s) (noDigit : isDigit (byte t 0) = false) :
    integer? (s ++ t) = some s.length := by
  cases h with
  | zero => rfl
  | @digits c s leading all =>
      have size : digits (s ++ t) = s.length := digits_append all noDigit
      rw [List.cons_append, integer?_digits leading, size, List.length_cons, Nat.add_comm]

/-- The byte behind the integer part of a number is no digit. -/
theorem not_isDigit_tail {f e t : Bytes} (fraction : IsFraction f) (exponent : IsExponent e)
    (stops : isDigit (byte t 0) = false) : isDigit (byte (f ++ (e ++ t)) 0) = false := by
  cases fraction with
  | digits => rfl
  | none =>
      cases exponent with
      | none => exact stops
      | digits mark => exact not_isDigit_of_isExponentMark mark
      | signed mark => exact not_isDigit_of_isExponentMark mark

theorem tail_append {f e t : Bytes} (fraction : IsFraction f) (exponent : IsExponent e)
    (stops : goesOn (byte t 0) = false) : tail (f ++ (e ++ t)) = f.length + e.length := by
  have apart := stops
  simp only [goesOn, Bool.or_eq_false_iff, beq_eq_false_iff_ne] at apart
  obtain ⟨⟨noDigit, noPoint⟩, _⟩ := apart
  have noPoint : byte (e ++ t) 0 ≠ point := by
    cases exponent with
    | none => exact noPoint
    | digits mark => rintro rfl; cases mark
    | signed mark => rintro rfl; cases mark
  have noDigit : isDigit (byte (e ++ t) 0) = false := not_isDigit_tail .none exponent noDigit
  rw [tail, fraction_append fraction noDigit noPoint]
  simp only [if_true, List.drop_left, exponent_append exponent stops]

theorem byte_of_isInteger {s : Bytes} (h : IsInteger s) (t : Bytes) : byte (s ++ t) 0 ≠ minus := by
  cases h with
  | zero => exact nofun
  | digits leading =>
      rintro rfl
      exact absurd leading.1 (by decide)

theorem number?_append {s t : Bytes} (h : IsNumber s) (stops : goesOn (byte t 0) = false) :
    number? (s ++ t) = some s.length := by
  have noDigit : isDigit (byte t 0) = false := by
    simp only [goesOn, Bool.or_eq_false_iff] at stops
    exact stops.1.1
  cases h with
  | @parts m i f e isSign integer fraction exponent =>
      have size : sign (m ++ (i ++ (f ++ (e ++ t)))) = m.length := by
        cases isSign with
        | none => exact if_neg (byte_of_isInteger integer _)
        | minus => rfl
      have behind : (m ++ (i ++ (f ++ (e ++ t)))).drop (m.length + i.length) = f ++ (e ++ t) := by
        rw [← List.drop_drop, List.drop_left, List.drop_left]
      simp only [List.append_assoc]
      rw [number?, size, List.drop_left,
        integer?_append integer (not_isDigit_tail fraction exponent noDigit), Option.map_some,
        behind, tail_append fraction exponent stops]
      simp only [List.length_append, Nat.add_assoc]

theorem number?_of_isNumber {s : Bytes} (h : IsNumber s) : number? s = some s.length := by
  have whole := number?_append (t := []) h rfl
  rwa [List.append_nil] at whole

/-! ## Literals -/

theorem isLiteral_take {s : Bytes} {n : Nat} (h : literal? s = some n) : IsLiteral (s.take n) := by
  have found : ∀ words : List Bytes, oneOf? s words = some n → s.take n ∈ words := by
    intro words
    induction words with
    | nil => exact nofun
    | cons word rest ih =>
        intro found
        rw [oneOf?] at found
        split at found
        · next here =>
            obtain ⟨behind, rfl⟩ := List.isPrefixOf_iff_prefix.mp here
            obtain rfl := Option.some.inj found
            rw [List.take_left]
            exact List.mem_cons_self
        · exact List.mem_cons_of_mem _ (ih found)
  have all : ∀ word ∈ Window.literals, word ∈ ["true", "false", "null"].map Bytes.ofString := by
    decide
  exact all _ (found _ h)

theorem literal?_append {s : Bytes} (h : IsLiteral s) (t : Bytes) :
    literal? (s ++ t) = some s.length := by
  simp only [IsLiteral, List.map_cons, List.map_nil, List.mem_cons, List.not_mem_nil, or_false] at h
  rcases h with rfl | rfl | rfl <;> rfl

theorem literal?_of_isLiteral {s : Bytes} (h : IsLiteral s) : literal? s = some s.length := by
  have whole := literal?_append h []
  rwa [List.append_nil] at whole

/-! ## Strings -/

/-- The backslash that the first unit of the rest of a string begins with. -/
def pendingEscape (escaped : Bool) : Bytes := if escaped then [backslash] else []

theorem units_of_stringRest {escaped : Bool} {s : Bytes} {n : Nat}
    (h : stringRest escaped s = (true, n)) :
    ∃ u, AreUnits (pendingEscape escaped ++ u) ∧ s.take n = u ++ [quote] := by
  induction s generalizing escaped n with
  | nil => cases h
  | cons c s ih =>
      by_cases isNul : c = nul
      · rw [isNul, stringRest_of_nul] at h
        cases h
      · by_cases closes : c = quote ∧ escaped = false
        · obtain ⟨rfl, rfl⟩ := closes
          rw [stringRest_of_close] at h
          obtain ⟨_, rfl⟩ := Prod.mk.inj h
          exact ⟨[], .none, rfl⟩
        · rcases behind : stringRest (c == backslash && !escaped) s with ⟨closed, m⟩
          rw [stringRest_cons s isNul closes, behind] at h
          obtain ⟨rfl, rfl⟩ := Prod.mk.inj h
          obtain ⟨u, units, text⟩ := ih behind
          refine ⟨c :: u, ?_, congrArg (List.cons c) text⟩
          cases escaped with
          | true =>
              rw [Bool.not_true, Bool.and_false] at units
              exact .escaped isNul units
          | false =>
              by_cases isBackslash : c = backslash
              · subst isBackslash
                exact units
              · have plain : (c == backslash) = false := beq_eq_false_iff_ne.mpr isBackslash
                rw [plain] at units
                exact .plain isNul (fun isQuote => closes ⟨isQuote, rfl⟩) isBackslash units

theorem openUnits_of_stringRest {escaped : Bool} {s : Bytes} {n : Nat}
    (h : stringRest escaped s = (false, n)) (nothing : s.drop n = []) :
    AreOpenUnits (pendingEscape escaped ++ s.take n) := by
  induction s generalizing escaped n with
  | nil =>
      rw [List.take_nil]
      cases escaped with
      | true => exact .backslash
      | false => exact .none
  | cons c s ih =>
      by_cases isNul : c = nul
      · rw [isNul, stringRest_of_nul] at h
        obtain ⟨_, rfl⟩ := Prod.mk.inj h
        cases nothing
      · by_cases closes : c = quote ∧ escaped = false
        · obtain ⟨rfl, rfl⟩ := closes
          rw [stringRest_of_close] at h
          cases h
        · rcases behind : stringRest (c == backslash && !escaped) s with ⟨closed, m⟩
          rw [stringRest_cons s isNul closes, behind] at h
          obtain ⟨rfl, rfl⟩ := Prod.mk.inj h
          have units := ih behind nothing
          rw [List.take_succ_cons]
          cases escaped with
          | true =>
              rw [Bool.not_true, Bool.and_false] at units
              exact .escaped isNul units
          | false =>
              by_cases isBackslash : c = backslash
              · subst isBackslash
                exact units
              · have plain : (c == backslash) = false := beq_eq_false_iff_ne.mpr isBackslash
                rw [plain] at units
                exact .plain isNul (fun isQuote => closes ⟨isQuote, rfl⟩) isBackslash units

theorem stringRest_append {u : Bytes} (units : AreUnits u) (t : Bytes) :
    stringRest false (u ++ quote :: t) = (true, u.length + 1) := by
  induction units with
  | none => rfl
  | plain some noQuote noBackslash _ ih =>
      have plain := beq_eq_false_iff_ne.mpr noBackslash
      rw [List.cons_append, stringRest_cons _ some fun closes => noQuote closes.1, plain,
        Bool.false_and, ih, List.length_cons]
  | @escaped c u some _ ih =>
      have escape := stringRest_cons (c := backslash) (c :: (u ++ quote :: t)) (by decide)
        (show ¬ (backslash = quote ∧ false = false) by decide)
      have inside := stringRest_cons (u ++ quote :: t) some
        (show ¬ (c = quote ∧ true = false) from fun closes => nomatch closes.2)
      rw [Bool.not_true, Bool.and_false, ih] at inside
      rw [beq_self_eq_true, Bool.not_false, Bool.and_true, inside] at escape
      exact escape

theorem isString_take {s : Bytes} {n : Nat} (isQuote : byte s 0 = quote)
    (closed : string s = (true, n)) : IsString (s.take n) := by
  rcases rest : stringRest false (s.drop 1) with ⟨closed', m⟩
  simp only [string, rest] at closed
  obtain ⟨rfl, rfl⟩ := Prod.mk.inj closed
  obtain ⟨u, units, text⟩ := units_of_stringRest rest
  rw [take_succ_of_byte isQuote (by decide), text]
  exact .quoted units

theorem isOpenString_take {s : Bytes} {n : Nat} (isQuote : byte s 0 = quote)
    (unclosed : string s = (false, n)) (nothing : s.drop n = []) : IsOpenString (s.take n) := by
  rcases rest : stringRest false (s.drop 1) with ⟨closed, m⟩
  simp only [string, rest] at unclosed
  obtain ⟨rfl, rfl⟩ := Prod.mk.inj unclosed
  have behind : (s.drop 1).drop m = [] := by rw [List.drop_drop, Nat.add_comm, nothing]
  rw [take_succ_of_byte isQuote (by decide)]
  exact .quoted (openUnits_of_stringRest rest behind)

theorem string_append {s : Bytes} (h : IsString s) (t : Bytes) :
    string (s ++ t) = (true, s.length) := by
  cases h with
  | @quoted u units =>
      have rest :
          stringRest false ((quote :: (u ++ [quote]) ++ t).drop 1) = (true, u.length + 1) := by
        rw [List.cons_append, List.drop_one, List.tail_cons, List.append_assoc]
        exact stringRest_append units t
      rw [string, rest, List.length_cons, List.length_append]
      rfl

theorem string_of_isString {s : Bytes} (h : IsString s) : string s = (true, s.length) := by
  have whole := string_append h []
  rwa [List.append_nil] at whole

theorem byte_of_isString {s : Bytes} (h : IsString s) (t : Bytes) : byte (s ++ t) 0 = quote := by
  cases h
  rfl

/-! ## Scalars -/

/-- A scalar that was scanned is written in the grammar. -/
theorem Scalar.writes {s : Bytes} {kind : Kind} {n : Nat} (h : Scalar s kind n) :
    ∃ v, Writes (.value v) (s.take n) := by
  cases h with
  | string isQuote closed => exact ⟨_, .string (isString_take isQuote closed)⟩
  | number found => exact ⟨_, .number (isNumber_take found)⟩
  | literal found => exact ⟨_, .literal (isLiteral_take found)⟩

end JsonEvents.Scan
