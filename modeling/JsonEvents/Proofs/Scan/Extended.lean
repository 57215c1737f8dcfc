import JsonEvents.Proofs.Scan.Looks

/-!
# Scans of a text that goes on

A scan that looks at no more bytes than a text has finds the same in every text
that goes on behind it.
-/

namespace JsonEvents.Scan

open Ascii

variable {p : UInt8 → Bool} {s : Bytes} {n : Nat}

theorem byte_append (t : Bytes) {i : Nat} (inside : i < s.length) :
    byte (s ++ t) i = byte s i := by
  rw [byte, List.getElem?_append_left inside, byte]

theorem drop_append (t : Bytes) (inside : n ≤ s.length) : (s ++ t).drop n = s.drop n ++ t :=
  List.drop_append_of_le_length inside

/-- A run that stops in front of the end stops there in every text that goes on. -/
theorem run_extend (t : Bytes) (stops : run p s < s.length) : run p (s ++ t) = run p s := by
  have part : (s.takeWhile p).length ≠ s.length := Nat.ne_of_lt stops
  rw [run, List.takeWhile_append, if_neg part, run]

theorem run_drop_extend (t : Bytes) (stops : n + (run p (s.drop n) + 1) ≤ s.length) :
    run p ((s ++ t).drop n) = run p (s.drop n) := by
  rw [drop_append t (by omega)]
  apply run_extend
  rw [List.length_drop]
  omega

/-! ## Numbers -/

theorem sign_extend (t : Bytes) (some : 0 < s.length) : sign (s ++ t) = sign s := by
  rw [sign, byte_append t some, sign]

theorem integer?_extend (t : Bytes) (inside : integerLooks s ≤ s.length) :
    integer? (s ++ t) = integer? s := by
  have least := (ahead_integer s).pos
  rw [integer?, byte_append t (by omega), integer?]
  by_cases isZero : byte s 0 = zero
  · rw [if_pos isZero, if_pos isZero]
  · rw [if_neg isZero, if_neg isZero]
    by_cases leading : one ≤ byte s 0 ∧ byte s 0 ≤ nine
    · rw [integerLooks, if_neg isZero, if_pos leading] at inside
      have same : digits ((s ++ t).drop 1) = digits (s.drop 1) := run_drop_extend t inside
      rw [if_pos leading, if_pos leading, same]
    · rw [if_neg leading, if_neg leading]

theorem fraction_extend (t : Bytes) (inside : fractionLooks s ≤ s.length) :
    fraction (s ++ t) = fraction s := by
  have least := (ahead_fraction s).pos
  rw [fraction, byte_append t (by omega), fraction]
  by_cases isPoint : byte s 0 = point
  · rw [fractionLooks, if_pos isPoint] at inside
    have second : byte (s ++ t) 1 = byte s 1 := byte_append t (by split at inside <;> omega)
    rw [if_pos isPoint, if_pos isPoint, second]
    by_cases digit : isDigit (byte s 1) = true
    · rw [if_pos digit] at inside
      have same : digits ((s ++ t).drop 2) = digits (s.drop 2) := run_drop_extend t inside
      rw [if_pos digit, if_pos digit, same]
    · rw [if_neg digit, if_neg digit]
  · rw [if_neg isPoint, if_neg isPoint]

theorem exponent_extend (t : Bytes) (inside : exponentLooks s ≤ s.length) :
    exponent (s ++ t) = exponent s := by
  have least := (ahead_exponent s).pos
  rw [exponent, byte_append t (by omega), exponent]
  by_cases mark : isExponentMark (byte s 0) = true
  · have leadPos := Window.one_le_exponentLead (byte s 1)
    rw [exponentLooks, if_pos mark] at inside
    dsimp only at inside
    have second : byte (s ++ t) 1 = byte s 1 := byte_append t (by split at inside <;> omega)
    rw [if_pos mark, if_pos mark, second]
    generalize Window.exponentLead (byte s 1) = lead at *
    have third : byte (s ++ t) lead = byte s lead := byte_append t (by split at inside <;> omega)
    dsimp only
    rw [third]
    by_cases digit : isDigit (byte s lead) = true
    · rw [if_pos digit] at inside
      have same : digits ((s ++ t).drop (lead + 1)) = digits (s.drop (lead + 1)) :=
        run_drop_extend t inside
      rw [if_pos digit, if_pos digit, same]
    · rw [if_neg digit, if_neg digit]
  · rw [if_neg mark, if_neg mark]

theorem tail_extend (t : Bytes) (inside : tailLooks s ≤ s.length) : tail (s ++ t) = tail s := by
  have bound := fraction_le s
  unfold tailLooks at inside
  unfold tail
  rcases part : fraction s with ⟨goesOn, n⟩
  rw [part] at inside bound
  dsimp only at inside bound
  have front : fraction (s ++ t) = (goesOn, n) := by
    rw [← part]
    exact fraction_extend t (by omega)
  rw [front]
  cases goesOn with
  | false => rfl
  | true =>
      rw [if_pos rfl] at inside
      have same : exponent (s.drop n ++ t) = exponent (s.drop n) := by
        apply exponent_extend
        rw [List.length_drop]
        omega
      dsimp only
      rw [drop_append t bound, same]

theorem number?_extend (t : Bytes) (inside : numberLooks s ≤ s.length) :
    number? (s ++ t) = number? s := by
  have signed := sign_le s
  have least := (ahead_integer (s.drop (sign s))).pos
  unfold numberLooks at inside
  dsimp only at inside
  have integer : integer? (s.drop (sign s) ++ t) = integer? (s.drop (sign s)) := by
    apply integer?_extend
    rw [List.length_drop]
    omega
  unfold number?
  rw [sign_extend t (by omega), drop_append t signed, integer]
  cases found : integer? (s.drop (sign s)) with
  | none => rfl
  | some n =>
      have bound := (integer?_bounds found).2
      rw [List.length_drop] at bound
      rw [found] at inside
      dsimp only at inside
      rw [List.drop_drop] at inside
      have same : tail (s.drop (sign s + n) ++ t) = tail (s.drop (sign s + n)) := by
        apply tail_extend
        rw [List.length_drop]
        omega
      rw [Option.map_some, Option.map_some, drop_append t (by omega), same]

/-! ## Literals -/

theorem isPrefixOf_extend (t : Bytes) {word : Bytes} (inside : spellsLooks s word ≤ s.length) :
    word.isPrefixOf (s ++ t) = word.isPrefixOf s := by
  induction word generalizing s with
  | nil => rfl
  | cons c word ih =>
      cases s with
      | nil =>
          rw [spellsLooks] at inside
          split at inside <;> simp at inside
      | cons d s =>
          rw [spellsLooks, byte_cons, List.drop_one, List.tail_cons] at inside
          rw [List.cons_append, List.isPrefixOf, List.isPrefixOf]
          by_cases same : d = c
          · rw [if_pos same, List.length_cons] at inside
            rw [ih (by omega)]
          · rw [beq_eq_false_iff_ne.mpr (Ne.symm same), Bool.false_and, Bool.false_and]

theorem oneOf?_extend (t : Bytes) {words : List Bytes} (inside : oneOfLooks s words ≤ s.length) :
    oneOf? (s ++ t) words = oneOf? s words := by
  induction words with
  | nil => rfl
  | cons word rest ih =>
      rw [oneOfLooks] at inside
      rw [oneOf?, isPrefixOf_extend t (by omega), oneOf?]
      by_cases here : word.isPrefixOf s = true
      · rw [if_pos here, if_pos here]
      · rw [if_neg here] at inside
        rw [if_neg here, if_neg here, ih (by omega)]

theorem literal?_extend (t : Bytes) (inside : literalLooks s ≤ s.length) :
    literal? (s ++ t) = literal? s := oneOf?_extend t inside

/-! ## Strings -/

theorem stringRest_extend (t : Bytes) {escaped : Bool}
    (inside : stringRestLooks escaped s ≤ s.length) :
    stringRest escaped (s ++ t) = stringRest escaped s := by
  induction s generalizing escaped with
  | nil => exact absurd inside (Nat.not_succ_le_zero 0)
  | cons c s ih =>
      rw [List.cons_append]
      by_cases isNul : c = nul
      · rw [isNul, stringRest_of_nul, stringRest_of_nul]
      · by_cases closes : c = quote ∧ escaped = false
        · obtain ⟨rfl, rfl⟩ := closes
          rw [stringRest_of_close, stringRest_of_close]
        · rw [stringRestLooks_cons s isNul closes, List.length_cons] at inside
          rw [stringRest_cons _ isNul closes, stringRest_cons _ isNul closes, ih (by omega)]

theorem string_extend (t : Bytes) (inside : stringLooks s ≤ s.length) :
    string (s ++ t) = string s := by
  have least := stringRestLooks_pos false (s.drop 1)
  rw [stringLooks] at inside
  have same : stringRest false (s.drop 1 ++ t) = stringRest false (s.drop 1) := by
    apply stringRest_extend
    rw [List.length_drop]
    omega
  rw [string, drop_append t (by omega), same, string]

end JsonEvents.Scan
