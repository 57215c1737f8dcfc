import JsonEvents.Proofs.Numeral.Closest
import JsonEvents.Proofs.Numeral.Printed
import JsonEvents.Proofs.Reading.Places

/-!
# Numbers with a point and an exponent

Of all texts in front of a text that have the form of a decimal, or of a number
that may also have an exponent, the scanners take the longest one and give the
finite number closest to its value, or nothing where the value is too large
(`scanners_closest`).  A fraction or an exponent that has no digits is left, and
the parts that are taken are those of the grammar (`scanFloat_cases`,
`scanDecimal_cases`).
-/

namespace JsonEvents

open Ascii Grammar
open Bytes (no_nul_cons no_nul_append)

namespace Numeral

variable {s t u : Bytes} {c : UInt8}

/-! ## Parts in front of a text -/

theorem digitRun_eq_take (s : Bytes) : digitRun s = s.take (Scan.digits s) :=
  List.prefix_iff_eq_take.mp (List.takeWhile_prefix isDigit)

theorem digitRun_of_not_digit (plain : isDigit (Scan.byte s 0) = false) : digitRun s = [] :=
  List.eq_nil_of_length_eq_zero (Scan.run_of_not_byte plain)

theorem fractionRun_eq_take (s : Bytes) : fractionRun s = (s.take (Scan.fraction s).2).tail := by
  cases s with
  | nil => rfl
  | cons c rest =>
      have second : Scan.byte (c :: rest) 1 = Scan.byte rest 0 := rfl
      have first : Scan.byte (c :: rest) 0 = c := rfl
      rw [fractionRun, Scan.fraction, first, second]
      by_cases isPoint : c = point
      · rw [if_pos isPoint, if_pos isPoint]
        by_cases digit : isDigit (Scan.byte rest 0) = true
        · have run : Scan.digits rest = Scan.digits (rest.drop 1) + 1 :=
            Scan.run_of_byte rfl digit
          have size : 2 + Scan.digits ((c :: rest).drop 2) = Scan.digits rest + 1 := by
            rw [run, List.drop_succ_cons]
            omega
          rw [if_pos digit, size, List.take_succ_cons, List.tail_cons, digitRun_eq_take]
        · rw [if_neg digit, digitRun_of_not_digit (Bool.eq_false_iff.mpr digit)]
          rfl
      · rw [if_neg isPoint, if_neg isPoint]
        rfl

/-- Where a digit is in front, the digits begin with it. -/
theorem digitRun_of_digit (digit : isDigit (Scan.byte s 0) = true) :
    digitRun s = Scan.byte s 0 :: digitRun (s.drop 1) := by
  rw [Scan.eq_cons_of_byte rfl (ne_zero_of_isDigit digit)]
  exact List.takeWhile_cons_of_pos digit

namespace Splits

variable {m rest : Bytes} {negative : Bool}

theorem eq_append (splits : Splits s m negative rest) : s = m ++ rest := by
  cases splits <;> rfl

theorem exponentLead (splits : Splits s m negative rest) :
    Window.exponentLead (Scan.byte s 0) = 1 + m.length := by
  cases splits with
  | sign sign => exact if_pos sign
  | plain plain => exact if_neg (Bool.eq_false_iff.mp plain)

theorem isAnySign (splits : Splits s m negative rest) :
    IsAnySign m ∧ negative = (m == [minus]) := by
  cases splits with
  | sign sign => exact ⟨.sign sign, by simp⟩
  | plain => exact ⟨.none, rfl⟩

/-- Behind its mark an exponent is all that has the form. -/
theorem scan_exponent (splits : Splits s m negative rest) (mark : isExponentMark c = true) :
    Scan.exponent (c :: s) =
      if isDigit (Scan.byte rest 0) then 1 + m.length + Scan.digits rest else 0 := by
  have first : Scan.byte (c :: s) 0 = c := rfl
  have second : Scan.byte (c :: s) 1 = Scan.byte s 0 := rfl
  have behind : ∀ n, (c :: s).drop (1 + m.length + n) = rest.drop n := by
    intro n
    rw [splits.eq_append, Nat.add_assoc, Nat.add_comm, List.drop_succ_cons, ← List.drop_drop,
      List.drop_left]
  have third : Scan.byte (c :: s) (1 + m.length) = Scan.byte rest 0 := by
    have start := Scan.byte_drop (c :: s) (1 + m.length) 0
    rw [Nat.add_zero] at start
    rw [← start]
    exact congrArg (Scan.byte · 0) (behind 0)
  rw [Scan.exponent, first, if_pos mark, second, splits.exponentLead]
  simp only [third, behind]
  by_cases digit : isDigit (Scan.byte rest 0) = true
  · have run : Scan.digits rest = Scan.digits (rest.drop 1) + 1 := Scan.run_of_byte rfl digit
    rw [if_pos digit, if_pos digit]
    omega
  · rw [if_neg digit, if_neg digit]

theorem isExponent (splits : Splits s m negative rest) (mark : isExponentMark c = true)
    (digit : isDigit (Scan.byte rest 0) = true) : IsExponent (c :: (m ++ digitRun rest)) := by
  rw [digitRun_of_digit digit]
  cases splits with
  | sign sign => exact .signed mark sign digit (areDigits_digitRun _)
  | plain => exact .digits mark digit (areDigits_digitRun _)

/-- Only the digits behind the mark and the sign matter. -/
theorem exponentOf_digitRun (splits : Splits s m negative rest) (mark : isExponentMark c = true)
    (digit : isDigit (Scan.byte rest 0) = true) :
    exponentOf (c :: s) = exponentOf (c :: (m ++ digitRun rest)) := by
  have own : digitRun (digitRun rest) = digitRun rest := digitRun_of_all (areDigits_digitRun rest)
  have split : splitSign s = (m.length, negative, rest) ∧
      splitSign (m ++ digitRun rest) = (m.length, negative, digitRun rest) := by
    cases splits with
    | sign sign => exact ⟨if_pos sign, if_pos sign⟩
    | plain plain =>
        rw [List.nil_append, digitRun_of_digit digit, splitSign_of_isDigit digit,
          Scan.eq_cons_of_byte rfl (ne_zero_of_isDigit digit), splitSign_of_isDigit digit]
        exact ⟨rfl, rfl⟩
  rw [exponentOf, exponentOf, if_pos mark, if_pos mark, split.1, split.2]
  simp only [own]

end Splits

theorem exponentOf_eq_take (s : Bytes) :
    exponentOf s = (Scan.exponent s, exponentValue (s.take (Scan.exponent s))) := by
  cases s with
  | nil => rfl
  | cons c s =>
      by_cases mark : isExponentMark c = true
      · obtain ⟨m, negative, rest, splits, split⟩ := exists_splits s
        rw [splits.scan_exponent mark]
        by_cases digit : isDigit (Scan.byte rest 0) = true
        · have text : (c :: s).take (1 + m.length + Scan.digits rest) =
              c :: (m ++ digitRun rest) := by
            rw [splits.eq_append, Nat.add_assoc, Nat.add_comm, List.take_succ_cons,
              List.take_length_add_append, digitRun_eq_take]
          have size : (c :: (m ++ digitRun rest)).length = 1 + m.length + Scan.digits rest := by
            have run : (digitRun rest).length = Scan.digits rest := rfl
            rw [List.length_cons, List.length_append, run]
            omega
          rw [if_pos digit, splits.exponentOf_digitRun mark digit,
            exponentOf_eq (splits.isExponent mark digit), text, size]
        · rw [if_neg digit, exponentOf, if_pos mark, split]
          simp only [digitRun_of_not_digit (Bool.eq_false_iff.mpr digit)]
          rfl
      · have none : Scan.exponent (c :: s) = 0 := if_neg mark
        rw [exponentOf, if_neg mark, none]
        rfl

theorem tail_eq (s : Bytes) : Scan.tail s =
    (Scan.fraction s).2 + Scan.exponent (s.drop (Scan.fraction s).2) := by
  have parts : Scan.tail s = (Scan.fraction s).2 +
      if (Scan.fraction s).1 then Scan.exponent (s.drop (Scan.fraction s).2) else 0 := rfl
  by_cases goesOn : (Scan.fraction s).1 = true
  · rw [parts, if_pos goesOn]
  · -- Behind the digits there is a point then, and no exponent mark.
    have here : Scan.byte s 0 = point ∧ (Scan.fraction s).2 = 0 := by
      unfold Scan.fraction at goesOn ⊢
      grind
    have none : Scan.exponent s = 0 := by
      rw [Scan.exponent, here.1]
      rfl
    rw [parts, if_neg goesOn, here.2, List.drop_zero, none]

/-- The fraction and the exponent that a scanner takes behind the digits. -/
structure TakesTail (s f e : Bytes) : Prop where
  front : f ++ e <+: s
  fraction : IsFraction f
  exponent : IsExponent e
  run : fractionRun s = f.tail
  value : exponentOf (s.drop f.length) = (e.length, exponentValue e)
  size : f.length + e.length = Scan.tail s

theorem exists_takesTail (s : Bytes) : ∃ f e, TakesTail s f e := by
  generalize behind : s.drop (Scan.fraction s).2 = rest
  have fractionSize : (s.take (Scan.fraction s).2).length = (Scan.fraction s).2 :=
    List.length_take_of_le (Scan.fraction_le s)
  have exponentSize : (rest.take (Scan.exponent rest)).length = Scan.exponent rest :=
    List.length_take_of_le (Scan.exponent_le rest)
  refine ⟨s.take (Scan.fraction s).2, rest.take (Scan.exponent rest), ?_, Scan.isFraction_take s,
    Scan.isExponent_take rest, fractionRun_eq_take s, ?_, ?_⟩
  · rw [← behind, ← List.take_add]
    exact List.take_prefix _ s
  · rw [fractionSize, behind, exponentSize]
    exact exponentOf_eq_take rest
  · rw [fractionSize, exponentSize, tail_eq, behind]

/-! ## Numbers with an exponent -/

/-- A number with an optional sign, digits, and an optional fraction and exponent. -/
def IsFloat (s : Bytes) : Prop := ∃ negative d, DenotesFloat s negative d

/-- Behind fewer digits than there are nothing else of a number follows. -/
theorem le_digits_tail {f e : Bytes} (unsigned : IsUnsigned u) (fraction : IsFraction f)
    (exponent : IsExponent e) (begins : s = u ++ (f ++ (e ++ t))) :
    u.length + (f.length + e.length) ≤ Scan.digits s + Scan.tail (s.drop (Scan.digits s)) := by
  by_cases none : f ++ e = []
  · obtain ⟨rfl, rfl⟩ := List.append_eq_nil_iff.mp none
    have digits := Scan.le_digits_append unsigned.2 ([] ++ ([] ++ t))
    rw [← begins] at digits
    simp only [List.length_nil]
    omega
  · have stops := Scan.not_isDigit_of_ne_nil fraction exponent none t
    have digits := Scan.digits_append unsigned.2 stops
    have behind := Scan.le_tail_append fraction exponent t
    rw [← begins] at digits
    rw [digits, begins, List.drop_left]
    exact Nat.add_le_add_left behind _

/-- What is taken of a number: its longest text, and what that denotes. -/
structure Takes (form : Bytes → Prop) (s : Bytes) (found : Option (Nat × Binary64)) (t : Bytes)
    (negative : Bool) (d : Decimal) : Prop where
  longest : IsLongest form s t
  denotes : DenotesFloat t negative d
  found : found = rounded t.length negative d

namespace Splits

variable {m rest : Bytes} {negative : Bool}

theorem length_le_of_isFloat (splits : Splits s m negative rest) (front : u <+: s)
    (isFloat : IsFloat u) : digitRun rest ≠ [] ∧
      u.length ≤ m.length + (Scan.digits rest + Scan.tail (rest.drop (Scan.digits rest))) := by
  obtain ⟨negative', d, denotes⟩ := isFloat
  cases denotes with
  | @parts m' i f e sign unsigned fraction exponent =>
      have isSigned : IsSigned (m' ++ i) := by
        cases sign with
        | none => exact .plain unsigned
        | sign sign => exact .signed sign unsigned
      obtain ⟨z, text⟩ := front
      have begins : m' ++ i <+: s := ⟨f ++ (e ++ z), by simp only [← text, List.append_assoc]⟩
      obtain ⟨i', same, ⟨w, digits⟩, unsigned'⟩ := splits.exists_rest begins isSigned
      have whole : rest = i' ++ (f ++ (e ++ z)) := by
        apply (List.append_right_inj m).mp
        rw [← splits.eq_append, ← List.append_assoc, ← same, ← text]
        simp only [List.append_assoc]
      refine ⟨fun none => not_isUnsigned none i' ⟨_, whole.symm⟩ unsigned', ?_⟩
      have size := le_digits_tail unsigned' fraction exponent whole
      have lengths := congrArg List.length same
      simp only [List.length_append] at lengths ⊢
      omega

theorem exists_takes (splits : Splits s m negative rest)
    (split : splitSign s = (m.length, negative, rest)) (some : digitRun rest ≠ []) :
    ∃ t d, Takes IsFloat s (scanFloat s) t negative d := by
  obtain ⟨sign, same⟩ := splits.isAnySign
  obtain ⟨f, e, tail⟩ := exists_takesTail (rest.drop (Scan.digits rest))
  have run : (digitRun rest).length = Scan.digits rest := rfl
  have denotes := DenotesFloat.parts sign ⟨some, areDigits_digitRun rest⟩ tail.fraction tail.exponent
  rw [← same] at denotes
  have size : (m ++ (digitRun rest ++ (f ++ e))).length =
      m.length + (Scan.digits rest + f.length) + e.length := by
    simp only [List.length_append, run]
    omega
  refine ⟨_, _, ⟨?_, ⟨_, _, denotes⟩, ?_⟩, denotes, ?_⟩
  · rw [splits.eq_append, List.prefix_append_right_inj]
    obtain ⟨z, behind⟩ := tail.front
    refine ⟨z, ?_⟩
    rw [List.append_assoc, behind, digitRun_eq_take, List.take_append_drop]
  · intro u front isFloat
    have bound := (splits.length_le_of_isFloat front isFloat).2
    rw [← tail.size] at bound
    rw [size]
    omega
  · rw [scanFloat, split, size]
    simp only [List.isEmpty_eq_false_iff.mpr some, Bool.false_eq_true, if_false, run, tail.run,
      fractionSize_tail tail.fraction, ← List.drop_drop, tail.value]

end Splits

theorem scanFloat_cases (s : Bytes) :
    (∃ t negative d, Takes IsFloat s (scanFloat s) t negative d) ∨
      (∀ t, t <+: s → ¬ IsFloat t) ∧ scanFloat s = none := by
  obtain ⟨m, negative, rest, splits, split⟩ := exists_splits s
  by_cases none : digitRun rest = []
  · right
    refine ⟨fun t front isFloat => (splits.length_le_of_isFloat front isFloat).1 none, ?_⟩
    rw [scanFloat, split]
    simp only [none]
    rfl
  · obtain ⟨t, d, takes⟩ := splits.exists_takes split none
    exact .inl ⟨t, negative, d, takes⟩

/-! ## Numbers without an exponent -/

theorem le_fraction_append {f : Bytes} (fraction : IsFraction f) (t : Bytes) :
    f.length ≤ (Scan.fraction (f ++ t)).2 := by
  cases fraction with
  | none => exact Nat.zero_le _
  | @digits c ds digit all =>
      have more := Scan.le_digits_append all t
      rw [List.cons_append, List.cons_append, Scan.fraction_digits digit, List.length_cons,
        List.length_cons]
      dsimp only
      omega

theorem wholeRun_of_integer? {n : Nat} (found : Scan.integer? s = some n) :
    wholeRun s = s.take n := by
  cases s with
  | nil => cases found
  | cons c rest =>
      have first : Scan.byte (c :: rest) 0 = c := rfl
      rw [Scan.integer?, first] at found
      rw [wholeRun]
      split at found
      · next isZero =>
          obtain rfl := Option.some.inj found
          rw [if_pos isZero, isZero]
          rfl
      · next notZero =>
          split at found
          · next leading =>
              have digit : isDigit (Scan.byte (c :: rest) 0) = true := isDigit_of_leading leading
              obtain rfl := Option.some.inj found
              rw [if_neg notZero, digitRun_of_digit digit, Nat.add_comm, List.take_succ_cons,
                digitRun_eq_take]
              rfl
          · cases found

theorem wholeRun_of_none (lost : Scan.integer? s = none) : wholeRun s = [] := by
  cases s with
  | nil => rfl
  | cons c rest =>
      have first : Scan.byte (c :: rest) 0 = c := rfl
      rw [Scan.integer?, first] at lost
      split at lost
      · cases lost
      · next notZero =>
          split at lost
          · cases lost
          · next other =>
              rw [wholeRun, if_neg notZero]
              apply digitRun_of_not_digit
              exact Bool.eq_false_iff.mpr fun digit => other (leading_of_isDigit digit notZero)

/-- The sign of a number without an exponent can only be a minus. -/
theorem sign_eq (s : Bytes) :
    (s.head? == some minus) = (s.take (Scan.sign s) == [minus]) ∧
      (if s.take (Scan.sign s) == [minus] then 1 else 0) = Scan.sign s := by
  cases s with
  | nil => exact ⟨rfl, rfl⟩
  | cons c rest =>
      have first : Scan.byte (c :: rest) 0 = c := rfl
      rw [Scan.sign, first]
      by_cases negative : c = minus
      · subst negative
        exact ⟨rfl, rfl⟩
      · rw [if_neg negative]
        simp [negative]

theorem length_le_of_isPlain (front : u <+: s) (isPlain : IsPlain u) :
    ∃ n, Scan.integer? (s.drop (Scan.sign s)) = some n ∧
      u.length ≤ Scan.sign s + (n + (Scan.fraction (s.drop (Scan.sign s + n))).2) := by
  obtain ⟨z, text⟩ := front
  cases isPlain with
  | @parts m i f sign integer fraction =>
      rw [List.append_assoc, List.append_assoc] at text
      rw [← text, Scan.sign_append sign integer, List.drop_left]
      by_cases none : f = []
      · subst none
        obtain ⟨n, found, more⟩ := Scan.le_integer?_append integer z
        refine ⟨n, found, ?_⟩
        simp only [List.length_append, List.length_nil]
        omega
      · have stops := Scan.not_isDigit_of_ne_nil fraction .none (by simpa using none) z
        have behind := le_fraction_append fraction z
        refine ⟨i.length, Scan.integer?_append integer stops, ?_⟩
        rw [← List.drop_drop, List.drop_left, List.drop_left]
        simp only [List.length_append]
        omega

/-- The parts of a number without an exponent denote its value. -/
theorem DenotesFloat.plain {m i f : Bytes} (sign : IsSign m) (integer : IsInteger i)
    (fraction : IsFraction f) :
    DenotesFloat (m ++ (i ++ f)) (m == [minus]) ⟨Digits.value (i ++ f.tail), -f.tail.length⟩ := by
  have fixed : exponentValue [] = 0 := rfl
  have denotes := (Denotes.parts sign integer fraction .none).float
  rwa [List.append_nil, fixed, Int.zero_sub] at denotes

theorem exists_takes_of_integer? {n : Nat} (found : Scan.integer? (s.drop (Scan.sign s)) = some n) :
    ∃ t negative d, Takes IsPlain s (scanDecimal s) t negative d := by
  generalize behind : s.drop (Scan.sign s) = rest at found
  have bounds := Scan.integer?_bounds found
  have whole := Scan.isInteger_take found
  have fraction := Scan.isFraction_take (rest.drop n)
  have drop : s.drop (Scan.sign s + n) = rest.drop n := by rw [← List.drop_drop, behind]
  have signSize : (s.take (Scan.sign s)).length = Scan.sign s :=
    List.length_take_of_le (Scan.sign_le s)
  have wholeSize : (rest.take n).length = n := List.length_take_of_le bounds.2
  have fractionSize : ((rest.drop n).take (Scan.fraction (rest.drop n)).2).length =
      (Scan.fraction (rest.drop n)).2 := List.length_take_of_le (Scan.fraction_le _)
  have size : (s.take (Scan.sign s) ++ (rest.take n ++
      (rest.drop n).take (Scan.fraction (rest.drop n)).2)).length =
        Scan.sign s + (n + (Scan.fraction (rest.drop n)).2) := by
    simp only [List.length_append, signSize, wholeSize, fractionSize]
  have plain := IsPlain.parts (Scan.isSign_take s) whole fraction
  refine ⟨_, _, _, ⟨?_, plain, ?_⟩, .plain (Scan.isSign_take s) whole fraction, ?_⟩
  · rw [← List.take_add, ← behind, ← List.take_add]
    exact List.take_prefix _ s
  · intro u front isPlain
    obtain ⟨k, same, bound⟩ := length_le_of_isPlain front isPlain
    rw [behind, found] at same
    obtain rfl := Option.some.inj same
    rwa [drop, ← size] at bound
  · have some : (rest.take n).isEmpty = false :=
      List.isEmpty_eq_false_iff.mpr (areDigits_of_isInteger whole).2
    obtain ⟨sign, one⟩ := sign_eq s
    rw [scanDecimal, size, sign]
    simp only [one, behind, wholeRun_of_integer? found, some, Bool.false_eq_true, if_false,
      wholeSize, fractionRun_eq_take]
    rw [fractionSize_tail fraction, fractionSize, Nat.add_assoc]

theorem scanDecimal_cases (s : Bytes) :
    (∃ t negative d, Takes IsPlain s (scanDecimal s) t negative d) ∨
      (∀ t, t <+: s → ¬ IsPlain t) ∧ scanDecimal s = none := by
  cases found : Scan.integer? (s.drop (Scan.sign s)) with
  | some n => exact .inl (exists_takes_of_integer? found)
  | none =>
      right
      constructor
      · intro t front isPlain
        obtain ⟨n, some, -⟩ := length_le_of_isPlain front isPlain
        cases found.symm.trans some
      · rw [scanDecimal]
        simp only [(sign_eq s).1, (sign_eq s).2, wholeRun_of_none found]
        rfl

/-! ## What is found -/

/-- What a caller is given: the length and the number that were found, or zeros. -/
def floatOutcome (found : Option (Nat × Binary64)) : Nat × Binary64 := found.getD (0, ⟨0⟩)

/--
The length of the longest text of a form and the finite number closest to its
value, if there is such a text and its value is below the limit; or else zeros.
-/
inductive FindsFloat (form : Bytes → Prop) (s : Bytes) : Nat × Binary64 → Prop
  | inside {t : Bytes} {negative : Bool} {d : Decimal} {f : Binary64}
      (longest : IsLongest form s t) (denotes : DenotesFloat t negative d)
      (fits : d.value < Binary64.limit)
      (closest : Binary64.IsClosest (signedRat negative d.value) f)
      (sign : f.isNegative = negative) : FindsFloat form s (t.length, f)
  | outside {t : Bytes} {negative : Bool} {d : Decimal} (longest : IsLongest form s t)
      (denotes : DenotesFloat t negative d) (tooLarge : Binary64.limit ≤ d.value) :
      FindsFloat form s (0, ⟨0⟩)
  | nothing (none : ∀ t, t <+: s → ¬ form t) : FindsFloat form s (0, ⟨0⟩)

/-- The cases that a scanner has, of a form that it takes. -/
structure Scans (form : Bytes → Prop) (scan : Bytes → Option (Nat × Binary64)) : Prop where
  cases : ∀ s, (∃ t negative d, Takes form s (scan s) t negative d) ∨
    (∀ t, t <+: s → ¬ form t) ∧ scan s = none

theorem scans_float : Scans IsFloat scanFloat := ⟨scanFloat_cases⟩

theorem scans_decimal : Scans IsPlain scanDecimal := ⟨scanDecimal_cases⟩

variable {form : Bytes → Prop} {scan : Bytes → Option (Nat × Binary64)}

theorem Scans.finds (scans : Scans form scan) (s : Bytes) :
    FindsFloat form s (floatOutcome (scan s)) := by
  rcases scans.cases s with ⟨t, negative, d, longest, denotes, found⟩ | ⟨nothing, found⟩
  · rw [found, rounded_eq]
    by_cases large : d.IsTooLarge
    · rw [if_pos large]
      exact .outside longest denotes ((Decimal.isTooLarge_iff d).mp large)
    · have finite := d.nearest_lt_infinity_iff.mpr large
      rw [if_neg large]
      exact .inside longest denotes (not_le.mp (mt (Decimal.isTooLarge_iff d).mpr large))
        (Decimal.isClosest_nearest large negative)
        (Binary64.magnitude_ofMagnitude negative finite).2
  · rw [found]
    exact .nothing nothing

theorem FindsFloat.isLongest {n : Nat} {f : Binary64} (finds : FindsFloat form s (n, f))
    (some : n ≠ 0) : IsLongest form s (s.take n) := by
  cases finds with
  | inside longest => rwa [← List.prefix_iff_eq_take.mp longest.front]
  | outside | nothing => exact absurd rfl some

theorem eq_of_isLongest (longest : IsLongest form s t) (other : IsLongest form s u) : t = u := by
  have more := other.longest t longest.front longest.formed
  have less := longest.longest u other.front other.formed
  exact (List.prefix_of_prefix_length_le longest.front other.front more).eq_of_length_le less

/-- A scanner finds what is found in the longest text alone, whatever follows it. -/
theorem Scans.eq_scanFloat (scans : Scans form scan) (longest : IsLongest form s t) :
    scan s = scanFloat t := by
  rcases scans.cases s with ⟨u, negative, d, other, denotes, found⟩ | ⟨nothing, -⟩
  · obtain rfl := eq_of_isLongest longest other
    rw [found, rounded_eq, scanFloat_of_denotesFloat denotes]
  · exact absurd longest.formed (nothing t longest.front)

/-! ## Copies -/

/--
The copy of a text that is converted to a number.  It ends with a NUL, and is
put in a place of 64 bytes that held others before, or by itself if it is longer.
-/
def copied (before t : Bytes) : Bytes :=
  if t.length < 64 then t ++ nul :: before.drop (t.length + 1) else t ++ [nul]

theorem untilNul_copied (before : Bytes) (some : (0 : UInt8) ∉ t) :
    (copied before t).untilNul = t := by
  have upTo : ∀ rest : Bytes, Bytes.untilNul (t ++ nul :: rest) = t := by
    intro rest
    have all : ∀ c ∈ t, (c != 0) = true := fun c member =>
      bne_iff_ne.mpr fun isNul => some (isNul ▸ member)
    rw [Bytes.untilNul, List.takeWhile_append_of_pos all]
    exact List.append_nil t
  unfold copied
  split
  · exact upTo _
  · exact upTo []

theorem DenotesFloat.no_nul {negative : Bool} {d : Decimal} (denotes : DenotesFloat t negative d) :
    (0 : UInt8) ∉ t := by
  cases denotes with
  | @parts m i f e sign unsigned fraction exponent =>
      have noSign : (0 : UInt8) ∉ m := by
        cases sign with
        | none => exact List.not_mem_nil
        | sign sign => exact no_nul_cons (ne_zero_of_isSign sign) List.not_mem_nil
      have digits : AreDigits i := unsigned.2
      exact no_nul_append noSign
        (no_nul_append digits.no_nul (no_nul_append fraction.no_nul exponent.no_nul))

/-- What a scanner finds is decided by a text in front, alone or in a copy of it. -/
structure IsDecidedBy (form : Bytes → Prop) (scan : Bytes → Option (Nat × Binary64))
    (s t : Bytes) : Prop where
  behind : ∀ u, IsLongest form u t → scan u = scan s
  copy : ∀ before, scanFloat (copied before t).untilNul = scan s

theorem Scans.isDecidedBy (scans : Scans form scan) (longest : IsLongest form s t) :
    IsDecidedBy form scan s t := by
  have alone := scans.eq_scanFloat longest
  refine ⟨fun u other => (scans.eq_scanFloat other).trans alone.symm, fun before => ?_⟩
  rcases scans.cases s with ⟨u, negative, d, other, denotes, -⟩ | ⟨nothing, -⟩
  · obtain rfl := eq_of_isLongest longest other
    rw [untilNul_copied before denotes.no_nul, alone]
  · exact absurd longest.formed (nothing t longest.front)

/--
The scanners give the length of the longest number in front of a text, with an
exponent or without one, and the finite number closest to its value, if that is
below the limit; or else zeros.  What follows the number does not matter, and
neither does where its copy is put to be converted.
-/
theorem scanners_closest (s : Bytes) :
    FindsFloat IsFloat s (floatOutcome (scanFloat s)) ∧
      FindsFloat IsPlain s (floatOutcome (scanDecimal s)) ∧
      (∀ t, IsLongest IsFloat s t → IsDecidedBy IsFloat scanFloat s t) ∧
      ∀ t, IsLongest IsPlain s t → IsDecidedBy IsPlain scanDecimal s t :=
  ⟨scans_float.finds s, scans_decimal.finds s, fun _ => scans_float.isDecidedBy,
    fun _ => scans_decimal.isDecidedBy⟩

/-- A number that is too long for the place of its copy, and an exponent that has no digits. -/
def longNumber : Bytes := plus :: (List.replicate 70 zero ++ [point, 53, lowerE, plus])

/-- A number with an exponent, which is not taken by both scanners. -/
def shortNumber : Bytes := [minus, zero, point, 53, lowerE, one]

theorem scanners_closest_long :
    (IsLongest IsFloat longNumber (longNumber.take 73) ∧
      scanFloat longNumber = some (73, ⟨4602678819172646912⟩) ∧
      IsDecidedBy IsFloat scanFloat longNumber (longNumber.take 73)) ∧
    IsLongest IsPlain shortNumber (shortNumber.take 4) ∧
      scanDecimal shortNumber = some (4, ⟨13826050856027422720⟩) ∧
      IsDecidedBy IsPlain scanDecimal shortNumber (shortNumber.take 4) := by
  obtain ⟨findsLong, -, decidedLong, -⟩ := scanners_closest longNumber
  obtain ⟨-, findsShort, -, decidedShort⟩ := scanners_closest shortNumber
  have foundLong : scanFloat longNumber = some (73, ⟨4602678819172646912⟩) := by decide +kernel
  have foundShort : scanDecimal shortNumber = some (4, ⟨13826050856027422720⟩) := by
    decide +kernel
  rw [foundLong] at findsLong
  rw [foundShort] at findsShort
  have longestLong := findsLong.isLongest (by decide)
  have longestShort := findsShort.isLongest (by decide)
  exact ⟨⟨longestLong, foundLong, decidedLong _ longestLong⟩,
    longestShort, foundShort, decidedShort _ longestShort⟩

end Numeral

end JsonEvents
