import JsonEvents.Proofs.Grammar.Scanned

/-!
# The longest number

Of all numbers in front of a text the scan takes the longest one
(`Scan.isLongestNumber_take`), also where a point, an exponent mark or a sign is
seen first and then given back.
-/

namespace JsonEvents

open Ascii Grammar

namespace Grammar

/-- A text of some form in front of another text, and none there is longer. -/
structure IsLongest (form : Bytes → Prop) (s t : Bytes) : Prop where
  front : t <+: s
  formed : form t
  longest : ∀ u, u <+: s → form u → u.length ≤ t.length

/-- A number in front of a text, and no number there is longer. -/
structure IsLongestNumber (s t : Bytes) : Prop where
  front : t <+: s
  number : IsNumber t
  longest : ∀ u, u <+: s → IsNumber u → u.length ≤ t.length

end Grammar

namespace Scan

variable {e f i s t : Bytes}

/-! ## Parts that go on -/

theorem le_digits_append (all : AreDigits s) (t : Bytes) : s.length ≤ digits (s ++ t) := by
  rw [digits, run, List.takeWhile_append_of_pos all, List.length_append]
  exact Nat.le_add_right _ _

theorem le_integer?_append (h : IsInteger i) (t : Bytes) :
    ∃ n, integer? (i ++ t) = some n ∧ i.length ≤ n := by
  cases h with
  | zero => exact ⟨1, rfl, Nat.le_refl 1⟩
  | @digits c i leading all =>
      have more := le_digits_append all t
      refine ⟨_, integer?_digits leading (i ++ t), ?_⟩
      rw [List.length_cons]
      omega

theorem le_exponent_append (h : IsExponent e) (t : Bytes) :
    e.length ≤ exponent (e ++ t) := by
  cases h with
  | none => exact Nat.zero_le _
  | @digits e c s mark digit all =>
      have more := le_digits_append all t
      rw [List.cons_append, List.cons_append, exponent_digits mark digit, List.length_cons,
        List.length_cons]
      omega
  | @signed e sign c s mark signed digit all =>
      have more := le_digits_append all t
      rw [List.cons_append, List.cons_append, List.cons_append, exponent_signed mark signed digit,
        List.length_cons, List.length_cons, List.length_cons]
      omega

/-- An exponent begins with its mark. -/
theorem isExponentMark_of_isExponent (h : IsExponent e) (some : e ≠ []) (t : Bytes) :
    isExponentMark (byte (e ++ t) 0) = true := by
  cases h with
  | none => exact absurd rfl some
  | digits mark | signed mark => exact mark

theorem ne_point_of_isExponentMark {c : UInt8} (h : isExponentMark c = true) : c ≠ point := by
  rintro rfl
  cases h

theorem le_tail_append (fraction : IsFraction f) (exponent : IsExponent e) (t : Bytes) :
    f.length + e.length ≤ tail (f ++ (e ++ t)) := by
  by_cases none : e = []
  · subst none
    cases fraction with
    | none => exact Nat.zero_le _
    | @digits c f digit all =>
        have more := le_digits_append all t
        rw [List.nil_append, List.cons_append, List.cons_append, tail, fraction_digits digit]
        simp only [List.length_cons, List.length_nil, if_true]
        omega
  · have mark := isExponentMark_of_isExponent exponent none t
    have behind := le_exponent_append exponent t
    rw [tail, fraction_append fraction (not_isDigit_of_isExponentMark mark)
      (ne_point_of_isExponentMark mark)]
    simp only [if_true, List.drop_left]
    omega

/-- Behind the integer part there is a digit only when nothing else of the number follows. -/
theorem not_isDigit_of_ne_nil (fraction : IsFraction f) (exponent : IsExponent e)
    (some : f ++ e ≠ []) (t : Bytes) : isDigit (byte (f ++ (e ++ t)) 0) = false := by
  cases fraction with
  | digits => rfl
  | none => exact not_isDigit_of_isExponentMark (isExponentMark_of_isExponent exponent some t)

theorem sign_append {m : Bytes} (isSign : IsSign m) (integer : IsInteger i) (t : Bytes) :
    sign (m ++ (i ++ t)) = m.length := by
  cases isSign with
  | none => exact if_neg (byte_of_isInteger integer _)
  | minus => rfl

/-! ## Numbers that go on -/

/-- Where a number is in front, one that is at least as long is taken. -/
theorem le_number?_append (h : IsNumber s) (t : Bytes) :
    ∃ n, number? (s ++ t) = some n ∧ s.length ≤ n := by
  cases h with
  | @parts m i f e isSign integer fraction exponent =>
      have text : m ++ (i ++ (f ++ e)) ++ t = m ++ (i ++ (f ++ (e ++ t))) := by
        simp only [List.append_assoc]
      have size : (m ++ (i ++ (f ++ e))).length = m.length + i.length + (f.length + e.length) := by
        simp only [List.length_append, Nat.add_assoc]
      rw [text, size, number?, sign_append isSign integer, List.drop_left]
      by_cases none : f ++ e = []
      · obtain ⟨rfl, rfl⟩ := List.append_eq_nil_iff.mp none
        obtain ⟨n, found, more⟩ := le_integer?_append integer t
        rw [List.nil_append, List.nil_append, found]
        refine ⟨_, rfl, ?_⟩
        simp only [List.length_nil]
        omega
      · have stops := not_isDigit_of_ne_nil fraction exponent none t
        have behind := le_tail_append fraction exponent t
        have rest : (m ++ (i ++ (f ++ (e ++ t)))).drop (m.length + i.length) = f ++ (e ++ t) := by
          rw [← List.drop_drop, List.drop_left, List.drop_left]
        rw [integer?_append integer stops, Option.map_some, rest]
        exact ⟨_, rfl, Nat.add_le_add_left behind _⟩

theorem isLongestNumber_take {n : Nat} (h : number? s = some n) :
    IsLongestNumber s (s.take n) where
  front := List.take_prefix n s
  number := isNumber_take h
  longest := by
    rintro u ⟨t, rfl⟩ number
    obtain ⟨m, found, more⟩ := le_number?_append number t
    obtain rfl := Option.some.inj (found.symm.trans h)
    rwa [List.length_take, Nat.min_eq_left (number?_bounds h).2]

theorem not_isNumber_of_number? (h : number? s = none) : ∀ t, t <+: s → ¬ IsNumber t := by
  rintro u ⟨t, rfl⟩ number
  obtain ⟨m, found, _⟩ := le_number?_append number t
  cases found.symm.trans h

end Scan

end JsonEvents
