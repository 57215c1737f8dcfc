import JsonEvents.Numeral.Scanner
import JsonEvents.Proofs.Grammar.Longest
import JsonEvents.Proofs.Numeral.Integer
import JsonEvents.Proofs.Numeral.Nearest

/-!
# Scanners on JSON numbers

A number of the grammar denotes a decimal with a sign (`Denotes`).  The scanners
take all of its text and give the binary number nearest to what it denotes, or
nothing where that is too large (`exists_isTakenWhole`).
-/

namespace JsonEvents

open Ascii Grammar

namespace Numeral

/-- The power of ten that an exponent stands for. -/
def exponentValue : Bytes → Int
  | _ :: c :: ds =>
      if c = minus then -(Digits.value ds : Int)
      else if c = plus then Digits.value ds
      else Digits.value (c :: ds)
  | _ => 0

/-- A number is written with a sign, digits around a point that the exponent moves. -/
inductive Denotes : Bytes → Bool → Decimal → Prop
  | parts {m i f e : Bytes} (sign : IsSign m) (integer : IsInteger i) (fraction : IsFraction f)
      (exponent : IsExponent e) :
      Denotes (m ++ (i ++ (f ++ e))) (m == [minus])
        ⟨Digits.value (i ++ f.tail), exponentValue e - f.tail.length⟩

inductive IsAnySign : Bytes → Prop
  | none : IsAnySign []
  | sign {c : UInt8} (sign : isSign c = true) : IsAnySign [c]

/-- A number in a wider form, with a plus or zeros in front. -/
inductive DenotesFloat : Bytes → Bool → Decimal → Prop
  | parts {m i f e : Bytes} (sign : IsAnySign m) (unsigned : IsUnsigned i)
      (fraction : IsFraction f) (exponent : IsExponent e) :
      DenotesFloat (m ++ (i ++ (f ++ e))) (m == [minus])
        ⟨Digits.value (i ++ f.tail), exponentValue e - f.tail.length⟩

theorem exists_denotes {s : Bytes} (h : IsNumber s) : ∃ negative d, Denotes s negative d := by
  cases h with
  | parts sign integer fraction exponent => exact ⟨_, _, .parts sign integer fraction exponent⟩

variable {m i f e s t : Bytes} {c : UInt8} {negative : Bool} {d : Decimal}

/-! ## Parts -/

theorem digitRun_append (all : AreDigits s) (stops : isDigit (Scan.byte t 0) = false) :
    digitRun (s ++ t) = s := by
  have behind : t.takeWhile isDigit = [] :=
    List.eq_nil_of_length_eq_zero (Scan.run_of_not_byte stops)
  rw [digitRun, List.takeWhile_append_of_pos all, behind, List.append_nil]

theorem digitRun_of_all (all : AreDigits s) : digitRun s = s := by
  have whole := digitRun_append (t := []) all rfl
  rwa [List.append_nil] at whole

theorem leading_of_isDigit (digit : isDigit c = true) (other : c ≠ zero) : one ≤ c ∧ c ≤ nine := by
  have least : zero.toNat = 48 := rfl
  have next : one.toNat = 49 := rfl
  simp only [isDigit, Bool.and_eq_true, decide_eq_true_eq, UInt8.le_iff_toNat_le] at digit
  rw [ne_eq, ← UInt8.toNat_inj] at other
  simp only [UInt8.le_iff_toNat_le]
  omega

theorem isDigit_of_leading (leading : one ≤ c ∧ c ≤ nine) : isDigit c = true := by
  simp only [isDigit, Bool.and_eq_true, decide_eq_true_eq]
  exact ⟨UInt8.le_trans (by decide) leading.1, leading.2⟩

theorem areDigits_of_isInteger (h : IsInteger i) : AreDigits i ∧ i ≠ [] := by
  cases h with
  | zero => exact ⟨by decide, nofun⟩
  | digits leading all =>
      exact ⟨List.forall_mem_cons.mpr ⟨isDigit_of_leading leading, all⟩, nofun⟩

theorem splitSign_of_isDigit (digit : isDigit c = true) (s : Bytes) :
    splitSign (c :: s) = (0, false, c :: s) := by
  rw [splitSign, Scan.not_isSign_of_isDigit digit]
  rfl

theorem splitSign_append (sign : IsAnySign m) (unsigned : IsUnsigned i) (t : Bytes) :
    splitSign (m ++ (i ++ t)) = (m.length, m == [minus], i ++ t) := by
  cases sign with
  | none =>
      obtain ⟨some, all⟩ := unsigned
      obtain ⟨c, ds, rfl⟩ := List.exists_cons_of_ne_nil some
      exact splitSign_of_isDigit (all c List.mem_cons_self) (ds ++ t)
  | @sign c sign =>
      have split : splitSign (c :: (i ++ t)) = (1, c == minus, i ++ t) := if_pos sign
      rw [List.singleton_append, split, List.length_singleton, List.cons_beq_cons]
      simp

theorem not_isDigit_of_isExponent (h : IsExponent e) : isDigit (Scan.byte e 0) = false := by
  cases h with
  | none => rfl
  | digits mark | signed mark => exact Scan.not_isDigit_of_isExponentMark mark

theorem fractionRun_append (fraction : IsFraction f) (exponent : IsExponent e) :
    fractionRun (f ++ e) = f.tail := by
  cases fraction with
  | none =>
      cases exponent with
      | none => rfl
      | digits mark | signed mark => exact if_neg (Scan.ne_point_of_isExponentMark mark)
  | @digits c ds digit all =>
      have all : AreDigits (c :: ds) := List.forall_mem_cons.mpr ⟨digit, all⟩
      exact digitRun_append all (not_isDigit_of_isExponent exponent)

theorem fractionSize_tail (fraction : IsFraction f) : fractionSize f.tail = f.length := by
  cases fraction <;> rfl

theorem exponentOf_eq (exponent : IsExponent e) : exponentOf e = (e.length, exponentValue e) := by
  cases exponent with
  | none => rfl
  | @digits e c ds mark digit all =>
      have run := digitRun_of_all (List.forall_mem_cons.mpr ⟨digit, all⟩)
      have unsigned := Scan.not_isSign_of_isDigit digit
      simp only [isSign, Bool.or_eq_false_iff, beq_eq_false_iff_ne] at unsigned
      rw [exponentOf, if_pos mark, splitSign_of_isDigit digit]
      simp only [run, List.isEmpty_cons, Bool.false_eq_true, if_false, exponentValue,
        if_neg unsigned.1, if_neg unsigned.2, List.length_cons]
      rw [Nat.add_zero, Nat.add_comm 1]
  | @signed e sign c ds mark signed digit all =>
      have run := digitRun_of_all (List.forall_mem_cons.mpr ⟨digit, all⟩)
      have split : splitSign (sign :: c :: ds) = (1, sign == minus, c :: ds) := if_pos signed
      rw [exponentOf, if_pos mark, split]
      simp only [run, List.isEmpty_cons, Bool.false_eq_true, if_false, exponentValue,
        List.length_cons, beq_iff_eq]
      refine Prod.ext (by omega) ?_
      by_cases isMinus : sign = minus
      · rw [if_pos isMinus, if_pos isMinus]
      · have isPlus : sign = plus := by
          simp only [isSign, Bool.or_eq_true, beq_iff_eq] at signed
          exact signed.resolve_right isMinus
        rw [if_neg isMinus, if_neg isMinus, if_pos isPlus]

theorem wholeRun_append (integer : IsInteger i) (stops : isDigit (Scan.byte t 0) = false) :
    wholeRun (i ++ t) = i := by
  cases integer with
  | zero => rfl
  | @digits c ds leading all =>
      have notZero : c ≠ zero := by
        rintro rfl
        exact absurd leading.1 (by decide)
      have whole := digitRun_append (areDigits_of_isInteger (.digits leading all)).1 stops
      exact (if_neg notZero).trans whole

/-! ## Numbers -/

theorem rounded_eq (size : Nat) (negative : Bool) (d : Decimal) :
    rounded size negative d =
      if d.IsTooLarge then none else some (size, .ofMagnitude negative d.nearest) := by
  have finite := d.nearest_lt_infinity_iff
  unfold rounded
  dsimp only
  by_cases large : d.IsTooLarge
  · rw [if_pos large, if_neg fun less => finite.mp less large]
  · rw [if_neg large, if_pos (finite.mpr large)]

theorem isAnySign_of_isSign (sign : IsSign m) : IsAnySign m := by
  cases sign with
  | none => exact .none
  | minus => exact .sign rfl

theorem isUnsigned_of_isInteger (integer : IsInteger i) : IsUnsigned i :=
  (areDigits_of_isInteger integer).symm

theorem Denotes.float (h : Denotes s negative d) : DenotesFloat s negative d := by
  cases h with
  | parts sign integer fraction exponent =>
      exact .parts (isAnySign_of_isSign sign) (isUnsigned_of_isInteger integer) fraction exponent

/-- A number is taken as a whole, unless it is too large. -/
theorem scanFloat_of_denotesFloat (h : DenotesFloat s negative d) :
    scanFloat s =
      if d.IsTooLarge then none else some (s.length, .ofMagnitude negative d.nearest) := by
  cases h with
  | @parts m i f e sign unsigned fraction exponent =>
      obtain ⟨present, all⟩ := unsigned
      have stops := Scan.not_isDigit_tail (t := []) fraction exponent rfl
      rw [List.append_nil] at stops
      have rest : (i ++ (f ++ e)).drop (i.length + f.length) = e := by
        rw [← List.drop_drop, List.drop_left, List.drop_left]
      have size : (m ++ (i ++ (f ++ e))).length = m.length + (i.length + f.length) + e.length := by
        simp only [List.length_append, Nat.add_assoc]
      rw [scanFloat, splitSign_append sign ⟨present, all⟩]
      simp only [digitRun_append all stops, List.isEmpty_eq_false_iff.mpr present,
        Bool.false_eq_true, if_false, List.drop_left, fractionRun_append fraction exponent,
        fractionSize_tail fraction, rest, exponentOf_eq exponent]
      rw [rounded_eq, size]

theorem scanFloat_of_denotes (h : Denotes s negative d) :
    scanFloat s =
      if d.IsTooLarge then none else some (s.length, .ofMagnitude negative d.nearest) :=
  scanFloat_of_denotesFloat h.float

theorem head?_append (sign : IsSign m) (integer : IsInteger i) (t : Bytes) :
    ((m ++ (i ++ t)).head? == some minus) = (m == [minus]) ∧
      (if (m == [minus]) = true then 1 else 0) = m.length := by
  cases sign with
  | minus => exact ⟨rfl, rfl⟩
  | none =>
      refine ⟨?_, rfl⟩
      have first := Scan.byte_of_isInteger integer t
      cases integer with
      | zero => rfl
      | digits leading => exact beq_eq_false_iff_ne.mpr fun same => first (Option.some.inj same)

theorem eq_nil_of_plain (exponent : IsExponent e) (plain : ∀ c ∈ e, isExponentMark c = false) :
    e = [] := by
  cases exponent with
  | none => rfl
  | digits mark | signed mark =>
      exact absurd ((plain _ List.mem_cons_self).symm.trans mark) nofun

/-- A number without an exponent is taken alike by the other scanner. -/
theorem scanDecimal_of_denotes (h : Denotes s negative d)
    (plain : ∀ c ∈ s, isExponentMark c = false) :
    scanDecimal s =
      if d.IsTooLarge then none else some (s.length, .ofMagnitude negative d.nearest) := by
  cases h with
  | @parts m i f e sign integer fraction exponent =>
      obtain rfl : e = [] := by
        apply eq_nil_of_plain exponent
        intro c member
        apply plain
        simp only [List.mem_append]
        exact .inr (.inr (.inr member))
      obtain ⟨_, present⟩ := areDigits_of_isInteger integer
      have stops := Scan.not_isDigit_tail (t := []) fraction exponent rfl
      rw [List.append_nil] at stops
      obtain ⟨head, one⟩ := head?_append sign integer (f ++ [])
      have size : (m ++ (i ++ (f ++ []))).length = m.length + i.length + f.length := by
        simp only [List.length_append, List.length_nil, Nat.add_assoc, Nat.add_zero]
      rw [scanDecimal, head, one]
      simp only [List.drop_left, wholeRun_append integer stops,
        List.isEmpty_eq_false_iff.mpr present, Bool.false_eq_true, if_false,
        fractionRun_append fraction exponent, fractionSize_tail fraction]
      have fixed : exponentValue [] = 0 := rfl
      rw [rounded_eq, size, fixed, Int.zero_sub]

/-- The scanners take all of a number, and its value is nearest to what it denotes, unless that is
too large.  For one of them the number must have no exponent. -/
structure IsTakenWhole (s : Bytes) (negative : Bool) (d : Decimal) : Prop where
  denotes : Denotes s negative d
  float : scanFloat s =
    if d.IsTooLarge then none else some (s.length, .ofMagnitude negative d.nearest)
  decimal : (∀ c ∈ s, isExponentMark c = false) → scanDecimal s = scanFloat s

theorem exists_isTakenWhole (h : IsNumber s) : ∃ negative d, IsTakenWhole s negative d := by
  obtain ⟨negative, d, denotes⟩ := exists_denotes h
  have float := scanFloat_of_denotes denotes
  exact ⟨negative, d, denotes, float, fun plain =>
    (scanDecimal_of_denotes denotes plain).trans float.symm⟩

end Numeral

end JsonEvents
