import JsonEvents.Proofs.Numeral.Fixed

/-!
# Numbers that are written as scaled integers

The product of a finite number and a power of ten is rounded to the closest
finite number and that to an integer, half away from zero (`scales_product?`).
If the integer is small enough, it is written with a point, and without zeros at
the end; otherwise the number is printed with so many places
(`appendDecimal_scaled`).
-/

namespace JsonEvents

open Ascii Grammar

namespace Numeral

/-! ## Products -/

theorem cast_signed (negative : Bool) (n : Nat) :
    ((signed negative n : Int) : ℚ) = signedRat negative n := by
  cases negative with
  | true => exact Int.cast_neg _
  | false => rfl

/-- No integer is nearer, and one that is half way to another is farther from zero. -/
structure IsRoundedAway (x : ℚ) (m : Int) : Prop where
  near : |(m : ℚ) - x| ≤ 1 / 2
  away : |(m : ℚ) - x| = 1 / 2 → |x| < |(m : ℚ)|

theorem roundHalfUp_bounds {num den : Nat} (some : 0 < den) :
    (roundHalfUp num den : ℚ) - 1 / 2 ≤ num / den ∧
      (num / den : ℚ) < roundHalfUp num den + 1 / 2 := by
  have positive : (0 : ℚ) < den := Nat.cast_pos.mpr some
  have lower := Nat.div_mul_le_self (2 * num + den) (2 * den)
  have upper := Nat.lt_mul_div_succ (2 * num + den) (Nat.mul_pos two_pos some)
  have same : (2 * num + den) / (2 * den) = roundHalfUp num den := rfl
  rw [same] at lower upper
  generalize roundHalfUp num den = n at *
  have below : (n * (2 * den) : ℚ) ≤ 2 * num + den := by exact_mod_cast lower
  have above : (2 * num + den : ℚ) < 2 * den * (n + 1) := by exact_mod_cast upper
  rw [le_div_iff₀ positive, div_lt_iff₀ positive]
  constructor <;> linarith

theorem isRoundedAway_roundHalfUp {num den : Nat} (some : 0 < den) (negative : Bool) :
    IsRoundedAway (signedRat negative (num / den)) (signed negative (roundHalfUp num den)) := by
  have bounds : _ ≤ (num / den : ℚ) ∧ _ := roundHalfUp_bounds some
  have nonneg : (0 : ℚ) ≤ num / den := by positivity
  generalize roundHalfUp num den = n at *
  generalize (num / den : ℚ) = x at *
  obtain ⟨lower, upper⟩ := bounds
  constructor
  · rw [cast_signed, signedRat_sub, abs_signedRat, abs_le]
    constructor <;> linarith
  · rw [cast_signed, signedRat_sub, abs_signedRat, abs_signedRat, abs_signedRat]
    intro tie
    rw [abs_of_nonneg nonneg, Nat.abs_cast]
    rcases eq_or_eq_neg_of_abs_eq tie with above | below <;> linarith

/-- A number is rounded to the closest finite one, and that to an integer. -/
inductive Scales (x : ℚ) : Option Int → Prop
  | finite {g : Binary64} {m : Int} (fits : |x| < Binary64.limit)
      (closest : Binary64.IsClosest x g) (rounded : IsRoundedAway g.toRat m) : Scales x (some m)
  | infinite (tooLarge : Binary64.limit ≤ |x|) : Scales x none

/-- The product with a power of ten, rounded to an integer unless it is infinite. -/
def product? (f : Binary64) (p : Nat) : Option Int :=
  (scaledMagnitude? f p).map (signed f.isNegative)

theorem scaled_eq (f : Binary64) (p : Nat) :
    f.toRat * 10 ^ p =
      signedRat f.isNegative (((f.units * tenTo p : Nat) : ℚ) / Binary64.one) := by
  rw [Binary64.toRat, signedRat_mul, Binary64.value_mul_tenTo]
  rfl

theorem scales_product? (f : Binary64) (p : Nat) : Scales (f.toRat * 10 ^ p) (product? f p) := by
  have size : |f.toRat * 10 ^ p| = ((f.units * tenTo p : Nat) : ℚ) / Binary64.one := by
    have nonneg : 0 ≤ ((f.units * tenTo p : Nat) : ℚ) / Binary64.one :=
      div_nonneg (Nat.cast_nonneg _) (Nat.cast_nonneg _)
    rw [scaled_eq, abs_signedRat, abs_of_nonneg nonneg]
  have fits : Binary64.nearest (f.units * tenTo p) Binary64.one < Binary64.infinity ↔
      |f.toRat * 10 ^ p| < Binary64.limit := by
    rw [size]
    exact Binary64.nearest_lt_infinity_iff_value Binary64.unit_pos
  have between : Binary64.Between (Binary64.nearest (f.units * tenTo p) Binary64.one)
      (((f.units * tenTo p : Nat) : ℚ) / Binary64.one) :=
        Binary64.between_nearest Binary64.unit_pos
  unfold product? scaledMagnitude?
  dsimp only
  generalize Binary64.nearest (f.units * tenTo p) Binary64.one = k at *
  split
  · next finite =>
      have closest := Binary64.isClosest_of_between between finite f.isNegative
      rw [← scaled_eq] at closest
      refine .finite (fits.mp finite) closest ?_
      rw [Binary64.toRat_ofMagnitude f.isNegative finite]
      exact isRoundedAway_roundHalfUp Binary64.unit_pos f.isNegative
  · next large => exact .infinite (not_lt.mp (mt fits.mpr large))

/-! ## Texts of scaled integers -/

/-- A fraction that does not end with a zero, or none. -/
inductive IsTrimmed : Bytes → Prop
  | none : IsTrimmed []
  | digits {ds : Bytes} {c : UInt8} (all : AreDigits ds) (last : one ≤ c ∧ c ≤ nine) :
      IsTrimmed (point :: (ds ++ [c]))

variable {i f ds : Bytes} {m : Int} {k n p : Nat}

theorem IsTrimmed.isFraction (h : IsTrimmed f) : IsFraction f := by
  cases h with
  | none => exact .none
  | @digits ds c all last =>
      have single : AreDigits [c] := List.forall_mem_singleton.mpr (isDigit_of_leading last)
      exact isFraction_of_areDigits (List.forall_mem_append.mpr ⟨all, single⟩) (by simp)

/-- The fraction of digits without the zeros at their end. -/
def fractionText (ds : Bytes) : Bytes :=
  if (Digits.stripped ds).isEmpty then [] else point :: Digits.stripped ds

theorem tail_fractionText (ds : Bytes) : (fractionText ds).tail = Digits.stripped ds := by
  unfold fractionText
  split
  · next none => exact (List.isEmpty_iff.mp none).symm
  · rfl

theorem isTrimmed_fractionText (all : AreDigits ds) : IsTrimmed (fractionText ds) := by
  unfold fractionText
  split
  · exact .none
  · next present =>
      have some : Digits.stripped ds ≠ [] := fun none => present (List.isEmpty_iff.mpr none)
      have last : ¬ ((Digits.stripped ds).getLast some == zero) = true :=
        List.rdropWhile_last_not _ ds some
      have digits := Digits.areDigits_stripped all
      rw [← List.dropLast_append_getLast some]
      refine .digits (fun c member => digits c (List.dropLast_subset _ member)) ?_
      exact leading_of_isDigit (digits _ (List.getLast_mem some)) fun same =>
        last (beq_iff_eq.mpr same)

/-- A scaled integer is written with a sign if it is negative, as the digits of its value, and the
text is taken as a whole. -/
structure IsScaledText (m : Int) (p : Nat) (text : Bytes) : Prop where
  form : ∃ i f, text = signText (decide (m < 0)) ++ (i ++ f) ∧ IsInteger i ∧ IsTrimmed f ∧
    f.tail.length ≤ p
  value : ∃ d, Denotes text (decide (m < 0)) d ∧
    signedRat (decide (m < 0)) d.value = m / 10 ^ p
  whole : ∃ g, Binary64.IsClosest (m / 10 ^ p) g ∧ scanDecimal text = some (text.length, g)

theorem signedRat_natAbs (m : Int) : signedRat (decide (m < 0)) (m.natAbs : ℚ) = m := by
  have same : signed (decide (m < 0)) m.natAbs = m := by
    unfold signed
    split
    · next negative =>
        have below := of_decide_eq_true negative
        omega
    · next positive =>
        have above := of_decide_eq_false (Bool.eq_false_iff.mpr positive)
        omega
  rw [← cast_signed, same]

/-- Digits around a point, and places behind them that were left, have the value of all of them. -/
theorem value_of_parts (places : f.tail.length + k = p)
    (number : Digits.value (i ++ f.tail) * tenTo k = n) :
    (⟨Digits.value (i ++ f.tail), -f.tail.length⟩ : Decimal).value = n / 10 ^ p := by
  have place : -(p : Int) + k = -f.tail.length := by omega
  rw [← place, ← Decimal.value_scaled, number, Decimal.value, zpow_neg, zpow_natCast,
    div_eq_mul_inv]

theorem not_isTooLarge_of_scaled {d : Decimal} (fits : n < scaledLimit)
    (value : d.value = n / 10 ^ p) : ¬ d.IsTooLarge := by
  have room : scaledLimit ≤ Binary64.limit := by decide +kernel
  have least : (1 : ℚ) ≤ 10 ^ p := one_le_pow₀ (by norm_num)
  have most : d.value ≤ n := value ▸ div_le_self (Nat.cast_nonneg n) least
  have below : (n : ℚ) < Binary64.limit := by exact_mod_cast Nat.lt_of_lt_of_le fits room
  exact mt (Decimal.isTooLarge_iff d).mp (not_le.mpr (most.trans_lt below))

theorem isScaledText_of_parts (integer : IsInteger i) (fraction : IsTrimmed f)
    (places : f.tail.length + k = p) (number : Digits.value (i ++ f.tail) * tenTo k = m.natAbs)
    (fits : m.natAbs < scaledLimit) : IsScaledText m p (signText (decide (m < 0)) ++ (i ++ f)) := by
  obtain ⟨sign, same⟩ := signText_spec (decide (m < 0))
  have denotes := Denotes.parts sign integer fraction.isFraction .none
  have fixed : exponentValue [] = 0 := rfl
  rw [List.append_nil, same, fixed, Int.zero_sub] at denotes
  have magnitude := value_of_parts places number
  generalize (⟨Digits.value (i ++ f.tail), -f.tail.length⟩ : Decimal) = d at denotes magnitude
  have value : signedRat (decide (m < 0)) d.value = m / 10 ^ p := by
    rw [magnitude, div_eq_mul_inv, ← signedRat_mul, signedRat_natAbs, ← div_eq_mul_inv]
  have small := not_isTooLarge_of_scaled fits magnitude
  have plain : IsPlain (signText (decide (m < 0)) ++ (i ++ f)) :=
    .parts sign integer fraction.isFraction
  have read := scanDecimal_of_denotes denotes plain.not_isExponentMark
  rw [if_neg small] at read
  refine ⟨⟨i, f, rfl, integer, fraction, by omega⟩, ⟨d, denotes, value⟩, _, ?_, read⟩
  rw [← value]
  exact Decimal.isClosest_nearest small _

/-- Zeros at the end of the places can be left, and count as places. -/
theorem exists_places (whole : p ≤ ds.length) :
    ∃ k, (Digits.stripped (ds.drop (ds.length - p))).length + k = p ∧
      Digits.value (ds.take (ds.length - p) ++ Digits.stripped (ds.drop (ds.length - p))) *
        tenTo k = Digits.value ds := by
  obtain ⟨k, zeros⟩ := Digits.exists_zeros (ds.drop (ds.length - p))
  refine ⟨k, ?_, ?_⟩
  · have lengths := congrArg List.length zeros
    rw [List.length_append, List.length_replicate, List.length_drop] at lengths
    omega
  · rw [← Digits.value_append_zeros, List.append_assoc, ← zeros, List.take_append_drop]

theorem natAbs_signed (negative : Bool) (n : Nat) : (signed negative n).natAbs = n := by
  cases negative with
  | true => exact Int.natAbs_neg n
  | false => rfl

theorem decide_signed_neg (negative : Bool) (some : n ≠ 0) :
    decide (signed negative n < 0) = negative := by
  unfold signed
  cases negative with
  | true =>
      rw [if_pos rfl]
      exact decide_eq_true (by omega)
  | false =>
      rw [if_neg Bool.false_ne_true]
      exact decide_eq_false (by omega)

theorem isScaledText_scaledText (negative : Bool) (p : Nat) (fits : n < scaledLimit) :
    IsScaledText (signed negative n) p (scaledText negative n p) := by
  have magnitude := natAbs_signed negative n
  unfold scaledText
  split
  · next none =>
      -- A zero has no sign, also where the number is a little below it.
      have unsigned : signed negative n = 0 := Int.natAbs_eq_zero.mp (magnitude.trans none)
      rw [unsigned]
      exact isScaledText_of_parts (f := []) .zero .none (Nat.zero_add p) (Nat.zero_mul _) (by decide)
  · next some =>
      have integer := isInteger_whole n p
      have digits := areDigits_widen (p + 1) (Digits.areDigits_digits n)
      have total := (value_widen (p + 1) (Digits.digits n)).trans (Digits.value_digits n)
      have width := length_widen (p + 1) (Digits.digits n)
      dsimp only
      -- From here on only the value of the digits matters, and that they are more than the places.
      generalize widen (p + 1) (Digits.digits n) = ds at *
      have behind : AreDigits (ds.drop (ds.length - p)) := fun c member =>
        digits c (List.mem_of_mem_drop member)
      obtain ⟨k, places, number⟩ := exists_places (show p ≤ ds.length by omega)
      rw [← tail_fractionText] at places number
      rw [total, ← magnitude] at number
      have parts := isScaledText_of_parts integer (isTrimmed_fractionText behind) places number
        (magnitude.symm ▸ fits)
      rw [decide_signed_neg negative some] at parts
      rw [List.append_assoc]
      exact parts

/-! ## What is written -/

/-- An integer below the limit is written, and fits into 64 bits.  Otherwise the number is printed
with so many places. -/
structure IsWrittenScaled (out : Bytes) (f : Binary64) (p : Nat) (product : Option Int)
    (written : Bytes) : Prop where
  inside : ∀ m, product = some m → |m| < 9200000000000000000 →
    (Int64.ofInt m).toInt = m ∧ ∃ text, written = out ++ text ∧ IsScaledText m p text
  beyond : (∀ m, product = some m → 9200000000000000000 ≤ |m|) →
    written = (appendFloat out f p).2

theorem toInt_ofInt_of_small (small : |m| < 9200000000000000000) : (Int64.ofInt m).toInt = m := by
  have bounds := abs_lt.mp small
  rw [Int64.toInt_ofInt]
  exact bmod_of_inRange (inRange_iff.mpr (by omega))

theorem isWrittenScaled {f : Binary64} (out : Bytes) (precision : Int)
    (finite : f.isFinite = true) :
    IsWrittenScaled out f (decimalPlaces precision) (product? f (decimalPlaces precision))
      (appendDecimal out f precision) := by
  have limit : scaledLimit = 9200000000000000000 := rfl
  unfold appendDecimal product?
  rw [if_pos finite]
  dsimp only
  generalize decimalPlaces precision = p
  cases scaledMagnitude? f p with
  | none => exact ⟨nofun, fun _ => rfl⟩
  | some n =>
      have size : |signed f.isNegative n| = n := by
        rw [Int.abs_eq_natAbs, natAbs_signed]
      dsimp only [Option.map_some]
      split
      · next fits =>
          constructor
          · rintro _ ⟨⟩ small
            exact ⟨toInt_ofInt_of_small small, _, rfl, isScaledText_scaledText _ p fits⟩
          · intro large
            have beyond := large _ rfl
            omega
      · next large =>
          refine ⟨?_, fun _ => rfl⟩
          rintro _ ⟨⟩ small
          omega

/--
The number of places is cut to 17.  A finite number is scaled with them and
rounded to an integer, which is written exactly if it is below the limit.  What
is not finite is not written.
-/
theorem appendDecimal_scaled (out : Bytes) (f : Binary64) (precision : Int) :
    ∃ p : Nat, (p : Int) = max 0 (min precision 17) ∧ Scales (f.toRat * 10 ^ p) (product? f p) ∧
      if f.isFinite then IsWrittenScaled out f p (product? f p) (appendDecimal out f precision)
      else appendDecimal out f precision = out := by
  have places : (decimalPlaces precision : Int) = max 0 (min precision 17) := by
    have most : maxFigures = 17 := rfl
    unfold decimalPlaces
    omega
  refine ⟨decimalPlaces precision, places, scales_product? f _, ?_⟩
  split
  · next finite => exact isWrittenScaled out precision finite
  · next other => exact if_neg other

/-- Twelve and a half is half way between two integers, and rounded away from zero. -/
theorem appendDecimal_scaled_half :
    let f : Binary64 := ⟨0xbfc0000000000000⟩
    let text := Bytes.ofString "-0.13"
    f.isFinite = true ∧ product? f 2 = some (-13) ∧ Scales (f.toRat * 10 ^ 2) (some (-13)) ∧
      appendDecimal (Bytes.ofString "x = ") f 2 = Bytes.ofString "x = " ++ text ∧
      IsScaledText (-13) 2 text := by
  intro f text
  have finite : f.isFinite = true := by decide
  have product : product? f 2 = some (-13) := by decide +kernel
  have given : appendDecimal (Bytes.ofString "x = ") f 2 = Bytes.ofString "x = " ++ text := by
    decide +kernel
  obtain ⟨p, places, scales, written⟩ := appendDecimal_scaled (Bytes.ofString "x = ") f 2
  obtain rfl : p = 2 := by omega
  rw [product] at scales written
  rw [if_pos finite] at written
  obtain ⟨-, other, same, isScaled⟩ := written.inside (-13) rfl (by decide)
  obtain rfl := List.append_cancel_left (same.symm.trans given)
  exact ⟨finite, product, scales, given, isScaled⟩

end Numeral

end JsonEvents
