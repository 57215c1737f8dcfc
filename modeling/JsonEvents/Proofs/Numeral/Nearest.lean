import JsonEvents.Numeral.Decimal
import Mathlib.Tactic.Linarith
import Mathlib.Tactic.Ring

/-!
# Decimals that are too large

The magnitude nearest to a decimal is finite just when the decimal is below
(2^54 - 1) * 2^970, which lies half a unit above the largest finite number
(`Decimal.nearest_lt_infinity_iff`).  The bounds on the places of a decimal,
within which its powers of ten are computed, agree with that.
-/

namespace JsonEvents.Numeral

/-! ## Powers -/

theorem twoTo_add (m n : Nat) : twoTo (m + n) = twoTo m * twoTo n := Nat.pow_add 2 m n

theorem twoTo_pos (n : Nat) : 0 < twoTo n := Nat.pow_pos Nat.two_pos

theorem twoTo_le {m n : Nat} (h : m ≤ n) : twoTo m ≤ twoTo n := Nat.pow_le_pow_right Nat.two_pos h

theorem tenTo_add (m n : Nat) : tenTo (m + n) = tenTo m * tenTo n := Nat.pow_add 10 m n

theorem tenTo_pos (n : Nat) : 0 < tenTo n := Nat.pow_pos (by decide)

theorem tenTo_le {m n : Nat} (h : m ≤ n) : tenTo m ≤ tenTo n :=
  Nat.pow_le_pow_right (by decide) h

theorem lt_twoTo_of_log2 {m n : Nat} (h : m.log2 < n) : m < twoTo n :=
  Nat.lt_of_lt_of_le Nat.lt_log2_self (twoTo_le h)

theorem twoTo_le_of_log2 {m n : Nat} (some : 0 < n) (h : n ≤ m.log2) : twoTo n ≤ m := by
  have present : m ≠ 0 := by
    rintro rfl
    rw [Nat.log2_zero] at h
    omega
  exact Nat.le_trans (twoTo_le h) (Nat.log2_self_le present)

theorem twoTo_three_mul_le (n : Nat) : twoTo (3 * n) ≤ tenTo n := by
  have eight : twoTo (3 * n) = 8 ^ n := Nat.pow_mul 2 3 n
  rw [eight]
  exact Nat.pow_le_pow_left (by decide) n

/-- A number lies between the powers of ten that its digits are counted by. -/
theorem digitCount_bounds (n : Nat) :
    n < tenTo (Digits.digitCount n) ∧ (0 < n → tenTo (Digits.digitCount n - 1) ≤ n) ∧
      0 < Digits.digitCount n := by
  fun_induction Digits.digitCount n with
  | case1 n small => exact ⟨small, fun some => some, Nat.one_pos⟩
  | case2 n large ih =>
      obtain ⟨below, above, some⟩ := ih
      have above := above (by omega)
      have next :
          tenTo (Digits.digitCount (n / 10) + 1) = tenTo (Digits.digitCount (n / 10)) * 10 := rfl
      have here : tenTo (Digits.digitCount (n / 10)) =
          tenTo (Digits.digitCount (n / 10) - 1) * 10 := by
        rw [← Nat.succ_pred_eq_of_pos some]
        rfl
      rw [Nat.add_sub_cancel, next]
      exact ⟨by omega, fun _ => by omega, Nat.succ_pos _⟩

/-! ## Rounding -/

theorem roundHalfEven_bounds (num den : Nat) :
    num / den ≤ roundHalfEven num den ∧ roundHalfEven num den ≤ num / den + 1 := by
  unfold roundHalfEven
  dsimp only
  split <;> omega

/-- A quotient is rounded to less than an even number when it is more than a half below it. -/
theorem roundHalfEven_lt_iff {num den k : Nat} (some : 0 < den) (even : k % 2 = 0) :
    roundHalfEven num den < k ↔ 2 * num < (2 * k - 1) * den := by
  have whole := Nat.div_add_mod num den
  have less := Nat.mod_lt num some
  unfold roundHalfEven
  dsimp only
  generalize num / den = q at *
  generalize num % den = m at *
  subst whole
  rcases Nat.lt_trichotomy (q + 1) k with below | rfl | above
  · have grows := Nat.mul_le_mul_right den (show 2 * q + 3 ≤ 2 * k - 1 by omega)
    have product : (2 * q + 3) * den = 2 * (den * q) + 3 * den := by ring
    refine iff_of_true ?_ (by omega)
    split <;> omega
  · have product : (2 * (q + 1) - 1) * den = 2 * (den * q) + den := by
      rw [show 2 * (q + 1) - 1 = 2 * q + 1 by omega]
      ring
    rw [product]
    split <;> omega
  · have grows := Nat.mul_le_mul_right den (show 2 * k - 1 ≤ 2 * q by omega)
    have product : 2 * q * den = 2 * (den * q) := by ring
    refine iff_of_false ?_ (by omega)
    split <;> omega

namespace Binary64

theorem unit_pos : 0 < one := twoTo_pos 1074

/-- What is rounded has at most 53 bits. -/
theorem rounded_le {s den shift : Nat} (less : (s / den).log2 < shift + 53) :
    roundHalfEven s (den * twoTo shift) ≤ 2 * exponentWeight := by
  have below : s / den < twoTo shift * twoTo 53 := by
    rw [← twoTo_add]
    exact lt_twoTo_of_log2 less
  have rounded := (roundHalfEven_bounds s (den * twoTo shift)).2
  have quotient : s / (den * twoTo shift) < twoTo 53 := by
    rw [← Nat.div_div_eq_div_mul]
    exact Nat.div_lt_of_lt_mul below
  have double : 2 * exponentWeight = twoTo 53 := rfl
  omega

/-- What is rounded has at least 53 bits where bits are dropped. -/
theorem le_rounded {s den shift : Nat} (more : shift + 52 ≤ (s / den).log2) :
    exponentWeight ≤ roundHalfEven s (den * twoTo shift) := by
  have above : twoTo 52 * twoTo shift ≤ s / den := by
    rw [← twoTo_add, Nat.add_comm]
    exact twoTo_le_of_log2 (Nat.succ_pos _) more
  have quotient : twoTo 52 ≤ s / (den * twoTo shift) := by
    rw [← Nat.div_div_eq_div_mul]
    exact (Nat.le_div_iff_mul_le (twoTo_pos shift)).mpr above
  exact Nat.le_trans quotient (roundHalfEven_bounds s (den * twoTo shift)).1

theorem lt_of_log2 {s den n : Nat} (some : 0 < den) (h : (s / den).log2 < n) :
    s < twoTo n * den := (Nat.div_lt_iff_lt_mul some).mp (lt_twoTo_of_log2 h)

theorem le_of_log2 {s den n : Nat} (some : 0 < den) (positive : 0 < n) (h : n ≤ (s / den).log2) :
    twoTo n * den ≤ s := (Nat.le_div_iff_mul_le some).mp (twoTo_le_of_log2 positive h)

variable {num den top : Nat}

/-- The magnitude of a quotient with a smaller binary exponent. -/
theorem nearest_lt (high : 0 < top) (below : (num * one / den).log2 < top + 52) :
    nearest num den < (top + 2) * exponentWeight := by
  have rounded : roundHalfEven (num * one) (den * twoTo ((num * one / den).log2 - 52)) ≤
      2 * exponentWeight := rounded_le (by omega)
  have shift : (num * one / den).log2 - 52 ≤ top - 1 := by omega
  have fits := Nat.mul_le_mul_right exponentWeight shift
  have size : (top + 2) * exponentWeight = (top - 1) * exponentWeight + 3 * exponentWeight := by
    rw [← Nat.add_mul]
    congr 1
    omega
  have weight : 0 < exponentWeight := by decide
  unfold nearest
  dsimp only
  omega

/-- The magnitude of a quotient with a larger binary exponent. -/
theorem le_nearest (above : top + 52 < (num * one / den).log2) :
    (top + 2) * exponentWeight ≤ nearest num den := by
  have rounded : exponentWeight ≤
      roundHalfEven (num * one) (den * twoTo ((num * one / den).log2 - 52)) :=
    le_rounded (by omega)
  have shift : top + 1 ≤ (num * one / den).log2 - 52 := by omega
  have fits := Nat.mul_le_mul_right exponentWeight shift
  have size : (top + 2) * exponentWeight = (top + 1) * exponentWeight + exponentWeight :=
    Nat.succ_mul (top + 1) exponentWeight
  unfold nearest
  dsimp only
  omega

/-- The nearest magnitude compared with the places where binary exponents end. -/
theorem nearest_lt_iff (some : 0 < den) (high : 0 < top) :
    nearest num den < (top + 2) * exponentWeight ↔
      2 * (num * one) < (twoTo 54 - 1) * (den * twoTo top) := by
  rcases Nat.lt_trichotomy (num * one / den).log2 (top + 52) with below | same | above
  · refine iff_of_true (nearest_lt high below) ?_
    have least := lt_of_log2 some below
    have bits : 2 * twoTo 52 ≤ twoTo 54 - 1 := by decide
    have grows := Nat.mul_le_mul_right (den * twoTo top) bits
    rw [twoTo_add] at least
    linarith
  · -- The quotient has the last exponent, and how it is rounded decides.
    have shift : (num * one / den).log2 - 52 = top := by omega
    have even : roundHalfEven (num * one) (den * twoTo top) < 2 * exponentWeight ↔ _ :=
      roundHalfEven_lt_iff (Nat.mul_pos some (twoTo_pos top)) (by decide)
    have size : (top + 2) * exponentWeight = top * exponentWeight + 2 * exponentWeight :=
      Nat.add_mul top 2 exponentWeight
    unfold nearest
    dsimp only
    rw [shift, size, Nat.add_lt_add_iff_left, even]
    rfl
  · refine iff_of_false (Nat.not_lt.mpr (le_nearest above)) ?_
    have most := le_of_log2 some (Nat.succ_pos _) above
    have bits : twoTo 54 - 1 ≤ 2 * twoTo 53 := by decide
    have grows := Nat.mul_le_mul_right (den * twoTo top) bits
    rw [Nat.succ_eq_add_one, Nat.add_assoc, twoTo_add] at most
    linarith

/-- The place between the largest finite number and infinity, half a unit above the former. -/
def limit : Nat := (twoTo 54 - 1) * twoTo 970

theorem limit_le : limit ≤ tenTo 400 := by
  have less : limit ≤ twoTo 54 * twoTo 970 := Nat.mul_le_mul_right _ (Nat.sub_le _ _)
  rw [← twoTo_add] at less
  have power : twoTo (54 + 970) ≤ twoTo (3 * 400) := twoTo_le (by decide)
  exact Nat.le_trans less (Nat.le_trans power (twoTo_three_mul_le 400))

theorem limit_pos : 0 < limit := Nat.mul_pos (by decide) (twoTo_pos 970)

theorem nearest_lt_infinity_iff (some : 0 < den) :
    nearest num den < infinity ↔ num < limit * den := by
  have last : nearest num den < (2045 + 2) * exponentWeight ↔
      2 * (num * one) < (twoTo 54 - 1) * (den * twoTo 2045) := nearest_lt_iff some (by decide)
  have units : twoTo 2045 = 2 * (twoTo 970 * one) := by
    have two : twoTo 1 = 2 := rfl
    have places : 2045 = 1 + (970 + 1074) := rfl
    rw [places, twoTo_add, twoTo_add, two, one]
  have double : (twoTo 54 - 1) * (den * twoTo 2045) = 2 * (limit * den * one) := by
    rw [units, limit]
    ring
  refine last.trans ?_
  rw [double, Nat.mul_lt_mul_left Nat.two_pos]
  exact Nat.mul_lt_mul_right unit_pos

end Binary64

/-! ## Decimals -/

namespace Decimal

/-- Whether every binary number that is nearest to the decimal is infinite. -/
def IsTooLarge (d : Decimal) : Prop :=
  Binary64.limit * tenTo (-d.exponent).toNat ≤ d.coefficient * tenTo d.exponent.toNat

instance (d : Decimal) : Decidable d.IsTooLarge := inferInstanceAs (Decidable (_ ≤ _))

theorem nearestExact_lt_infinity_iff (d : Decimal) :
    d.nearestExact < Binary64.infinity ↔ ¬ d.IsTooLarge :=
  (Binary64.nearest_lt_infinity_iff (tenTo_pos _)).trans Nat.not_le.symm

/-- A decimal with so few places is near zero. -/
theorem not_isTooLarge_of_places {d : Decimal}
    (few : d.exponent + Digits.digitCount d.coefficient < -400) : ¬ d.IsTooLarge := by
  have below := (digitCount_bounds d.coefficient).1
  have scale : d.exponent.toNat = 0 := by omega
  have powers := tenTo_le (show Digits.digitCount d.coefficient ≤ (-d.exponent).toNat by omega)
  have grows := Nat.le_mul_of_pos_left (tenTo (-d.exponent).toNat) Binary64.limit_pos
  rw [IsTooLarge, scale, show tenTo 0 = 1 from rfl]
  omega

/-- A decimal with so many places is too large, unless it is zero. -/
theorem isTooLarge_of_places {d : Decimal} (some : d.coefficient ≠ 0)
    (many : 400 < d.exponent + Digits.digitCount d.coefficient) : d.IsTooLarge := by
  have above := (digitCount_bounds d.coefficient).2.1 (Nat.pos_of_ne_zero some)
  have places : 400 + (-d.exponent).toNat ≤
      Digits.digitCount d.coefficient - 1 + d.exponent.toNat := by omega
  calc Binary64.limit * tenTo (-d.exponent).toNat
      ≤ tenTo 400 * tenTo (-d.exponent).toNat := Nat.mul_le_mul_right _ Binary64.limit_le
    _ = tenTo (400 + (-d.exponent).toNat) := (tenTo_add _ _).symm
    _ ≤ tenTo (Digits.digitCount d.coefficient - 1 + d.exponent.toNat) := tenTo_le places
    _ = tenTo (Digits.digitCount d.coefficient - 1) * tenTo d.exponent.toNat := tenTo_add _ _
    _ ≤ d.coefficient * tenTo d.exponent.toNat := Nat.mul_le_mul_right _ above

theorem nearest_lt_infinity_iff (d : Decimal) :
    d.nearest < Binary64.infinity ↔ ¬ d.IsTooLarge := by
  have finite : 0 < Binary64.infinity := by decide
  unfold nearest
  dsimp only
  split
  · next small =>
      refine iff_of_true finite ?_
      rcases small with none | few
      · rw [IsTooLarge, none, Nat.zero_mul, Nat.not_le]
        exact Nat.mul_pos Binary64.limit_pos (tenTo_pos _)
      · exact not_isTooLarge_of_places few
  · next large =>
      split
      · next many =>
          have some : d.coefficient ≠ 0 := fun none => large (.inl none)
          exact iff_of_false (Nat.lt_irrefl _) (not_not.mpr (isTooLarge_of_places some many))
      · exact d.nearestExact_lt_infinity_iff

end Decimal

end JsonEvents.Numeral
