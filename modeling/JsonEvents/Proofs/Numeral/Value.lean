import JsonEvents.Proofs.Numeral.Rounding
import Mathlib.Algebra.Order.Field.Power
import Mathlib.Tactic.Positivity

/-!
# Decimals between magnitudes

A decimal is read as a magnitude when it is no farther than half a step below or
above it (`Decimal.nearest_eq_iff`), so it matters by its value alone
(`Decimal.nearest_congr`).  The step above is never the shorter one: half a step
down, and as far up, every decimal is read as the magnitude (`Binary64.Within`),
and any other one that is lies above a magnitude where the steps differ.
-/

namespace JsonEvents.Numeral

theorem cast_tenTo (n : Nat) : ((tenTo n : Nat) : ℚ) = 10 ^ n := by
  change ((10 ^ n : Nat) : ℚ) = 10 ^ n
  push_cast
  rfl

theorem pow_neg_le {n k : Nat} (some : 0 < n) (small : 2 * n ≤ tenTo k) :
    (10 : ℚ) ^ (-(k : Int)) ≤ 1 / (2 * n) := by
  have double : (2 * n : ℚ) ≤ tenTo k := by exact_mod_cast small
  have positive : (0 : ℚ) < 2 * n := mul_pos two_pos (Nat.cast_pos.mpr some)
  rw [zpow_neg, zpow_natCast, ← cast_tenTo, ← one_div]
  exact one_div_le_one_div_of_le positive double

theorem tenTo_mul (a : Int) (n : Nat) : (10 : ℚ) ^ a * tenTo n = 10 ^ (a + n) := by
  rw [cast_tenTo, ← zpow_natCast, ← zpow_add₀ (by norm_num)]

/-- A power of ten as a quotient of whole ones. -/
theorem tenTo_div (x : Int) : (tenTo x.toNat : ℚ) / (tenTo (-x).toNat : ℚ) = 10 ^ x := by
  rw [cast_tenTo, cast_tenTo]
  rcases Int.le_total 0 x with whole | part
  · have none : (-x).toNat = 0 := by omega
    rw [none, pow_zero, div_one, ← zpow_natCast, Int.toNat_of_nonneg whole]
  · have none : x.toNat = 0 := by omega
    have back : ((-x).toNat : Int) = -x := Int.toNat_of_nonneg (by omega)
    rw [none, pow_zero, ← zpow_natCast, back, zpow_neg, one_div, inv_inv]

namespace Binary64

/-- The number of a magnitude. -/
def value (magnitude : Nat) : ℚ := unitsOf magnitude / one

theorem value_mul_tenTo (m p : Nat) :
    value m * 10 ^ p = ((unitsOf m * tenTo p : Nat) : ℚ) / one := by
  rw [value, Nat.cast_mul, cast_tenTo, div_mul_eq_mul_div]

/-- The number half way to the next magnitude. -/
def halfway (magnitude : Nat) : ℚ := (value magnitude + value (magnitude + 1)) / 2

/-- One number is below another one, or equal to it where a tie goes to the magnitude. -/
def Under (magnitude : Nat) (v w : ℚ) : Prop := v < w ∨ v = w ∧ magnitude % 2 = 0

theorem Under.shift {magnitude : Nat} {v w v' w' : ℚ} (h : Under magnitude v w)
    (more : v' - w' ≤ v - w) : Under magnitude v' w' := by
  rcases h with below | ⟨rfl, even⟩
  · exact .inl (by linarith)
  · rcases (show v' ≤ w' by linarith).lt_or_eq with below | equal
    · exact .inl below
    · exact .inr ⟨equal, even⟩

theorem Under.le {magnitude : Nat} {v w : ℚ} (h : Under magnitude v w) : v ≤ w := by
  rcases h with below | ⟨equal, -⟩
  · exact below.le
  · exact equal.le

theorem one_pos : (0 : ℚ) < one := Nat.cast_pos.mpr unit_pos

theorem nearest_le_iff_value {num den k : Nat} (some : 0 < den) :
    nearest num den ≤ k ↔ Under k (num / den) (halfway k) := by
  have positive : (0 : ℚ) < den := Nat.cast_pos.mpr some
  have unit : (0 : ℚ) < 2 * one := mul_pos two_pos one_pos
  have middle : halfway k = (unitsOf k + unitsOf (k + 1)) / (2 * one) := by
    unfold halfway value
    rw [← add_div, div_div, mul_comm]
  rw [nearest_le_iff some, Under, middle, div_lt_div_iff₀ positive unit,
    div_eq_div_iff positive.ne' unit.ne']
  have left : (num : ℚ) * (2 * one) = ((2 * (num * one) : Nat) : ℚ) := by
    push_cast
    ring
  have right : ((unitsOf k : ℚ) + unitsOf (k + 1)) * den =
      (((unitsOf k + unitsOf (k + 1)) * den : Nat) : ℚ) := by
    push_cast
    ring
  rw [left, right, Nat.cast_lt, Nat.cast_inj]

/-! ## Steps -/

/-- The step from a magnitude down to the one before. -/
def stepDown (magnitude : Nat) : ℚ := value magnitude - value (magnitude - 1)

/-- The step from a magnitude up to the next one. -/
def stepUp (magnitude : Nat) : ℚ := value (magnitude + 1) - value magnitude

variable {m : Nat} {v v' : ℚ}

theorem exists_steps_value (some : 0 < m) :
    ∃ down up, Steps m down up ∧ stepDown m = down / one ∧ stepUp m = up / one := by
  obtain ⟨down, up, steps⟩ := exists_steps some
  refine ⟨down, up, steps, ?_, ?_⟩
  · rw [stepDown, value, value, ← steps.below, Nat.cast_add, ← sub_div, add_sub_cancel_left]
  · rw [stepUp, value, value, ← steps.above, Nat.cast_add, ← sub_div, add_sub_cancel_left]

theorem stepDown_pos (some : 0 < m) : 0 < stepDown m := by
  obtain ⟨down, up, steps, below, -⟩ := exists_steps_value some
  rw [below]
  exact div_pos (Nat.cast_pos.mpr steps.some) one_pos

theorem stepDown_le_stepUp (some : 0 < m) : stepDown m ≤ stepUp m := by
  obtain ⟨down, up, steps, below, above⟩ := exists_steps_value some
  rw [below, above]
  exact div_le_div_of_nonneg_right (Nat.cast_le.mpr steps.least) one_pos.le

theorem stepUp_le (some : 0 < m) : stepUp m ≤ 2 * stepDown m := by
  obtain ⟨down, up, steps, below, above⟩ := exists_steps_value some
  rw [below, above, ← mul_div_assoc]
  apply div_le_div_of_nonneg_right _ one_pos.le
  exact_mod_cast steps.most

theorem stepUp_eq (some : 0 < m) (inner : ¬ IsEdge m) : stepUp m = stepDown m := by
  obtain ⟨down, up, steps, below, above⟩ := exists_steps_value some
  rw [below, above, steps.even inner]

/-- A magnitude has at most 53 bits. -/
theorem value_le (some : 0 < m) : value m ≤ 2 ^ 53 * stepDown m := by
  obtain ⟨down, up, steps, below, -⟩ := exists_steps_value some
  have bits : (2 : ℚ) ^ 53 = (twoTo 53 : Nat) := by norm_num [twoTo]
  rw [below, value, ← mul_div_assoc, bits]
  apply div_le_div_of_nonneg_right _ one_pos.le
  exact_mod_cast steps.fine

theorem value_pos (some : 0 < m) : 0 < value m := by
  obtain ⟨down, up, steps, below, -⟩ := exists_steps_value some
  apply div_pos _ one_pos
  rw [← steps.below]
  exact_mod_cast Nat.lt_of_lt_of_le steps.some (Nat.le_add_left _ _)

theorem halfway_eq (m : Nat) : halfway m = value m + stepUp m / 2 := by
  unfold halfway stepUp
  ring

theorem halfway_pred (some : 0 < m) : halfway (m - 1) = value m - stepDown m / 2 := by
  unfold halfway stepDown
  rw [Nat.sub_add_cancel some]
  ring

/-- Half a step down from a magnitude, and as far above it. -/
def Within (magnitude : Nat) (v : ℚ) : Prop :=
  Under magnitude |v - value magnitude| (stepDown magnitude / 2)

theorem Within.nearer (h : Within m v') (near : |v - value m| ≤ |v' - value m|) : Within m v :=
  Under.shift h (by linarith)

end Binary64

namespace Decimal

open Binary64

variable {d d' : Decimal} {k m : Nat}

def value (d : Decimal) : ℚ := d.coefficient * 10 ^ d.exponent

theorem value_eq (d : Decimal) :
    ((d.coefficient * tenTo d.exponent.toNat : Nat) : ℚ) / (tenTo (-d.exponent).toNat : ℚ) =
      d.value := by
  rw [value, ← tenTo_div, Nat.cast_mul, mul_div_assoc]

/-- Zeros behind a number scale it. -/
theorem value_scaled (n k : Nat) (e : Int) : value ⟨n * tenTo k, e⟩ = value ⟨n, e + k⟩ := by
  rw [value, value, Nat.cast_mul, mul_assoc, mul_comm (tenTo k : ℚ), tenTo_mul]

theorem nearestExact_le_iff (d : Decimal) (k : Nat) :
    d.nearestExact ≤ k ↔ Under k d.value (halfway k) := by
  rw [← value_eq]
  exact nearest_le_iff_value (tenTo_pos _)

/-- Half a unit. -/
theorem halfway_zero : halfway 0 = 1 / (2 * one) := by
  have least : unitsOf 0 = 0 := rfl
  have next : unitsOf 1 = 1 := rfl
  rw [halfway, Binary64.value, Binary64.value, least, next, Nat.cast_zero, zero_div, zero_add,
    div_div, Nat.cast_one, mul_comm]

theorem le_halfway_zero : (10 : ℚ) ^ (-400 : Int) ≤ halfway 0 := by
  have two : twoTo 1 = 2 := rfl
  have power : twoTo (1 + 1074) ≤ twoTo (3 * 400) := twoTo_le (by decide)
  have double : 2 * one ≤ tenTo 400 := by
    rw [← two, one, ← twoTo_add]
    exact Nat.le_trans power (twoTo_three_mul_le 400)
  rw [halfway_zero]
  exact pow_neg_le unit_pos double

theorem value_lt (d : Decimal) : d.value < 10 ^ (d.exponent + Digits.digitCount d.coefficient) := by
  have digits : (d.coefficient : ℚ) < 10 ^ Digits.digitCount d.coefficient := by
    rw [← cast_tenTo]
    exact Nat.cast_lt.mpr (digitCount_bounds d.coefficient).1
  rw [add_comm, zpow_add₀ (by norm_num), zpow_natCast]
  exact mul_lt_mul_of_pos_right digits (by positivity)

theorem nearestExact_of_small (small : d.coefficient = 0 ∨
    d.exponent + Digits.digitCount d.coefficient < -400) : d.nearestExact = 0 := by
  have below : d.value < halfway 0 := by
    apply lt_of_lt_of_le _ le_halfway_zero
    rcases small with none | few
    · rw [value, none, Nat.cast_zero, zero_mul]
      positivity
    · exact d.value_lt.trans_le (zpow_le_zpow_right₀ (by norm_num) few.le)
  exact Nat.le_zero.mp ((nearestExact_le_iff d 0).mpr (.inl below))

/-- Decimals are read as a magnitude or a smaller one up to half the step above it. -/
theorem nearest_le_iff (finite : k < infinity) :
    d.nearest ≤ k ↔ Under k d.value (halfway k) := by
  rw [← nearestExact_le_iff]
  unfold nearest
  dsimp only
  split
  · next small => rw [nearestExact_of_small small]
  · next large =>
      split
      · next many =>
          have some : d.coefficient ≠ 0 := fun none => large (.inl none)
          have beyond := mt d.nearestExact_lt_infinity_iff.mp
            (not_not.mpr (isTooLarge_of_places some many))
          omega
      · rfl

/-- Only the value of a decimal matters. -/
theorem nearest_congr (same : d.value = d'.value) (finite : d.nearest < infinity) :
    d'.nearest = d.nearest := by
  have agree : ∀ k < infinity, d.nearest ≤ k ↔ d'.nearest ≤ k := fun k less => by
    rw [nearest_le_iff less, nearest_le_iff less, same]
  have below := (agree _ finite).mp (Nat.le_refl _)
  have above := (agree _ (Nat.lt_of_le_of_lt below finite)).mpr (Nat.le_refl _)
  exact Nat.le_antisymm below above

/-- A decimal is read as a magnitude from half a step below it to half a step above it. -/
theorem nearest_eq_iff (some : 0 < m) (finite : m < infinity) :
    d.nearest = m ↔ Under m (Binary64.value m - stepDown m / 2) d.value ∧
      Under m d.value (Binary64.value m + stepUp m / 2) := by
  have upper : d.nearest ≤ m ↔ _ := nearest_le_iff finite
  have lower : d.nearest ≤ m - 1 ↔ _ := nearest_le_iff (by omega)
  -- A tie goes to the magnitude just when it does not go to the one before.
  have border : ¬ Under (m - 1) d.value (halfway (m - 1)) ↔ Under m (halfway (m - 1)) d.value := by
    have parity : (m - 1) % 2 = 0 ↔ m % 2 ≠ 0 := by omega
    have order := lt_trichotomy (halfway (m - 1)) d.value
    unfold Under
    grind
  have position : d.nearest = m ↔ ¬ d.nearest ≤ m - 1 ∧ d.nearest ≤ m := by omega
  rw [position, upper, lower, border, halfway_pred some, halfway_eq]

/-- Half a step around it is read as the magnitude. -/
theorem nearest_of_within (some : 0 < m) (finite : m < infinity) (h : Within m d.value) :
    d.nearest = m := by
  have least := stepDown_le_stepUp some
  have below := neg_abs_le (d.value - Binary64.value m)
  have above := le_abs_self (d.value - Binary64.value m)
  rw [nearest_eq_iff some finite]
  exact ⟨h.shift (by linarith), h.shift (by linarith)⟩

/-- What is read as a magnitude is half a step around it, unless the step above is longer. -/
theorem within_of_nearest (some : 0 < m) (finite : m < infinity) (same : d.nearest = m)
    (fits : IsEdge m → d.value ≤ Binary64.value m) : Within m d.value := by
  obtain ⟨lower, upper⟩ := (nearest_eq_iff some finite).mp same
  unfold Within
  rcases le_total d.value (Binary64.value m) with below | above
  · rw [abs_of_nonpos (by linarith)]
    exact lower.shift (by linarith)
  · rw [abs_of_nonneg (by linarith)]
    by_cases edge : IsEdge m
    · have itself := fits edge
      have step := stepDown_pos some
      exact .inl (by linarith)
    · rw [stepUp_eq some edge] at upper
      exact upper.shift (by linarith)

end Decimal

end JsonEvents.Numeral
