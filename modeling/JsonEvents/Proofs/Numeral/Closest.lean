import JsonEvents.Proofs.Numeral.Value

/-!
# The finite number closest to another number

`Binary64.IsClosest x f` says that no finite number of 64 bits is closer to `x`
than `f` is, and that the encoding of `f` is even where another one is as close.
What lies between the midpoints around a magnitude is closest to it
(`Binary64.isClosest_of_between`), and so the decimal that is read as a
magnitude (`Decimal.isClosest_nearest`) and the quotient that is rounded to one
(`Binary64.between_nearest`).  From `Binary64.limit` on, half a step above the
greatest finite number, nothing is rounded to a finite one.
-/

namespace JsonEvents.Numeral

/-- A number with a sign. -/
def signedRat (negative : Bool) (x : ℚ) : ℚ := if negative then -x else x

theorem abs_signedRat (negative : Bool) (x : ℚ) : |signedRat negative x| = |x| := by
  cases negative with
  | true => exact abs_neg x
  | false => rfl

theorem signedRat_sub (negative : Bool) (x y : ℚ) :
    signedRat negative x - signedRat negative y = signedRat negative (x - y) := by
  cases negative with
  | true => exact (neg_sub_neg x y).trans (neg_sub x y).symm
  | false => rfl

theorem signedRat_mul (negative : Bool) (x y : ℚ) :
    signedRat negative x * y = signedRat negative (x * y) := by
  cases negative with
  | true => exact neg_mul x y
  | false => rfl

theorem signedRat_signedRat (negative : Bool) (x : ℚ) :
    signedRat negative (signedRat negative x) = x := by
  cases negative with
  | true => exact neg_neg x
  | false => rfl

theorem abs_signedRat_sub (negative : Bool) (x y : ℚ) :
    |signedRat negative x - y| = |x - signedRat negative y| := by
  have own := signedRat_sub negative x (signedRat negative y)
  rw [signedRat_signedRat] at own
  rw [own, abs_signedRat]

namespace Binary64

variable {k m : Nat} {x : ℚ}

/-! ## Values -/

/-- The number that an encoding stands for. -/
def toRat (f : Binary64) : ℚ := signedRat f.isNegative (value f.magnitude)

theorem value_zero : value 0 = 0 := by
  have none : unitsOf 0 = 0 := rfl
  rw [value, none, Nat.cast_zero, zero_div]

theorem value_strictMono : StrictMono value := by
  refine strictMono_nat_of_lt_succ fun k => ?_
  have step := stepDown_pos (Nat.succ_pos k)
  rw [stepDown, Nat.succ_sub_one] at step
  exact sub_pos.mp step

theorem value_nonneg (k : Nat) : 0 ≤ value k := by
  rw [← value_zero]
  exact value_strictMono.monotone (Nat.zero_le k)

theorem magnitude_ofMagnitude (negative : Bool) (finite : m < infinity) :
    (ofMagnitude negative m).magnitude = m ∧ (ofMagnitude negative m).isNegative = negative := by
  have weight : signWeight = 9223372036854775808 := rfl
  have top : infinity = 9218868437227405312 := rfl
  have bits : (ofMagnitude negative m).bits.toNat =
      if negative then signWeight + m else m := by
    have size : (if negative then signWeight + m else m) < 2 ^ 64 := by
      split <;> omega
    exact Nat.mod_eq_of_lt size
  rw [magnitude, isNegative, bits]
  cases negative with
  | true =>
      rw [if_pos rfl, weight]
      exact ⟨by omega, decide_eq_true (by omega)⟩
  | false =>
      rw [if_neg Bool.false_ne_true, weight]
      exact ⟨by omega, decide_eq_false (by omega)⟩

theorem toRat_ofMagnitude (negative : Bool) (finite : m < infinity) :
    (ofMagnitude negative m).toRat = signedRat negative (value m) := by
  obtain ⟨magnitude, sign⟩ := magnitude_ofMagnitude negative finite
  rw [toRat, magnitude, sign]

/-! ## Closeness -/

/-- No finite number is closer, and one that is as close loses to an even encoding. -/
structure IsClosest (x : ℚ) (f : Binary64) : Prop where
  finite : f.isFinite = true
  closest : ∀ g : Binary64, g.isFinite = true → |f.toRat - x| ≤ |g.toRat - x|
  even : ∀ g : Binary64, g.isFinite = true → g.toRat ≠ f.toRat → |f.toRat - x| = |g.toRat - x| →
    f.magnitude % 2 = 0

/-- A number that is no farther from a magnitude than the midpoints around it. -/
structure Between (m : Nat) (x : ℚ) : Prop where
  nonneg : 0 ≤ x
  below : Under m x (halfway m)
  above : 0 < m → ¬ Under (m - 1) x (halfway (m - 1))

/-- Up to the middle of two numbers the lower one is as close as the upper one or a larger one, and
closer than that in front of the middle. -/
theorem abs_le_of_le_middle {a b c : ℚ} (less : a < b) (more : b ≤ c) (middle : x ≤ (a + b) / 2) :
    |a - x| ≤ |c - x| ∧ (|a - x| = |c - x| → x = (a + b) / 2) := by
  have upper : |c - x| = c - x := abs_of_nonneg (by linarith)
  rw [upper]
  rcases le_total a x with right | left
  · have lower : |a - x| = x - a := by
      rw [abs_sub_comm]
      exact abs_of_nonneg (by linarith)
    rw [lower]
    exact ⟨by linarith, fun _ => by linarith⟩
  · have lower : |a - x| = a - x := abs_of_nonneg (by linarith)
    rw [lower]
    exact ⟨by linarith, fun _ => by linarith⟩

theorem abs_neg_sub_neg (a x : ℚ) : |-a - -x| = |a - x| := by
  rw [neg_sub_neg, abs_sub_comm]

theorem Under.even (h : Under m x x) : m % 2 = 0 := by
  rcases h with less | ⟨-, even⟩
  · exact absurd less (lt_irrefl x)
  · exact even

/-- A magnitude is as close as any other one, and an odd one is closer. -/
theorem Between.closest (between : Between m x) (other : k ≠ m) :
    |value m - x| ≤ |value k - x| ∧ (|value m - x| = |value k - x| → m % 2 = 0) := by
  rcases Nat.lt_or_gt_of_ne other with less | more
  · -- Seen from the other side, the magnitude below is the upper one.
    have some : 0 < m := by omega
    have next : m - 1 + 1 = m := Nat.sub_add_cancel some
    have above := between.above some
    have step : value (m - 1) < value m := value_strictMono (by omega)
    have before : value k ≤ value (m - 1) := value_strictMono.monotone (by omega)
    have bound : halfway (m - 1) ≤ x := le_of_not_gt fun below => above (.inl below)
    have middle : halfway (m - 1) = (value (m - 1) + value m) / 2 := by rw [halfway, next]
    rw [middle] at bound
    obtain ⟨near, tie⟩ := abs_le_of_le_middle (x := -x) (neg_lt_neg step) (neg_le_neg before)
      (by linarith)
    rw [abs_neg_sub_neg, abs_neg_sub_neg] at near tie
    refine ⟨near, fun same => ?_⟩
    have here : x = halfway (m - 1) := by
      rw [middle]
      linarith [tie same]
    by_contra odd
    exact above (.inr ⟨here, by omega⟩)
  · have step : value m < value (m + 1) := value_strictMono (by omega)
    have behind : value (m + 1) ≤ value k := value_strictMono.monotone more
    obtain ⟨near, tie⟩ := abs_le_of_le_middle step behind between.below.le
    refine ⟨near, fun same => ?_⟩
    have here : x = halfway m := tie same
    have below := between.below
    rw [← here] at below
    exact below.even

/-- A negative number is no closer than zero, and is zero if it is as close. -/
theorem abs_le_of_nonpos {v : ℚ} (nonneg : 0 ≤ x) (nonpos : v ≤ 0) :
    |0 - x| ≤ |v - x| ∧ (|0 - x| = |v - x| → v = 0) := by
  have far : |v - x| = x - v := by
    rw [abs_sub_comm]
    exact abs_of_nonneg (by linarith)
  rw [zero_sub, abs_neg, abs_of_nonneg nonneg, far]
  exact ⟨by linarith, fun _ => by linarith⟩

theorem Between.closest_signed (between : Between m x) (opposite : Bool)
    (other : signedRat opposite (value k) ≠ value m) :
    |value m - x| ≤ |signedRat opposite (value k) - x| ∧
      (|value m - x| = |signedRat opposite (value k) - x| → m % 2 = 0) := by
  cases opposite with
  | false =>
      apply between.closest
      rintro rfl
      exact other rfl
  | true =>
      have nonpos : -value k ≤ 0 := neg_nonpos.mpr (value_nonneg k)
      obtain ⟨far, same⟩ := abs_le_of_nonpos between.nonneg nonpos
      change |value m - x| ≤ |-value k - x| ∧ (|value m - x| = |-value k - x| → m % 2 = 0)
      rcases Nat.eq_zero_or_pos m with rfl | some
      · exact ⟨value_zero ▸ far, fun _ => rfl⟩
      · obtain ⟨near, tie⟩ := between.closest (Nat.ne_of_lt some)
        rw [value_zero] at near tie
        refine ⟨near.trans far, fun equal => tie (le_antisymm near ?_)⟩
        exact far.trans equal.ge

/-- The number of a sign and a magnitude is closest to what lies between the midpoints around it. -/
theorem isClosest_of_between (between : Between m x) (finite : m < infinity) (negative : Bool) :
    IsClosest (signedRat negative x) (ofMagnitude negative m) := by
  obtain ⟨magnitude, sign⟩ := magnitude_ofMagnitude negative finite
  have own := toRat_ofMagnitude negative finite
  -- A common sign of both numbers changes nothing.
  have unsigned : ∀ v, |v - signedRat negative x| = |signedRat negative v - x| := fun v =>
    (abs_signedRat_sub negative v x).symm
  have near : ∀ g : Binary64, g.toRat ≠ (ofMagnitude negative m).toRat →
      |(ofMagnitude negative m).toRat - signedRat negative x| ≤ |g.toRat - signedRat negative x| ∧
        (|(ofMagnitude negative m).toRat - signedRat negative x| =
          |g.toRat - signedRat negative x| → m % 2 = 0) := by
    intro g other
    rw [own] at other ⊢
    have different : signedRat negative g.toRat ≠ value m := fun same =>
      other ((signedRat_signedRat negative _).symm.trans (congrArg _ same))
    have sides : ∃ opposite, signedRat negative g.toRat = signedRat opposite (value g.magnitude) := by
      rw [toRat]
      cases negative with
      | false => exact ⟨_, rfl⟩
      | true =>
          cases g.isNegative with
          | false => exact ⟨true, rfl⟩
          | true => exact ⟨false, neg_neg _⟩
    obtain ⟨opposite, side⟩ := sides
    rw [unsigned, unsigned, signedRat_signedRat]
    rw [side] at different ⊢
    exact between.closest_signed opposite different
  refine ⟨?_, ?_, ?_⟩
  · rw [isFinite, magnitude]
    exact decide_eq_true finite
  · intro g _
    by_cases same : g.toRat = (ofMagnitude negative m).toRat
    · rw [same]
    · exact (near g same).1
  · intro g _ other equal
    rw [magnitude]
    exact (near g other).2 equal

theorem between_nearest {num den : Nat} (some : 0 < den) :
    Between (nearest num den) (num / den) where
  nonneg := by positivity
  below := (nearest_le_iff_value some).mp (Nat.le_refl _)
  above := fun present under => by
    have lower := (nearest_le_iff_value some).mpr under
    omega

theorem nearest_lt_infinity_iff_value {num den : Nat} (some : 0 < den) :
    nearest num den < infinity ↔ (num / den : ℚ) < limit := by
  have positive : (0 : ℚ) < den := Nat.cast_pos.mpr some
  rw [nearest_lt_infinity_iff some, div_lt_iff₀ positive]
  exact_mod_cast Iff.rfl

end Binary64

namespace Decimal

open Binary64

variable {d : Decimal}

theorem value_nonneg (d : Decimal) : 0 ≤ d.value := by
  unfold value
  positivity

theorem isTooLarge_iff (d : Decimal) : d.IsTooLarge ↔ (limit : ℚ) ≤ d.value := by
  have positive : (0 : ℚ) < tenTo (-d.exponent).toNat := Nat.cast_pos.mpr (tenTo_pos _)
  rw [← value_eq, le_div_iff₀ positive, IsTooLarge]
  exact_mod_cast Iff.rfl

theorem between_nearest (fits : ¬ d.IsTooLarge) : Between d.nearest d.value where
  nonneg := d.value_nonneg
  below := (nearest_le_iff (d.nearest_lt_infinity_iff.mpr fits)).mp (Nat.le_refl _)
  above := fun present under => by
    have finite := d.nearest_lt_infinity_iff.mpr fits
    have lower : d.nearest ≤ d.nearest - 1 := (nearest_le_iff (by omega)).mpr under
    omega

/-- What a decimal is read as is closest to its value, with the sign that it is given. -/
theorem isClosest_nearest (fits : ¬ d.IsTooLarge) (negative : Bool) :
    IsClosest (signedRat negative d.value) (ofMagnitude negative d.nearest) :=
  isClosest_of_between (between_nearest fits) (d.nearest_lt_infinity_iff.mpr fits) negative

end Decimal

end JsonEvents.Numeral
