import JsonEvents.Proofs.Numeral.Printed

/-!
# How many figures are printed

A number has as many figures as it takes to write it with a power of ten
(`Decimal.figureCount_le_iff`).  The decimal that is printed for a binary number
has the fewest figures of all that are read as the number, except where the step
below the number is shorter than the one above: only the nearest decimal of each
length is tried, and a decimal above that is read as the number may have one
figure less (`exists_text_of_few_figures`).
-/

namespace JsonEvents

open Ascii Grammar

namespace Numeral

/-! ## Figures of a decimal -/

namespace Decimal

variable {d : Decimal} {n : Nat}

/-- The digits of a decimal without zeros at both ends. -/
def figureCount (d : Decimal) : Nat := (Digits.stripped (Digits.digits d.coefficient)).length

/-- The finer one of two equal numbers is a multiple of the other one. -/
theorem eq_mul_of_scaled {a b : Nat} {x y : Int} (same : (a * 10 ^ x : ℚ) = b * 10 ^ y)
    (finer : x ≤ y) : a = b * tenTo (y - x).toNat := by
  have power : y = x + (y - x).toNat := by omega
  rw [power, ← tenTo_mul, ← mul_assoc, mul_right_comm] at same
  have step : (10 : ℚ) ^ x ≠ 0 := by positivity
  exact_mod_cast mul_right_cancel₀ step same

/-- A decimal has as many figures as an integer needs to be a multiple of it by a power of ten. -/
theorem figureCount_le_iff (some : 0 < d.coefficient) :
    d.figureCount ≤ n ↔ ∃ (c : Nat) (x : Int), c < tenTo n ∧ d.value = c * 10 ^ x := by
  obtain ⟨s, k, number, whole, least, less⟩ := Digits.exists_significand some
  have value : d.value = s * 10 ^ (d.exponent + k) := by
    rw [Decimal.value, number, Nat.cast_mul, mul_assoc, mul_comm (tenTo k : ℚ), tenTo_mul]
  unfold figureCount
  constructor
  · intro few
    exact ⟨s, _, Nat.lt_of_lt_of_le less (tenTo_le few), value⟩
  · rintro ⟨c, x, few, same⟩
    rcases le_or_gt x (d.exponent + k) with coarse | fine
    · have multiple := eq_mul_of_scaled (same.symm.trans value) coarse
      have more := Nat.le_mul_of_pos_right s (tenTo_pos (d.exponent + k - x).toNat)
      have fewer : tenTo _ < tenTo n := Nat.lt_of_le_of_lt least (by omega)
      have digits := lt_of_tenTo_lt fewer
      omega
    · have multiple := eq_mul_of_scaled (value.symm.trans same) fine.le
      obtain ⟨j, more⟩ := Nat.exists_eq_succ_of_ne_zero
        (show (x - (d.exponent + k)).toNat ≠ 0 by omega)
      have ten : tenTo (j + 1) = tenTo j * 10 := rfl
      rw [more, Nat.succ_eq_add_one, ten, ← Nat.mul_assoc] at multiple
      omega

theorem figureCount_pos (some : 0 < d.coefficient) : 0 < d.figureCount := by
  obtain ⟨s, k, -, whole, -, less⟩ := Digits.exists_significand some
  apply Nat.pos_of_ne_zero
  intro none
  have empty : tenTo d.figureCount = 1 := none ▸ rfl
  rw [figureCount] at empty
  omega

theorem coefficient_pos {m : Nat} (some : 0 < m) (same : d.nearest = m) : 0 < d.coefficient := by
  apply Nat.pos_of_ne_zero
  intro none
  have zero : d.nearest = 0 := if_pos (.inl none)
  omega

end Decimal

namespace Figures

open Binary64

variable {g : Figures} {d : Decimal} {m p : Nat}

theorem Proper.figureCount_le (h : g.Proper) (some : 0 < d.coefficient)
    (same : d.value = g.toDecimal.value) : d.figureCount ≤ g.digits.length :=
  (Decimal.figureCount_le_iff some).mpr ⟨_, _, Digits.value_lt h.areDigits, same⟩

/-- The nearest decimal of so many figures is read as the magnitude if any of them is, unless that
one is above an edge. -/
theorem nearest_of_few (some : 0 < m) (finite : m < infinity) (same : d.nearest = m)
    (few : d.figureCount ≤ p + 1) (fits : IsEdge m → d.value ≤ Binary64.value m) :
    (scientific (unitsOf m) p).toDecimal.nearest = m := by
  obtain ⟨c, x, less, value⟩ :=
    (Decimal.figureCount_le_iff (Decimal.coefficient_pos some same)).mp few
  have least := (leadingExponent_bounds (unitsOf_pos some)).1
  have near := (nearest_scientific_value some p).le least less x
  rw [← value] at near
  have within := Decimal.within_of_nearest some finite same fits
  exact Decimal.nearest_of_within some finite (within.nearer near)

/-- Above an edge one figure more is enough. -/
theorem nearest_of_few_above (some : 0 < m) (finite : m < infinity) (same : d.nearest = m)
    (few : d.figureCount ≤ p + 1) (above : Binary64.value m < d.value)
    (missed : (scientific (unitsOf m) p).toDecimal.nearest ≠ m) :
    (scientific (unitsOf m) (p + 1)).toDecimal.nearest = m := by
  obtain ⟨c, x, less, value⟩ :=
    (Decimal.figureCount_le_iff (Decimal.coefficient_pos some same)).mp few
  have least : (10 : ℚ) ^ leadingExponent (unitsOf m) ≤ Binary64.value m :=
    (leadingExponent_bounds (unitsOf_pos some)).1
  have nearest := nearest_scientific_value some p
  have near := nearest.le least less x
  obtain ⟨n, grid⟩ := nearest.grid
  apply nearest_of_fine some finite
  generalize leadingExponent (unitsOf m) = e at *
  have step : (0 : ℚ) < 10 ^ (e - p) := by positivity
  rcases few_digits less x e with ⟨k, multiple⟩ | below
  · -- Both decimals are multiples of the last place, so a place is no longer than the step above.
    rw [multiple, grid] at near
    rw [multiple] at value
    have other : n ≠ k := by
      rintro rfl
      exact missed ((Decimal.nearest_congr (value.trans grid.symm) (same ▸ finite)).trans same)
    have place := step_le_on_grid step other (Binary64.value m)
    rw [← value, abs_of_pos (sub_pos.mpr above)] at near place
    have upper := ((Decimal.nearest_eq_iff some finite).mp same).2.le
    have long := stepUp_le some
    have short := stepDown_pos some
    have tenth : (10 : ℚ) ^ (e - (p + 1 : Nat)) * 10 = 10 ^ (e - p) := by
      rw [← zpow_add_one₀ (by norm_num)]
      congr 1
      omega
    linarith
  · rw [← value] at below
    linarith

/-- What has the value of the shortest figures has as few figures as any other decimal that is read
alike, or one more than a decimal above an edge. -/
theorem figureCount_shortest {d' : Decimal} (some : 0 < m) (finite : m < infinity)
    (value : d.value = (shortest m).toDecimal.value) (same : d'.nearest = m) :
    d.figureCount ≤
      d'.figureCount + if IsEdge m ∧ Binary64.value m < d'.value then 1 else 0 := by
  obtain ⟨q, -, figures, -, before⟩ := exists_shortest some finite
  have own := nearest_of_shortest some finite value
  have scientific := nearest_scientific_value some q
  have count : d.figureCount ≤ q + 1 := by
    rw [← scientific.length]
    rw [figures] at value
    exact scientific.proper.figureCount_le (Decimal.coefficient_pos some own) value
  have present := Decimal.figureCount_pos (Decimal.coefficient_pos some same)
  obtain ⟨p, digits⟩ := Nat.exists_eq_succ_of_ne_zero (Nat.ne_of_gt present)
  have few : d'.figureCount ≤ p + 1 := Nat.le_of_eq digits
  by_contra more
  split at more
  · next above =>
      have missed := before p (by omega)
      exact before (p + 1) (by omega) (nearest_of_few_above some finite same few above.2 missed)
  · next other =>
      have fits : IsEdge m → d'.value ≤ Binary64.value m := fun edge =>
        le_of_not_gt fun above => other ⟨edge, above⟩
      exact before p (by omega) (nearest_of_few some finite same few fits)

end Figures

variable {f : Binary64} {precision : Int}

/--
The text of a number other than zero denotes a decimal with as few figures as
any that is read as the number.  At an edge, where the step below is half as
long, a decimal above the number may have one figure less.
-/
theorem exists_text_of_few_figures (out : Bytes) (finite : f.isFinite = true)
    (some : f.magnitude ≠ 0) (shortest : precision < 0 ∨ 17 < precision) :
    ∃ text d, appendFloat out f precision = (true, out ++ text) ∧
      Denotes text f.isNegative d ∧ d.nearest = f.magnitude ∧
      ∀ d' : Decimal, d'.nearest = f.magnitude →
        d.figureCount ≤ d'.figureCount +
          if Binary64.IsEdge f.magnitude ∧ Binary64.value f.magnitude < d'.value then 1
          else 0 := by
  obtain ⟨text, d, appended, printed, nearest, value⟩ :=
    exists_shortest_text out shortest finite (Nat.pos_of_ne_zero some)
  refine ⟨text, d, appended, printed.denotes, nearest, ?_⟩
  intro d' same
  exact Figures.figureCount_shortest (Nat.pos_of_ne_zero some) (of_decide_eq_true finite) value same

/-- At 2^-44, an edge, 17 figures are printed, though 16 are enough a little above it. -/
theorem exists_text_of_few_figures_edge :
    let f : Binary64 := ⟨0x3d30000000000000⟩
    let above : Decimal := ⟨5684341886080802, -29⟩
    let text := Bytes.ofString "5.6843418860808015e-14"
    f.isFinite = true ∧ f.magnitude ≠ 0 ∧ ((-1 : Int) < 0 ∨ 17 < (-1 : Int)) ∧
      Binary64.IsEdge f.magnitude ∧ above.nearest = f.magnitude ∧ above.figureCount = 16 ∧
      Denotes text false ⟨56843418860808015, -30⟩ ∧
      Decimal.figureCount ⟨56843418860808015, -30⟩ = 17 ∧
      appendFloat [] f (-1) = (true, text) ∧
      ∃ d, Denotes text false d ∧ d.nearest = f.magnitude ∧ d.figureCount ≤ 17 := by
  intro f above text
  have finite : f.isFinite = true := by decide
  have some : f.magnitude ≠ 0 := by decide
  have negative : (-1 : Int) < 0 ∨ 17 < (-1 : Int) := .inl (by decide)
  have edge : Binary64.IsEdge f.magnitude := by decide
  have same : above.nearest = f.magnitude := by decide +kernel
  have count : above.figureCount = 16 := by decide +kernel
  have given : appendFloat [] f (-1) = (true, text) := by decide +kernel
  have integer : IsInteger (Bytes.ofString "5") := .digits (by decide) (by decide)
  have fraction : IsFraction (Bytes.ofString ".6843418860808015") := .digits rfl (by decide)
  have exponent : IsExponent (Bytes.ofString "e-14") := .signed rfl rfl rfl (by decide)
  have denotes : Denotes text false ⟨56843418860808015, -30⟩ :=
    .parts .none integer fraction exponent
  have more : Decimal.figureCount ⟨56843418860808015, -30⟩ = 17 := by decide +kernel
  obtain ⟨written, d, appended, printed, nearest, few⟩ :=
    exists_text_of_few_figures [] finite some negative
  obtain rfl : written = text := congrArg Prod.snd (appended.symm.trans given)
  refine ⟨finite, some, negative, edge, same, count, denotes, more, given, d, printed, nearest, ?_⟩
  have bound := few above same
  rw [count] at bound
  split at bound <;> omega

end Numeral

end JsonEvents
