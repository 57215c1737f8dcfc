import JsonEvents.Proofs.Numeral.Digits
import JsonEvents.Proofs.Numeral.Value

/-!
# Figures of a magnitude

`Figures.scientific` gives a number of so many digits, and of all such numbers
none is nearer to the magnitude (`Figures.nearest_scientific`,
`Figures.Nearest.le`).  With 17 digits it is within half a step of the magnitude
and so is read as the magnitude again (`Figures.nearest_of_many`), which ends the
search for the shortest figures (`Figures.exists_shortest`).  Zeros at the end do
not matter (`Figures.value_zerosBehind`).
-/

namespace JsonEvents

open Ascii Grammar

namespace Numeral

/-! ## Rounding -/

/-- What is rounded is off by a half at most. -/
theorem roundHalfEven_near {num den : Nat} (some : 0 < den) :
    |(roundHalfEven num den : ℚ) - num / den| ≤ 1 / 2 := by
  have positive : (0 : ℚ) < den := Nat.cast_pos.mpr some
  generalize rounded : roundHalfEven num den = n
  have upper : (2 * num : ℚ) ≤ (2 * n + 1) * den := by
    have within := (roundHalfEven_le_iff some).mp (Nat.le_of_eq rounded)
    have most : 2 * num ≤ (2 * n + 1) * den := by omega
    exact_mod_cast most
  have lower : (2 * n * den : ℚ) ≤ 2 * num + den := by
    have least : 2 * n * den ≤ 2 * num + den := by
      cases n with
      | zero => omega
      | succ k =>
          have beyond := mt (roundHalfEven_le_iff some).mpr
            (Nat.not_le.mpr (Nat.lt_of_lt_of_eq (Nat.lt_succ_self k) rounded.symm))
          have more : 2 * (k + 1) * den = (2 * k + 1) * den + den := by ring
          omega
    exact_mod_cast least
  rw [abs_le]
  constructor
  · rw [neg_le_sub_iff_le_add, div_le_iff₀ positive]
    linarith
  · rw [sub_le_iff_le_add, ← sub_le_iff_le_add', le_div_iff₀ positive]
    linarith

/-- Two multiples are at least a step apart, on the way through any other number. -/
theorem step_le_on_grid {step : ℚ} (positive : 0 < step) {n k : Nat} (other : n ≠ k) (x : ℚ) :
    step ≤ |n * step - x| + |k * step - x| := by
  have one : (1 : ℚ) ≤ |(n : ℚ) - k| := by
    have whole : (1 : Int) ≤ |(n : Int) - k| := Int.one_le_abs (by omega)
    exact_mod_cast whole
  calc step ≤ |(n : ℚ) - k| * step := le_mul_of_one_le_left positive.le one
    _ = |n * step - k * step| := by rw [← sub_mul, abs_mul, abs_of_pos positive]
    _ ≤ |n * step - x| + |x - k * step| := abs_sub_le _ _ _
    _ = |n * step - x| + |k * step - x| := by rw [abs_sub_comm x]

/-- A multiple that is off by half a step at most is as near as any other one. -/
theorem near_on_grid {x step : ℚ} (positive : 0 < step) {n : Nat} (near : |n * step - x| ≤ step / 2)
    (k : Nat) : |n * step - x| ≤ |k * step - x| := by
  rcases eq_or_ne n k with rfl | other
  · rfl
  · have apart := step_le_on_grid positive other x
    linarith

/-- A decimal with so many digits is a multiple of the last of so many places, or it is no larger
than the first of them. -/
theorem few_digits {c p : Nat} (few : c < tenTo (p + 1)) (q e : Int) :
    (∃ k : Nat, (c * 10 ^ q : ℚ) = k * 10 ^ (e - p)) ∨ (c * 10 ^ q : ℚ) ≤ 10 ^ e := by
  rcases le_or_gt (e - p) q with coarse | fine
  · left
    have power : q = e - p + (q - (e - p)).toNat := by omega
    refine ⟨c * tenTo (q - (e - p)).toNat, ?_⟩
    rw [Nat.cast_mul, mul_assoc, mul_comm (tenTo _ : ℚ), tenTo_mul, ← power]
  · right
    have digits : (c : ℚ) ≤ tenTo (p + 1) := by exact_mod_cast few.le
    calc (c * 10 ^ q : ℚ) ≤ 10 ^ q * tenTo (p + 1) := by
          rw [mul_comm]
          exact mul_le_mul_of_nonneg_left digits (by positivity)
      _ = 10 ^ (q + (p + 1 : Nat)) := tenTo_mul _ _
      _ ≤ 10 ^ e := zpow_le_zpow_right₀ (by norm_num) (by omega)

namespace Figures

open Binary64

variable {g : Figures} {units p m : Nat}

/-! ## The first digit -/

/-- The digits of a quotient that is scaled up tell where its first digit is. -/
theorem digitCount_quotient {n den k : Nat} (some : 0 < n) (positive : 0 < den)
    (fine : den ≤ tenTo k) :
    (10 : ℚ) ^ ((Digits.digitCount (n * tenTo k / den) : Int) - (k + 1)) ≤ n / den ∧
      (n / den : ℚ) < 10 ^ ((Digits.digitCount (n * tenTo k / den) : Int) - k) := by
  have denominator : (0 : ℚ) < den := Nat.cast_pos.mpr positive
  have scale : (0 : ℚ) < tenTo k := Nat.cast_pos.mpr (tenTo_pos k)
  have present : 0 < n * tenTo k / den :=
    Nat.div_pos (Nat.le_trans fine (Nat.le_mul_of_pos_left _ some)) positive
  have lower : n * tenTo k / den * den ≤ n * tenTo k := Nat.div_mul_le_self _ _
  have upper : n * tenTo k < den * (n * tenTo k / den + 1) := Nat.lt_mul_div_succ _ positive
  generalize n * tenTo k / den = q at *
  obtain ⟨below, above, digits⟩ := digitCount_bounds q
  have least := Nat.le_trans (Nat.mul_le_mul_right den (above present)) lower
  have most := Nat.lt_of_lt_of_le upper (Nat.mul_le_mul_left den below)
  generalize Digits.digitCount q = count at *
  constructor
  · rw [le_div_iff₀ denominator]
    refine le_of_mul_le_mul_right ?_ scale
    calc (10 : ℚ) ^ ((count : Int) - (k + 1)) * den * tenTo k
        = 10 ^ ((count : Int) - (k + 1)) * tenTo k * den := mul_right_comm _ _ _
      _ = tenTo (count - 1) * den := by
          rw [tenTo_mul, cast_tenTo, ← zpow_natCast]
          congr 2
          omega
      _ ≤ n * tenTo k := by exact_mod_cast least
  · rw [div_lt_iff₀ denominator]
    refine lt_of_mul_lt_mul_right ?_ scale.le
    calc (n * tenTo k : ℚ) < den * tenTo count := by exact_mod_cast most
      _ = 10 ^ ((count : Int) - k) * tenTo k * den := by
          rw [tenTo_mul, cast_tenTo, ← zpow_natCast, mul_comm]
          congr 2
          omega
      _ = 10 ^ ((count : Int) - k) * den * tenTo k := mul_right_comm _ _ _

theorem one_le_tenTo : Binary64.one ≤ tenTo 324 := by decide +kernel

theorem leadingExponent_bounds (some : 0 < units) :
    (10 : ℚ) ^ leadingExponent units ≤ units / Binary64.one ∧
      (units / Binary64.one : ℚ) < 10 ^ (leadingExponent units + 1) := by
  obtain ⟨least, most⟩ := digitCount_quotient some unit_pos one_le_tenTo
  have next : leadingExponent units + 1 =
      (Digits.digitCount (units * tenTo 324 / Binary64.one) : Int) - (324 : Nat) := by
    rw [leadingExponent]
    omega
  rw [next]
  exact ⟨least, most⟩

/-! ## So many digits -/

/-- Figures are digits of which the first one is no zero. -/
inductive Proper : Figures → Prop
  | digits {c : UInt8} {ds : Bytes} {e : Int} (leading : Ascii.one ≤ c ∧ c ≤ nine)
      (all : AreDigits ds) : Proper ⟨c :: ds, e⟩

theorem proper_digits {n : Nat} (some : 0 < n) (e : Int) : Proper ⟨Digits.digits n, e⟩ := by
  obtain ⟨c, ds, text, leading, all⟩ := Digits.exists_leading some
  rw [text]
  exact .digits leading all

theorem toDecimal_digits {n k : Nat} (least : tenTo k ≤ n) (less : n < tenTo (k + 1)) (e : Int) :
    (⟨Digits.digits n, e⟩ : Figures).toDecimal = ⟨n, e - k⟩ := by
  rw [toDecimal, Digits.value_digits, Digits.digits_length, Digits.digitCount_eq least less,
    Nat.cast_succ, add_sub_cancel_right]

/-- Figures are so many digits, and as near to a number as they can be with their last place. -/
structure Nearest (x : ℚ) (e : Int) (p : Nat) (g : Figures) : Prop where
  proper : g.Proper
  length : g.digits.length = p + 1
  grid : ∃ n : Nat, g.toDecimal.value = n * 10 ^ (e - p)
  near : |g.toDecimal.value - x| ≤ 10 ^ (e - p) / 2

/-- A multiple of the last place is as large as the number, up to the next power of ten. -/
theorem bounds_of_near {x : ℚ} {e : Int} {n : Nat} (least : 10 ^ e ≤ x) (most : x < 10 ^ (e + 1))
    (near : |n * 10 ^ (e - p) - x| ≤ (10 : ℚ) ^ (e - p) / 2) :
    tenTo p ≤ n ∧ n ≤ tenTo (p + 1) := by
  have step : (0 : ℚ) < 10 ^ (e - p) := by positivity
  have first : (10 : ℚ) ^ e = 10 ^ (e - p) * tenTo p := by
    rw [tenTo_mul]
    congr 1
    omega
  have next : (10 : ℚ) ^ (e + 1) = 10 ^ (e - p) * tenTo (p + 1) := by
    rw [tenTo_mul]
    congr 1
    omega
  rw [first] at least
  rw [next] at most
  obtain ⟨below, above⟩ := abs_le.mp near
  constructor
  · by_contra less
    have whole : (n + 1 : ℚ) ≤ tenTo p := by exact_mod_cast Nat.not_le.mp less
    have multiple := mul_le_mul_of_nonneg_left whole step.le
    linarith
  · by_contra more
    have whole : (tenTo (p + 1) + 1 : ℚ) ≤ n := by exact_mod_cast Nat.not_le.mp more
    have multiple := mul_le_mul_of_nonneg_left whole step.le
    linarith

theorem roundHalfEven_scaled {n den : Nat} (positive : 0 < den) (scale : Int) :
    |(roundHalfEven (n * tenTo scale.toNat) (den * tenTo (-scale).toNat) : ℚ) * 10 ^ (-scale) -
      n / den| ≤ 10 ^ (-scale) / 2 := by
  have step : (0 : ℚ) < 10 ^ (-scale) := by positivity
  have quotient : ((n * tenTo scale.toNat : Nat) : ℚ) / ((den * tenTo (-scale).toNat : Nat) : ℚ) =
      n / den * 10 ^ scale := by
    rw [Nat.cast_mul, Nat.cast_mul, mul_div_mul_comm, tenTo_div]
  have back : (n / den : ℚ) * 10 ^ scale * 10 ^ (-scale) = n / den := by
    rw [mul_assoc, ← zpow_add₀ (by norm_num), add_neg_cancel, zpow_zero, mul_one]
  have room := Nat.mul_pos positive (tenTo_pos (-scale).toNat)
  generalize rounded : roundHalfEven (n * tenTo scale.toNat) (den * tenTo (-scale).toNat) = r
  have near : |(r : ℚ) - n / den * 10 ^ scale| ≤ 1 / 2 := by
    rw [← quotient, ← rounded]
    exact roundHalfEven_near room
  calc |r * 10 ^ (-scale) - (n / den : ℚ)|
      = |((r : ℚ) - n / den * 10 ^ scale) * 10 ^ (-scale)| := by rw [sub_mul, back]
    _ = |(r : ℚ) - n / den * 10 ^ scale| * 10 ^ (-scale) := by rw [abs_mul, abs_of_pos step]
    _ ≤ 1 / 2 * 10 ^ (-scale) := mul_le_mul_of_nonneg_right near step.le
    _ = 10 ^ (-scale) / 2 := by ring

theorem nearest_digits {x : ℚ} {e e' : Int} {k n : Nat} (least : tenTo p ≤ k)
    (less : k < tenTo (p + 1)) (same : (k * 10 ^ (e' - p) : ℚ) = n * 10 ^ (e - p))
    (near : |n * 10 ^ (e - p) - x| ≤ 10 ^ (e - p) / 2) : Nearest x e p ⟨Digits.digits k, e'⟩ := by
  have positive := tenTo_pos p
  have value : (⟨Digits.digits k, e'⟩ : Figures).toDecimal.value = n * 10 ^ (e - p) := by
    rw [toDecimal_digits least less, Decimal.value, same]
  refine ⟨proper_digits (by omega) e', ?_, ⟨n, value⟩, value ▸ near⟩
  exact (Digits.digits_length k).trans (Digits.digitCount_eq least less)

theorem nearest_scientific (some : 0 < units) (p : Nat) :
    Nearest (units / Binary64.one) (leadingExponent units) p (scientific units p) := by
  obtain ⟨least, most⟩ := leadingExponent_bounds some
  unfold scientific
  dsimp only
  generalize leadingExponent units = e at *
  have near := roundHalfEven_scaled (n := units) unit_pos (p - e)
  generalize roundHalfEven (units * tenTo ((p : Int) - e).toNat)
    (Binary64.one * tenTo (-((p : Int) - e)).toNat) = n at *
  rw [neg_sub] at near
  obtain ⟨lower, upper⟩ := bounds_of_near least most near
  split
  · next carry =>
      have more : tenTo (p + 1) = tenTo p * 10 := rfl
      have positive := tenTo_pos p
      refine nearest_digits (Nat.le_refl _) (by omega) ?_ near
      have place : e + 1 - p = e - p + 1 := by omega
      rw [carry, more, place, zpow_add_one₀ (by norm_num)]
      push_cast
      ring
  · next same => exact nearest_digits lower (by omega) rfl near

/-- Of the decimals with so many digits none is nearer to the number. -/
theorem Nearest.le {x : ℚ} {e : Int} {c : Nat} (h : Nearest x e p g) (least : 10 ^ e ≤ x)
    (few : c < tenTo (p + 1)) (q : Int) : |g.toDecimal.value - x| ≤ |c * 10 ^ q - x| := by
  obtain ⟨n, value⟩ := h.grid
  have step : (0 : ℚ) < 10 ^ (e - p) := by positivity
  have near := h.near
  rw [value] at near ⊢
  have grid := near_on_grid step near
  rcases few_digits few q e with ⟨k, multiple⟩ | below
  · rw [multiple]
    exact grid k
  · -- The power of ten that the digits begin with is between the decimal and the number.
    have first : (tenTo p * 10 ^ (e - p) : ℚ) = 10 ^ e := by
      rw [mul_comm, tenTo_mul, sub_add_cancel]
    have nearer := grid (tenTo p)
    rw [first] at nearer
    refine nearer.trans ?_
    rw [abs_of_nonpos (by linarith), abs_of_nonpos (by linarith)]
    linarith

/-! ## Digits that are enough -/

variable {q : Nat}

theorem unitsOf_pos (some : 0 < m) : 0 < unitsOf m := by
  have positive := (div_pos_iff_of_pos_right one_pos).mp (value_pos some)
  exact_mod_cast positive

theorem nearest_scientific_value (some : 0 < m) (p : Nat) :
    Nearest (Binary64.value m) (leadingExponent (unitsOf m)) p (scientific (unitsOf m) p) :=
  nearest_scientific (unitsOf_pos some) p

/-- A place that is shorter than the step below is enough. -/
theorem nearest_of_fine (some : 0 < m) (finite : m < infinity)
    (fine : (10 : ℚ) ^ (leadingExponent (unitsOf m) - p) < stepDown m) :
    (scientific (unitsOf m) p).toDecimal.nearest = m := by
  have near := (nearest_scientific_value some p).near
  exact Decimal.nearest_of_within some finite (.inl (by linarith))

/-- 17 digits are enough. -/
theorem nearest_of_many (some : 0 < m) (finite : m < infinity) (many : 16 ≤ p) :
    (scientific (unitsOf m) p).toDecimal.nearest = m := by
  apply nearest_of_fine some finite
  have least : (10 : ℚ) ^ leadingExponent (unitsOf m) ≤ Binary64.value m :=
    (leadingExponent_bounds (unitsOf_pos some)).1
  have bits := value_le some
  have step := stepDown_pos some
  generalize leadingExponent (unitsOf m) = e at *
  have place : (10 : ℚ) ^ (e - p) ≤ 10 ^ (e - 16) := zpow_le_zpow_right₀ (by norm_num) (by omega)
  have power : (10 : ℚ) ^ e = 10 ^ (e - 16) * 10 ^ 16 := by
    rw [← zpow_natCast, ← zpow_add₀ (by norm_num)]
    congr 1
    omega
  rw [power] at least
  linarith

/-- The search ends at the first precision at which the figures are read as the magnitude. -/
theorem exists_shortestFrom (m p more : Nat) :
    ∃ q, shortestFrom m p more = scientific (unitsOf m) q ∧ p ≤ q ∧ q ≤ p + more ∧
      (q < p + more → (scientific (unitsOf m) q).toDecimal.nearest = m) ∧
      ∀ r, p ≤ r → r < q → (scientific (unitsOf m) r).toDecimal.nearest ≠ m := by
  induction more generalizing p with
  | zero => exact ⟨p, rfl, Nat.le_refl p, Nat.le_refl p, by omega, by omega⟩
  | succ more ih =>
      rw [shortestFrom]
      split
      · next found => exact ⟨p, rfl, Nat.le_refl p, by omega, fun _ => found, by omega⟩
      · next missed =>
          obtain ⟨q, same, lower, upper, found, before⟩ := ih (p + 1)
          refine ⟨q, same, by omega, by omega, fun less => found (by omega), ?_⟩
          intro r least less
          rcases Nat.eq_or_lt_of_le least with rfl | later
          · exact missed
          · exact before r later less

theorem exists_shortest (some : 0 < m) (finite : m < infinity) :
    ∃ q ≤ 16, shortest m = scientific (unitsOf m) q ∧ (shortest m).toDecimal.nearest = m ∧
      ∀ r < q, (scientific (unitsOf m) r).toDecimal.nearest ≠ m := by
  obtain ⟨q, same, -, upper, found, before⟩ := exists_shortestFrom m 0 16
  refine ⟨q, by omega, same, ?_, fun r => before r (Nat.zero_le r)⟩
  change (shortestFrom m 0 16).toDecimal.nearest = m
  rw [same]
  by_cases last : q < 16
  · exact found (by omega)
  · exact nearest_of_many some finite (by omega)

theorem proper_shortest (some : 0 < m) (finite : m < infinity) : (shortest m).Proper := by
  obtain ⟨q, -, same, -⟩ := exists_shortest some finite
  rw [same]
  exact (nearest_scientific_value some q).proper

/-- What has the value of the shortest figures is read as the magnitude. -/
theorem nearest_of_shortest {d : Decimal} (some : 0 < m) (finite : m < infinity)
    (value : d.value = (shortest m).toDecimal.value) : d.nearest = m := by
  obtain ⟨-, -, -, nearest, -⟩ := exists_shortest some finite
  rw [← nearest] at finite
  exact (Decimal.nearest_congr value.symm finite).trans nearest

/-! ## Zeros at the end -/

/-- The figures with zeros behind them. -/
def zerosBehind (g : Figures) (n : Nat) : Figures :=
  { g with digits := g.digits ++ List.replicate n zero }

theorem value_zerosBehind (g : Figures) (n : Nat) :
    (g.zerosBehind n).toDecimal.value = g.toDecimal.value := by
  rw [toDecimal, zerosBehind, Digits.value_append_zeros, Decimal.value_scaled, toDecimal]
  dsimp only
  congr 2
  rw [List.length_append, List.length_replicate]
  omega

theorem Proper.zerosBehind (h : g.Proper) (n : Nat) : (g.zerosBehind n).Proper := by
  cases h with
  | digits leading all =>
      exact .digits leading (List.forall_mem_append.mpr ⟨all, areDigits_zeros n⟩)

theorem Proper.isInteger (h : g.Proper) : IsInteger g.digits := by
  cases h with
  | digits leading all => exact .digits leading all

theorem Proper.areDigits (h : g.Proper) : AreDigits g.digits := (areDigits_of_isInteger h.isInteger).1

theorem Proper.length_pos (h : g.Proper) : 0 < g.digits.length :=
  List.length_pos_of_ne_nil (areDigits_of_isInteger h.isInteger).2

/-- The figures without zeros at the end are proper again, and the zeros can be put back. -/
theorem Proper.trim (h : g.Proper) : g.trim.Proper ∧ ∃ n, g = g.trim.zerosBehind n := by
  cases h with
  | @digits c ds e leading all =>
      obtain ⟨n, zeros⟩ := Digits.exists_zeros ds
      have kept : Figures.trim ⟨c :: ds, e⟩ = ⟨c :: Digits.stripped ds, e⟩ := rfl
      rw [zeros] at all
      rw [kept]
      exact ⟨.digits leading (List.forall_mem_append.mp all).1, n,
        congrArg (fun ds => (⟨c :: ds, e⟩ : Figures)) zeros⟩

theorem Proper.value_trim (h : g.Proper) : g.trim.toDecimal.value = g.toDecimal.value := by
  obtain ⟨-, n, zeros⟩ := h.trim
  exact ((congrArg (·.toDecimal.value) zeros).trans (value_zerosBehind g.trim n)).symm

end Figures

end Numeral

end JsonEvents
