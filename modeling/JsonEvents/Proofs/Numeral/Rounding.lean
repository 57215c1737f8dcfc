import JsonEvents.Proofs.Numeral.Nearest

/-!
# Which quotients are nearest to a magnitude

Magnitudes divide the quotients at the midpoints between them, and a midpoint
belongs to the even one (`Binary64.nearest_le_iff`).  The steps between
magnitudes are never shorter above than below, and differ only where the binary
exponent changes (`Binary64.exists_steps`).
-/

namespace JsonEvents.Numeral

theorem roundHalfEven_le_iff {num den k : Nat} (some : 0 < den) :
    roundHalfEven num den ≤ k ↔
      2 * num < (2 * k + 1) * den ∨ 2 * num = (2 * k + 1) * den ∧ k % 2 = 0 := by
  have whole := Nat.div_add_mod num den
  have less := Nat.mod_lt num some
  unfold roundHalfEven
  dsimp only
  generalize num / den = q at *
  generalize num % den = m at *
  subst whole
  rcases Nat.lt_trichotomy q k with below | rfl | above
  · have grows := Nat.mul_le_mul_right den (show 2 * q + 3 ≤ 2 * k + 1 by omega)
    have product : (2 * q + 3) * den = 2 * (den * q) + 3 * den := by ring
    refine iff_of_true ?_ (.inl (by omega))
    split <;> omega
  · have product : (2 * q + 1) * den = 2 * (den * q) + den := by ring
    rw [product]
    split <;> omega
  · have grows := Nat.mul_le_mul_right den (show 2 * k + 1 + 1 ≤ 2 * q by omega)
    have product : 2 * q * den = 2 * (den * q) := by ring
    have more : (2 * k + 1 + 1) * den = (2 * k + 1) * den + den := by ring
    refine iff_of_false ?_ (by omega)
    split <;> omega

namespace Binary64

/-! ## Significands -/

/-- A magnitude is a significand that is doubled some times; one that is doubled has all its bits. -/
structure IsScaled (magnitude significand doublings : Nat) : Prop where
  sum : magnitude = doublings * exponentWeight + significand
  below : significand < 2 * exponentWeight
  full : 0 < doublings → exponentWeight ≤ significand

theorem exponentWeight_eq : exponentWeight = 4503599627370496 := rfl

theorem exists_isScaled (magnitude : Nat) : ∃ m t, IsScaled magnitude m t := by
  refine ⟨magnitude - (magnitude / exponentWeight - 1) * exponentWeight,
    magnitude / exponentWeight - 1, ?_, ?_, ?_⟩
  all_goals
    rw [exponentWeight_eq]
    omega

theorem unitsOf_of_lt {m : Nat} (small : m < exponentWeight) : unitsOf m = m := by
  unfold unitsOf
  dsimp only
  rw [if_pos (Nat.div_eq_of_lt small), Nat.mod_eq_of_lt small]

theorem unitsOf_of_exponent (t m : Nat) (bits : m < exponentWeight) :
    unitsOf ((t + 1) * exponentWeight + m) = (exponentWeight + m) * twoTo t := by
  have quotient : ((t + 1) * exponentWeight + m) / exponentWeight = t + 1 := by
    rw [exponentWeight_eq] at *
    omega
  have rest : ((t + 1) * exponentWeight + m) % exponentWeight = m := by
    rw [exponentWeight_eq] at *
    omega
  unfold unitsOf
  dsimp only
  rw [quotient, rest, if_neg (Nat.succ_ne_zero t), Nat.add_sub_cancel]

/-- The units of a significand that is doubled, also where it has one bit more. -/
theorem unitsOf_eq {m t : Nat} (below : m ≤ 2 * exponentWeight)
    (full : 0 < t → exponentWeight ≤ m) :
    unitsOf (t * exponentWeight + m) = m * twoTo t := by
  rcases Nat.lt_or_ge m exponentWeight with less | more
  · have none : t = 0 := by omega
    rw [none, Nat.zero_mul, Nat.zero_add, unitsOf_of_lt less]
    exact (Nat.mul_one m).symm
  · obtain ⟨r, rfl⟩ := Nat.exists_eq_add_of_le more
    rcases Nat.lt_or_ge r exponentWeight with inside | beyond
    · rw [← Nat.add_assoc, ← Nat.succ_mul]
      exact unitsOf_of_exponent t r inside
    · -- One bit more is one doubling more.
      obtain rfl : r = exponentWeight := by omega
      have next : t * exponentWeight + (exponentWeight + exponentWeight) =
          (t + 1 + 1) * exponentWeight + 0 := by ring
      have double : twoTo (t + 1) = twoTo t * 2 := rfl
      rw [next, unitsOf_of_exponent (t + 1) 0 (by decide), double]
      ring

namespace IsScaled

variable {k m t : Nat}

theorem units (h : IsScaled k m t) : unitsOf k = m * twoTo t := by
  rw [h.sum]
  exact unitsOf_eq (Nat.le_of_lt h.below) h.full

theorem units_succ (h : IsScaled k m t) : unitsOf (k + 1) = (m + 1) * twoTo t := by
  rw [h.sum, Nat.add_assoc]
  exact unitsOf_eq h.below fun some => Nat.le_succ_of_le (h.full some)

theorem even_iff (h : IsScaled k m t) : k % 2 = 0 ↔ m % 2 = 0 := by
  rw [h.sum, exponentWeight_eq]
  omega

end IsScaled

/-! ## Midpoints -/

variable {num den k : Nat}

/-- A quotient that loses fewer bits than a magnitude has is below it. -/
theorem IsScaled.nearest_le {m t : Nat} (scaled : IsScaled k m t) (some : 0 < den)
    (less : (num * one / den).log2 - 52 < t) :
    nearest num den ≤ k ∧ 2 * (num * one) < (2 * m + 1) * (den * twoTo t) := by
  have size := scaled.sum
  have full := scaled.full (Nat.zero_lt_of_lt less)
  have rounded : roundHalfEven (num * one) (den * twoTo ((num * one / den).log2 - 52)) ≤
      2 * exponentWeight := rounded_le (by omega)
  have steps := Nat.mul_le_mul_right exponentWeight (Nat.succ_le_of_lt less)
  have low : num * one < twoTo (t + 52) * den := lt_of_log2 some (by omega)
  have bits : twoTo 52 = exponentWeight := rfl
  have grows := Nat.mul_le_mul_right (den * twoTo t) full
  rw [Nat.succ_mul] at steps
  rw [twoTo_add, bits] at low
  constructor
  · unfold nearest
    dsimp only
    omega
  · calc 2 * (num * one) < 2 * (twoTo t * exponentWeight * den) := by omega
      _ = 2 * (exponentWeight * (den * twoTo t)) := by ring
      _ ≤ 2 * (m * (den * twoTo t)) := Nat.mul_le_mul_left 2 grows
      _ ≤ (2 * m + 1) * (den * twoTo t) := by
        rw [← Nat.mul_assoc 2]
        exact Nat.mul_le_mul_right _ (Nat.le_succ _)

/-- A quotient that loses more bits than a magnitude has is above it. -/
theorem IsScaled.lt_nearest {m t : Nat} (scaled : IsScaled k m t) (some : 0 < den)
    (more : t < (num * one / den).log2 - 52) :
    k < nearest num den ∧ (2 * m + 1) * (den * twoTo t) < 2 * (num * one) := by
  have size := scaled.sum
  have below := scaled.below
  have rounded : exponentWeight ≤
      roundHalfEven (num * one) (den * twoTo ((num * one / den).log2 - 52)) :=
    le_rounded (by omega)
  have steps := Nat.mul_le_mul_right exponentWeight (Nat.succ_le_of_lt more)
  have high : twoTo (t + 53) * den ≤ num * one := le_of_log2 some (Nat.succ_pos _) (by omega)
  have double : twoTo 53 = 2 * exponentWeight := rfl
  have room := Nat.mul_pos some (twoTo_pos t)
  have grows := Nat.mul_le_mul_right (den * twoTo t) (Nat.succ_le_of_lt below)
  rw [Nat.succ_mul] at steps
  rw [twoTo_add, double] at high
  constructor
  · unfold nearest
    dsimp only
    omega
  · calc (2 * m + 1) * (den * twoTo t) < 2 * (m.succ * (den * twoTo t)) := by
          rw [← Nat.mul_assoc 2]
          exact Nat.mul_lt_mul_of_pos_right (by omega) room
      _ ≤ 2 * (2 * exponentWeight * (den * twoTo t)) := Nat.mul_le_mul_left 2 grows
      _ = 2 * (twoTo t * (2 * exponentWeight) * den) := by ring
      _ ≤ 2 * (num * one) := Nat.mul_le_mul_left 2 high

/-- A magnitude is nearest to the quotients around it, up to the midpoint where it is even. -/
theorem nearest_le_iff (some : 0 < den) :
    nearest num den ≤ k ↔ 2 * (num * one) < (unitsOf k + unitsOf (k + 1)) * den ∨
      2 * (num * one) = (unitsOf k + unitsOf (k + 1)) * den ∧ k % 2 = 0 := by
  obtain ⟨m, t, scaled⟩ := exists_isScaled k
  have sum : (unitsOf k + unitsOf (k + 1)) * den = (2 * m + 1) * (den * twoTo t) := by
    rw [scaled.units, scaled.units_succ]
    ring
  rw [sum]
  rcases Nat.lt_trichotomy ((num * one / den).log2 - 52) t with less | equal | more
  · obtain ⟨below, inside⟩ := scaled.nearest_le some less
    exact iff_of_true below (.inl inside)
  · -- The quotient is rounded to the bits of the magnitude, and its rest decides.
    have size := scaled.sum
    have inside : roundHalfEven (num * one) (den * twoTo t) ≤ m ↔ _ :=
      roundHalfEven_le_iff (Nat.mul_pos some (twoTo_pos t))
    unfold nearest
    dsimp only
    rw [equal, scaled.even_iff, ← inside]
    omega
  · obtain ⟨above, beyond⟩ := scaled.lt_nearest some more
    exact iff_of_false (Nat.not_le.mpr above) (by omega)

/-! ## Steps -/

/-- Whether a magnitude is the least one of its binary exponent, and not of the least exponent. -/
def IsEdge (magnitude : Nat) : Prop :=
  2 * exponentWeight ≤ magnitude ∧ magnitude % exponentWeight = 0

instance (magnitude : Nat) : Decidable (IsEdge magnitude) := inferInstanceAs (Decidable (_ ∧ _))

/-- The steps from a magnitude down and up, in units. -/
structure Steps (magnitude down up : Nat) : Prop where
  some : 0 < down
  below : unitsOf (magnitude - 1) + down = unitsOf magnitude
  above : unitsOf magnitude + up = unitsOf (magnitude + 1)
  fine : unitsOf magnitude ≤ twoTo 53 * down
  least : down ≤ up
  most : up ≤ 2 * down
  even : ¬ IsEdge magnitude → down = up

/-- Below and above there are significands of the same binary exponent. -/
theorem IsScaled.steps {m t : Nat} (h : IsScaled k (m + 1) t)
    (full : 0 < t → exponentWeight ≤ m) : Steps k (twoTo t) (twoTo t) := by
  have less := Nat.lt_of_succ_lt h.below
  have before : unitsOf (k - 1) = m * twoTo t := by
    rw [h.sum, ← Nat.add_assoc, Nat.add_sub_cancel]
    exact unitsOf_eq (Nat.le_of_lt less) full
  refine ⟨twoTo_pos t, ?_, ?_, ?_, Nat.le_refl _, by omega, fun _ => rfl⟩
  · rw [before, h.units, Nat.succ_mul]
  · rw [h.units, h.units_succ, Nat.succ_mul (m + 1)]
  · rw [h.units]
    exact Nat.mul_le_mul_right _ (Nat.le_of_lt h.below)

/-- Below the least significand the binary exponent is smaller, and the step is half as long. -/
theorem IsScaled.edge {t : Nat} (h : IsScaled k exponentWeight (t + 1)) :
    IsEdge k ∧ Steps k (twoTo t) (twoTo (t + 1)) := by
  have size := h.sum
  have double : twoTo (t + 1) = twoTo t * 2 := rfl
  have last : k - 1 = t * exponentWeight + (2 * exponentWeight - 1) := by
    rw [exponentWeight_eq] at *
    omega
  have before : unitsOf (k - 1) = (2 * exponentWeight - 1) * twoTo t := by
    rw [last]
    exact unitsOf_eq (Nat.sub_le _ _) fun _ => by decide
  have units : unitsOf k = 2 * exponentWeight * twoTo t := by
    rw [h.units, double]
    ring
  have edge : IsEdge k := by
    unfold IsEdge
    rw [exponentWeight_eq] at *
    omega
  refine ⟨edge, twoTo_pos t, ?_, ?_, Nat.le_of_eq units, by omega, by omega,
    fun inner => absurd edge inner⟩
  · rw [before, units, ← Nat.succ_mul]
    rfl
  · rw [h.units, h.units_succ, Nat.succ_mul]

theorem exists_steps (some : 0 < k) : ∃ down up, Steps k down up := by
  obtain ⟨m, t, scaled⟩ := exists_isScaled k
  by_cases edge : 0 < t ∧ m = exponentWeight
  · obtain ⟨more, rfl⟩ := edge
    obtain ⟨t, rfl⟩ := Nat.exists_eq_succ_of_ne_zero (Nat.ne_of_gt more)
    exact ⟨_, _, scaled.edge.2⟩
  · have full : 0 < t → exponentWeight < m := fun more =>
      Nat.lt_of_le_of_ne (scaled.full more) fun same => edge ⟨more, same.symm⟩
    have present : m ≠ 0 := by
      rintro rfl
      rcases Nat.eq_zero_or_pos t with rfl | more
      · have none := scaled.sum
        omega
      · exact Nat.not_lt_zero _ (full more)
    obtain ⟨m, rfl⟩ := Nat.exists_eq_succ_of_ne_zero present
    exact ⟨_, _, scaled.steps fun more => Nat.le_of_lt_succ (full more)⟩

end Binary64

end JsonEvents.Numeral
