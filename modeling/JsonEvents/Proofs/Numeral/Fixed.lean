import JsonEvents.Proofs.Numeral.Closest
import JsonEvents.Proofs.Numeral.Shortest

/-!
# Numbers with a given count of places

A finite number is rounded to so many places behind the point, an exact tie to
the even side, and what is printed denotes the rounded number as long as that has
no more than 17 figures.  Otherwise the shortest figures are printed, which are
read back as the number itself (`exists_text_of_places`).  Rounding does not
reach the limit, so the text is always read as a whole.
-/

namespace JsonEvents

open Ascii Grammar

namespace Numeral

/-! ## Rounding -/

/-- No integer is nearer, and one that is half way to another is even. -/
structure IsRoundedEven (x : ℚ) (n : Nat) : Prop where
  near : |(n : ℚ) - x| ≤ 1 / 2
  even : |(n : ℚ) - x| = 1 / 2 → n % 2 = 0

theorem IsRoundedEven.unique {x : ℚ} {n k : Nat} (h : IsRoundedEven x n)
    (h' : IsRoundedEven x k) : n = k := by
  by_contra other
  have near := h.near
  have near' := h'.near
  have apart := step_le_on_grid zero_lt_one other x
  rw [mul_one, mul_one] at apart
  have close : |(n : ℚ) - k| ≤ 1 := by
    have between := abs_sub_le (n : ℚ) x k
    rw [abs_sub_comm x] at between
    linarith
  have whole : |(n : Int) - k| ≤ 1 := by exact_mod_cast close
  have even := h.even (by linarith)
  have even' := h'.even (by linarith)
  rw [abs_le] at whole
  omega

theorem isRoundedEven_roundHalfEven {num den : Nat} (some : 0 < den) :
    IsRoundedEven (num / den) (roundHalfEven num den) := by
  have positive : (0 : ℚ) < den := Nat.cast_pos.mpr some
  refine ⟨roundHalfEven_near some, ?_⟩
  generalize rounded : roundHalfEven num den = n
  intro tie
  rcases eq_or_eq_neg_of_abs_eq tie with above | below
  · -- A tie that is rounded up has not gone to the number below, so that is odd.
    have quotient : (num / den : ℚ) = n - 1 / 2 := by linarith
    rw [div_eq_iff positive.ne'] at quotient
    have double : 2 * num + den = 2 * n * den := by
      have cast : (2 * num + den : ℚ) = 2 * n * den := by linarith
      exact_mod_cast cast
    cases n with
    | zero => omega
    | succ k =>
        have middle : 2 * num = (2 * k + 1) * den := by linarith
        have beyond := mt (roundHalfEven_le_iff some).mpr
          (Nat.not_le.mpr (Nat.lt_of_lt_of_eq (Nat.lt_succ_self k) rounded.symm))
        omega
  · have quotient : (num / den : ℚ) = n + 1 / 2 := by linarith
    rw [div_eq_iff positive.ne'] at quotient
    have middle : 2 * num = (2 * n + 1) * den := by
      have cast : (2 * num : ℚ) = (2 * n + 1) * den := by linarith
      exact_mod_cast cast
    have within := (roundHalfEven_le_iff some).mp (Nat.le_of_eq rounded)
    omega

variable {m p : Nat}

/-- A magnitude rounded to so many places. -/
def placed (m p : Nat) : Decimal := ⟨roundHalfEven (Binary64.unitsOf m * tenTo p) Binary64.one, -p⟩

theorem isRoundedEven_placed (m p : Nat) :
    IsRoundedEven (Binary64.value m * 10 ^ p) (placed m p).coefficient := by
  rw [Binary64.value_mul_tenTo]
  dsimp only [placed]
  exact isRoundedEven_roundHalfEven Binary64.unit_pos

theorem placed_zero (p : Nat) : (placed 0 p).coefficient = 0 := by
  have none : Binary64.unitsOf 0 = 0 := rfl
  rw [placed, none, Nat.zero_mul, ← Nat.le_zero, roundHalfEven_le_iff Binary64.unit_pos]
  omega

namespace Binary64

/-- The limit is far above the greatest finite number. -/
theorem value_add_half_lt (finite : m < infinity) : value m + 1 / 2 < limit := by
  have greatest : value m ≤ value (infinity - 1) := value_strictMono.monotone (by omega)
  have room : unitsOf (infinity - 1) + one ≤ limit * one := by decide +kernel
  have units : (unitsOf (infinity - 1) + one : ℚ) ≤ limit * one := by exact_mod_cast room
  have below : value (infinity - 1) + 1 ≤ limit := by
    rw [value, div_add_one one_pos.ne', div_le_iff₀ one_pos]
    exact units
  linarith

end Binary64

theorem value_placed_lt (finite : m < Binary64.infinity) (p : Nat) :
    (placed m p).value < Binary64.limit := by
  have near := (abs_le.mp (isRoundedEven_placed m p).near).2
  have value : (placed m p).value = (placed m p).coefficient / 10 ^ p := by
    rw [placed, Decimal.value, zpow_neg, zpow_natCast, div_eq_mul_inv]
  have least : (1 : ℚ) ≤ 10 ^ p := one_le_pow₀ (by norm_num)
  have most : (placed m p).value ≤ Binary64.value m + 1 / 2 := by
    rw [value, div_le_iff₀ (by positivity)]
    linarith
  exact most.trans_lt (Binary64.value_add_half_lt finite)

/-! ## Figures of so many places -/

theorem stripped_cons {c : UInt8} (other : c ≠ zero) (ds : Bytes) :
    Digits.stripped (c :: ds) = c :: Digits.stripped ds := by
  have last : [c].dropWhile (· == zero) = [c] :=
    List.dropWhile_cons_of_neg (mt eq_of_beq other)
  unfold Digits.stripped List.rdropWhile
  rw [List.reverse_cons, List.dropWhile_append, last]
  split
  · next none =>
      rw [List.isEmpty_iff.mp none]
      rfl
  · exact List.reverse_concat

namespace Figures

variable {g : Figures}

theorem Proper.trim_digits (h : g.Proper) : g.trim.digits = Digits.stripped g.digits := by
  cases h with
  | @digits c ds e leading all =>
      have other : c ≠ zero := by
        rintro rfl
        exact absurd leading.1 (by decide)
      rw [stripped_cons other]
      rfl

/-- Digits of which so many are behind the point. -/
def ofPlaces (d : Decimal) : Figures :=
  ⟨Digits.digits d.coefficient, (Digits.digits d.coefficient).length + d.exponent - 1⟩

theorem toDecimal_ofPlaces (d : Decimal) : (ofPlaces d).toDecimal = d := by
  refine congrArg₂ Decimal.mk (Digits.value_digits d.coefficient) ?_
  dsimp only [ofPlaces]
  omega

theorem fixed_eq (m p : Nat) :
    fixed m p = if (placed m p).coefficient = 0 then none else some (ofPlaces (placed m p)) := by
  unfold fixed ofPlaces placed
  simp only [Int.sub_eq_add_neg]

/-- Unless it is zero, the rounded number is written, or the shortest figures of the number. -/
theorem figures?_of_places (few : p ≤ 17) (m : Nat) :
    figures? m p =
      if (placed m p).coefficient = 0 then none
      else some (if 17 < (placed m p).figureCount then shortest m
        else (ofPlaces (placed m p)).trim) := by
  have most : maxFigures = 17 := rfl
  unfold figures?
  dsimp only
  rw [if_neg (by omega), Int.toNat_natCast, fixed_eq]
  split
  · rfl
  · next present =>
      have proper : (ofPlaces (placed m p)).Proper := proper_digits (Nat.pos_of_ne_zero present) _
      have count : (ofPlaces (placed m p)).trim.digits.length = (placed m p).figureCount :=
        congrArg List.length proper.trim_digits
      rw [Option.map_some, count, most]

end Figures

variable {f : Binary64} {r d : Decimal} {text : Bytes} {negative : Bool}

/-! ## Plain and scientific texts -/

theorem IsPlain.not_isExponentMark (h : IsPlain text) : ∀ c ∈ text, isExponentMark c = false := by
  have digits : ∀ {ds : Bytes}, AreDigits ds → ∀ c ∈ ds, isExponentMark c = false := by
    intro ds all c member
    exact Bool.eq_false_iff.mpr fun mark =>
      absurd ((Scan.not_isDigit_of_isExponentMark mark).symm.trans (all c member)) nofun
  cases h with
  | @parts m i f sign integer fraction =>
      have front : ∀ c ∈ m, isExponentMark c = false := by
        cases sign with
        | none => exact List.forall_mem_nil _
        | minus => exact List.forall_mem_singleton.mpr rfl
      have behind : ∀ c ∈ f, isExponentMark c = false := by
        cases fraction with
        | none => exact List.forall_mem_nil _
        | digits digit all =>
            exact List.forall_mem_cons.mpr ⟨rfl, digits (List.forall_mem_cons.mpr ⟨digit, all⟩)⟩
      simp only [List.forall_mem_append]
      exact ⟨front, digits (areDigits_of_isInteger integer).1, behind⟩

theorem IsScientific.not_isPlain {e : Int} (h : IsScientific e text) : ¬ IsPlain text := by
  intro isPlain
  cases h with
  | parts sign leading fraction =>
      have unmarked := isPlain.not_isExponentMark lowerE (by simp)
      exact absurd unmarked (by decide)

theorem IsPrinted.isPlain_iff (h : IsPrinted text negative d) :
    IsPlain text ↔ -4 ≤ d.leadingExponent ∧ d.leadingExponent < 18 := by
  have form := h.form
  split at form
  · next near => exact iff_of_true form near
  · next far => exact iff_of_false form.not_isPlain far

/-! ## Printing -/

/-- What is printed for a number that is rounded. -/
structure IsPlaced (f : Binary64) (r : Decimal) (text : Bytes) (d : Decimal) : Prop where
  printed : IsPrinted text (f.isNegative && r.coefficient != 0) d
  plain : IsPlain text ↔ -4 ≤ d.leadingExponent ∧ d.leadingExponent < 18
  lost : r.coefficient = 0 → text = [zero]
  few : r.figureCount ≤ 17 → d.value = r.value
  many : 17 < r.figureCount → scanFloat text = some (text.length, f)
  whole : ∃ g, scanFloat text = some (text.length, g)

theorem isPlaced_zero (f : Binary64) (none : r.coefficient = 0) :
    IsPlaced f r [zero] ⟨0, 0⟩ := by
  have unsigned : (f.isNegative && r.coefficient != 0) = false := by simp [none]
  have nothing : r.figureCount = 0 := by
    rw [Decimal.figureCount, none]
    decide +kernel
  have value : (⟨0, 0⟩ : Decimal).value = r.value := by
    rw [Decimal.value, Decimal.value, none, Nat.cast_zero, zero_mul, zero_mul]
  refine ⟨unsigned ▸ isPrinted_zero, isPrinted_zero.isPlain_iff, fun _ => rfl, fun _ => value, ?_,
    ⟨⟨0⟩, scanFloat_of_nearest isPrinted_zero.denotes rfl (by decide)⟩⟩
  intro many
  omega

/-- The rounded number itself is printed. -/
theorem isPlaced_of_few (some : r.coefficient ≠ 0) (few : r.figureCount ≤ 17)
    (fits : r.value < Binary64.limit) (printed : IsPrinted text f.isNegative d)
    (value : d.value = r.value) : IsPlaced f r text d := by
  have signed : (f.isNegative && r.coefficient != 0) = f.isNegative := by simp [some]
  have below : ¬ d.IsTooLarge := mt (Decimal.isTooLarge_iff d).mp (not_le.mpr (value ▸ fits))
  have read := scanFloat_of_denotes printed.denotes
  rw [if_neg below] at read
  exact ⟨signed.symm ▸ printed, printed.isPlain_iff, fun none => absurd none some, fun _ => value,
    fun many => absurd few (Nat.not_le.mpr many), ⟨_, read⟩⟩

/-- The number itself is printed, as figures that are read as its magnitude. -/
theorem isPlaced_of_many (some : r.coefficient ≠ 0) (many : 17 < r.figureCount)
    (finite : f.isFinite = true) (printed : IsPrinted text f.isNegative d)
    (nearest : d.nearest = f.magnitude) : IsPlaced f r text d := by
  have signed : (f.isNegative && r.coefficient != 0) = f.isNegative := by simp [some]
  have read := scanFloat_of_nearest printed.denotes nearest (of_decide_eq_true finite)
  rw [ofMagnitude_magnitude] at read
  exact ⟨signed.symm ▸ printed, printed.isPlain_iff, fun none => absurd none some,
    fun few => absurd few (Nat.not_le.mpr many), fun _ => read, ⟨f, read⟩⟩

theorem appendFloat_of_none {precision : Int} (out : Bytes) (finite : f.isFinite = true)
    (lost : figures? f.magnitude precision = none) :
    appendFloat out f precision = (true, out ++ [zero]) := by
  by_cases none : f.magnitude = 0
  · exact appendFloat_zero out precision finite none
  · unfold appendFloat floatText?
    rw [if_pos finite, if_neg none, lost]

theorem exists_isPlaced (out : Bytes) (finite : f.isFinite = true) (few : p ≤ 17) :
    ∃ text d, appendFloat out f p = (true, out ++ text) ∧
      IsPlaced f (placed f.magnitude p) text d := by
  have below : f.magnitude < Binary64.infinity := of_decide_eq_true finite
  have figures := Figures.figures?_of_places few f.magnitude
  by_cases lost : (placed f.magnitude p).coefficient = 0
  · rw [if_pos lost] at figures
    exact ⟨_, _, appendFloat_of_none out finite figures, isPlaced_zero f lost⟩
  · rw [if_neg lost] at figures
    have some : f.magnitude ≠ 0 := by
      intro none
      rw [none] at lost
      exact lost (placed_zero p)
    have appended := appendFloat_of_figures out finite some figures
    by_cases many : 17 < (placed f.magnitude p).figureCount
    · rw [if_pos many] at appended
      have present := Nat.pos_of_ne_zero some
      have proper := Figures.proper_shortest present below
      obtain ⟨d, printed, value, -⟩ := proper.exists_printed f.isNegative
      have nearest := Figures.nearest_of_shortest present below value
      exact ⟨_, d, appended, isPlaced_of_many lost many finite printed nearest⟩
    · rw [if_neg many] at appended
      have proper : (Figures.ofPlaces (placed f.magnitude p)).Proper :=
        Figures.proper_digits (Nat.pos_of_ne_zero lost) _
      obtain ⟨d, printed, value, -⟩ := proper.trim.1.exists_printed f.isNegative
      rw [proper.value_trim, Figures.toDecimal_ofPlaces] at value
      exact ⟨_, d, appended,
        isPlaced_of_few lost (Nat.not_lt.mp many) (value_placed_lt below p) printed value⟩

/--
A finite number with so many places is rounded to the nearest multiple of the last
place, and that is printed if it has no more than 17 figures.  Otherwise the text
is read back as the number.
-/
theorem exists_text_of_places (out : Bytes) (finite : f.isFinite = true) (few : p ≤ 17) :
    ∃ r text d, r.exponent = -(p : Int) ∧ IsRoundedEven (|f.toRat| * 10 ^ p) r.coefficient ∧
      appendFloat out f p = (true, out ++ text) ∧ IsPlaced f r text d := by
  obtain ⟨text, d, appended, isPlaced⟩ := exists_isPlaced out finite few
  have absolute : |f.toRat| = Binary64.value f.magnitude := by
    rw [Binary64.toRat, abs_signedRat, abs_of_nonneg (Binary64.value_nonneg _)]
  refine ⟨placed f.magnitude p, text, d, rfl, ?_, appended, isPlaced⟩
  rw [absolute]
  exact isRoundedEven_placed f.magnitude p

/-- Two and a half is half way between two integers, and rounded to the even one. -/
theorem exists_text_of_places_tie :
    let f : Binary64 := ⟨0xc004000000000000⟩
    let text := Bytes.ofString "-2"
    f.isFinite = true ∧ 0 ≤ 17 ∧ |f.toRat| * 10 ^ 0 = 5 / 2 ∧
      appendFloat (Bytes.ofString "x = ") f 0 = (true, Bytes.ofString "x = " ++ text) ∧
      ∃ r d, r.exponent = 0 ∧ r.coefficient = 2 ∧ IsPlaced f r text d := by
  intro f text
  have finite : f.isFinite = true := by decide
  have given : appendFloat (Bytes.ofString "x = ") f 0 = (true, Bytes.ofString "x = " ++ text) := by
    decide +kernel
  have number : |f.toRat| * 10 ^ 0 = 5 / 2 := by
    have units : Binary64.unitsOf f.magnitude * 2 = 5 * Binary64.one := by decide +kernel
    have cast : (Binary64.unitsOf f.magnitude * 2 : ℚ) = 5 * Binary64.one := by exact_mod_cast units
    rw [pow_zero, mul_one, Binary64.toRat, abs_signedRat,
      abs_of_nonneg (Binary64.value_nonneg _), Binary64.value,
      div_eq_div_iff Binary64.one_pos.ne' two_ne_zero, cast]
  have even : IsRoundedEven (5 / 2) 2 := ⟨by norm_num, fun _ => rfl⟩
  obtain ⟨r, written, d, place, rounded, appended, isPlaced⟩ :=
    exists_text_of_places (Bytes.ofString "x = ") finite (Nat.zero_le 17)
  obtain rfl : written = text :=
    List.append_cancel_left (congrArg Prod.snd (appended.symm.trans given))
  rw [number] at rounded
  exact ⟨finite, Nat.zero_le 17, number, given, r, d, place, rounded.unique even, isPlaced⟩

end Numeral

end JsonEvents
