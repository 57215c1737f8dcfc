import JsonEvents.Numeral.Printer
import JsonEvents.Proofs.Numeral.Figures

/-!
# Finite numbers are printed and read back

Figures are laid out in four ways, all of which denote the same decimal
(`Figures.Proper.exists_printed`).  A finite number is printed in the shortest
form as a text that is read back as the number, all of it
(`exists_text_read_back`).
-/

namespace JsonEvents

open Ascii Grammar

namespace Numeral

/-! ## Layouts -/

/-- The exponent of the first digit of a decimal. -/
def Decimal.leadingExponent (d : Decimal) : Int :=
  d.exponent + Digits.digitCount d.coefficient - 1

/-- A number with a plain point, or without one. -/
inductive IsPlain : Bytes → Prop
  | parts {m i f : Bytes} (sign : IsSign m) (integer : IsInteger i) (fraction : IsFraction f) :
      IsPlain (m ++ (i ++ f))

/-- One digit before the point, which is no zero, and an exponent. -/
inductive IsScientific (e : Int) : Bytes → Prop
  | parts {m f : Bytes} {c : UInt8} (sign : IsSign m) (leading : one ≤ c ∧ c ≤ nine)
      (fraction : IsFraction f) : IsScientific e (m ++ (c :: (f ++ lowerE :: Digits.ofInt e)))

/-- A decimal is written plainly as long as its first digit is not far from the point. -/
structure IsPrinted (text : Bytes) (negative : Bool) (d : Decimal) : Prop where
  denotes : Denotes text negative d
  form : if -4 ≤ d.leadingExponent ∧ d.leadingExponent < 18 then IsPlain text
    else IsScientific d.leadingExponent text

theorem signText_spec (negative : Bool) :
    IsSign (signText negative) ∧ (signText negative == [minus]) = negative := by
  cases negative with
  | true => exact ⟨.minus, rfl⟩
  | false => exact ⟨.none, rfl⟩

theorem exponentValue_ofInt (e : Int) :
    IsExponent (lowerE :: Digits.ofInt e) ∧ exponentValue (lowerE :: Digits.ofInt e) = e := by
  obtain ⟨all, some⟩ := areDigits_of_isInteger (Digits.isInteger_digits e.natAbs)
  have value := Digits.value_digits e.natAbs
  obtain ⟨c, ds, text⟩ := List.exists_cons_of_ne_nil some
  rw [text] at all value
  obtain ⟨digit, others⟩ := List.forall_mem_cons.mp all
  unfold Digits.ofInt
  rw [text]
  split
  · next negative =>
      refine ⟨.signed rfl rfl digit others, ?_⟩
      rw [exponentValue, if_pos rfl, value]
      omega
  · next positive =>
      have unsigned := Scan.not_isSign_of_isDigit digit
      simp only [isSign, Bool.or_eq_false_iff, beq_eq_false_iff_ne] at unsigned
      refine ⟨.digits rfl digit others, ?_⟩
      rw [exponentValue, if_neg unsigned.2, if_neg unsigned.1, value]
      omega

theorem isFraction_of_areDigits {ds : Bytes} (all : AreDigits ds) (some : ds ≠ []) :
    IsFraction (point :: ds) := by
  obtain ⟨c, ds, rfl⟩ := List.exists_cons_of_ne_nil some
  obtain ⟨digit, others⟩ := List.forall_mem_cons.mp all
  exact .digits digit others

namespace Figures

variable {g : Figures}

/-- The first digit of proper figures is the first one of their number. -/
theorem Proper.leadingExponent_toDecimal (h : g.Proper) :
    g.toDecimal.leadingExponent = g.exponent := by
  have all := h.areDigits
  cases h with
  | @digits c ds e leading others =>
      have count := Digits.digitCount_eq (Digits.le_value leading.1 ds) (Digits.value_lt all)
      rw [Decimal.leadingExponent, toDecimal, count]
      simp only [List.length_cons]
      omega

theorem zerosBehind_none (g : Figures) : g.zerosBehind 0 = g :=
  congrArg (fun ds => (⟨ds, g.exponent⟩ : Figures)) (List.append_nil g.digits)

/-- An integer and a fraction stand for figures, perhaps with zeros behind them. -/
structure Parts (g : Figures) (i f : Bytes) : Prop where
  integer : IsInteger i
  fraction : IsFraction f
  number : ∃ n, (⟨Digits.value (i ++ f.tail), -f.tail.length⟩ : Decimal) =
    (g.zerosBehind n).toDecimal

/-- Below one there are zeros in front of the figures. -/
theorem Proper.parts_zeros (h : g.Proper) (small : g.exponent < 0) :
    Parts g [zero] (point :: (List.replicate (-g.exponent - 1).toNat zero ++ g.digits)) := by
  have count := h.length_pos
  have behind : AreDigits (List.replicate (-g.exponent - 1).toNat zero ++ g.digits) :=
    List.forall_mem_append.mpr ⟨areDigits_zeros _, h.areDigits⟩
  have some : List.replicate (-g.exponent - 1).toNat zero ++ g.digits ≠ [] :=
    List.append_ne_nil_of_right_ne_nil _ (List.ne_nil_of_length_pos count)
  refine ⟨.zero, isFraction_of_areDigits behind some, 0, ?_⟩
  have value := Digits.value_zeros_append ((-g.exponent - 1).toNat + 1) g.digits
  rw [List.replicate_succ, List.cons_append] at value
  rw [zerosBehind_none, toDecimal, List.tail_cons]
  refine congrArg₂ Decimal.mk value ?_
  rw [List.length_append, List.length_replicate]
  omega

/-- Figures that end before the point have zeros behind them. -/
theorem Proper.parts_whole (h : g.Proper) (short : g.digits.length ≤ (g.exponent + 1).toNat) :
    Parts g (g.digits ++ List.replicate ((g.exponent + 1).toNat - g.digits.length) zero) [] := by
  have count := h.length_pos
  have longer := h.zerosBehind ((g.exponent + 1).toNat - g.digits.length)
  refine ⟨longer.isInteger, .none, (g.exponent + 1).toNat - g.digits.length, ?_⟩
  rw [toDecimal, List.tail_nil, List.append_nil]
  refine congrArg₂ Decimal.mk rfl ?_
  rw [Figures.zerosBehind, List.length_append, List.length_replicate, List.length_nil]
  dsimp only
  omega

/-- The point is between the figures. -/
theorem Proper.parts_point (h : g.Proper) (large : ¬ g.exponent < 0)
    (long : ¬ g.digits.length ≤ (g.exponent + 1).toNat) :
    Parts g (g.digits.take (g.exponent + 1).toNat)
      (point :: g.digits.drop (g.exponent + 1).toNat) := by
  have behind : AreDigits (g.digits.drop (g.exponent + 1).toNat) := fun b member =>
    h.areDigits b (List.mem_of_mem_drop member)
  have some : g.digits.drop (g.exponent + 1).toNat ≠ [] := mt List.drop_eq_nil_iff.mp long
  refine ⟨isInteger_take h.isInteger (by omega), isFraction_of_areDigits behind some, 0, ?_⟩
  rw [zerosBehind_none, toDecimal, List.tail_cons, List.take_append_drop]
  refine congrArg₂ Decimal.mk rfl ?_
  rw [List.length_drop]
  omega

theorem Proper.exists_parts (h : g.Proper) : ∃ i f, g.plainText = i ++ f ∧ Parts g i f := by
  unfold plainText
  dsimp only
  split
  · next small => exact ⟨[zero], point :: (_ ++ _), rfl, h.parts_zeros small⟩
  · next large =>
      split
      · next short => exact ⟨_, _, (List.append_nil _).symm, h.parts_whole short⟩
      · next long => exact ⟨_, _, List.append_assoc _ [point] _, h.parts_point large long⟩

/-- Scientific figures are one digit and a fraction, scaled. -/
theorem Proper.exists_scientific (h : g.Proper) :
    ∃ c f, g.scientificText = c :: (f ++ lowerE :: Digits.ofInt g.exponent) ∧
      (one ≤ c ∧ c ≤ nine) ∧ IsFraction f ∧
      (⟨Digits.value (c :: f.tail), g.exponent - f.tail.length⟩ : Decimal) = g.toDecimal := by
  cases h with
  | @digits c ds e leading others =>
      cases ds with
      | nil => exact ⟨c, [], rfl, leading, .none, rfl⟩
      | cons d ds =>
          obtain ⟨digit, behind⟩ := List.forall_mem_cons.mp others
          refine ⟨c, point :: d :: ds, ?_, leading, .digits digit behind, ?_⟩
          · simp [scientificText]
          · refine congrArg₂ Decimal.mk rfl ?_
            simp only [List.tail_cons, List.length_cons]
            omega

/-- Figures are printed with a sign as a decimal of their value and their exponent. -/
theorem Proper.exists_printed (h : g.Proper) (negative : Bool) :
    ∃ d, IsPrinted (signText negative ++ g.text) negative d ∧ d.value = g.toDecimal.value ∧
      d.leadingExponent = g.exponent := by
  obtain ⟨sign, same⟩ := signText_spec negative
  unfold text
  split
  · next near =>
      obtain ⟨i, f, text, integer, fraction, n, number⟩ := h.exists_parts
      have denotes := Denotes.parts sign integer fraction .none
      have fixed : exponentValue [] = 0 := rfl
      have first : (g.zerosBehind n).toDecimal.leadingExponent = g.exponent :=
        (h.zerosBehind n).leadingExponent_toDecimal
      rw [List.append_nil, same, fixed, Int.zero_sub, number, ← text] at denotes
      simp only [isPlain, Bool.and_eq_true, decide_eq_true_eq] at near
      refine ⟨_, ⟨denotes, ?_⟩, g.value_zerosBehind n, first⟩
      rw [first, if_pos near, text]
      exact .parts sign integer fraction
  · next far =>
      obtain ⟨c, f, text, leading, fraction, number⟩ := h.exists_scientific
      obtain ⟨exponent, scale⟩ := exponentValue_ofInt g.exponent
      have single : IsInteger [c] := .digits leading (List.forall_mem_nil _)
      have denotes := Denotes.parts sign single fraction exponent
      have first := h.leadingExponent_toDecimal
      rw [same, scale, List.singleton_append, List.singleton_append, number, ← text] at denotes
      simp only [isPlain, Bool.and_eq_true, decide_eq_true_eq] at far
      refine ⟨_, ⟨denotes, ?_⟩, rfl, first⟩
      rw [first, if_neg far, text]
      exact .parts sign leading fraction

end Figures

/-! ## Printing and reading back -/

variable {f : Binary64} {precision : Int} {m : Nat} {text : Bytes} {negative : Bool} {d : Decimal}

/-- A number is its sign and its magnitude. -/
theorem ofMagnitude_magnitude (f : Binary64) :
    Binary64.ofMagnitude f.isNegative f.magnitude = f := by
  have size : f.bits.toNat < 2 * 9223372036854775808 := f.bits.toNat_lt
  have weight : Binary64.signWeight = 9223372036854775808 := rfl
  have parts : (if f.isNegative then Binary64.signWeight + f.magnitude else f.magnitude) =
      f.bits.toNat := by
    unfold Binary64.isNegative Binary64.magnitude
    split
    · next large =>
        have above := of_decide_eq_true large
        rw [weight] at above ⊢
        omega
    · next small =>
        exact Nat.mod_eq_of_lt (Nat.not_le.mp (of_decide_eq_false (Bool.eq_false_iff.mpr small)))
  rw [Binary64.ofMagnitude, parts]
  exact congrArg Binary64.mk UInt64.ofNat_toNat

/-- What denotes a decimal near a finite magnitude is read as the magnitude. -/
theorem scanFloat_of_nearest (denotes : Denotes text negative d) (same : d.nearest = m)
    (finite : m < Binary64.infinity) :
    scanFloat text = some (text.length, .ofMagnitude negative m) := by
  have fits := d.nearest_lt_infinity_iff.mp (same ▸ finite)
  rw [scanFloat_of_denotes denotes, if_neg fits, same]

/-- The shortest figures have no more than 17 digits, also without zeros at the end. -/
theorem figures?_of_shortest (shortest : precision < 0 ∨ 17 < precision) (some : 0 < m)
    (finite : m < Binary64.infinity) :
    figures? m precision = .some (Figures.shortest m).trim := by
  obtain ⟨q, few, same, -⟩ := Figures.exists_shortest some finite
  have nearest := Figures.nearest_scientific_value some q
  rw [← same] at nearest
  obtain ⟨-, n, zeros⟩ := nearest.proper.trim
  have length := nearest.length
  rw [zeros, Figures.zerosBehind, List.length_append] at length
  have limit : (maxFigures : Int) = 17 := rfl
  unfold figures?
  dsimp only
  rw [limit, if_pos shortest, Option.map_some, if_neg]
  have most : maxFigures = 17 := rfl
  omega

theorem appendFloat_of_figures {g : Figures} (out : Bytes) (finite : f.isFinite = true)
    (some : f.magnitude ≠ 0) (figures : figures? f.magnitude precision = .some g) :
    appendFloat out f precision = (true, out ++ (signText f.isNegative ++ g.text)) := by
  unfold appendFloat floatText?
  rw [if_pos finite, if_neg some, figures]

/-- The text of a number other than zero is that of its shortest figures. -/
theorem exists_shortest_text (out : Bytes) (shortest : precision < 0 ∨ 17 < precision)
    (finite : f.isFinite = true) (some : 0 < f.magnitude) :
    ∃ text d, appendFloat out f precision = (true, out ++ text) ∧
      IsPrinted text f.isNegative d ∧ d.nearest = f.magnitude ∧
      d.value = (Figures.shortest f.magnitude).toDecimal.value := by
  have below : f.magnitude < Binary64.infinity := of_decide_eq_true finite
  have proper := Figures.proper_shortest some below
  obtain ⟨d, printed, value, -⟩ := proper.trim.1.exists_printed f.isNegative
  have exact : d.value = (Figures.shortest f.magnitude).toDecimal.value :=
    value.trans proper.value_trim
  have appended := appendFloat_of_figures out finite (Nat.ne_of_gt some)
    (figures?_of_shortest shortest some below)
  exact ⟨_, d, appended, printed, Figures.nearest_of_shortest some below exact, exact⟩

/-- Zero is printed without a sign. -/
theorem isPrinted_zero : IsPrinted [zero] false ⟨0, 0⟩ := by
  have first : Decimal.leadingExponent ⟨0, 0⟩ = 0 := by
    rw [Decimal.leadingExponent, Digits.digitCount]
    rfl
  refine ⟨.parts .none .zero .none .none, ?_⟩
  rw [first]
  exact .parts .none .zero .none

theorem appendFloat_zero (out : Bytes) (precision : Int) (finite : f.isFinite = true)
    (none : f.magnitude = 0) : appendFloat out f precision = (true, out ++ [zero]) := by
  unfold appendFloat floatText?
  rw [if_pos finite, if_pos none]

/--
A finite number is printed in the shortest form behind what was there before,
plainly if its first digit is not far from the point, and the text is read back
as a whole as the number.  A zero loses its sign.
-/
theorem exists_text_read_back (out : Bytes) (finite : f.isFinite = true)
    (shortest : precision < 0 ∨ 17 < precision) :
    ∃ text d, appendFloat out f precision = (true, out ++ text) ∧
      IsPrinted text (f.isNegative && f.magnitude != 0) d ∧
      scanFloat text = some (text.length, if f.magnitude = 0 then ⟨0⟩ else f) := by
  by_cases none : f.magnitude = 0
  · have nearest : Decimal.nearest ⟨0, 0⟩ = 0 := rfl
    have unsigned : (f.isNegative && f.magnitude != 0) = false := by simp [none]
    refine ⟨[zero], ⟨0, 0⟩, appendFloat_zero out precision finite none, ?_, ?_⟩
    · rw [unsigned]
      exact isPrinted_zero
    · rw [if_pos none]
      exact scanFloat_of_nearest isPrinted_zero.denotes nearest (by decide)
  · obtain ⟨text, d, appended, printed, nearest, -⟩ :=
      exists_shortest_text out shortest finite (Nat.pos_of_ne_zero none)
    have signed : (f.isNegative && f.magnitude != 0) = f.isNegative := by simp [none]
    refine ⟨text, d, appended, ?_, ?_⟩
    · rw [signed]
      exact printed
    · rw [if_neg none, scanFloat_of_nearest printed.denotes nearest (of_decide_eq_true finite),
        ofMagnitude_magnitude]

/-- The least number takes all 17 digits, and is read back as well. -/
theorem exists_text_read_back_least :
    let f : Binary64 := ⟨0xffefffffffffffff⟩
    let text := Bytes.ofString "-1.7976931348623157e308"
    f.isFinite = true ∧ ((-1 : Int) < 0 ∨ 17 < (-1 : Int)) ∧
      appendFloat (Bytes.ofString "x = ") f (-1) = (true, Bytes.ofString "x = " ++ text) ∧
      (∃ d, IsPrinted text true d) ∧ scanFloat text = some (23, f) := by
  intro f text
  have finite : f.isFinite = true := by decide
  have negative : (-1 : Int) < 0 ∨ 17 < (-1 : Int) := .inl (by decide)
  have given : appendFloat (Bytes.ofString "x = ") f (-1) =
      (true, Bytes.ofString "x = " ++ text) := by decide +kernel
  obtain ⟨written, d, same, printed, read⟩ :=
    exists_text_read_back (Bytes.ofString "x = ") finite negative
  have signed : (f.isNegative && f.magnitude != 0) = true := by decide
  obtain rfl := List.append_cancel_left (congrArg Prod.snd (same.symm.trans given))
  have some : f.magnitude ≠ 0 := by decide
  rw [signed] at printed
  rw [if_neg some] at read
  exact ⟨finite, negative, given, ⟨d, printed⟩, read⟩

end Numeral

end JsonEvents
