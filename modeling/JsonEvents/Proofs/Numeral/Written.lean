import JsonEvents.Proofs.Numeral.Digits

/-!
# Integers are written and read back

An integer is written with as many bytes as `lenInt` says, and it is read back
in front of whatever does not begin with a digit.  Of all texts that are read as
an integer the one that is written has no plus, no zero too many in front and
does not negate zero (`scanInt_appendInt`).  The loops that write and measure an
integer take digits off a word, from the last one on (`digitsBack_eq`,
`countFrom_eq`); the magnitude of every integer is a word (`toNat_magnitude`).
-/

namespace JsonEvents

open Ascii Grammar

/-! ## The digits of a value -/

namespace Digits

variable {ds : Bytes} {c : UInt8} {n : Nat}

theorem digit_digitValue (isDigit : Ascii.isDigit c = true) : digit (digitValue c) = c := by
  have small : digitValue c < 10 := Nat.lt_succ_of_le (Numeral.digitValue_le isDigit)
  have least : zero.toNat = 48 := rfl
  simp only [Ascii.isDigit, Bool.and_eq_true, decide_eq_true_eq, UInt8.le_iff_toNat_le] at isDigit
  rw [← UInt8.toNat_inj, toNat_digit small, digitValue]
  omega

theorem digits_digitValue (isDigit : Ascii.isDigit c = true) : digits (digitValue c) = [c] := by
  have small : digitValue c < 10 := Nat.lt_succ_of_le (Numeral.digitValue_le isDigit)
  rw [digits, if_pos small, digit_digitValue isDigit]

theorem digits_step (some : 0 < n) (isDigit : Ascii.isDigit c = true) :
    digits (10 * n + digitValue c) = digits n ++ [c] := by
  have small : digitValue c < 10 := Nat.lt_succ_of_le (Numeral.digitValue_le isDigit)
  have front : (10 * n + digitValue c) / 10 = n := by omega
  have last : (10 * n + digitValue c) % 10 = digitValue c := by omega
  rw [digits, if_neg (by omega), front, last, digit_digitValue isDigit]

theorem value_pos (leading : one ≤ c) (ds : Bytes) : 0 < value (c :: ds) :=
  Nat.lt_of_lt_of_le (Numeral.tenTo_pos ds.length) (le_value leading ds)

/-- Digits of which the first one is no zero are the digits of their value. -/
theorem digits_value_of_leading (leading : one ≤ c ∧ c ≤ nine) (all : AreDigits ds) :
    digits (value (c :: ds)) = c :: ds := by
  -- Digits are taken off at the end, so the induction goes from there.
  induction ds using List.reverseRecOn with
  | nil =>
      have first := (Numeral.areDigits_of_isInteger (.digits leading all)).1 c List.mem_cons_self
      have single : value [c] = digitValue c := by simp [value]
      rw [single, digits_digitValue first]
  | append_singleton ds d ih =>
      obtain ⟨front, last⟩ := List.forall_mem_append.mp all
      have digit := last d List.mem_cons_self
      rw [← List.cons_append, value_append, digits_step (value_pos leading.1 ds) digit, ih front]

/-- An integer without a zero too many is written with the digits of its value. -/
theorem digits_value (integer : IsInteger ds) : digits (value ds) = ds := by
  cases integer with
  | zero =>
      have digit : isDigit zero = true := rfl
      exact digits_digitValue digit
  | digits leading all => exact digits_value_of_leading leading all

end Digits

namespace Numeral

variable {s t ds : Bytes} {c : UInt8} {v : Int64}

/-! ## Words -/

/-- The magnitude of an integer as a word.  That of the least integer is no integer. -/
def magnitude (i : Int64) : UInt64 := if i < 0 then 0 - i.toUInt64 else i.toUInt64

theorem toNat_magnitude (i : Int64) : (magnitude i).toNat = i.toInt.natAbs := by
  have zero : (0 : Int64).toInt = 0 := rfl
  have word : i.toInt = if 2 * i.toUInt64.toNat < 2 ^ 64 then (i.toUInt64.toNat : Int)
      else (i.toUInt64.toNat : Int) - (2 ^ 64 : Nat) := BitVec.toInt_eq_toNat_cond i.toBitVec
  have size : i.toUInt64.toNat < 2 ^ 64 := i.toUInt64.toNat_lt
  have negated : (0 - i.toUInt64).toNat = (2 ^ 64 - i.toUInt64.toNat) % 2 ^ 64 := by
    rw [UInt64.toNat_sub]
    rfl
  unfold magnitude
  simp only [Int64.lt_iff_toInt_lt, zero]
  split <;> split at word <;> omega

theorem toNat_div_ten (u : UInt64) : (u / 10).toNat = u.toNat / 10 := UInt64.toNat_div u 10

theorem toNat_mod_ten (u : UInt64) : (u % 10).toNat = u.toNat % 10 := UInt64.toNat_mod u 10

/-- The digits of a word in front of others, from the last digit to the first. -/
def digitsBack (u : UInt64) (behind : Bytes) : Bytes :=
  if u / 10 = 0 then Digits.digit (u % 10).toNat :: behind
  else digitsBack (u / 10) (Digits.digit (u % 10).toNat :: behind)
termination_by u.toNat
decreasing_by
  next more =>
    rw [← UInt64.toNat_inj, toNat_div_ten] at more
    rw [toNat_div_ten]
    have none : (0 : UInt64).toNat = 0 := rfl
    omega

/-- One more for each time that a word can be divided by ten. -/
def countFrom (n : Nat) (u : UInt64) : Nat := if 10 ≤ u then countFrom (n + 1) (u / 10) else n
termination_by u.toNat
decreasing_by
  next more =>
    rw [UInt64.le_iff_toNat_le] at more
    rw [toNat_div_ten]
    have ten : (10 : UInt64).toNat = 10 := rfl
    omega

theorem digitsBack_eq (u : UInt64) (behind : Bytes) :
    digitsBack u behind = Digits.digits u.toNat ++ behind := by
  have none : (0 : UInt64).toNat = 0 := rfl
  fun_induction digitsBack u behind with
  | case1 u behind last =>
      rw [← UInt64.toNat_inj, toNat_div_ten] at last
      rw [Digits.digits, if_pos (by omega), toNat_mod_ten, Nat.mod_eq_of_lt (by omega)]
      rfl
  | case2 u behind more ih =>
      rw [← UInt64.toNat_inj, toNat_div_ten] at more
      rw [ih, Digits.digits.eq_def u.toNat, if_neg (by omega), toNat_div_ten, toNat_mod_ten,
        List.append_assoc, List.singleton_append]

theorem countFrom_eq (n : Nat) (u : UInt64) :
    countFrom n u + 1 = n + Digits.digitCount u.toNat := by
  have ten : (10 : UInt64).toNat = 10 := rfl
  fun_induction countFrom n u with
  | case1 n u more ih =>
      rw [UInt64.le_iff_toNat_le] at more
      rw [ih, Digits.digitCount.eq_def u.toNat, if_neg (by omega), toNat_div_ten]
      omega
  | case2 n u few =>
      rw [UInt64.le_iff_toNat_le] at few
      rw [Digits.digitCount, if_pos (by omega)]

/-- The digits of a word fit into 20 bytes. -/
theorem digitCount_word_le (u : UInt64) : Digits.digitCount u.toNat ≤ 20 := by
  obtain ⟨-, above, -⟩ := digitCount_bounds u.toNat
  have size : u.toNat < 2 ^ 64 := u.toNat_lt
  have limit : 2 ^ 64 < tenTo 20 := by decide
  rcases Nat.eq_zero_or_pos u.toNat with none | some
  · rw [none, Digits.digitCount]
    decide
  · have few := lt_of_tenTo_lt (Nat.lt_of_le_of_lt (above some) (Nat.lt_trans size limit))
    omega

/-! ## Reading back -/

theorem ofInt_eq (i : Int) : Digits.ofInt i =
    (if i < 0 then [minus] else []) ++ Digits.digits i.natAbs := by
  unfold Digits.ofInt
  split <;> rfl

/-- A sign and digits are read as the integer that they stand for. -/
theorem scanInt_append (negative : Bool) (all : AreDigits ds) (some : ds ≠ [])
    (value : signed negative (Digits.value ds) = v.toInt)
    (stops : isDigit (Scan.byte t 0) = false) :
    scanInt ((if negative then [minus] else []) ++ ds ++ t) =
      Option.some ((if negative then 1 else 0) + ds.length, v) := by
  have split : splitSign ((if negative then [minus] else []) ++ ds ++ t) =
      (if negative then 1 else 0, negative, ds ++ t) := by
    cases negative with
    | true => rfl
    | false =>
        obtain ⟨c, ds, rfl⟩ := List.exists_cons_of_ne_nil some
        exact splitSign_of_isDigit (all c List.mem_cons_self) (ds ++ t)
  have read := integer_eq negative all
  rw [value, if_pos (inRange_toInt v)] at read
  obtain ⟨i, found, same⟩ := Option.map_eq_some_iff.mp read
  obtain rfl := Int64.toInt_inj.mp same
  simp only [scanInt, split, digitRun_append all stops, List.isEmpty_eq_false_iff.mpr some,
    Bool.false_eq_true, if_false, found, Option.map_some]

theorem scanInt_ofInt (v : Int64) (stops : isDigit (Scan.byte t 0) = false) :
    scanInt (Digits.ofInt v.toInt ++ t) = some ((Digits.ofInt v.toInt).length, v) := by
  have all := Digits.areDigits_digits v.toInt.natAbs
  have present := (areDigits_of_isInteger (Digits.isInteger_digits v.toInt.natAbs)).2
  have value : signed (decide (v.toInt < 0)) (Digits.value (Digits.digits v.toInt.natAbs)) =
      v.toInt := by
    rw [Digits.value_digits, signed]
    simp only [decide_eq_true_eq]
    omega
  have read := scanInt_append (decide (v.toInt < 0)) all present value stops
  simp only [decide_eq_true_eq] at read
  rw [ofInt_eq, read, List.length_append]
  split <;> rfl

theorem length_ofInt (v : Int64) : (Digits.ofInt v.toInt).length = lenInt v := by
  have zero : (0 : Int64).toInt = 0 := rfl
  rw [ofInt_eq, List.length_append, Digits.digits_length, lenInt]
  simp only [Int64.lt_iff_toInt_lt, zero]
  split
  · exact Nat.add_comm _ _
  · exact Nat.zero_add _

/-! ## The text that is written -/

/-- No plus, no zero too many in front of digits, and no minus in front of zero. -/
structure IsTerse (s : Bytes) : Prop where
  unsigned : plus ∉ s
  short : ∀ m ds, s = m ++ zero :: ds → m = [] ∨ m = [minus] → ds = []
  other : s ≠ [minus, zero]

theorem isInteger_of_short (unsigned : IsUnsigned s) (short : ∀ ds, s = zero :: ds → ds = []) :
    IsInteger s := by
  obtain ⟨some, all⟩ := unsigned
  obtain ⟨c, ds, rfl⟩ := List.exists_cons_of_ne_nil some
  obtain ⟨first, others⟩ := List.forall_mem_cons.mp all
  by_cases isZero : c = zero
  · subst isZero
    rw [short ds rfl]
    exact .zero
  · exact .digits (leading_of_isDigit first isZero) others

/-- The terse text of an integer is the one that is written. -/
theorem ofInt_signedValue (isSigned : IsSigned s) (terse : IsTerse s) :
    Digits.ofInt (signedValue s) = s := by
  cases isSigned with
  | plain unsigned =>
      have integer := isInteger_of_short unsigned fun ds same => terse.short [] ds same (.inl rfl)
      obtain ⟨c, ds, rfl⟩ := List.exists_cons_of_ne_nil unsigned.1
      have plain := Scan.not_isSign_of_isDigit (unsigned.2 c List.mem_cons_self)
      have value : signedValue (c :: ds) = Digits.value (c :: ds) :=
        if_neg (Bool.eq_false_iff.mp plain)
      rw [value, ofInt_eq, if_neg (Int.not_lt.mpr (Int.natCast_nonneg _)), Int.natAbs_natCast,
        Digits.digits_value integer, List.nil_append]
  | @signed c ds sign unsigned =>
      simp only [isSign, Bool.or_eq_true, beq_iff_eq] at sign
      obtain rfl := sign.resolve_left fun isPlus => terse.unsigned (isPlus ▸ List.mem_cons_self)
      have integer := isInteger_of_short unsigned fun rest same =>
        terse.short [minus] rest (congrArg (minus :: ·) same) (.inr rfl)
      have value : signedValue (minus :: ds) = -(Digits.value ds : Int) := rfl
      have positive : 0 < Digits.value ds := by
        cases integer with
        | zero => exact absurd rfl terse.other
        | digits leading others => exact Digits.value_pos leading.1 _
      rw [value, ofInt_eq, if_pos (by omega), Int.natAbs_neg, Int.natAbs_natCast,
        Digits.digits_value integer, List.singleton_append]

/-- What is read as a whole is an integer of the value that is found. -/
theorem isSigned_of_scanInt (read : scanInt s = some (s.length, v)) :
    IsSigned s ∧ signedValue s = v.toInt := by
  have finds := finds_int s
  rw [read] at finds
  have nothing : s.length ≠ 0 := by
    intro none
    rw [List.eq_nil_of_length_eq_zero none] at read
    cases read
  generalize found : outcome _ = result at finds
  cases finds with
  | inside longest inside =>
      obtain ⟨size, value⟩ := Prod.mk.inj found
      have whole := longest.front.eq_of_length size.symm
      exact ⟨whole ▸ longest.formed, whole ▸ value.symm⟩
  | outside longest outside => exact absurd (congrArg Prod.fst found) nothing
  | nothing none => exact absurd (congrArg Prod.fst found) nothing

/-- The loops write and count the digits of the magnitude, a word, within 20 bytes. -/
structure IsWrittenBack (v : Int64) (d : Bytes) : Prop where
  text : d = (if v < 0 then [minus] else []) ++ digitsBack (magnitude v) []
  room : (digitsBack (magnitude v) []).length ≤ 20
  count : lenInt v = countFrom 1 (magnitude v) + if v < 0 then 1 else 0

theorem isWrittenBack_ofInt (v : Int64) : IsWrittenBack v (Digits.ofInt v.toInt) := by
  have zero : (0 : Int64).toInt = 0 := rfl
  have digits : digitsBack (magnitude v) [] = Digits.digits v.toInt.natAbs := by
    rw [digitsBack_eq, toNat_magnitude, List.append_nil]
  have count := countFrom_eq 1 (magnitude v)
  rw [toNat_magnitude] at count
  refine ⟨?_, ?_, ?_⟩
  · rw [digits, ofInt_eq]
    simp only [Int64.lt_iff_toInt_lt, zero]
  · rw [digits, Digits.digits_length, ← toNat_magnitude]
    exact digitCount_word_le _
  · rw [lenInt]
    omega

/--
An integer is written behind what was there before, with as many bytes as it is
said to have, and read back in front of whatever does not begin with a digit.
A text that is read as a whole as the integer is what is written, unless it has
a plus, a zero too many or a negated zero.
-/
theorem scanInt_appendInt (out : Bytes) (v : Int64) :
    (∃ d, appendInt out v = out ++ d ∧ d.length = lenInt v ∧ IsWrittenBack v d ∧
      ∀ t : Bytes, (∀ c ∈ t.head?, isDigit c = false) →
        scanInt (d ++ t) = some (lenInt v, v)) ∧
    ∀ s : Bytes, scanInt s = some (s.length, v) → IsTerse s → appendInt out v = out ++ s := by
  constructor
  · refine ⟨Digits.ofInt v.toInt, rfl, length_ofInt v, isWrittenBack_ofInt v, ?_⟩
    intro t ends
    have stops : isDigit (Scan.byte t 0) = false := by
      cases t with
      | nil => rfl
      | cons c t => exact ends c rfl
    rw [scanInt_ofInt v stops, length_ofInt]
  · intro s read terse
    obtain ⟨isSigned, value⟩ := isSigned_of_scanInt read
    rw [appendInt, ← value, ofInt_signedValue isSigned terse]

/-- The least integer has 20 bytes, of which a point in front of a digit takes none away. -/
theorem scanInt_appendInt_least :
    let text := Bytes.ofString "-9223372036854775808"
    appendInt [comma] Int64.minValue = comma :: text ∧ lenInt Int64.minValue = 20 ∧
      (∀ c ∈ (Bytes.ofString ".5").head?, isDigit c = false) ∧
      scanInt (text ++ Bytes.ofString ".5") = some (20, Int64.minValue) ∧
      scanInt text = some (text.length, Int64.minValue) ∧ IsTerse text ∧
      appendInt [] Int64.minValue = text := by
  intro text
  have given : appendInt [comma] Int64.minValue = [comma] ++ text := by decide +kernel
  have count : lenInt Int64.minValue = 20 := by decide +kernel
  have ends : ∀ c ∈ (Bytes.ofString ".5").head?, isDigit c = false := by
    have front : (Bytes.ofString ".5").head? = some point := by decide
    rw [front]
    rintro c ⟨⟩
    rfl
  have read : scanInt text = some (text.length, Int64.minValue) := by decide +kernel
  have terse : IsTerse text := by
    have first : text.head? = some minus := by decide
    have second : text.tail.head? = some nine := by decide
    refine ⟨by decide, ?_, by decide⟩
    rintro m ds same (rfl | rfl)
    · rw [same] at first
      exact absurd (Option.some.inj first) (by decide)
    · rw [same] at second
      exact absurd (Option.some.inj second) (by decide)
  obtain ⟨⟨d, written, -, -, back⟩, -⟩ := scanInt_appendInt [comma] Int64.minValue
  obtain rfl := List.append_cancel_left (written.symm.trans given)
  have again := back (Bytes.ofString ".5") ends
  rw [count] at again
  have terseText := (scanInt_appendInt [] Int64.minValue).2 text read terse
  exact ⟨given, count, ends, again, read, terse, terseText⟩

end Numeral

end JsonEvents
