import JsonEvents.Numeral.Integer
import JsonEvents.Proofs.Grammar.Longest

/-!
# Integers are read exactly

Of all texts in front of a text that are written like an integer the scanners
take the longest one and give its value, or nothing where the value is out of
range (`scanners_exact`).  The guards of the loop turn a digit away just when
the number would outgrow its type (`Guards`), so no product or sum wraps.
-/

namespace JsonEvents

open Ascii Grammar

/-! ## Values of digits -/

namespace Digits

/-- The number that digits append to another one. -/
def valueFrom (n : Nat) (ds : Bytes) : Nat := ds.foldl (fun n c => 10 * n + digitValue c) n

theorem valueFrom_zero (ds : Bytes) : valueFrom 0 ds = value ds := rfl

theorem valueFrom_cons (n : Nat) (c : UInt8) (ds : Bytes) :
    valueFrom n (c :: ds) = valueFrom (10 * n + digitValue c) ds := by
  rw [valueFrom, List.foldl_cons, valueFrom]

theorem le_valueFrom (n : Nat) (ds : Bytes) : n ≤ valueFrom n ds := by
  induction ds generalizing n with
  | nil => exact Nat.le_refl n
  | cons c ds ih =>
      apply Nat.le_trans _ (ih (10 * n + digitValue c))
      omega

end Digits

namespace Numeral

variable {c : UInt8} {value limit : UInt64} {outgrows : UInt64 → UInt8 → Bool} {s t run : Bytes}

theorem digitValue_le (digit : isDigit c = true) : digitValue c ≤ 9 := by
  simp only [isDigit, Bool.and_eq_true, decide_eq_true_eq, UInt8.le_iff_toNat_le] at digit
  have top : nine.toNat = 57 := rfl
  unfold digitValue
  omega

theorem toNat_digit64 (digit : isDigit c = true) : (digit64 c).toNat = digitValue c := by
  have few := digitValue_le digit
  apply Nat.mod_eq_of_lt
  omega

/-! ## Guards -/

/-- A digit is turned away just when the number would be larger than the limit. -/
structure Guards (outgrows : UInt64 → UInt8 → Bool) (limit : UInt64) : Prop where
  iff : ∀ (value : UInt64) {c : UInt8}, isDigit c = true →
    (outgrows value c = true ↔ limit.toNat < 10 * value.toNat + digitValue c)

/-- A product that a word can hold is the true one. -/
theorem toNat_times_ten (small : value.toNat * 10 < UInt64.size) :
    (value * 10).toNat = value.toNat * 10 := by
  have ten : (10 : UInt64).toNat = 10 := rfl
  rw [UInt64.toNat_mul, ten]
  exact Nat.mod_eq_of_lt small

/-- Up to a tenth of the limit a product is within the limit. -/
theorem times_ten_le (small : ¬ limit / 10 < value) : value.toNat * 10 ≤ limit.toNat := by
  have ten : (10 : UInt64).toNat = 10 := rfl
  rw [UInt64.lt_iff_toNat_lt, UInt64.toNat_div, ten] at small
  omega

theorem guards_magnitude : Guards outgrowsMagnitude largestMagnitude := by
  constructor
  intro value c digit
  have few := digitValue_le digit
  have same := toNat_digit64 digit
  have top : largestMagnitude.toNat = 9223372036854775808 := rfl
  have tenth : (largestMagnitude / 10).toNat = 922337203685477580 := rfl
  have below : digit64 c ≤ largestMagnitude := by
    rw [UInt64.le_iff_toNat_le]
    omega
  have room := UInt64.toNat_sub_of_le _ _ below
  simp only [outgrowsMagnitude, Bool.or_eq_true, decide_eq_true_eq]
  by_cases small : largestMagnitude / 10 < value
  · rw [UInt64.lt_iff_toNat_lt] at small
    constructor
    · intro _
      omega
    · intro _
      exact .inl (UInt64.lt_iff_toNat_lt.mpr small)
  · have product := toNat_times_ten (Nat.lt_of_le_of_lt (times_ten_le small) largestMagnitude.toNat_lt)
    rw [UInt64.lt_iff_toNat_lt] at small
    rw [UInt64.lt_iff_toNat_lt, UInt64.lt_iff_toNat_lt, room, product]
    omega

/-- Behind a tenth of the largest word its last digit is the largest one that can follow. -/
theorem lastDigit_lt (c : UInt8) : lastDigit < c ↔ 5 < digitValue c := by
  have five : lastDigit.toNat = 53 := rfl
  rw [UInt8.lt_iff_toNat_lt, five, digitValue]
  omega

theorem guards_word : Guards outgrowsWord largestWord := by
  constructor
  intro value c digit
  have few := digitValue_le digit
  have top : largestWord.toNat = 18446744073709551615 := rfl
  have tenth : (largestWord / 10).toNat = 1844674407370955161 := rfl
  simp only [outgrowsWord, Bool.or_eq_true, Bool.and_eq_true, decide_eq_true_eq, beq_iff_eq,
    lastDigit_lt, UInt64.lt_iff_toNat_lt, ← UInt64.toNat_inj]
  omega

/-! ## The loop -/

/--
Every product and every sum that the loop makes is the true one.  A digit behind
more than a tenth of the limit is turned away before anything is multiplied.
-/
def ComputesExactly (limit : UInt64) (outgrows : UInt64 → UInt8 → Bool) (value : UInt64) :
    Bytes → Prop
  | [] => True
  | c :: rest =>
      limit / 10 < value ∨
        (value * 10).toNat = value.toNat * 10 ∧
          (outgrows value c = true ∨
            (value * 10 + digit64 c).toNat = (value * 10).toNat + (digit64 c).toNat ∧
              ComputesExactly limit outgrows (value * 10 + digit64 c) rest)

/-- A digit that is let through leads to the true sum, within the limit. -/
theorem Guards.toNat_step (guards : Guards outgrows limit) (digit : isDigit c = true)
    (fits : ¬ outgrows value c = true) :
    (value * 10).toNat = value.toNat * 10 ∧
      (value * 10 + digit64 c).toNat = 10 * value.toNat + digitValue c ∧
      10 * value.toNat + digitValue c ≤ limit.toNat := by
  have inside := Nat.le_of_not_lt (mt (guards.iff value digit).mpr fits)
  have bound : limit.toNat < UInt64.size := limit.toNat_lt
  have small : value.toNat * 10 < UInt64.size := by omega
  have product := toNat_times_ten small
  refine ⟨product, ?_, inside⟩
  rw [UInt64.toNat_add, product, toNat_digit64 digit, Nat.mul_comm]
  exact Nat.mod_eq_of_lt (Nat.lt_of_le_of_lt inside bound)

theorem Guards.computesExactly (guards : Guards outgrows limit) (digits : AreDigits run) :
    ComputesExactly limit outgrows value run := by
  induction run generalizing value with
  | nil => trivial
  | cons c run ih =>
      obtain ⟨digit, others⟩ := List.forall_mem_cons.mp digits
      by_cases small : limit / 10 < value
      · exact .inl small
      · have product := toNat_times_ten (Nat.lt_of_le_of_lt (times_ten_le small) limit.toNat_lt)
        refine .inr ⟨product, ?_⟩
        by_cases fits : outgrows value c = true
        · exact .inl fits
        · obtain ⟨_, sum, _⟩ := guards.toNat_step digit fits
          refine .inr ⟨?_, ih others⟩
          rw [sum, product, toNat_digit64 digit, Nat.mul_comm]

/-- The loop gives the number, unless it is larger than the limit. -/
theorem Guards.readOn_eq (guards : Guards outgrows limit) (digits : AreDigits run)
    (inside : value.toNat ≤ limit.toNat) :
    (readOn outgrows value run).map UInt64.toNat =
      if Digits.valueFrom value.toNat run ≤ limit.toNat then
        some (Digits.valueFrom value.toNat run)
      else none := by
  induction run generalizing value with
  | nil => exact (if_pos inside).symm
  | cons c run ih =>
      obtain ⟨digit, others⟩ := List.forall_mem_cons.mp digits
      rw [readOn, Digits.valueFrom_cons]
      by_cases fits : outgrows value c = true
      · have larger := (guards.iff value digit).mp fits
        have more := Digits.le_valueFrom (10 * value.toNat + digitValue c) run
        rw [if_pos fits, if_neg (by omega)]
        rfl
      · obtain ⟨_, sum, inside'⟩ := guards.toNat_step digit fits
        rw [if_neg fits, ih others (by omega), sum]

theorem Guards.readOn_zero (guards : Guards outgrows limit) (digits : AreDigits run) :
    (readOn outgrows 0 run).map UInt64.toNat =
      if Digits.value run ≤ limit.toNat then some (Digits.value run) else none := by
  have start : (0 : UInt64).toNat ≤ limit.toNat := Nat.zero_le _
  have read := guards.readOn_eq digits start
  rwa [UInt64.toNat_zero, Digits.valueFrom_zero] at read

/-! ## Signs -/

/-- A number with a sign. -/
def signed (negative : Bool) (n : Nat) : Int := if negative then -n else n

/-- Whether there is an integer of a value. -/
def InRange (x : Int) : Prop := Int64.minValue.toInt ≤ x ∧ x ≤ Int64.maxValue.toInt

instance (x : Int) : Decidable (InRange x) := inferInstanceAs (Decidable (_ ∧ _))

theorem inRange_iff {x : Int} :
    InRange x ↔ -9223372036854775808 ≤ x ∧ x ≤ 9223372036854775807 := Iff.rfl

theorem toInt_toInt64 (small : value.toNat ≤ largestInt.toNat) :
    value.toInt64.toInt = value.toNat := by
  have top : largestInt.toNat = 9223372036854775807 := rfl
  change value.toBitVec.toInt = _
  apply BitVec.toInt_eq_toNat_of_lt
  change 2 * value.toNat < 2 ^ 64
  omega

theorem toInt_negated (small : value.toNat ≤ largestMagnitude.toNat) :
    (0 - value).toInt64.toInt = -(value.toNat : Int) := by
  have top : largestMagnitude.toNat = 9223372036854775808 := rfl
  have difference : (0 - value).toNat = (2 ^ 64 - value.toNat) % 2 ^ 64 := by
    rw [UInt64.toNat_sub]
    rfl
  change (0 - value).toBitVec.toInt = _
  rw [BitVec.toInt_eq_toNat_bmod]
  change Int.bmod (0 - value).toNat (2 ^ 64) = _
  rw [difference, Int.bmod_def]
  omega

theorem ofMagnitude?_eq (negative : Bool) (small : value.toNat ≤ largestMagnitude.toNat) :
    (ofMagnitude? negative value).map Int64.toInt =
      if InRange (signed negative value.toNat) then some (signed negative value.toNat)
      else none := by
  have most : largestMagnitude.toNat = 9223372036854775808 := rfl
  have top : largestInt.toNat = 9223372036854775807 := rfl
  cases negative with
  | true =>
      have inside : InRange (signed true value.toNat) := by
        rw [inRange_iff, signed, if_pos rfl]
        omega
      rw [if_pos inside]
      exact congrArg some (toInt_negated small)
  | false =>
      have plain : signed false value.toNat = value.toNat := if_neg Bool.false_ne_true
      rw [plain]
      by_cases large : largestInt < value
      · have outside : ¬ InRange value.toNat := by
          rw [UInt64.lt_iff_toNat_lt] at large
          rw [inRange_iff]
          omega
        rw [if_neg outside, ofMagnitude?, if_pos (by simpa using large)]
        rfl
      · have fits := Nat.le_of_not_lt (mt UInt64.lt_iff_toNat_lt.mpr large)
        have inside : InRange value.toNat := by
          rw [inRange_iff]
          omega
        rw [if_pos inside, ofMagnitude?, if_neg (by simpa using large)]
        exact congrArg some (toInt_toInt64 fits)

/-- Digits with a sign stand for an integer, or for a number out of range. -/
theorem integer_eq (negative : Bool) (digits : AreDigits run) :
    ((readOn outgrowsMagnitude 0 run).bind (ofMagnitude? negative)).map Int64.toInt =
      if InRange (signed negative (Digits.value run)) then
        some (signed negative (Digits.value run))
      else none := by
  have most : largestMagnitude.toNat = 9223372036854775808 := rfl
  have read := guards_magnitude.readOn_zero digits
  by_cases small : Digits.value run ≤ largestMagnitude.toNat
  · rw [if_pos small] at read
    obtain ⟨value, number, same⟩ := Option.map_eq_some_iff.mp read
    rw [← same] at small ⊢
    rw [number]
    exact ofMagnitude?_eq negative small
  · rw [if_neg small, Option.map_eq_none_iff] at read
    have outside : ¬ InRange (signed negative (Digits.value run)) := by
      rw [inRange_iff, signed]
      split <;> omega
    rw [if_neg outside, read]
    rfl

/-! ## The longest text of a form -/

/-- A number without a sign. -/
def IsUnsigned (s : Bytes) : Prop := s ≠ [] ∧ AreDigits s

/-- A number that may have a sign. -/
inductive IsSigned : Bytes → Prop
  | plain {s : Bytes} (unsigned : IsUnsigned s) : IsSigned s
  | signed {c : UInt8} {s : Bytes} (sign : isSign c = true) (unsigned : IsUnsigned s) :
      IsSigned (c :: s)

/-- The value of a number that may have a sign. -/
def signedValue : Bytes → Int
  | [] => 0
  | c :: ds => if isSign c then signed (c == minus) (Digits.value ds) else Digits.value (c :: ds)

theorem areDigits_digitRun (s : Bytes) : AreDigits (digitRun s) :=
  List.all_eq_true.mp List.all_takeWhile

theorem isLongest_digitRun (some : digitRun s ≠ []) : IsLongest IsUnsigned s (digitRun s) where
  front := List.takeWhile_prefix isDigit
  formed := ⟨some, areDigits_digitRun s⟩
  longest := by
    rintro u ⟨t, rfl⟩ ⟨_, digits⟩
    exact Scan.le_digits_append digits t

theorem not_isUnsigned (none : digitRun s = []) : ∀ t, t <+: s → ¬ IsUnsigned t := by
  rintro u ⟨t, rfl⟩ ⟨some, digits⟩
  have short : u.length ≤ (digitRun (u ++ t)).length := Scan.le_digits_append digits t
  rw [none] at short
  exact some (List.eq_nil_of_length_eq_zero (Nat.le_zero.mp short))

/-- A text is cut behind its sign, if it has one. -/
inductive Splits : Bytes → Bytes → Bool → Bytes → Prop
  | sign {c : UInt8} {s : Bytes} (sign : isSign c = true) : Splits (c :: s) [c] (c == minus) s
  | plain {s : Bytes} (plain : isSign (Scan.byte s 0) = false) : Splits s [] false s

theorem exists_splits (s : Bytes) :
    ∃ m negative rest, Splits s m negative rest ∧ splitSign s = (m.length, negative, rest) := by
  cases s with
  | nil => exact ⟨[], false, [], .plain rfl, rfl⟩
  | cons c s =>
      by_cases sign : isSign c = true
      · exact ⟨[c], c == minus, s, .sign sign, if_pos sign⟩
      · have plain := Bool.eq_false_iff.mpr sign
        exact ⟨[], false, c :: s, .plain plain, if_neg sign⟩

namespace Splits

variable {m rest : Bytes} {negative : Bool}

/-- Behind the sign digits go on to a number that may have a sign. -/
theorem extend (h : Splits s m negative rest) (front : t <+: rest) (unsigned : IsUnsigned t) :
    m ++ t <+: s ∧ IsSigned (m ++ t) ∧
      signedValue (m ++ t) = signed negative (Digits.value t) := by
  cases h with
  | sign sign =>
      exact ⟨List.cons_prefix_cons.mpr ⟨rfl, front⟩, .signed sign unsigned, if_pos sign⟩
  | plain =>
      obtain ⟨some, digits⟩ := unsigned
      obtain ⟨c, ds, rfl⟩ := List.exists_cons_of_ne_nil some
      have plain := Scan.not_isSign_of_isDigit (digits c List.mem_cons_self)
      exact ⟨front, .plain ⟨some, digits⟩, if_neg (Bool.eq_false_iff.mp plain)⟩

/-- There are no other numbers in front of the text. -/
theorem exists_rest (h : Splits s m negative rest) (front : t <+: s) (isSigned : IsSigned t) :
    ∃ u, t = m ++ u ∧ u <+: rest ∧ IsUnsigned u := by
  cases h with
  | @sign c s sign =>
      cases isSigned with
      | plain unsigned =>
          obtain ⟨some, digits⟩ := unsigned
          obtain ⟨d, ds, rfl⟩ := List.exists_cons_of_ne_nil some
          obtain ⟨rfl, _⟩ := List.cons_prefix_cons.mp front
          have other := Scan.not_isSign_of_isDigit (digits d List.mem_cons_self)
          exact absurd (other.symm.trans sign) nofun
      | @signed d u _ unsigned =>
          obtain ⟨rfl, behind⟩ := List.cons_prefix_cons.mp front
          exact ⟨u, rfl, behind, unsigned⟩
  | plain plain =>
      cases isSigned with
      | plain unsigned => exact ⟨t, rfl, front, unsigned⟩
      | @signed d u sign unsigned =>
          obtain ⟨behind, rfl⟩ := front
          exact absurd (plain.symm.trans sign) nofun

theorem isLongest (h : Splits s m negative rest) (longest : IsLongest IsUnsigned rest t) :
    IsLongest IsSigned s (m ++ t) where
  front := (h.extend longest.front longest.formed).1
  formed := (h.extend longest.front longest.formed).2.1
  longest := by
    intro u front isSigned
    obtain ⟨v, rfl, behind, unsigned⟩ := h.exists_rest front isSigned
    rw [List.length_append, List.length_append]
    exact Nat.add_le_add_left (longest.longest v behind unsigned) m.length

end Splits

/-! ## What is found -/

/-- What a caller is given: the length and the value that were found, or zeros. -/
def outcome (found : Option (Nat × Int)) : Nat × Int := found.getD (0, 0)

/--
The length and the value of the longest text of a form, if there is one and its
value is within bounds; or else zeros.
-/
inductive Finds (form : Bytes → Prop) (value : Bytes → Int) (least greatest : Int) (s : Bytes) :
    Nat × Int → Prop
  | inside {t : Bytes} (longest : IsLongest form s t)
      (inside : least ≤ value t ∧ value t ≤ greatest) :
      Finds form value least greatest s (t.length, value t)
  | outside {t : Bytes} (longest : IsLongest form s t)
      (outside : ¬ (least ≤ value t ∧ value t ≤ greatest)) :
      Finds form value least greatest s (0, 0)
  | nothing (none : ∀ t, t <+: s → ¬ form t) : Finds form value least greatest s (0, 0)

theorem finds_int (s : Bytes) :
    Finds IsSigned signedValue Int64.minValue.toInt Int64.maxValue.toInt s
      (outcome ((scanInt s).map fun found => (found.1, found.2.toInt))) := by
  obtain ⟨m, negative, rest, splits, split⟩ := exists_splits s
  have integer := integer_eq negative (areDigits_digitRun rest)
  simp only [scanInt, split, List.isEmpty_iff]
  by_cases none : digitRun rest = []
  · rw [if_pos none]
    apply Finds.nothing
    intro t front isSigned
    obtain ⟨u, _, behind, unsigned⟩ := splits.exists_rest front isSigned
    exact not_isUnsigned none u behind unsigned
  · have longest := isLongest_digitRun none
    have whole := splits.isLongest longest
    obtain ⟨_, _, value⟩ := splits.extend longest.front longest.formed
    rw [if_neg none]
    split at integer
    · next inside =>
        obtain ⟨i, found, same⟩ := Option.map_eq_some_iff.mp integer
        rw [← value] at inside same
        rw [found, Option.map_some, Option.map_some, same, ← List.length_append]
        exact .inside whole inside
    · next outside =>
        rw [Option.map_eq_none_iff] at integer
        rw [← value] at outside
        rw [integer]
        exact .outside whole outside

theorem finds_word (s : Bytes) :
    Finds IsUnsigned (fun t => Digits.value t) 0 largestWord.toNat s
      (outcome ((scanUInt s).map fun found => (found.1, (found.2.toNat : Int)))) := by
  have read := guards_word.readOn_zero (areDigits_digitRun s)
  simp only [scanUInt, List.isEmpty_iff]
  by_cases none : digitRun s = []
  · rw [if_pos none]
    exact .nothing (not_isUnsigned none)
  · have longest := isLongest_digitRun none
    rw [if_neg none]
    split at read
    · next inside =>
        obtain ⟨value, found, same⟩ := Option.map_eq_some_iff.mp read
        rw [found, Option.map_some, Option.map_some, same]
        exact .inside longest ⟨Int.natCast_nonneg _, Int.ofNat_le.mpr inside⟩
    · next outside =>
        rw [Option.map_eq_none_iff] at read
        rw [read]
        exact .outside longest fun inside => outside (Int.ofNat_le.mp inside.2)

/--
The scanners give the length and the value of the longest integer in front of a
text, with a sign or without one, if the value is in the range of the type; or
else zeros.  Whatever the digits are, no product or sum wraps on the way.
-/
theorem scanners_exact (s : Bytes) :
    Finds IsSigned signedValue Int64.minValue.toInt Int64.maxValue.toInt s
        (outcome ((scanInt s).map fun found => (found.1, found.2.toInt))) ∧
      Finds IsUnsigned (fun t => Digits.value t) 0 largestWord.toNat s
        (outcome ((scanUInt s).map fun found => (found.1, (found.2.toNat : Int)))) ∧
      ComputesExactly largestMagnitude outgrowsMagnitude 0 (digitRun (splitSign s).2.2) ∧
      ComputesExactly largestWord outgrowsWord 0 (digitRun s) :=
  ⟨finds_int s, finds_word s, guards_magnitude.computesExactly (areDigits_digitRun _),
    guards_word.computesExactly (areDigits_digitRun s)⟩

/-- The least integer, whose magnitude no positive integer has, with zeros in front. -/
example : scanInt (Bytes.ofString "-009223372036854775808.") = some (22, Int64.minValue) ∧
    scanInt (Bytes.ofString "9223372036854775808") = none := by decide +kernel

end Numeral

end JsonEvents
