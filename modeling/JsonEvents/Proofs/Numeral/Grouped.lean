import JsonEvents.Numeral.Grouped
import JsonEvents.Proofs.Numeral.Integer

/-!
# Grouped numbers are read exactly

Of all texts in front of a text that are written like a grouped number the
longest one is taken, with the integer of all its digits and the count of those
behind the mark.  Where that integer is out of range, reading ends in front of
the first digit that leaves the range, with the nearest bound
(`scanGrouped_exact`).  A loop that checks each of its operations never fails,
so none of them overflows.
-/

namespace JsonEvents.Numeral

open Ascii Grammar

/-! ## Texts -/

/-- Whether a byte is the decimal mark; a digit never is. -/
def isMark (separators : Separators) (c : UInt8) : Bool :=
  !isDigit c && isSeparator c separators.decimal

/-- Whether a byte separates groups; one that is also the decimal mark does not. -/
def isGap (separators : Separators) (c : UInt8) : Bool :=
  !isDigit c && !isSeparator c separators.decimal && isSeparator c separators.group

/-- A grouped number behind its sign: digits and separators, and after a mark only digits. -/
inductive IsBody (separators : Separators) : Bytes → Prop
  | none : IsBody separators []
  | whole {c : UInt8} {s : Bytes} (part : isDigit c = true ∨ isGap separators c = true)
      (rest : IsBody separators s) : IsBody separators (c :: s)
  | mark {c : UInt8} {s : Bytes} (mark : isMark separators c = true) (places : AreDigits s) :
      IsBody separators (c :: s)

inductive IsGrouped (separators : Separators) : Bytes → Prop
  | parts {m s : Bytes} (sign : IsSign m) (body : IsBody separators s) :
      IsGrouped separators (m ++ s)

/-- A minus in front is a sign, whatever the separators are. -/
def hasMinus (s : Bytes) : Bool := s.head? == some minus

def behindSign (s : Bytes) : Bytes := if hasMinus s then s.tail else s

/-- The integer that all digits of a text form. -/
def groupedValue (s : Bytes) : Int := signed (hasMinus s) (Digits.value (s.filter isDigit))

/-- The count of digits behind the mark. -/
def placesOf (separators : Separators) (s : Bytes) : Nat :=
  (s.dropWhile fun c => !isMark separators c).countP isDigit

def groupedPlaces (separators : Separators) (s : Bytes) : Nat := placesOf separators (behindSign s)

variable {separators : Separators} {negative : Bool} {c : UInt8} {m s t u v : Bytes}

theorem not_isMark_of_isDigit (digit : isDigit c = true) : isMark separators c = false := by
  simp [isMark, digit]

theorem not_isMark_of_isGap (gap : isGap separators c = true) : isMark separators c = false := by
  simp only [isGap, Bool.and_eq_true, Bool.not_eq_true'] at gap
  simp [isMark, gap]

theorem not_isDigit_of_isMark (mark : isMark separators c = true) : isDigit c = false := by
  simp only [isMark, Bool.and_eq_true, Bool.not_eq_true'] at mark
  exact mark.1

theorem not_isDigit_of_isGap (gap : isGap separators c = true) : isDigit c = false := by
  simp only [isGap, Bool.and_eq_true, Bool.not_eq_true'] at gap
  exact gap.1.1

theorem hasMinus_iff : hasMinus s = true ↔ ∃ t, s = minus :: t := by
  cases s with
  | nil => simp [hasMinus]
  | cons c s => simp [hasMinus]

/-! ## What may follow -/

/-- What may follow in a body, before its mark or behind it. -/
def MayFollow (separators : Separators) (marked : Bool) (s : Bytes) : Prop :=
  if marked then AreDigits s else IsBody separators s

theorem mayFollow_nil (marked : Bool) : MayFollow separators marked [] := by
  cases marked with
  | true => exact List.forall_mem_nil _
  | false => exact .none

/-- Whether there is a mark, once a byte is read. -/
def goesOn (separators : Separators) (marked : Bool) (c : UInt8) : Option Bool :=
  if isDigit c then some marked
  else if marked then none
  else if isMark separators c then some true
  else if isGap separators c then some false
  else none

theorem mayFollow_cons {marked : Bool} :
    MayFollow separators marked (c :: s) ↔
      ∃ marked', goesOn separators marked c = some marked' ∧ MayFollow separators marked' s := by
  cases marked with
  | true =>
      simp only [MayFollow, goesOn, if_true, AreDigits, List.forall_mem_cons]
      by_cases digit : isDigit c = true
      · simp [digit]
      · simp [digit]
  | false =>
      simp only [MayFollow, goesOn, Bool.false_eq_true, if_false]
      constructor
      · intro body
        cases body with
        | whole part rest =>
            rcases part with digit | gap
            · exact ⟨false, if_pos digit, rest⟩
            · have plain := Bool.eq_false_iff.mp (not_isDigit_of_isGap gap)
              have unmarked := Bool.eq_false_iff.mp (not_isMark_of_isGap gap)
              exact ⟨false, by rw [if_neg plain, if_neg unmarked, if_pos gap], rest⟩
        | mark mark places =>
            have plain := Bool.eq_false_iff.mp (not_isDigit_of_isMark mark)
            exact ⟨true, by rw [if_neg plain, if_pos mark], places⟩
      · rintro ⟨marked', next, rest⟩
        split at next
        · next digit =>
            obtain rfl := Option.some.inj next
            exact .whole (.inl digit) rest
        · split at next
          · next mark =>
              obtain rfl := Option.some.inj next
              exact .mark mark rest
          · split at next
            · next gap =>
                obtain rfl := Option.some.inj next
                exact .whole (.inr gap) rest
            · cases next

theorem isBody_of_digits (digits : AreDigits s) : IsBody separators s := by
  induction s with
  | nil => exact .none
  | cons c s ih =>
      obtain ⟨digit, others⟩ := List.forall_mem_cons.mp digits
      exact .whole (.inl digit) (ih others)

/-! The tests of a loop on a byte that is no digit. -/

theorem goesOn_of_decimal {marked : Bool} (plain : ¬ isDigit c = true)
    (mark : (!marked && isSeparator c separators.decimal) = true) :
    goesOn separators marked c = some true := by
  rw [Bool.and_eq_true, Bool.not_eq_true'] at mark
  simp [goesOn, isMark, plain, mark]

theorem goesOn_of_group {marked : Bool} (plain : ¬ isDigit c = true)
    (other : ¬ (!marked && isSeparator c separators.decimal) = true)
    (gap : (!marked && isSeparator c separators.group) = true) :
    goesOn separators marked c = some marked := by
  rw [Bool.and_eq_true, Bool.not_eq_true'] at gap
  obtain ⟨rfl, group⟩ := gap
  simp only [Bool.not_false, Bool.true_and] at other
  simp [goesOn, isMark, isGap, plain, other, group]

theorem goesOn_of_other {marked : Bool} (plain : ¬ isDigit c = true)
    (noMark : ¬ (!marked && isSeparator c separators.decimal) = true)
    (noGap : ¬ (!marked && isSeparator c separators.group) = true) :
    goesOn separators marked c = none := by
  cases marked with
  | true => simp [goesOn, plain]
  | false =>
      simp only [Bool.not_false, Bool.true_and] at noMark noGap
      simp [goesOn, isMark, isGap, plain, noMark, noGap]

/-- A byte that goes on stands in front of the longest text that follows it. -/
theorem isLongest_cons {marked marked' : Bool} (next : goesOn separators marked c = some marked')
    (longest : IsLongest (MayFollow separators marked') s v) :
    IsLongest (MayFollow separators marked) (c :: s) (c :: v) where
  front := List.cons_prefix_cons.mpr ⟨rfl, longest.front⟩
  formed := mayFollow_cons.mpr ⟨marked', next, longest.formed⟩
  longest := by
    intro u front follows
    cases u with
    | nil => exact Nat.zero_le _
    | cons d u =>
        obtain ⟨rfl, behind⟩ := List.cons_prefix_cons.mp front
        obtain ⟨_, same, follows⟩ := mayFollow_cons.mp follows
        obtain rfl := Option.some.inj (next.symm.trans same)
        exact Nat.succ_le_succ (longest.longest u behind follows)

/-- In front of a byte that does not go on nothing follows. -/
theorem isLongest_nil {marked : Bool} (stops : goesOn separators marked c = none) :
    IsLongest (MayFollow separators marked) (c :: s) [] where
  front := List.nil_prefix
  formed := mayFollow_nil marked
  longest := by
    intro u front follows
    cases u with
    | nil => exact Nat.le_refl 0
    | cons d u =>
        obtain ⟨rfl, _⟩ := List.cons_prefix_cons.mp front
        obtain ⟨_, next, _⟩ := mayFollow_cons.mp follows
        cases stops.symm.trans next

theorem isLongest_of_nil {marked : Bool} : IsLongest (MayFollow separators marked) [] [] where
  front := List.nil_prefix
  formed := mayFollow_nil marked
  longest := fun _ front _ => front.length_le

theorem exists_isLongest (separators : Separators) (marked : Bool) (s : Bytes) :
    ∃ v, IsLongest (MayFollow separators marked) s v := by
  induction s generalizing marked with
  | nil => exact ⟨[], isLongest_of_nil⟩
  | cons c s ih =>
      cases next : goesOn separators marked c with
      | none => exact ⟨[], isLongest_nil next⟩
      | some marked' =>
          obtain ⟨v, longest⟩ := ih marked'
          exact ⟨c :: v, isLongest_cons next longest⟩

/-! ## Words of the loop -/

theorem toInt_digit (digit : isDigit c = true) :
    (Int64.ofNat (digitValue c)).toInt = digitValue c := by
  have few := digitValue_le digit
  exact Int64.toInt_ofNat_of_lt (by omega)

theorem inRange_toInt (i : Int64) : InRange i.toInt := by
  have least := i.le_toInt
  have greatest := i.toInt_lt
  rw [inRange_iff]
  omega

/-- A sum or product in range is the true one. -/
theorem bmod_of_inRange {x : Int} (inside : InRange x) : x.bmod Int64.size = x := by
  have size : (Int64.size : Int) = 18446744073709551616 := rfl
  rw [inRange_iff] at inside
  exact Int.bmod_eq_of_le_mul_two (by omega) (by omega)

/-! ## Guards -/

/-- The value of a loop that has read digits of a number. -/
def Stands (negative : Bool) (n : Nat) (value : Int64) : Prop := value.toInt = signed negative n

/-- The last value that a digit can follow: the bound without the digit, cut to tens. -/
def edge (negative : Bool) (c : UInt8) : Int64 :=
  if negative then (Int64.minValue + Int64.ofNat (digitValue c)) / 10
  else (Int64.maxValue - Int64.ofNat (digitValue c)) / 10

variable {n : Nat} {value : Int64}

theorem exceeds_eq (negative : Bool) (value : Int64) (c : UInt8) :
    exceeds negative value c = if negative then decide (value < edge negative c)
      else decide (edge negative c < value) := by
  cases negative <;> simp only [exceeds, edge, if_true, if_false, Bool.false_eq_true]

theorem toInt_ten : (10 : Int64).toInt = 10 := rfl

theorem toInt_least (digit : isDigit c = true) :
    (Int64.minValue + Int64.ofNat (digitValue c)).toInt = -(9223372036854775808 - digitValue c) := by
  have few := digitValue_le digit
  rw [Int64.toInt_add, toInt_digit digit, Int64.toInt_minValue, bmod_of_inRange]
  · omega
  · rw [inRange_iff]
    omega

theorem toInt_greatest (digit : isDigit c = true) :
    (Int64.maxValue - Int64.ofNat (digitValue c)).toInt = 9223372036854775807 - digitValue c := by
  have few := digitValue_le digit
  rw [Int64.toInt_sub, toInt_digit digit, Int64.toInt_maxValue, bmod_of_inRange]
  · omega
  · rw [inRange_iff]
    omega

/-- A negative bound is cut toward zero, as any other. -/
theorem toInt_edge (negative : Bool) (digit : isDigit c = true) :
    (edge negative c).toInt =
      if negative then -((9223372036854775808 - (digitValue c : Int)) / 10)
      else (9223372036854775807 - (digitValue c : Int)) / 10 := by
  have few := digitValue_le digit
  cases negative with
  | true =>
      simp only [edge, if_true]
      rw [Int64.toInt_div, toInt_least digit, toInt_ten, Int.neg_tdiv,
        Int.tdiv_eq_ediv_of_nonneg (by omega), bmod_of_inRange]
      rw [inRange_iff]
      omega
  | false =>
      simp only [edge, Bool.false_eq_true, if_false]
      rw [Int64.toInt_div, toInt_greatest digit, toInt_ten,
        Int.tdiv_eq_ediv_of_nonneg (by omega), bmod_of_inRange]
      rw [inRange_iff]
      omega

theorem Stands.inRange (stands : Stands negative n value) : InRange (signed negative n) :=
  stands ▸ inRange_toInt value

/-- A digit is turned away just when the number would leave the range. -/
theorem Stands.exceeds_iff (stands : Stands negative n value) (digit : isDigit c = true) :
    exceeds negative value c = true ↔ ¬ InRange (signed negative (10 * n + digitValue c)) := by
  have few := digitValue_le digit
  have last := toInt_edge negative digit
  rw [Stands] at stands
  rw [exceeds_eq, inRange_iff]
  cases negative with
  | true =>
      simp only [signed, if_true, decide_eq_true_eq, Int64.lt_iff_toInt_lt] at *
      omega
  | false =>
      simp only [signed, Bool.false_eq_true, if_false, decide_eq_true_eq,
        Int64.lt_iff_toInt_lt] at *
      omega

theorem toInt_signedDigit (negative : Bool) (digit : isDigit c = true) :
    (signedDigit negative c).toInt = signed negative (digitValue c) := by
  have few := digitValue_le digit
  have plain := toInt_digit digit
  cases negative with
  | true =>
      change (-Int64.ofNat (digitValue c)).toInt = -(digitValue c : Int)
      rw [Int64.toInt_neg, plain, bmod_of_inRange]
      rw [inRange_iff]
      omega
  | false => exact plain

theorem signed_push (negative : Bool) (n d : Nat) :
    signed negative n * 10 + signed negative d = signed negative (10 * n + d) := by
  cases negative <;> simp only [signed, if_true, if_false, Bool.false_eq_true] <;> omega

/-- The product that a digit in range leads to is the true one. -/
theorem Stands.toInt_times (stands : Stands negative n value)
    (inside : InRange (signed negative (10 * n + digitValue c))) :
    (value * 10).toInt = value.toInt * 10 := by
  rw [Int64.toInt_mul, toInt_ten, bmod_of_inRange]
  rw [inRange_iff] at inside ⊢
  rw [stands]
  cases negative <;> simp only [signed, if_true, if_false, Bool.false_eq_true] at * <;> omega

/-- The sum that a digit in range leads to is the true one. -/
theorem Stands.push (stands : Stands negative n value) (digit : isDigit c = true)
    (inside : InRange (signed negative (10 * n + digitValue c))) :
    Stands negative (10 * n + digitValue c) (value * 10 + signedDigit negative c) := by
  have times := stands.toInt_times inside
  rw [Stands] at *
  rw [Int64.toInt_add, times, stands, toInt_signedDigit negative digit, signed_push,
    bmod_of_inRange inside]

/-! ## The checked loop -/

/-- The integer of a value, if there is one. -/
def held? (x : Int) : Option Int64 := if InRange x then some (Int64.ofInt x) else none

def add? (i j : Int64) : Option Int64 := held? (i.toInt + j.toInt)

def sub? (i j : Int64) : Option Int64 := held? (i.toInt - j.toInt)

def mul? (i j : Int64) : Option Int64 := held? (i.toInt * j.toInt)

def div? (i j : Int64) : Option Int64 := held? (i.toInt.tdiv j.toInt)

def neg? (i : Int64) : Option Int64 := held? (-i.toInt)

theorem held?_toInt (i : Int64) : held? i.toInt = some i := by
  rw [held?, if_pos (inRange_toInt i), Int64.ofInt_toInt]

def exceeds? (negative : Bool) (value : Int64) (c : UInt8) : Option Bool :=
  let digit := Int64.ofNat (digitValue c)
  if negative then
    ((add? Int64.minValue digit).bind fun rest => div? rest 10).map fun edge => value < edge
  else
    ((sub? Int64.maxValue digit).bind fun rest => div? rest 10).map fun edge => edge < value

def signedDigit? (negative : Bool) (c : UInt8) : Option Int64 :=
  if negative then neg? (Int64.ofNat (digitValue c)) else some (Int64.ofNat (digitValue c))

def push? (negative : Bool) (value : Int64) (c : UInt8) : Option Int64 :=
  (mul? value 10).bind fun product =>
    (signedDigit? negative c).bind fun digit => add? product digit

theorem add?_least (digit : isDigit c = true) :
    add? Int64.minValue (Int64.ofNat (digitValue c)) =
      some (Int64.minValue + Int64.ofNat (digitValue c)) := by
  have least := toInt_least digit
  rw [← held?_toInt, add?, toInt_digit digit, Int64.toInt_minValue]
  exact congrArg held? (by omega)

theorem sub?_greatest (digit : isDigit c = true) :
    sub? Int64.maxValue (Int64.ofNat (digitValue c)) =
      some (Int64.maxValue - Int64.ofNat (digitValue c)) := by
  have greatest := toInt_greatest digit
  rw [← held?_toInt, sub?, toInt_digit digit, Int64.toInt_maxValue]
  exact congrArg held? (by omega)

theorem div?_least (digit : isDigit c = true) :
    div? (Int64.minValue + Int64.ofNat (digitValue c)) 10 = some (edge true c) := by
  have few := digitValue_le digit
  have last := toInt_edge true digit
  rw [if_pos rfl] at last
  rw [← held?_toInt, last, div?, toInt_least digit, toInt_ten, Int.neg_tdiv,
    Int.tdiv_eq_ediv_of_nonneg (by omega)]

theorem div?_greatest (digit : isDigit c = true) :
    div? (Int64.maxValue - Int64.ofNat (digitValue c)) 10 = some (edge false c) := by
  have few := digitValue_le digit
  have last := toInt_edge false digit
  rw [if_neg Bool.false_ne_true] at last
  rw [← held?_toInt, last, div?, toInt_greatest digit, toInt_ten,
    Int.tdiv_eq_ediv_of_nonneg (by omega)]

theorem exceeds?_eq (negative : Bool) (value : Int64) (digit : isDigit c = true) :
    exceeds? negative value c = some (exceeds negative value c) := by
  rw [exceeds_eq, exceeds?]
  cases negative with
  | true =>
      rw [if_pos rfl, if_pos rfl, add?_least digit, Option.bind_some, div?_least digit,
        Option.map_some]
  | false =>
      rw [if_neg Bool.false_ne_true, if_neg Bool.false_ne_true, sub?_greatest digit,
        Option.bind_some, div?_greatest digit, Option.map_some]

theorem Stands.push?_eq (stands : Stands negative n value) (digit : isDigit c = true)
    (inside : InRange (signed negative (10 * n + digitValue c))) :
    push? negative value c = some (value * 10 + signedDigit negative c) := by
  have times := stands.toInt_times inside
  have sum := stands.push digit inside
  have last := toInt_signedDigit negative digit
  have product : mul? value 10 = some (value * 10) := by
    rw [← held?_toInt, times]
    rfl
  have signedLast : signedDigit? negative c = some (signedDigit negative c) := by
    rw [← held?_toInt, last]
    cases negative with
    | true => exact congrArg (fun x : Int => held? (-x)) (toInt_digit digit)
    | false => rw [signed, if_neg Bool.false_ne_true, ← toInt_digit digit, held?_toInt]; rfl
  rw [push?, product, Option.bind_some, signedLast, Option.bind_some, add?, times, last, stands,
    signed_push, ← sum, held?_toInt]

/-- The loop with all its operations checked. -/
def Tally.feed? (separators : Separators) (negative : Bool) (t : Tally) : Bytes → Option Tally
  | [] => some t
  | c :: rest =>
      if isDigit c then
        (exceeds? negative t.value c).bind fun exceeded =>
          if exceeded then
            some { t with value := if negative then Int64.minValue else Int64.maxValue }
          else
            (push? negative t.value c).bind fun value =>
              Tally.feed? separators negative
                { t with
                  size := t.size + 1
                  value := value
                  places := if t.hasMark then t.places + 1 else t.places
                  hasDigits := true } rest
      else if !t.hasMark && isSeparator c separators.decimal then
        Tally.feed? separators negative { t with size := t.size + 1, hasMark := true } rest
      else if !t.hasMark && isSeparator c separators.group then
        Tally.feed? separators negative { t with size := t.size + 1 } rest
      else some t

/-- No operation fails: the numbers that the loop stands at are in range. -/
theorem Tally.feed?_eq {t : Tally} (stands : Stands negative n t.value) (s : Bytes) :
    t.feed? separators negative s = some (t.feed separators negative s) := by
  induction s generalizing t n with
  | nil => rfl
  | cons c s ih =>
      rw [Tally.feed?, Tally.feed]
      by_cases digit : isDigit c = true
      · rw [if_pos digit, if_pos digit, exceeds?_eq negative t.value digit, Option.bind_some]
        by_cases exceeded : exceeds negative t.value c = true
        · rw [if_pos exceeded, if_pos exceeded]
        · have inside := Decidable.not_not.mp (mt (stands.exceeds_iff digit).mpr exceeded)
          rw [if_neg exceeded, if_neg exceeded, stands.push?_eq digit inside, Option.bind_some]
          exact ih (stands.push digit inside)
      · rw [if_neg digit, if_neg digit]
        split
        · exact ih stands
        · split
          · exact ih stands
          · rfl

/-! ## What a loop makes of a text -/

/-- The count of digits that are places, behind the mark or from a mark on. -/
def placesFrom (separators : Separators) (marked : Bool) (s : Bytes) : Nat :=
  if marked then s.countP isDigit else placesOf separators s

theorem placesFrom_cons {marked marked' : Bool}
    (next : goesOn separators marked c = some marked') :
    placesFrom separators marked (c :: s) =
      (if isDigit c && marked then 1 else 0) + placesFrom separators marked' s := by
  unfold goesOn at next
  split at next
  · next digit =>
      obtain rfl := Option.some.inj next
      cases marked with
      | true => simp [placesFrom, digit, Nat.add_comm]
      | false => simp [placesFrom, placesOf, not_isMark_of_isDigit digit, digit]
  · next plain =>
      split at next
      · cases next
      · next unmarked =>
          rw [Bool.not_eq_true] at plain unmarked
          subst unmarked
          split at next
          · next mark =>
              obtain rfl := Option.some.inj next
              simp [placesFrom, placesOf, mark, plain]
          · next other =>
              split at next
              · obtain rfl := Option.some.inj next
                simp [placesFrom, placesOf, other, plain]
              · cases next

/-- The number that a byte makes of another one; only a digit changes it. -/
def withByte (n : Nat) (c : UInt8) : Nat := if isDigit c then 10 * n + digitValue c else n

/-- The number that the digits of a text append to another one. -/
def numberFrom (n : Nat) (s : Bytes) : Nat := Digits.valueFrom n (s.filter isDigit)

theorem numberFrom_cons (n : Nat) (c : UInt8) (s : Bytes) :
    numberFrom n (c :: s) = numberFrom (withByte n c) s := by
  unfold numberFrom withByte
  by_cases digit : isDigit c = true
  · rw [List.filter_cons_of_pos digit, if_pos digit, Digits.valueFrom_cons]
  · rw [List.filter_cons_of_neg digit, if_neg digit]

theorem numberFrom_append (n : Nat) (s t : Bytes) :
    numberFrom n (s ++ t) = numberFrom (numberFrom n s) t := by
  simp only [numberFrom, List.filter_append, Digits.valueFrom, List.foldl_append]

theorem numberFrom_zero (s : Bytes) : numberFrom 0 s = Digits.value (s.filter isDigit) := rfl

namespace Tally

/-- What a tally gains from a text, its value apart. -/
structure Counts (separators : Separators) (t : Tally) (s : Bytes) (r : Tally) : Prop where
  size : r.size = t.size + s.length
  places : r.places = t.places + placesFrom separators t.hasMark s
  hasDigits : r.hasDigits = (t.hasDigits || s.any isDigit)

/-- What a tally gains from one byte, its value apart. -/
structure Takes (separators : Separators) (t : Tally) (c : UInt8) (r : Tally) : Prop where
  next : goesOn separators t.hasMark c = some r.hasMark
  size : r.size = t.size + 1
  places : r.places = t.places + if isDigit c && t.hasMark then 1 else 0
  hasDigits : r.hasDigits = (t.hasDigits || isDigit c)

variable {t r r' : Tally}

theorem counts_nil (same : r.size = t.size ∧ r.places = t.places ∧ r.hasDigits = t.hasDigits) :
    t.Counts separators [] r where
  size := same.1
  places := by cases marked : t.hasMark <;> exact same.2.1
  hasDigits := same.2.2.trans (Bool.or_false _).symm

theorem Takes.counts (takes : t.Takes separators c r) (counts : r.Counts separators s r') :
    t.Counts separators (c :: s) r' where
  size := by
    rw [counts.size, takes.size, List.length_cons]
    omega
  places := by
    rw [counts.places, takes.places, placesFrom_cons takes.next, Nat.add_assoc]
  hasDigits := by
    rw [counts.hasDigits, takes.hasDigits, List.any_cons, Bool.or_assoc]

/--
What a loop at a number makes of a text.  It takes the longest text that may
follow, or stops with the nearest bound in front of a digit that leaves the range.
-/
inductive Ends (separators : Separators) (negative : Bool) (n : Nat) (t : Tally) (s : Bytes)
    (r : Tally) : Prop
  | whole {v : Bytes} (longest : IsLongest (MayFollow separators t.hasMark) s v)
      (counts : t.Counts separators v r) (stands : Stands negative (numberFrom n v) r.value)
  | clamped {v u : Bytes} {c : UInt8}
      (longest : IsLongest (MayFollow separators t.hasMark) s v) (front : u ++ [c] <+: v)
      (digit : isDigit c = true) (counts : t.Counts separators u r)
      (bound : r.value = if negative then Int64.minValue else Int64.maxValue)
      (fits : InRange (signed negative (numberFrom n u)))
      (leaves : ¬ InRange (signed negative (numberFrom n (u ++ [c]))))

theorem Takes.ends (takes : t.Takes separators c r)
    (ends : r.Ends separators negative (withByte n c) s r') :
    t.Ends separators negative n (c :: s) r' := by
  cases ends with
  | whole longest counts stands =>
      rw [← numberFrom_cons] at stands
      exact .whole (isLongest_cons takes.next longest) (takes.counts counts) stands
  | @clamped v u d longest front digit counts bound fits leaves =>
      rw [← numberFrom_cons] at fits leaves
      exact .clamped (isLongest_cons takes.next longest) (List.cons_prefix_cons.mpr ⟨rfl, front⟩)
        digit (takes.counts counts) bound fits leaves

theorem takes_digit (digit : isDigit c = true) (value : Int64) :
    t.Takes separators c
      { t with
        size := t.size + 1
        value := value
        places := if t.hasMark then t.places + 1 else t.places
        hasDigits := true } where
  next := if_pos digit
  size := rfl
  places := by cases marked : t.hasMark <;> simp [digit]
  hasDigits := by simp [digit]

theorem takes_mark (other : ¬ isDigit c = true)
    (mark : goesOn separators t.hasMark c = some true) :
    t.Takes separators c { t with size := t.size + 1, hasMark := true } :=
  ⟨mark, rfl, by simp [other], by simp [other]⟩

theorem takes_gap (other : ¬ isDigit c = true)
    (gap : goesOn separators t.hasMark c = some t.hasMark) :
    t.Takes separators c { t with size := t.size + 1 } :=
  ⟨gap, rfl, by simp [other], by simp [other]⟩

/-- A digit that would leave the range ends the number. -/
theorem ends_clamped (stands : Stands negative n t.value) (digit : isDigit c = true)
    (exceeded : exceeds negative t.value c = true) (s : Bytes) :
    t.Ends separators negative n (c :: s)
      { t with value := if negative then Int64.minValue else Int64.maxValue } := by
  have next : goesOn separators t.hasMark c = some t.hasMark := if_pos digit
  have leaves := (stands.exceeds_iff digit).mp exceeded
  obtain ⟨v, longest⟩ := exists_isLongest separators t.hasMark s
  have one : numberFrom n ([] ++ [c]) = 10 * n + digitValue c :=
    (numberFrom_cons n c []).trans (if_pos digit)
  rw [← one] at leaves
  exact .clamped (isLongest_cons next longest) (List.prefix_append [c] v) digit
    (counts_nil ⟨rfl, rfl, rfl⟩) rfl stands.inRange leaves

/-- The loop ends with the longest number in front of a text, or with the bound that it leaves. -/
theorem ends_feed (stands : Stands negative n t.value) (s : Bytes) :
    t.Ends separators negative n s (t.feed separators negative s) := by
  induction s generalizing t n with
  | nil => exact .whole isLongest_of_nil (counts_nil ⟨rfl, rfl, rfl⟩) stands
  | cons c s ih =>
      rw [feed]
      by_cases digit : isDigit c = true
      · rw [if_pos digit]
        by_cases exceeded : exceeds negative t.value c = true
        · rw [if_pos exceeded]
          exact ends_clamped stands digit exceeded s
        · have inside := Decidable.not_not.mp (mt (stands.exceeds_iff digit).mpr exceeded)
          have pushed := stands.push digit inside
          have number : withByte n c = 10 * n + digitValue c := if_pos digit
          rw [← number] at pushed
          rw [if_neg exceeded]
          exact (takes_digit digit _).ends (ih pushed)
      · have number : withByte n c = n := if_neg digit
        rw [if_neg digit]
        rw [← number] at stands
        split
        · next mark => exact (takes_mark digit (goesOn_of_decimal digit mark)).ends (ih stands)
        · next other =>
            split
            · next gap => exact (takes_gap digit (goesOn_of_group digit other gap)).ends (ih stands)
            · next last =>
                rw [number] at stands
                have stops := goesOn_of_other digit other last
                exact .whole (isLongest_nil stops) (counts_nil ⟨rfl, rfl, rfl⟩) stands

end Tally

/-! ## Signs -/

/-- The sign in front of a text. -/
def signOf (s : Bytes) : Bytes := if hasMinus s then [minus] else []

theorem isSign_signOf (s : Bytes) : IsSign (signOf s) := by
  unfold signOf
  split
  · exact .minus
  · exact .none

theorem signOf_append (s : Bytes) : signOf s ++ behindSign s = s := by
  unfold signOf behindSign
  split
  · next minus =>
      obtain ⟨t, rfl⟩ := hasMinus_iff.mp minus
      rfl
  · rfl

theorem hasMinus_of_front (front : t <+: s) (some : t ≠ []) : hasMinus t = hasMinus s := by
  obtain ⟨u, rfl⟩ := front
  obtain ⟨c, t, rfl⟩ := List.exists_cons_of_ne_nil some
  rfl

theorem behindSign_of_front (front : t <+: s) : behindSign t <+: behindSign s := by
  by_cases none : t = []
  · subst none
    exact List.nil_prefix
  · have same := hasMinus_of_front front none
    obtain ⟨u, rfl⟩ := front
    unfold behindSign
    rw [← same]
    split
    · rw [List.tail_append_of_ne_nil none]
      exact List.prefix_append _ u
    · exact List.prefix_append t u

/-- A minus that could be read as a separator is the sign nevertheless. -/
theorem IsGrouped.body (h : IsGrouped separators s) : IsBody separators (behindSign s) := by
  cases h with
  | @parts m u sign body =>
      cases sign with
      | minus => exact body
      | none =>
          rw [List.nil_append]
          unfold behindSign
          split
          · next minus =>
              obtain ⟨t, rfl⟩ := hasMinus_iff.mp minus
              cases body with
              | whole _ rest => exact rest
              | mark _ places => exact isBody_of_digits places
          · exact body

theorem groupedValue_eq (s : Bytes) :
    groupedValue s = signed (hasMinus s) (numberFrom 0 (behindSign s)) := by
  rw [groupedValue, numberFrom_zero]
  unfold behindSign
  split
  · next minus =>
      obtain ⟨t, rfl⟩ := hasMinus_iff.mp minus
      rfl
  · rfl

/-- A text behind the sign of another one. -/
structure IsBehind (s v t : Bytes) : Prop where
  front : t <+: s
  behind : behindSign t = v
  length : t.length = (signOf s).length + v.length
  value : groupedValue t = signed (hasMinus s) (numberFrom 0 v)
  digits : t.any isDigit = v.any isDigit

theorem isBehind_append (front : v <+: behindSign s) : IsBehind s v (signOf s ++ v) := by
  have whole : signOf s ++ v <+: s := by
    have grown := List.prefix_append_right_inj (signOf s) |>.mpr front
    rwa [signOf_append] at grown
  by_cases minus : hasMinus s = true
  · have sign : signOf s = [Ascii.minus] := if_pos minus
    rw [sign] at whole ⊢
    exact ⟨whole, rfl, sign ▸ List.length_append, by rw [minus]; rfl, rfl⟩
  · have sign : signOf s = [] := if_neg minus
    rw [sign, List.nil_append] at whole ⊢
    by_cases none : v = []
    · subst none
      refine ⟨whole, rfl, by rw [sign]; rfl, ?_, rfl⟩
      rw [Bool.not_eq_true] at minus
      rw [minus]
      rfl
    · have plain := hasMinus_of_front whole none
      refine ⟨whole, ?_, by rw [sign]; exact (Nat.zero_add _).symm, ?_, rfl⟩
      · rw [behindSign, plain, if_neg minus]
      · rw [groupedValue, plain, numberFrom_zero]

theorem eq_signOf_append (front : t <+: s) (some : t ≠ []) : t = signOf s ++ behindSign t := by
  have same := hasMinus_of_front front some
  have parts := signOf_append t
  rw [signOf, same] at parts
  exact parts.symm

theorem isLongest_grouped (longest : IsLongest (IsBody separators) (behindSign s) v) :
    IsLongest (IsGrouped separators) s (signOf s ++ v) where
  front := (isBehind_append longest.front).front
  formed := .parts (isSign_signOf s) longest.formed
  longest := by
    intro u front grouped
    by_cases none : u = []
    · rw [none]
      exact Nat.zero_le _
    · have less := longest.longest _ (behindSign_of_front front) grouped.body
      rw [eq_signOf_append front none, List.length_append, List.length_append]
      exact Nat.add_le_add_left less _

/-! ## What is found -/

theorem le_numberFrom (n : Nat) (s : Bytes) : n ≤ numberFrom n s := Digits.le_valueFrom n _

/-- The integers of fewer digits are in range where one of more digits is. -/
theorem inRange_of_le {m n : Nat} (less : m ≤ n) (inside : InRange (signed negative n)) :
    InRange (signed negative m) := by
  rw [inRange_iff] at *
  cases negative <;> simp only [signed, if_true, if_false, Bool.false_eq_true] at * <;> omega

theorem inRange_of_front (front : u <+: v) (inside : InRange (signed negative (numberFrom 0 v))) :
    InRange (signed negative (numberFrom 0 u)) := by
  obtain ⟨t, rfl⟩ := front
  rw [numberFrom_append] at inside
  exact inRange_of_le (le_numberFrom _ t) inside

/-- All texts in front of one in range are in range. -/
theorem IsBehind.inRange (behind : IsBehind s v t)
    (fits : InRange (signed (hasMinus s) (numberFrom 0 v))) (front : w <+: t) :
    InRange (groupedValue w) := by
  by_cases none : w = []
  · subst none
    decide
  · have least := behindSign_of_front front
    rw [behind.behind] at least
    rw [groupedValue_eq, hasMinus_of_front (front.trans behind.front) none]
    exact inRange_of_front least fits

/-- The integer nearest to one that is out of range. -/
def nearestBound (negative : Bool) : Int :=
  if negative then Int64.minValue.toInt else Int64.maxValue.toInt

/-- What a caller is given: the length, the integer and the places that were found, or zeros. -/
def groupedOutcome (found : Option (Nat × Grouped)) : Nat × Int × Nat :=
  (found.map fun number => (number.1, number.2.value.toInt, number.2.places)).getD (0, 0, 0)

/--
The length, the integer and the places of the longest grouped number in front of
a text, or zeros if it has no digit.  Where its integer is out of range, the
same of what stands in front of the first digit that leaves the range, with the
nearest bound.
-/
inductive FindsGrouped (separators : Separators) (s : Bytes) : Nat × Int × Nat → Prop
  | nothing {t : Bytes} (longest : IsLongest (IsGrouped separators) s t)
      (noDigit : t.any isDigit = false) : FindsGrouped separators s (0, 0, 0)
  | inside {t : Bytes} (longest : IsLongest (IsGrouped separators) s t)
      (digit : t.any isDigit = true) (inside : InRange (groupedValue t)) :
      FindsGrouped separators s (t.length, groupedValue t, groupedPlaces separators t)
  | outside {t u : Bytes} {c : UInt8} (longest : IsLongest (IsGrouped separators) s t)
      (outside : ¬ InRange (groupedValue t)) (front : u ++ [c] <+: t) (digit : isDigit c = true)
      (fits : ∀ v, v <+: u → InRange (groupedValue v))
      (leaves : ¬ InRange (groupedValue (u ++ [c]))) :
      FindsGrouped separators s
        (u.length, nearestBound (hasMinus s), groupedPlaces separators u)

theorem scanGrouped_eq (s : Bytes) (separators : Separators) :
    scanGrouped s separators =
      let t := Tally.feed separators (hasMinus s) { size := (signOf s).length } (behindSign s)
      if t.hasDigits then some (t.size, ⟨t.value, t.places⟩) else none := by
  have size : (signOf s).length = if hasMinus s then 1 else 0 := by
    unfold signOf
    split <;> rfl
  rw [size]
  rfl

theorem stands_zero (negative : Bool) : Stands negative 0 0 := by cases negative <;> rfl

theorem numberFrom_of_no_digit (n : Nat) (none : s.any isDigit = false) : numberFrom n s = n := by
  rw [numberFrom, List.filter_eq_nil_iff.mpr (List.any_eq_false.mp none)]
  rfl

theorem inRange_of_digit (negative : Bool) (digit : isDigit c = true) :
    InRange (signed negative (digitValue c)) := by
  have few := digitValue_le digit
  rw [inRange_iff]
  cases negative <;> simp only [signed, if_true, if_false, Bool.false_eq_true] <;> omega

/-- The first digit never leaves the range. -/
theorem any_isDigit_of_leaves (digit : isDigit c = true)
    (leaves : ¬ InRange (signed negative (numberFrom 0 (u ++ [c])))) : u.any isDigit = true := by
  cases some : u.any isDigit with
  | true => rfl
  | false =>
      have single : withByte 0 c = digitValue c := (if_pos digit).trans (Nat.zero_add _)
      rw [numberFrom_append, numberFrom_of_no_digit 0 some, numberFrom_cons, single] at leaves
      exact absurd (inRange_of_digit negative digit) leaves

/-- A tally of a text behind the sign counts what the text with the sign has. -/
theorem Tally.Counts.found {r : Tally}
    (counts : ({ size := (signOf s).length } : Tally).Counts separators v r)
    (behind : IsBehind s v t) :
    r.size = t.length ∧ r.places = groupedPlaces separators t ∧ r.hasDigits = t.any isDigit := by
  refine ⟨counts.size.trans behind.length.symm, ?_, counts.hasDigits.trans behind.digits.symm⟩
  rw [groupedPlaces, behind.behind]
  exact counts.places.trans (Nat.zero_add _)

theorem groupedOutcome_some {n places : Nat} {i : Int64} {x : Int} (value : i.toInt = x) :
    groupedOutcome (some (n, ⟨i, places⟩)) = (n, x, places) := by
  rw [← value]
  rfl

theorem finds_grouped (s : Bytes) (separators : Separators) :
    FindsGrouped separators s (groupedOutcome (scanGrouped s separators)) := by
  have start : Stands (hasMinus s) 0 ({ size := (signOf s).length } : Tally).value := stands_zero _
  have ends : Tally.Ends separators _ _ _ _ _ := Tally.ends_feed start (behindSign s)
  rw [scanGrouped_eq]
  dsimp only
  generalize Tally.feed separators (hasMinus s) { size := (signOf s).length } (behindSign s) = r
    at ends
  cases ends with
  | @whole v longest counts stands =>
      have behind := isBehind_append longest.front
      have whole := isLongest_grouped longest
      obtain ⟨size, places, digits⟩ := counts.found behind
      cases some : (signOf s ++ v).any isDigit with
      | false =>
          rw [digits, some, if_neg Bool.false_ne_true]
          exact .nothing whole some
      | true =>
          have value := stands.trans behind.value.symm
          rw [digits, some, if_pos rfl, groupedOutcome_some value, size, places]
          exact .inside whole some (value ▸ inRange_toInt r.value)
  | @clamped v u c longest front digit counts bound fits leaves =>
      have inside := (List.prefix_append u [c]).trans front
      have behind := isBehind_append (inside.trans longest.front)
      have behindLast := isBehind_append (front.trans longest.front)
      have whole := isLongest_grouped longest
      obtain ⟨size, places, digits⟩ := counts.found behind
      have some : (signOf s ++ u).any isDigit = true :=
        behind.digits.trans (any_isDigit_of_leaves digit leaves)
      have value : r.value.toInt = nearestBound (hasMinus s) := by
        rw [bound]
        cases hasMinus s <;> rfl
      rw [digits, some, if_pos rfl, groupedOutcome_some value, size, places]
      refine .outside whole ?_ ?_ digit (fun _ => behind.inRange fits) ?_
      · rw [(isBehind_append longest.front).value]
        exact mt (inRange_of_front front) leaves
      · rw [List.append_assoc]
        exact (List.prefix_append_right_inj _).mpr front
      · rw [List.append_assoc, behindLast.value]
        exact leaves

/-! ## The scanner -/

/-- The scanner with all operations of its loop checked. -/
def scanGrouped? (s : Bytes) (separators : Separators) : Option (Option (Nat × Grouped)) :=
  (Tally.feed? separators (hasMinus s) { size := (signOf s).length } (behindSign s)).map fun t =>
    if t.hasDigits then some (t.size, ⟨t.value, t.places⟩) else none

theorem scanGrouped?_eq (s : Bytes) (separators : Separators) :
    scanGrouped? s separators = some (scanGrouped s separators) := by
  have start : Stands (hasMinus s) 0 ({ size := (signOf s).length } : Tally).value := stands_zero _
  rw [scanGrouped?, Tally.feed?_eq start, scanGrouped_eq]
  rfl

theorem groupedPlaces_le (separators : Separators) (s : Bytes) :
    groupedPlaces separators s ≤ s.length := by
  have suffix := List.dropWhile_suffix (fun c => !isMark separators c) (l := behindSign s)
  have behind : (behindSign s).length ≤ s.length := by
    unfold behindSign
    split
    · exact s.tail_suffix.length_le
    · exact Nat.le_refl _
  exact Nat.le_trans List.countP_le_length (Nat.le_trans suffix.length_le behind)

theorem FindsGrouped.places_le {found : Nat × Int × Nat}
    (finds : FindsGrouped separators s found) : found.2.2 ≤ s.length := by
  cases finds with
  | nothing => exact Nat.zero_le _
  | inside longest =>
      exact Nat.le_trans (groupedPlaces_le separators _) longest.front.length_le
  | outside longest _ front =>
      have inside := ((List.prefix_append _ _).trans front).trans longest.front
      exact Nat.le_trans (groupedPlaces_le separators _) inside.length_le

/--
Whatever the separators are, the scanner finds the longest grouped number, or as
much of it as its integer has room for.  There are no more places than bytes, and
no operation on integers overflows.
-/
theorem scanGrouped_exact (s : Bytes) (separators : Separators) :
    FindsGrouped separators s (groupedOutcome (scanGrouped s separators)) ∧
      (groupedOutcome (scanGrouped s separators)).2.2 ≤ s.length ∧
      scanGrouped? s separators = some (scanGrouped s separators) :=
  ⟨finds_grouped s separators, (finds_grouped s separators).places_le,
    scanGrouped?_eq s separators⟩

/-- A digit too many behind the mark, and a minus that is a sign before it is a separator. -/
example : groupedOutcome (scanGrouped (Bytes.ofString "922.337.203.685.477.580,75") {}) =
      (25, 9223372036854775807, 1) ∧
    groupedOutcome (scanGrouped (Bytes.ofString "--1-2,3") ⟨45, 44⟩) = (7, -123, 1) := by
  decide +kernel

end JsonEvents.Numeral
