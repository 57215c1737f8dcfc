import JsonEvents.Proofs.Numeral.Grouping
import JsonEvents.Proofs.Numeral.Nearest
import Mathlib.Data.List.DropRight

/-!
# What digits stand for

The value of digits lies between the powers of ten that their number gives
(`Digits.value_lt`, `Digits.le_value`), and zeros behind them scale it
(`Digits.value_append_zeros`).  Without those zeros a number is no multiple of
ten (`Digits.exists_significand`).
-/

namespace JsonEvents

open Ascii Grammar Numeral

/-! ## Digits and their value -/

namespace Numeral

theorem lt_of_tenTo_lt {m n : Nat} (h : tenTo m < tenTo n) : m < n :=
  Nat.lt_of_not_le fun more => Nat.not_le.mpr h (tenTo_le more)

end Numeral

namespace Digits

variable {ds es : Bytes} {c : UInt8} {n k : Nat}

theorem value_eq_valueFrom (c : UInt8) (ds : Bytes) :
    value (c :: ds) = valueFrom (digitValue c) ds := by
  rw [← valueFrom_zero, valueFrom_cons, Nat.mul_zero, Nat.zero_add]

theorem valueFrom_eq (n : Nat) (ds : Bytes) : valueFrom n ds = n * tenTo ds.length + value ds := by
  induction ds generalizing n with
  | nil => exact (Nat.mul_one n).symm
  | cons c ds ih =>
      have more : tenTo (ds.length + 1) = tenTo ds.length * 10 := rfl
      rw [valueFrom_cons, ih, value_eq_valueFrom, ih (digitValue c), List.length_cons, more]
      ring

theorem value_cons (c : UInt8) (ds : Bytes) :
    value (c :: ds) = digitValue c * tenTo ds.length + value ds := by
  rw [value_eq_valueFrom, valueFrom_eq]

theorem value_append_digits (ds es : Bytes) :
    value (ds ++ es) = value ds * tenTo es.length + value es := by
  rw [← valueFrom_eq]
  exact List.foldl_append

theorem value_append_zeros (ds : Bytes) (n : Nat) :
    value (ds ++ List.replicate n zero) = value ds * tenTo n := by
  have none : value (List.replicate n zero) = 0 := by
    rw [← List.append_nil (List.replicate n zero), value_zeros_append]
    rfl
  rw [value_append_digits, none, List.length_replicate, Nat.add_zero]

theorem value_lt (all : AreDigits ds) : value ds < tenTo ds.length := by
  induction ds with
  | nil => exact Nat.one_pos
  | cons c ds ih =>
      obtain ⟨digit, others⟩ := List.forall_mem_cons.mp all
      have few := Nat.mul_le_mul_right (tenTo ds.length) (digitValue_le digit)
      have more : tenTo (ds.length + 1) = tenTo ds.length * 10 := rfl
      have rest := ih others
      rw [value_cons, List.length_cons, more]
      omega

theorem le_value (leading : one ≤ c) (ds : Bytes) : tenTo ds.length ≤ value (c :: ds) := by
  have first : 1 ≤ digitValue c := by
    have least : one.toNat = 49 := rfl
    rw [UInt8.le_iff_toNat_le, least] at leading
    unfold digitValue
    omega
  have weight := Nat.mul_le_mul_right (tenTo ds.length) first
  rw [value_cons]
  omega

theorem digitCount_eq (least : tenTo k ≤ n) (less : n < tenTo (k + 1)) : digitCount n = k + 1 := by
  obtain ⟨below, above, some⟩ := digitCount_bounds n
  have lower := lt_of_tenTo_lt (Nat.lt_of_le_of_lt least below)
  have present := Nat.lt_of_lt_of_le (tenTo_pos k) least
  have upper := lt_of_tenTo_lt (Nat.lt_of_le_of_lt (above present) less)
  omega

/-! ## Zeros at the end -/

/-- Digits without the zeros at their end. -/
def stripped (ds : Bytes) : Bytes := ds.rdropWhile (· == zero)

theorem exists_zeros (ds : Bytes) : ∃ n, ds = stripped ds ++ List.replicate n zero := by
  have zeros : ds.rtakeWhile (· == zero) =
      List.replicate (ds.rtakeWhile (· == zero)).length zero := by
    refine List.eq_replicate_iff.mpr ⟨rfl, fun c member => ?_⟩
    have last := List.mem_rtakeWhile_imp member
    exact eq_of_beq last
  refine ⟨(ds.rtakeWhile (· == zero)).length, ?_⟩
  rw [← zeros]
  exact List.rdropWhile_append_rtakeWhile.symm

theorem areDigits_stripped (all : AreDigits ds) : AreDigits (stripped ds) := fun c member =>
  all c ((List.rdropWhile_prefix _ ds).subset member)

theorem digitValue_pos {c : UInt8} (digit : isDigit c = true) (other : c ≠ zero) :
    0 < digitValue c := by
  have least : zero.toNat = 48 := rfl
  simp only [isDigit, Bool.and_eq_true, decide_eq_true_eq, UInt8.le_iff_toNat_le] at digit
  rw [ne_eq, ← UInt8.toNat_inj] at other
  unfold digitValue
  omega

/-- Digits that end with no zero are no multiple of ten. -/
theorem value_stripped_mod (all : AreDigits ds) (some : stripped ds ≠ []) :
    value (stripped ds) % 10 ≠ 0 := by
  have last : ¬ ((stripped ds).getLast some == zero) = true := List.rdropWhile_last_not _ ds some
  have digit := areDigits_stripped all _ (List.getLast_mem some)
  rw [← List.dropLast_append_getLast some, value_append]
  have few := digitValue_le digit
  have present := digitValue_pos digit fun same => last (beq_iff_eq.mpr same)
  omega

/-- A number is a power of ten times one that the digits in front of its last zeros stand for. -/
theorem exists_significand {n : Nat} (some : 0 < n) :
    ∃ s k, n = s * tenTo k ∧ s % 10 ≠ 0 ∧ tenTo ((stripped (digits n)).length - 1) ≤ s ∧
      s < tenTo (stripped (digits n)).length := by
  have all := areDigits_digits n
  have number := value_digits n
  obtain ⟨k, zeros⟩ := exists_zeros (digits n)
  obtain ⟨c, ds, text, leading, -⟩ := exists_leading some
  rw [zeros, value_append_zeros] at number
  have present : stripped (digits n) ≠ [] := by
    intro none
    have empty : value [] = 0 := rfl
    rw [none, empty] at number
    omega
  obtain ⟨b, front, kept⟩ := List.exists_cons_of_ne_nil present
  refine ⟨_, k, number.symm, value_stripped_mod all present, ?_, value_lt (areDigits_stripped all)⟩
  rw [kept, List.cons_append, text] at zeros
  obtain ⟨rfl, -⟩ := List.cons.inj zeros
  rw [kept]
  exact le_value leading.1 front

end Digits

end JsonEvents
