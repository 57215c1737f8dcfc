import JsonEvents.Bytes

/-!
# Decimal digits of a natural number

`digits` writes a number, `value` reads a run of digits, and `digitCount` is
the length of what `digits` writes.
-/

namespace JsonEvents.Digits

open Ascii

/-- The digit for a number below ten. -/
def digit (n : Nat) : UInt8 := zero + n.toUInt8

/-- The decimal digits of a number, the leading one first; zero has one digit. -/
def digits (n : Nat) : Bytes :=
  if n < 10 then [digit n] else digits (n / 10) ++ [digit (n % 10)]

def digitCount (n : Nat) : Nat :=
  if n < 10 then 1 else digitCount (n / 10) + 1

/-- The number that a run of digits stands for. -/
def value (ds : Bytes) : Nat := ds.foldl (fun n c => 10 * n + digitValue c) 0

theorem digits_length (n : Nat) : (digits n).length = digitCount n := by
  induction n using Nat.strongRecOn with
  | ind n ih =>
      unfold digits digitCount
      split
      · rfl
      · simp [ih (n / 10) (by omega)]

theorem toNat_digit {n : Nat} (h : n < 10) : (digit n).toNat = 48 + n := by
  simp [digit, zero, UInt8.toNat_add]
  omega

theorem digitValue_digit {n : Nat} (h : n < 10) : digitValue (digit n) = n := by
  simp [digitValue, toNat_digit h]

theorem value_append (ds : Bytes) (c : UInt8) :
    value (ds ++ [c]) = 10 * value ds + digitValue c := by
  simp [value]

theorem value_digits (n : Nat) : value (digits n) = n := by
  induction n using Nat.strongRecOn with
  | ind n ih =>
      unfold digits
      split
      · next h => simp [value, digitValue_digit h]
      · rw [value_append, ih (n / 10) (by omega), digitValue_digit (by omega)]
        omega

/-- An integer in decimal, with a minus sign when it is negative. -/
def ofInt (i : Int) : Bytes :=
  if i < 0 then minus :: digits i.natAbs else digits i.natAbs

/-- A number at the right of a field of the given width. -/
def padded (width n : Nat) : Bytes :=
  List.replicate (width - digitCount n) space ++ digits n

end JsonEvents.Digits
