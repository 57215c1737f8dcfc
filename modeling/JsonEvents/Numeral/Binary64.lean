/-!
# Binary floating point of 64 bits

A finite number is a multiple of the smallest subnormal, 2^-1074.  `units` is
that multiple, a natural number, so that all arithmetic on finite numbers is
exact.  `nearest` finds the number nearest to a quotient of natural numbers.
-/

namespace JsonEvents.Numeral

def twoTo (n : Nat) : Nat := Nat.pow 2 n

def tenTo (n : Nat) : Nat := Nat.pow 10 n

/-- The quotient rounded to the nearest natural number, a tie to the even one. -/
def roundHalfEven (num den : Nat) : Nat :=
  let q := num / den
  let twice := 2 * (num % den)
  if den < twice ∨ (twice = den ∧ q % 2 = 1) then q + 1 else q

/-- The quotient rounded to the nearest natural number, a tie upward. -/
def roundHalfUp (num den : Nat) : Nat := (2 * num + den) / (2 * den)

structure Binary64 where
  bits : UInt64
  deriving DecidableEq

namespace Binary64

/-- One in units of the smallest subnormal. -/
def one : Nat := twoTo 1074

/-- The weight of the sign in an encoding. -/
def signWeight : Nat := 9223372036854775808

/-- The weight of the exponent in an encoding, and of the leading bit that is not stored. -/
def exponentWeight : Nat := 4503599627370496

/-- The encoding of infinity, above that of every finite magnitude. -/
def infinity : Nat := 2047 * exponentWeight

def isNegative (f : Binary64) : Bool := signWeight ≤ f.bits.toNat

/-- The encoding without the sign. -/
def magnitude (f : Binary64) : Nat := f.bits.toNat % signWeight

def isFinite (f : Binary64) : Bool := f.magnitude < infinity

def ofMagnitude (negative : Bool) (magnitude : Nat) : Binary64 :=
  ⟨(if negative then signWeight + magnitude else magnitude).toUInt64⟩

/-- The multiple of the smallest subnormal that an encoded magnitude is. -/
def unitsOf (magnitude : Nat) : Nat :=
  let e := magnitude / exponentWeight
  let m := magnitude % exponentWeight
  if e = 0 then m else (exponentWeight + m) * twoTo (e - 1)

def units (f : Binary64) : Nat := unitsOf f.magnitude

/--
The magnitude nearest to a quotient, a tie going to the even encoding.  From
half a unit above the largest finite number on it is `infinity` or more.
-/
def nearest (num den : Nat) : Nat :=
  let scaled := num * one
  let shift := (scaled / den).log2 - 52
  shift * exponentWeight + roundHalfEven scaled (den * twoTo shift)

end Binary64

/-- The number coefficient * 10^exponent. -/
structure Decimal where
  coefficient : Nat
  exponent : Int
  deriving DecidableEq

namespace Decimal

/-- The magnitude nearest to coefficient * 10^exponent, computed in full. -/
def nearestExact (d : Decimal) : Nat :=
  Binary64.nearest (d.coefficient * tenTo d.exponent.toNat) (tenTo (-d.exponent).toNat)

end Decimal

end JsonEvents.Numeral
