import JsonEvents.Numeral.Binary64
import JsonEvents.Numeral.Integer

/-!
# Decimals and the binary numbers near them

`Decimal.nearest` finds the binary number nearest to a decimal.  `scientific`
and `fixed` go the other way, to a given count of digits or of places.
-/

namespace JsonEvents.Numeral

namespace Decimal

/--
The magnitude nearest to a decimal.  A number of 400 digits before the point is
beyond every finite one, and one with 400 zeros behind the point is nearest to
zero, so their powers of ten are not computed.
-/
def nearest (d : Decimal) : Nat :=
  let places := d.exponent + Digits.digitCount d.coefficient
  if d.coefficient = 0 ∨ places < -400 then 0
  else if 400 < places then Binary64.infinity
  else d.nearestExact

end Decimal

/-- Significant digits and the decimal exponent of the first of them. -/
structure Figures where
  digits : Bytes
  exponent : Int
  deriving DecidableEq

namespace Figures

open Ascii

/-- The decimal that the figures stand for. -/
def toDecimal (g : Figures) : Decimal :=
  ⟨Digits.value g.digits, g.exponent - (g.digits.length - 1)⟩

/-- The figures without zeros at the end, of which the first one stays. -/
def trim (g : Figures) : Figures :=
  { g with digits := g.digits.head?.toList ++
      (g.digits.tail.reverse.dropWhile (· == zero)).reverse }

/-- The exponent of the first digit of so many units; a unit is a little below 5 * 10^-324. -/
def leadingExponent (units : Nat) : Int :=
  (Digits.digitCount (units * tenTo 324 / Binary64.one) : Int) - 325

/-- Rounded to one digit and so many more, an exact tie to the even side. -/
def scientific (units precision : Nat) : Figures :=
  let e := leadingExponent units
  let scale := (precision : Int) - e
  let n := roundHalfEven (units * tenTo scale.toNat) (Binary64.one * tenTo (-scale).toNat)
  -- Rounding up may carry into a new first digit.
  if n = tenTo (precision + 1) then ⟨Digits.digits (tenTo precision), e + 1⟩
  else ⟨Digits.digits n, e⟩

/-- The figures with the least precision, up to a limit, that read back as the same magnitude. -/
def shortestFrom (magnitude : Nat) (precision : Nat) : Nat → Figures
  | 0 => scientific (Binary64.unitsOf magnitude) precision
  | more + 1 =>
      let g := scientific (Binary64.unitsOf magnitude) precision
      if g.toDecimal.nearest = magnitude then g
      else shortestFrom magnitude (precision + 1) more

/-- The shortest figures that read back as the magnitude; 17 digits always do. -/
def shortest (magnitude : Nat) : Figures := shortestFrom magnitude 0 16

/-- Rounded to so many places behind the point, or nothing if that is zero. -/
def fixed (magnitude places : Nat) : Option Figures :=
  let n := roundHalfEven (Binary64.unitsOf magnitude * tenTo places) Binary64.one
  if n = 0 then none
  else
    let digits := Digits.digits n
    some ⟨digits, (digits.length : Int) - places - 1⟩

/-- Whether the figures are written with a plain decimal point. -/
def isPlain (g : Figures) : Bool := -4 ≤ g.exponent && g.exponent < 18

def plainText (g : Figures) : Bytes :=
  if g.exponent < 0 then
    [zero, point] ++ List.replicate (-g.exponent - 1).toNat zero ++ g.digits
  else
    let whole := (g.exponent + 1).toNat
    if g.digits.length ≤ whole then
      g.digits ++ List.replicate (whole - g.digits.length) zero
    else
      g.digits.take whole ++ [point] ++ g.digits.drop whole

def scientificText (g : Figures) : Bytes :=
  let fraction := if g.digits.length ≤ 1 then [] else point :: g.digits.drop 1
  g.digits.take 1 ++ fraction ++ [lowerE] ++ Digits.ofInt g.exponent

def text (g : Figures) : Bytes := if g.isPlain then g.plainText else g.scientificText

end Figures

end JsonEvents.Numeral
