import JsonEvents.Numeral.Decimal
import JsonEvents.Numeral.Grouped

/-!
# Printers for floating-point numbers

`appendFloat` writes the shortest text that reads back, or a text with a given
count of places.  `appendDecimal` writes a decimal without an exponent as long
as it can.
-/

namespace JsonEvents.Numeral

open Ascii

/-- More digits come from the binary expansion and say nothing about the value. -/
def maxFigures : Nat := 17

/-- The figures that are written for a magnitude other than zero, unless it rounds to zero. -/
def figures? (magnitude : Nat) (precision : Int) : Option Figures :=
  let g? := if precision < 0 ∨ (maxFigures : Int) < precision then some (Figures.shortest magnitude)
    else Figures.fixed magnitude precision.toNat
  g?.map fun g =>
    let g := g.trim
    if maxFigures < g.digits.length then Figures.shortest magnitude else g

def signText (negative : Bool) : Bytes := if negative then [minus] else []

/-- The text of a finite number; there is none for the others. -/
def floatText? (f : Binary64) (precision : Int) : Option Bytes :=
  if f.isFinite then
    if f.magnitude = 0 then some [zero]
    else
      match figures? f.magnitude precision with
      | none => some [zero]
      | some g => some (signText f.isNegative ++ g.text)
  else none

/-- Whether something was written, and the text with it. -/
def appendFloat (out : Bytes) (f : Binary64) (precision : Int) : Bool × Bytes :=
  match floatText? f precision with
  | some text => (true, out ++ text)
  | none => (false, out)

/-- The places that a decimal may have. -/
def decimalPlaces (precision : Int) : Nat := min precision.toNat maxFigures

/-- From here on a scaled value is not written as an integer. -/
def scaledLimit : Nat := 9200000000000000000

/-- The magnitude of the product with 10^places, in binary, rounded to an integer; none if infinite. -/
def scaledMagnitude? (f : Binary64) (places : Nat) : Option Nat :=
  let product := Binary64.nearest (f.units * tenTo places) Binary64.one
  if product < Binary64.infinity then
    some (roundHalfUp (Binary64.unitsOf product) Binary64.one)
  else none

/-- The integer n * 10^-places without zeros at the end of its fraction. -/
def scaledText (negative : Bool) (n places : Nat) : Bytes :=
  if n = 0 then [zero]
  else
    let ds := widen (places + 1) (Digits.digits n)
    let split := ds.length - places
    let fraction := ((ds.drop split).reverse.dropWhile (· == zero)).reverse
    signText negative ++ ds.take split ++ if fraction.isEmpty then [] else point :: fraction

def appendDecimal (out : Bytes) (f : Binary64) (precision : Int) : Bytes :=
  if f.isFinite then
    let places := decimalPlaces precision
    match scaledMagnitude? f places with
    | some n =>
        if n < scaledLimit then out ++ scaledText f.isNegative n places
        else (appendFloat out f places).2
    | none => (appendFloat out f places).2
  else out

end JsonEvents.Numeral
