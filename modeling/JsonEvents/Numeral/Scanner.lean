import JsonEvents.Numeral.Decimal

/-!
# Scanners for floating-point numbers

`scanDecimal` reads a JSON number without an exponent, `scanFloat` any number
with optional fraction and exponent.  Both take the longest text that has the
form, and find nothing where its value is too large.
-/

namespace JsonEvents.Numeral

open Ascii

/-- The digits behind a point in front of a text; none if the point is not followed by one. -/
def fractionRun (s : Bytes) : Bytes :=
  match s with
  | [] => []
  | c :: rest => if c = point then digitRun rest else []

/-- The length of a fraction with its point. -/
def fractionSize (run : Bytes) : Nat := if run.isEmpty then 0 else run.length + 1

/-- The length and value of an exponent in front of a text; an incomplete one does not count. -/
def exponentOf (s : Bytes) : Nat × Int :=
  match s with
  | [] => (0, 0)
  | c :: rest =>
      if isExponentMark c then
        let (sign, negative, rest) := splitSign rest
        let run := digitRun rest
        if run.isEmpty then (0, 0)
        else
          let value : Int := Digits.value run
          (1 + sign + run.length, if negative then -value else value)
      else (0, 0)

/-- The length of a number and its value in binary, unless that is too large. -/
def rounded (size : Nat) (negative : Bool) (d : Decimal) : Option (Nat × Binary64) :=
  let magnitude := d.nearest
  if magnitude < Binary64.infinity then some (size, .ofMagnitude negative magnitude) else none

/-- The digits before the point of a JSON number: a zero, or digits that begin with another. -/
def wholeRun (s : Bytes) : Bytes :=
  match s with
  | [] => []
  | c :: _ => if c = zero then [zero] else digitRun s

def scanDecimal (s : Bytes) : Option (Nat × Binary64) :=
  let negative := s.head? == some minus
  let sign := if negative then 1 else 0
  let rest := s.drop sign
  let whole := wholeRun rest
  if whole.isEmpty then none
  else
    let fraction := fractionRun (rest.drop whole.length)
    rounded (sign + whole.length + fractionSize fraction) negative
      ⟨Digits.value (whole ++ fraction), -fraction.length⟩

def scanFloat (s : Bytes) : Option (Nat × Binary64) :=
  let (sign, negative, rest) := splitSign s
  let whole := digitRun rest
  if whole.isEmpty then none
  else
    let fraction := fractionRun (rest.drop whole.length)
    let size := whole.length + fractionSize fraction
    let (more, exponent) := exponentOf (rest.drop size)
    rounded (sign + size + more) negative
      ⟨Digits.value (whole ++ fraction), exponent - fraction.length⟩

end JsonEvents.Numeral
