import JsonEvents.Digits

/-!
# 64-bit integers

`scanInt` and `scanUInt` read the longest run of digits in front of a text,
`scanInt` with an optional sign, and give its length and value.  They find
nothing where the value does not fit.  `appendInt` writes an integer.
-/

namespace JsonEvents.Numeral

open Ascii

def digit64 (c : UInt8) : UInt64 := (digitValue c).toUInt64

/-- The largest magnitude of an integer, which only a negative one can have. -/
def largestMagnitude : UInt64 := 9223372036854775808

/-- The largest integer, as a magnitude. -/
def largestInt : UInt64 := 9223372036854775807

def largestWord : UInt64 := 18446744073709551615

/-- The last digit of the largest word. -/
def lastDigit : UInt8 := zero + (largestWord % 10).toUInt8

/-- Whether a magnitude that goes on with a digit is larger than any integer's. -/
def outgrowsMagnitude (value : UInt64) (c : UInt8) : Bool :=
  largestMagnitude / 10 < value || largestMagnitude - digit64 c < value * 10

/-- Whether a number that goes on with a digit is larger than any word; the last digit tells at the
edge. -/
def outgrowsWord (value : UInt64) (c : UInt8) : Bool :=
  largestWord / 10 < value || (value == largestWord / 10 && lastDigit < c)

/--
The number that digits append to another one, if it never outgrows its type.  A
digit is turned away before anything is multiplied or added, so nothing wraps.
-/
def readOn (outgrows : UInt64 → UInt8 → Bool) (value : UInt64) : Bytes → Option UInt64
  | [] => some value
  | c :: rest =>
      if outgrows value c then none else readOn outgrows (value * 10 + digit64 c) rest

/-- The digits in front of a text. -/
def digitRun (s : Bytes) : Bytes := s.takeWhile isDigit

def scanUInt (s : Bytes) : Option (Nat × UInt64) :=
  let run := digitRun s
  if run.isEmpty then none
  else (readOn outgrowsWord 0 run).map fun value => (run.length, value)

/-- The sign in front of a text, whether it is a minus, and what follows. -/
def splitSign (s : Bytes) : Nat × Bool × Bytes :=
  match s with
  | [] => (0, false, [])
  | c :: rest => if isSign c then (1, c == minus, rest) else (0, false, s)

/-- The integer of a magnitude and a sign, if there is one. -/
def ofMagnitude? (negative : Bool) (value : UInt64) : Option Int64 :=
  if !negative && largestInt < value then none
  else some (if negative then 0 - value else value).toInt64

def scanInt (s : Bytes) : Option (Nat × Int64) :=
  let (sign, negative, rest) := splitSign s
  let run := digitRun rest
  if run.isEmpty then none
  else
    ((readOn outgrowsMagnitude 0 run).bind (ofMagnitude? negative)).map fun value =>
      (sign + run.length, value)

/-- The length of what `appendInt` writes. -/
def lenInt (i : Int64) : Nat := Digits.digitCount i.toInt.natAbs + if i < 0 then 1 else 0

def appendInt (out : Bytes) (i : Int64) : Bytes := out ++ Digits.ofInt i.toInt

end JsonEvents.Numeral
