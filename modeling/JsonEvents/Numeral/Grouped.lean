import JsonEvents.Numeral.Integer

/-!
# Grouped decimal numbers

A grouped number such as -1.000,25 is an integer and a count of places: here
-100025 with two places.  Grouping separators stand among the digits before the
decimal mark.
-/

namespace JsonEvents.Numeral

open Ascii

/-- Separators are given as byte values; a number that is no byte value matches nothing. -/
structure Separators where
  group : Int := 46
  decimal : Int := 44

/-- A number of the given value, whose last places come after the decimal mark. -/
structure Grouped where
  value : Int64
  places : Nat
  deriving DecidableEq

/-- What has been read of a grouped number. -/
structure Tally where
  size : Nat := 0
  value : Int64 := 0
  places : Nat := 0
  hasDigits : Bool := false
  hasMark : Bool := false

def isSeparator (c : UInt8) (separator : Int) : Bool := (c.toNat : Int) == separator

def signedDigit (negative : Bool) (c : UInt8) : Int64 :=
  if negative then -(Int64.ofNat (digitValue c)) else Int64.ofNat (digitValue c)

/-- Whether one more digit leaves the range of the value; division is toward zero. -/
def exceeds (negative : Bool) (value : Int64) (c : UInt8) : Bool :=
  if negative then value < (Int64.minValue + Int64.ofNat (digitValue c)) / 10
  else (Int64.maxValue - Int64.ofNat (digitValue c)) / 10 < value

/-- Read on, and stop with the nearest value in range in front of a digit that leaves the range. -/
def Tally.feed (separators : Separators) (negative : Bool) (t : Tally) : Bytes → Tally
  | [] => t
  | c :: rest =>
      if isDigit c then
        if exceeds negative t.value c then
          { t with value := if negative then Int64.minValue else Int64.maxValue }
        else
          Tally.feed separators negative
            { t with
              size := t.size + 1
              value := t.value * 10 + signedDigit negative c
              places := if t.hasMark then t.places + 1 else t.places
              hasDigits := true } rest
      else if !t.hasMark && isSeparator c separators.decimal then
        Tally.feed separators negative { t with size := t.size + 1, hasMark := true } rest
      else if !t.hasMark && isSeparator c separators.group then
        Tally.feed separators negative { t with size := t.size + 1 } rest
      else t

def scanGrouped (s : Bytes) (separators : Separators) : Option (Nat × Grouped) :=
  let negative := s.head? == some minus
  let t := Tally.feed separators negative { size := if negative then 1 else 0 }
    (if negative then s.tail else s)
  if t.hasDigits then some (t.size, ⟨t.value, t.places⟩) else none

/-- Put zeros in front of digits up to a width. -/
def widen (width : Nat) (ds : Bytes) : Bytes := List.replicate (width - ds.length) zero ++ ds

/-- Separate digits into groups of a size, counted from the last one; no groups for size zero. -/
def separate (separator : UInt8) (size : Nat) : Bytes → Bytes
  | [] => []
  | d :: rest =>
      if rest ≠ [] ∧ 0 < size ∧ rest.length % size = 0 then
        d :: separator :: separate separator size rest
      else
        d :: separate separator size rest

/-- The byte of a separator, of which the low eight bits count; a negative one stands for a default. -/
def separatorByte (default : UInt8) (separator : Int) : UInt8 :=
  if separator < 0 then default else separator.toNat.toUInt8

def appendGrouped (out : Bytes) (value : Int64) (places groupSize : Int)
    (separators : Separators) : Bytes :=
  let places := places.toNat
  let ds := widen (places + 1) (Digits.digits value.toInt.natAbs)
  let split := ds.length - places
  let sign := if value < 0 then [minus] else []
  let whole := separate (separatorByte point separators.group) groupSize.toNat (ds.take split)
  let fraction := if places = 0 then [] else
    separatorByte comma separators.decimal :: ds.drop split
  out ++ sign ++ whole ++ fraction

end JsonEvents.Numeral
