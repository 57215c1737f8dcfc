import JsonEvents.Bytes

/-!
# Drawing parameters from a text

Integers in a range are drawn from the end of a text, as many bytes for each as
the width of its range has; the front of the text stays for a document.
-/

namespace JsonEvents

/--
The integral types that are not larger than a word: truth values, and integers of
so many bytes without or with a sign.
-/
inductive IntegerType
  | truth
  | unsigned (size : Nat) (fits : size ≤ 8)
  | signed (size : Nat) (fits : size ≤ 8)

namespace IntegerType

def u8 : IntegerType := .unsigned 1 (by decide)
def i8 : IntegerType := .signed 1 (by decide)
def u16 : IntegerType := .unsigned 2 (by decide)
def i32 : IntegerType := .signed 4 (by decide)
def i64 : IntegerType := .signed 8 (by decide)
def u64 : IntegerType := .unsigned 8 (by decide)

/-- How many integers so many bytes can stand for. -/
def count (size : Nat) : Nat := Nat.pow 256 size

/-- What a word is converted to: all but zero are true, integers keep their low bytes. -/
def ofWord : IntegerType → UInt64 → Int
  | truth, word => if word = 0 then 0 else 1
  | unsigned size _, word => (word.toNat % count size : Nat)
  | signed size _, word => (word.toNat : Int).bmod (count size)

/-- The number of bytes of the type. -/
def size : IntegerType → Nat
  | truth => 1
  | unsigned size _ => size
  | signed size _ => size

end IntegerType

namespace Draw

/-- The word of an integer, negative ones in two's complement. -/
def toWord (n : Int) : UInt64 := UInt64.ofInt n

/--
Take bytes from the end while there are some, at most `more` of them, and the
width shifted by the bits taken so far is not zero.
-/
def gather (width : UInt64) (taken : Nat) (word : UInt64) (s : Bytes) : Nat → UInt64 × Bytes
  | 0 => (word, s)
  | more + 1 =>
      if width >>> taken.toUInt64 = 0 then (word, s)
      else
        match s.getLast? with
        | none => (word, s)
        | some c => gather width (taken + 8) (word <<< 8 ||| c.toUInt64) s.dropLast more

/-- A word brought into a range of the width; the size of the full range is no word. -/
def cut (width word : UInt64) : UInt64 :=
  if width = 18446744073709551615 then word else word % (width + 1)

/-- An integer of the type from `least` to `most`, and the text that is left. -/
def integer (t : IntegerType) (least most : Int) (s : Bytes) : Int × Bytes :=
  let width := toWord most - toWord least
  let (word, s) := gather width 0 0 s t.size
  (t.ofWord (toWord least + cut width word), s)

/-- All that is left. -/
def rest (s : Bytes) : Bytes × Bytes := (s, [])

end Draw

end JsonEvents
