import JsonEvents.Digits
import JsonEvents.Status.Basic

/-!
# Failures with a composed text

The text of a failure is put together from parts, one behind the other.
-/

namespace JsonEvents

inductive Part
  | bytes (data : Bytes)
  | number (n : Int)
  /-- Two texts in angle brackets, with a comma between them. -/
  | pair (first second : Bytes)

namespace Part

def text : Part → Bytes
  | .bytes data => data
  | .number n => Digits.ofInt n
  | .pair first second =>
      Bytes.ofString "<" ++ first ++ Bytes.ofString ", " ++ second ++ Bytes.ofString ">"

end Part

/-- The failure whose text the parts make up. -/
def Status.ofParts (category : Category) (reason : Reason) (parts : List Part) : Status :=
  .withText category reason (parts.flatMap Part.text)

end JsonEvents
