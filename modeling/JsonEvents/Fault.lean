import JsonEvents.Event
import JsonEvents.Location
import JsonEvents.Log

/-!
# Faults of a document

A fault is what is wrong at a place of the input.  Its report gives the line
and column when the input is held from its first byte on, and the offset
otherwise.
-/

namespace JsonEvents

inductive Fault
  | strayComma
  | danglingComma
  | missingComma
  | strayBrace
  | strayBracket
  | badKey
  | missingColon
  | nulByte
  | strayByte
  deriving DecidableEq

namespace Fault

def reason : Fault → Reason
  | .strayComma => .badComma
  | .danglingComma => .badComma
  | .missingComma => .noComma
  | .strayBrace => .badObjectEnding
  | .strayBracket => .badArrayEnding
  | .badKey => .badObjectKey
  | .missingColon => .badObjectDeclaration
  | .nulByte => .unexpectedNul
  | .strayByte => .unexpectedCharacter

def text : Fault → String
  | .strayComma => "unexpected comma character"
  | .danglingComma => "unexpected comma character before closing bracket"
  | .missingComma => "expected comma character or an array or object ending"
  | .strayBrace => "unexpected right brace character"
  | .strayBracket => "unexpected right bracket character"
  | .badKey => "expected object key to be a quoted string"
  | .missingColon => "expected colon character after object key"
  | .nulByte => "unexpected NUL character"
  | .strayByte => "unexpected character"

/-- What is wrong at the end of the window's lexeme. -/
def message (fault : Fault) (w : Window) : Message :=
  let what := Bytes.ofString fault.text
  if w.base = 0 then
    { primary := (Location.ofBytes w.bytes.toList (w.cursor : Int)).2.report what }
  else
    { primary := what
      detail := Bytes.ofString "at byte offset " ++ Digits.digits w.cursor
      hint := Bytes.ofString "line numbers are unavailable once input has been discarded (" ++
        Digits.digits w.base ++ Bytes.ofString " bytes so far)" }

theorem reason_isSyntactic (fault : Fault) : fault.reason.isSyntactic = true := by
  cases fault <;> rfl

end Fault

end JsonEvents
