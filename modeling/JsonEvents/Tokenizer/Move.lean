import JsonEvents.Fault
import JsonEvents.Tokenizer.Recognizers

/-!
# What may come next

`Front.of` drops the white space and the comma in front of a token; `Move.of`
decides from the innermost context and the byte in front what the token is, or
which fault it is.
-/

namespace JsonEvents

open Ascii

/-- The place where a token begins, or the fault that the comma before it is. -/
structure Front where
  byte : UInt8
  window : Window
  needComma : Bool
  fault : Option Fault := none

namespace Front

/-- Whether a comma has nothing to separate: no list is open, or nothing came before it. -/
def isStray (policy : TrailingComma) (context : Context) (needComma : Bool) : Bool :=
  (context != .array && context != .objectKey) || (policy == .reject && !needComma)

/-- What is wrong with the byte behind a comma. -/
def faultBehind (policy : TrailingComma) (c : UInt8) : Option Fault :=
  if c = comma then some .strayComma
  else if policy = .reject ∧ (c = closeBracket ∨ c = closeBrace) then some .danglingComma
  else none

def of (policy : TrailingComma) (context : Context) (needComma : Bool) (w : Window) : Front :=
  let (c, w) := w.skipSpace.peek 0
  if c = comma then
    if isStray policy context needComma then
      { byte := c, window := w, needComma, fault := some .strayComma }
    else
      let (c, w) := (w.extend 1).skip.skipSpace.peek 0
      { byte := c, window := w, needComma := false, fault := faultBehind policy c }
  else
    { byte := c, window := w, needComma }

end Front

inductive Move
  | openObject
  | closeObject
  | openArray
  | closeArray
  | key
  | value
  | refuse (fault : Fault)
  deriving DecidableEq

namespace Move

def of (context : Context) (needComma : Bool) (c : UInt8) : Move :=
  if needComma ∧ c ≠ closeBrace ∧ c ≠ closeBracket ∧ c ≠ nul then .refuse .missingComma
  else if c = openBrace then .openObject
  else if c = closeBrace then
    if context = .objectKey then .closeObject else .refuse .strayBrace
  else if c = openBracket then .openArray
  else if c = closeBracket then
    if context = .array then .closeArray else .refuse .strayBracket
  else if context = .objectKey ∧ c ≠ nul then
    if c = quote then .key else .refuse .badKey
  else .value

end Move

/-- The byte in front of a bracket or a key is not NUL. -/
theorem ne_zero_of_move {context : Context} {needComma : Bool} {c : UInt8} {move : Move}
    (h : Move.of context needComma c = move) (hv : move ≠ .value) :
    c ≠ 0 := by
  rintro rfl
  have : Move.of context needComma 0 = .value := by
    cases context <;> cases needComma <;> rfl
  exact hv (h.symm.trans this)

end JsonEvents
