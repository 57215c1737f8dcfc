import JsonEvents.Bytes

/-!
# Statuses

A status is either fine or a failure.  A failure has a broad category, a
narrower reason, and sometimes a text of its own; without one it speaks with
the standard text of its reason, or else of its category.
-/

namespace JsonEvents

inductive Category
  | ok
  | invalidArgument
  | ioError
  | corruption
  | notFound
  | aborted
  deriving DecidableEq

inductive Reason
  | unspecified
  | endOfInput
  | bufferExceeded
  | badComma
  | noComma
  | badArrayEnding
  | badObjectEnding
  | badObjectKey
  | badObjectDeclaration
  | unexpectedNul
  | unexpectedCharacter
  deriving DecidableEq

namespace Category

def text : Category → String
  | .ok => "OK"
  | .invalidArgument => "invalid argument"
  | .ioError => "I/O error"
  | .corruption => "corruption"
  | .notFound => "not found"
  | .aborted => "aborted"

end Category

namespace Reason

/-- The reasons for which a document is refused. -/
def isSyntactic : Reason → Bool
  | .unspecified | .endOfInput | .bufferExceeded => false
  | _ => true

def text? : Reason → Option String
  | .unspecified => none
  | .endOfInput => some "I/O error: end of input"
  | .bufferExceeded => some "aborted: buffer exceeded"
  | .badComma => some "corruption: unexpected comma"
  | .noComma => some "corruption: expected comma"
  | .badArrayEnding => some "corruption: unexpected array ending"
  | .badObjectEnding => some "corruption: unexpected object ending"
  | .badObjectKey => some "corruption: bad object key"
  | .badObjectDeclaration => some "corruption: bad object declaration"
  | .unexpectedNul => some "corruption: unexpected NUL character"
  | .unexpectedCharacter => some "corruption: unexpected character"

end Reason

/-- The text that a failure has when it was given none. -/
def standardText (category : Category) (reason : Reason) : Bytes :=
  Bytes.ofString (reason.text?.getD category.text)

/-- A failure stays a failure in any category, the one called ok included. -/
inductive Status
  | ok
  | failed (category : Category) (reason : Reason) (text : Option Bytes)
  deriving DecidableEq

namespace Status

/-- A failure with the standard text. -/
def plain (category : Category) (reason : Reason) : Status :=
  .failed category reason none

/-- A failure with its own text, which ends before the first NUL. -/
def withText (category : Category) (reason : Reason) (text : Bytes) : Status :=
  .failed category reason (some text.untilNul)

/-- The status of a source that has no more bytes. -/
def endOfInput : Status := .plain .ioError .endOfInput

/-- The status of a lexeme that does not fit. -/
def bufferExceeded : Status := .plain .aborted .bufferExceeded

def isOk : Status → Bool
  | .ok => true
  | .failed .. => false

def category : Status → Category
  | .ok => .ok
  | .failed category _ _ => category

def reason : Status → Reason
  | .ok => .unspecified
  | .failed _ reason _ => reason

def message : Status → Bytes
  | .ok => standardText .ok .unspecified
  | .failed category reason none => standardText category reason
  | .failed _ _ (some text) => text

def isCorruption (s : Status) : Bool := s.category == .corruption

def isEndOfInput (s : Status) : Bool := s.category == .ioError && s.reason == .endOfInput

def isBufferExceeded (s : Status) : Bool := s.category == .aborted && s.reason == .bufferExceeded

/-- A refused document, and why. -/
def isRefusal (s : Status) (reason : Reason) : Bool :=
  s.category == .corruption && s.reason == reason

/-- Statuses are compared by category alone. -/
def agrees (s t : Status) : Bool := s.category == t.category

theorem isOk_iff (s : Status) : s.isOk = true ↔ s = .ok := by
  cases s <;> simp [isOk]

theorem isOk_of_isEndOfInput {s : Status} (h : s.isEndOfInput = true) : s.isOk = false := by
  cases s with
  | ok => cases h
  | failed => rfl

theorem isBufferExceeded_of_isEndOfInput {s : Status} (h : s.isEndOfInput = true) :
    s.isBufferExceeded = false := by
  simp only [isEndOfInput, Bool.and_eq_true, beq_iff_eq] at h
  rw [isBufferExceeded, h.1]
  rfl

theorem isCorruption_of_isEndOfInput {s : Status} (h : s.isEndOfInput = true) :
    s.isCorruption = false := by
  simp only [isEndOfInput, Bool.and_eq_true, beq_iff_eq] at h
  rw [isCorruption, h.1]
  rfl

end Status

end JsonEvents
