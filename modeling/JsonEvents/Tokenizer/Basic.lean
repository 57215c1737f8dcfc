import JsonEvents.Tokenizer.Move

/-!
# The tokenizer

`Tokenizer.next` gives the next grammar event of a document.  When there is
none it gives the error event, and `Tokenizer.status` tells why: the document
is at its end, its source failed, or it is not JSON.
-/

namespace JsonEvents

open Ascii

structure Tokenizer where
  window : Window
  trailingComma : TrailingComma
  log : Log
  nesting : Nesting := .bottom
  /-- Whether a value is complete that only a comma or a closing bracket may follow. -/
  needComma : Bool := false
  /-- The first failure that stopped the tokenizer for good. -/
  latched : Status := .ok

namespace Tokenizer

/-- A tokenizer whose log cannot be opened is stopped from the start. -/
def ofWindow (window : Window) (o : Options) : Tokenizer :=
  let o := o.sanitize
  let (latched, log) := Log.opened o
  let commas := match o.trailingComma with
    | .allow => "allowed"
    | .reject => "rejected"
  let text := Bytes.ofString "created tokenizer (buffer size " ++ Digits.digits o.minBufferSize ++
    Bytes.ofString " to " ++ Digits.digits o.maxBufferSize ++
    Bytes.ofString ", trailing commas " ++ Bytes.ofString commas ++ Bytes.ofString ")"
  { window, trailingComma := o.trailingComma, latched, log := log.record .debug text }

def ofBytes (input : Bytes) (o : Options) : Tokenizer := ofWindow (.ofBytes input) o

def ofReader (reader : Reader) (o : Options) : Tokenizer := ofWindow (.ofReader reader o) o

def context (t : Tokenizer) : Context := t.nesting.top

def depth (t : Tokenizer) : Nat := t.nesting.depth

/-- The offset of the next byte that was not used yet. -/
def offset (t : Tokenizer) : Nat := t.window.cursor

def isAtEnd (t : Tokenizer) : Bool := t.window.isAtEnd

def status (t : Tokenizer) : Status := if t.latched.isOk then t.window.status else t.latched

/-- Stop because the source failed. -/
def stop (t : Tokenizer) (s : Status) : Event × Tokenizer :=
  let text := Bytes.ofString "stopped at offset " ++ Digits.digits t.offset ++
    Bytes.ofString ": " ++ s.message
  (.error,
    { t with latched := s, log := if s.isCorruption then t.log else t.log.record .debug text })

/-- Stop because the document is at fault where the lexeme ends. -/
def refuse (t : Tokenizer) (fault : Fault) : Event × Tokenizer :=
  let (latched, log) := (fault.message t.window).refuse fault.reason .debug t.log
  (.error, { t with latched, log })

/-- The failure of the source, if it failed otherwise than by coming to its end. -/
def failure? (t : Tokenizer) : Option Status :=
  if t.window.status.isOk || t.window.status.isEndOfInput then none else some t.window.status

/-- A failure of the source comes before a fault that it may have caused. -/
def refuseUnlessFailed (t : Tokenizer) (fault : Fault) : Event × Tokenizer :=
  match t.failure? with
  | some s => t.stop s
  | none => t.refuse fault

/-- Give the lexeme as an event. -/
def emit (t : Tokenizer) (kind : Kind) : Event × Tokenizer :=
  let (data, window) := t.window.shift
  (⟨kind, data⟩, { t with window })

/-- Give the bracket in front as an event. -/
def emitBracket (t : Tokenizer) (kind : Kind) (nesting : Nesting) (needComma : Bool) :
    Event × Tokenizer :=
  { t with window := t.window.extend 1, nesting, needComma }.emit kind

/-- Give a scalar value as an event, unless the failure of the source may have cut it short. -/
def emitScalar (t : Tokenizer) (kind : Kind) : Event × Tokenizer :=
  match t.failure? with
  | some s => t.stop s
  | none => { t with needComma := true, nesting := t.nesting.setTop t.context.afterValue }.emit kind

/-- Give what there is of a string that the input ends in, and be at the end after it. -/
def emitOpenString (t : Tokenizer) (s : Status) : Event × Tokenizer :=
  let text := Bytes.ofString "end of input inside a string at offset " ++ Digits.digits t.offset
  { t with latched := s, log := t.log.record .trace text }.emit .string

/-- A key and its colon; the event is the key alone. -/
def nextKey (t : Tokenizer) : Event × Tokenizer :=
  let (closed, w) := t.window.string
  if closed then
    let length := w.len
    let (c, w) := w.extendSpace.peek 0
    if c = colon then
      let (data, window) := (w.extend 1).shift
      (⟨.string, data.take length⟩, { t with window, nesting := t.nesting.setTop .objectValue })
    else
      { t with window := w }.refuseUnlessFailed .missingColon
  else
    { t with window := w }.refuseUnlessFailed .badKey

def nextString (t : Tokenizer) : Event × Tokenizer :=
  let (closed, window) := t.window.string
  let t := { t with window }
  if closed then t.emitScalar .string
  else if t.window.status.isOk then t.refuse .nulByte
  else if t.window.status.isEndOfInput then t.emitOpenString t.window.status
  else t.stop t.window.status

/-- No token begins with the byte in front. -/
def noToken (t : Tokenizer) (c : UInt8) : Event × Tokenizer :=
  if c = nul then
    if t.window.status.isOk then t.refuse .nulByte
    else if t.window.status.isEndOfInput then
      let text := Bytes.ofString "end of input at offset " ++ Digits.digits t.offset ++
        Bytes.ofString " (depth " ++ Digits.digits t.depth ++ Bytes.ofString ")"
      (.error, { t with log := t.log.record .trace text })
    else t.stop t.window.status
  else t.refuseUnlessFailed .strayByte

def nextScalar (t : Tokenizer) (c : UInt8) : Event × Tokenizer :=
  if c = quote then t.nextString
  else
    let (isNumber, w) := t.window.number
    if isNumber then { t with window := w }.emitScalar .number
    else
      let (isLiteral, w) := w.literal
      if isLiteral then { t with window := w }.emitScalar .literal
      else { t with window := w }.noToken c

/-- Make a move with the byte in front of the window. -/
def perform (t : Tokenizer) (c : UInt8) : Move → Event × Tokenizer
  | .openObject => t.emitBracket .startObject (t.nesting.push .objectKey) false
  | .closeObject => t.emitBracket .endObject t.nesting.pop true
  | .openArray => t.emitBracket .startArray (t.nesting.push .array) false
  | .closeArray => t.emitBracket .endArray t.nesting.pop true
  | .key => t.nextKey
  | .value => t.nextScalar c
  | .refuse fault => t.refuse fault

def next (t : Tokenizer) : Event × Tokenizer :=
  if t.latched.isOk then
    let front := Front.of t.trailingComma t.context t.needComma t.window
    let t := { t with window := front.window, needComma := front.needComma }
    match front.fault with
    | some fault => t.refuse fault
    | none => t.perform front.byte (Move.of t.context t.needComma front.byte)
  else
    (.error, t)

end Tokenizer

end JsonEvents
