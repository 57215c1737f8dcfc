import JsonEvents.Tokenizer.Run

/-!
# Listing the events of a document

The command prints one event a line, indented by its depth, and tells whether
the document is complete.
-/

namespace JsonEvents

open Ascii

/-- What a command leaves behind. -/
structure Outcome where
  exitCode : Nat
  output : Bytes := []
  errors : Bytes := []
  log : Log := .silent

namespace Listing

/-- The arguments ask for a document, and perhaps for a log. -/
structure Request where
  verbose : Bool := false
  name : Option Bytes := none

def verboseFlag : Bytes := Bytes.ofString "-v"

/-- There is no request when two documents are named. -/
def Request.extend (r : Request) : List Bytes → Option Request
  | [] => some r
  | arg :: rest =>
      if arg = verboseFlag then Request.extend { r with verbose := true } rest
      else if r.name.isNone then Request.extend { r with name := some arg } rest
      else none

/-- The name of the document that the arguments ask for. -/
def named? (args : List Bytes) : Option Bytes := (Request.extend {} args).bind Request.name

def usage : Outcome :=
  { exitCode := 2, errors := Bytes.ofString "usage: dump_tokens [-v] <filename>\n" }

def line (step : Step) : Bytes :=
  List.replicate (2 * (step.after.depth - 1)) space ++ Bytes.ofString step.event.kind.name ++
    [space] ++ step.event.data ++ [lineFeed]

/-- What is said of a document that ended there, if it was not complete. -/
def complaint? (name : Bytes) (t : Tokenizer) : Option Bytes :=
  if !t.status.isEndOfInput then some (t.status.message ++ [lineFeed])
  else if t.depth != 1 || t.context != .value then
    some (name ++ Bytes.ofString ": document ends at depth " ++ Digits.digits t.depth ++
      [lineFeed])
  else none

/-- List the events of what a reader delivers. -/
def list (name : Bytes) (reader : Reader) (o : Options) : Outcome :=
  let (steps, t) := (Tokenizer.ofReader reader o).runOnce
  let output := steps.dropLast.flatMap line
  match complaint? name t with
  | some errors => { exitCode := 1, output, errors, log := t.log }
  | none => { exitCode := 0, output, log := t.log }

/-- The command, given how a name is opened. -/
def command (openReader : Bytes → Except Status Reader) (args : List Bytes) : Outcome :=
  match Request.extend {} args with
  | some { verbose, name := some name } =>
      match openReader name with
      | .error s => { exitCode := 1, errors := s.message ++ [lineFeed] }
      | .ok reader => list name reader { logLevel := if verbose then .trace else .off }
  | _ => usage

end Listing

end JsonEvents
