import JsonEvents.Draw
import JsonEvents.Listing
import JsonEvents.Numeral.Printer
import JsonEvents.Numeral.Scanner

/-!
# Replaying texts through checks

A check takes any text and tells whether the library agrees with itself on it:
a document gives the same events at once and piece by piece, and what a scanner
accepts survives a trip through the printer.
-/

namespace JsonEvents

open Ascii

/-- What is checked. -/
inductive Subject
  | tokenizer
  | numerals
  deriving DecidableEq

namespace Replay

/-- The parameters that a text gives, and the document that is left of it. -/
structure Trial where
  options : Options
  pieceSize : Nat
  document : Bytes

/-- Longer documents are cut. -/
def documentLimit : Nat := 65536

def Trial.ofText (s : Bytes) : Trial :=
  let (least, s) := Draw.integer .u64 Options.smallestBuffer 64 s
  let (comma, s) := Draw.integer .i32 0 1 s
  let (pieceSize, s) := Draw.integer .u64 1 128 s
  { options := {
      minBufferSize := least.toNat
      maxBufferSize := Options.largestBuffer
      trailingComma := if comma = 0 then .reject else .allow }
    pieceSize := pieceSize.toNat
    document := s.take documentLimit }

/-- Whether two runs gave the same events at the same depths. -/
def sameSteps : List Step → List Step → Bool
  | [], [] => true
  | a :: as, b :: bs =>
      a.event.kind == b.event.kind && a.event.data == b.event.data &&
        a.after.depth == b.after.depth && sameSteps as bs
  | _, _ => false

/-- Whether a refused document is refused at a line and column. -/
def isLocated (document : Bytes) (t : Tokenizer) : Bool :=
  !t.status.isCorruption ||
    match Location.ofBytes document (Int64.ofNat t.offset) with
    | (s, l) => (s.isOk || s.isEndOfInput) && 1 ≤ l.line && 1 ≤ l.column

def checkTokenizer (s : Bytes) : Bool :=
  let trial := Trial.ofText s
  let (steps, t) := (Tokenizer.ofBytes trial.document trial.options).run 2
  let reader := { Reader.ofBytes trial.document with most := some trial.pieceSize }
  let (steps', t') := (Tokenizer.ofReader reader trial.options).run 2
  !t.status.isOk && sameSteps steps steps' && t.status.category == t'.status.category &&
    t.status.reason == t'.status.reason && t.offset == t'.offset && isLocated trial.document t

def checkInteger (s : Bytes) : Bool :=
  match Numeral.scanInt s with
  | none => true
  | some (n, i) =>
      let text := Numeral.appendInt [] i
      n ≤ s.length && Numeral.scanInt text == some (text.length, i)

def checkFloat (s : Bytes) : Bool :=
  match Numeral.scanFloat s with
  | none => true
  | some (n, f) =>
      let (written, text) := Numeral.appendFloat [] f (-1)
      n ≤ s.length && f.isFinite && written &&
        match Numeral.scanFloat text with
        | none => false
        | some (m, g) => m == text.length && g.units == f.units &&
            (g.isNegative == f.isNegative || f.units == 0)

def checkGrouped (s : Bytes) : Bool :=
  match Numeral.scanGrouped s { group := comma.toNat, decimal := point.toNat } with
  | none => true
  | some (n, _) => n ≤ s.length

def check : Subject → Bytes → Bool
  | .tokenizer, s => checkTokenizer s
  | .numerals, s => checkInteger s && checkFloat s && checkGrouped s

/-- The exit code of a command that a failed check ends. -/
def failedExitCode : Nat := 134

def reportFile (name content : Bytes) : Bytes :=
  Bytes.ofString "replayed " ++ name ++ Bytes.ofString " (" ++ Digits.digits content.length ++
    Bytes.ofString " bytes)\n"

def reportTotal (n : Nat) : Bytes :=
  Bytes.ofString "replayed " ++ Digits.digits n ++ Bytes.ofString " input(s)\n"

/-- Check one file after the other, up to the first that fails or cannot be read. -/
def filesFrom (subject : Subject) (content? : Bytes → Option Bytes) (total : Nat)
    (errors : Bytes) : List Bytes → Outcome
  | [] => { exitCode := 0, errors := errors ++ reportTotal total }
  | name :: rest =>
      match content? name with
      | none =>
          { exitCode := failedExitCode
            errors := errors ++ Bytes.ofString "cannot read " ++ name ++ [lineFeed] }
      | some content =>
          if check subject content then
            filesFrom subject content? total (errors ++ reportFile name content) rest
          else
            { exitCode := failedExitCode
              errors := errors ++ Bytes.ofString "check failed for " ++ name ++ [lineFeed] }

/-- The command, given the names of the files and what they hold. -/
def command (subject : Subject) (content? : Bytes → Option Bytes) (names : List Bytes) : Outcome :=
  filesFrom subject content? names.length [] names

end Replay

end JsonEvents
