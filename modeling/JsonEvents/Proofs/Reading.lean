import JsonEvents.Proofs.Scan
import JsonEvents.Tokenizer.Move

/-!
# Readings

A reading is a place in an input that is all at hand, with the structures that
are open there.  `Reading.next` is the next event from there on, or why there
is none, said of the bytes alone and without a window.
-/

namespace JsonEvents

open Ascii

structure Reading where
  rest : Bytes
  offset : Nat
  nesting : Nesting
  needComma : Bool
  /-- Whether the input has ended inside of a string. -/
  cut : Bool := false
  deriving DecidableEq

/-- Why there is no event. -/
inductive Halt
  | ended
  | refused (fault : Fault)
  deriving DecidableEq

inductive Reply
  | gives (event : Event) (after : Reading)
  | halts (halt : Halt) (place : Reading)
  deriving DecidableEq

namespace Reading

def start (input : Bytes) : Reading := ⟨input, 0, .bottom, false, false⟩

def byte (r : Reading) : UInt8 := Scan.byte r.rest 0

def advance (r : Reading) (n : Nat) : Reading :=
  { r with rest := r.rest.drop n, offset := r.offset + n }

theorem advance_advance (r : Reading) (m n : Nat) :
    (r.advance m).advance n = r.advance (m + n) := by
  simp only [advance, List.drop_drop, Nat.add_assoc]

def skipBlanks (r : Reading) : Reading := r.advance (Scan.blanks r.rest)

/-- The place behind the white space and the comma in front of a token. -/
def front (policy : TrailingComma) (r : Reading) : Reading × Option Fault :=
  let q := r.skipBlanks
  if q.byte = comma then
    if Front.isStray policy q.nesting.top q.needComma then (q, some .strayComma)
    else
      let p := { (q.advance 1).skipBlanks with needComma := false }
      (p, Front.faultBehind policy p.byte)
  else
    (q, none)

theorem cut_front (policy : TrailingComma) (r : Reading) : (r.front policy).1.cut = r.cut := by
  unfold front
  dsimp only
  split
  · split <;> rfl
  · rfl

/-- A comma or a closing bracket is at fault, so a byte is there. -/
theorem byte_of_fault {policy : TrailingComma} {r q : Reading} {fault : Fault}
    (h : r.front policy = (q, some fault)) : q.byte ≠ nul := by
  unfold front at h
  dsimp only at h
  split at h
  · next isComma =>
      split at h
      · obtain ⟨rfl, _⟩ := Prod.mk.inj h
        rw [isComma]
        decide
      · obtain ⟨rfl, behind⟩ := Prod.mk.inj h
        intro isNul
        rw [isNul] at behind
        cases policy <;> cases behind
  · obtain ⟨_, none⟩ := Prod.mk.inj h
    cases none

def bracket (r : Reading) (kind : Kind) (nesting : Nesting) (needComma : Bool) : Reply :=
  .gives ⟨kind, r.rest.take 1⟩ { r.advance 1 with nesting, needComma }

def scalar (r : Reading) (kind : Kind) (n : Nat) : Reply :=
  .gives ⟨kind, r.rest.take n⟩
    { r.advance n with nesting := r.nesting.setTop r.nesting.top.afterValue, needComma := true }

def key (r : Reading) : Reply :=
  let (closed, n) := Scan.string r.rest
  if closed then
    let q := (r.advance n).skipBlanks
    if q.byte = colon then
      .gives ⟨.string, r.rest.take n⟩ { q.advance 1 with nesting := r.nesting.setTop .objectValue }
    else
      .halts (.refused .missingColon) q
  else
    .halts (.refused .badKey) (r.advance n)

theorem key_of_open {r : Reading} (lost : (Scan.string r.rest).1 = false) :
    r.key = .halts (.refused .badKey) (r.advance (Scan.string r.rest).2) := by
  rcases scan : Scan.string r.rest with ⟨closed, n⟩
  rw [scan] at lost
  simp only [key, scan, show closed = false from lost]
  rfl

theorem key_of_closed {r : Reading} (closed : (Scan.string r.rest).1 = true) :
    r.key =
      if (r.advance (Scan.string r.rest).2).skipBlanks.byte = colon then
        .gives ⟨.string, r.rest.take (Scan.string r.rest).2⟩
          { (r.advance (Scan.string r.rest).2).skipBlanks.advance 1 with
            nesting := r.nesting.setTop .objectValue }
      else .halts (.refused .missingColon) (r.advance (Scan.string r.rest).2).skipBlanks := by
  rcases scan : Scan.string r.rest with ⟨closed', n⟩
  rw [scan] at closed
  simp only [key, scan, show closed' = true from closed, if_true]

def string (r : Reading) : Reply :=
  let (closed, n) := Scan.string r.rest
  if closed then r.scalar .string n
  else if r.rest.drop n = [] then .gives ⟨.string, r.rest.take n⟩ { r.advance n with cut := true }
  else .halts (.refused .nulByte) (r.advance n)

def noToken (r : Reading) : Reply :=
  if r.byte = nul then
    if r.rest = [] then .halts .ended r else .halts (.refused .nulByte) r
  else
    .halts (.refused .strayByte) r

def value (r : Reading) : Reply :=
  if r.byte = quote then r.string
  else
    match Scan.number? r.rest with
    | some n => r.scalar .number n
    | none =>
        match Scan.literal? r.rest with
        | some n => r.scalar .literal n
        | none => r.noToken

def perform (r : Reading) : Move → Reply
  | .openObject => r.bracket .startObject (r.nesting.push .objectKey) false
  | .closeObject => r.bracket .endObject r.nesting.pop true
  | .openArray => r.bracket .startArray (r.nesting.push .array) false
  | .closeArray => r.bracket .endArray r.nesting.pop true
  | .key => r.key
  | .value => r.value
  | .refuse fault => .halts (.refused fault) r

def next (policy : TrailingComma) (r : Reading) : Reply :=
  if r.cut then .halts .ended r
  else
    match r.front policy with
    | (q, some fault) => .halts (.refused fault) q
    | (q, none) => q.perform (Move.of q.nesting.top q.needComma q.byte)

end Reading

end JsonEvents
