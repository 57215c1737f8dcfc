import JsonEvents.Bytes

/-!
# Cuts of a text

A cut is made only inside of the text; otherwise there is no result.
-/

namespace JsonEvents.Bytes

def range? (s : Bytes) (start size : Nat) : Option Bytes :=
  if start + size ≤ s.length then some ((s.drop start).take size) else none

/-- All that is behind a place. -/
def from? (s : Bytes) (start : Nat) : Option Bytes :=
  if start ≤ s.length then some (s.drop start) else none

def truncate? (s : Bytes) (size : Nat) : Option Bytes :=
  if size ≤ s.length then some (s.take size) else none

def startsWith (s t : Bytes) : Bool := t.isPrefixOf s

end JsonEvents.Bytes
