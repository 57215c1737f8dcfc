import JsonEvents.Window.Basic

/-!
# Commands on a window

What a caller may do with a window, one command at a time.  A command that
would move the lexeme in front of its start, or take a lexeme that has not all
arrived, is refused and changes nothing.

A caller counts in words.  Behind the last word the count begins again at zero,
so a large enough step leads to bytes in front of the lexeme's end.  A count
that stays below that is a plain one (`wordPeek_eq_peek`,
`wordStatus_eq_status`, `wordSkip_eq_skip`).  A look counts twice: the place of
the byte, and the bytes from the lexeme's start on that it needs.  The second
count may begin again where the first one does not, as it is one ahead.
-/

namespace JsonEvents

inductive Command
  | peek (i : UInt64)
  | move (k : Int64)
  | moveTo (n : UInt64)
  | rewind (mark : UInt64)
  | lexeme
  | shift
  | skip
  | contents
  | restore
  | scan (most : UInt64)

inductive Answer
  | nothing
  | byte (c : UInt8)
  | bytes (data : Bytes)
  | count (n : Nat)
  | refused

namespace Window

/-- A count as a word shows it. -/
def wrap (n : Nat) : Nat := n % UInt64.size

theorem wrap_of_lt {n : Nat} (h : n < UInt64.size) : wrap n = n := Nat.mod_eq_of_lt h

/-- The place among the held bytes at which the lexeme ends. -/
def wordEnd (w : Window) : Nat := wrap (w.start + w.len)

def wordPeek (w : Window) (i : Nat) : UInt8 × Window :=
  let (c, v) := w.look w.bytes[wrap (w.start + w.len + i)]? (wrap (w.len + i + 1))
  (c, { v with reach := max v.reach (w.len + i + 1) })

def wordStatus (w : Window) : Status := w.statusAt w.wordEnd

def wordSkip (w : Window) : Window := { w with toSegment := w.toSegment.beginAt w.wordEnd }

/-- Whether words count the place of a byte behind the lexeme. -/
def Counts (w : Window) (i : Nat) : Prop := w.start + w.len + i < UInt64.size

instance (w : Window) (i : Nat) : Decidable (w.Counts i) := inferInstanceAs (Decidable (_ < _))

theorem wordPeek_eq_peek {w : Window} {i : Nat} (h : w.Counts i)
    (enough : w.len + i + 1 < UInt64.size) : w.wordPeek i = w.peek i := by
  have reach := reach_peek w i
  unfold wordPeek
  rw [wrap_of_lt h, wrap_of_lt enough]
  change ((w.peek i).1, { (w.peek i).2 with reach := max (w.peek i).2.reach (w.len + i + 1) }) = _
  rw [reach, Nat.max_assoc, Nat.max_self, ← reach]

theorem wordStatus_eq_status {w : Window} (h : w.start + w.len < UInt64.size) :
    w.wordStatus = w.status := by
  unfold wordStatus wordEnd status
  rw [wrap_of_lt h]

theorem wordSkip_eq_skip {w : Window} (h : w.start + w.len < UInt64.size) :
    w.wordSkip = w.skip := by
  unfold wordSkip wordEnd skip Segment.skip
  rw [wrap_of_lt h]

/-- Extend the lexeme byte by byte up to a NUL, but not by more than `most`. -/
def scan (w : Window) (most : Nat) (taken : Nat) : Nat × Window :=
  match most with
  | 0 => (taken, w)
  | most + 1 =>
      let (c, w) := w.wordPeek 0
      if c = 0 then (taken, w) else (w.setLen (wrap (w.len + 1))).scan most (taken + 1)

/-- Whether a command keeps the lexeme inside of the window and behind its start. -/
def allows (w : Window) : Command → Bool
  | .move k => -k.toInt ≤ w.len
  | .rewind mark => mark.toNat ≤ w.len
  | .lexeme | .shift | .skip => w.wordEnd ≤ w.bytes.size
  | _ => true

def obey (w : Window) (command : Command) : Answer × Window :=
  if w.allows command then
    match command with
    | .peek i => let (c, w) := w.wordPeek i.toNat; (.byte c, w)
    | .move k => (.nothing, w.setLen (wrap (w.len + k.toInt).toNat))
    | .moveTo n => (.nothing, w.setLen n.toNat)
    | .rewind mark => (.nothing, w.setLen mark.toNat)
    | .lexeme => (.bytes w.lexeme, w)
    | .shift => (.bytes w.lexeme, w.wordSkip)
    | .skip => (.nothing, w.wordSkip)
    | .contents => (.bytes w.bytes.toList, w)
    | .restore => (.nothing, w)
    | .scan most => let (n, w) := w.scan most.toNat 0; (.count n, w)
  else
    (.refused, w)

/-- Obey one command after the other. -/
def obeyAll (w : Window) : List Command → List Answer × Window
  | [] => ([], w)
  | command :: rest =>
      let (answer, v) := w.obey command
      let (answers, v) := v.obeyAll rest
      (answer :: answers, v)

theorem obeyAll_cons (w : Window) (command : Command) (rest : List Command) :
    w.obeyAll (command :: rest) =
      ((w.obey command).1 :: ((w.obey command).2.obeyAll rest).1,
        ((w.obey command).2.obeyAll rest).2) := rfl

theorem obey_of_not_allows {w : Window} {command : Command} (h : w.allows command = false) :
    w.obey command = (.refused, w) := by
  simp [obey, h]

end Window

end JsonEvents
