import JsonEvents.Window.Basic

/-!
# Recognizers

A recognizer extends the lexeme over the bytes that belong to it, one look at a
time.  `number` and `literal` leave the lexeme as it was when they find none;
`string` stops at the NUL that cut the string short.
-/

namespace JsonEvents.Window

open Ascii

/-- White space in front of a token is dropped as it is seen, so it never counts as lexeme. -/
def skipSpace (w : Window) : Window :=
  match _h : w.peek 0 with
  | (c, v) => if isSpace c then skipSpace (v.extend 1).skip else v
termination_by w.remaining
decreasing_by
  next blank =>
    exact remaining_skip_lt _h (ne_zero_of_isSpace blank) Nat.one_pos (Nat.le_refl _)

/-- White space inside of a token. -/
def extendSpace (w : Window) : Window :=
  match _h : w.peek 0 with
  | (c, v) => if isSpace c then extendSpace (v.extend 1) else v
termination_by w.remaining
decreasing_by
  next blank => exact remaining_extend_lt _h (ne_zero_of_isSpace blank) Nat.one_pos

def extendDigits (w : Window) : Window :=
  match _h : w.peek 0 with
  | (c, v) => if isDigit c then extendDigits (v.extend 1) else v
termination_by w.remaining
decreasing_by
  next digit => exact remaining_extend_lt _h (ne_zero_of_isDigit digit) Nat.one_pos

/-- A minus sign, if there is one. -/
def minusSign (w : Window) : Window :=
  let (c, w) := w.peek 0
  if c = minus then w.extend 1 else w

/-- A zero, or digits that begin with another one. -/
def integerPart (w : Window) : Bool × Window :=
  let (c, w) := w.peek 0
  if c = zero then (true, w.extend 1)
  else if one ≤ c ∧ c ≤ nine then (true, (w.extend 1).extendDigits)
  else (false, w)

/-- A point with digits, or nothing; the answer is whether an exponent may follow. -/
def fractionPart (w : Window) : Bool × Window :=
  let (c, w) := w.peek 0
  if c = point then
    let (d, w) := w.peek 1
    if isDigit d then (true, (w.extend 2).extendDigits) else (false, w)
  else
    (true, w)

/-- The place of an exponent's first digit, for the byte behind its mark. -/
def exponentLead (sign : UInt8) : Nat := if isSign sign then 2 else 1

theorem one_le_exponentLead (sign : UInt8) : 1 ≤ exponentLead sign := by
  unfold exponentLead
  split <;> omega

/-- An exponent mark with digits, which may have a sign, or nothing. -/
def exponentPart (w : Window) : Window :=
  let (c, w) := w.peek 0
  if isExponentMark c then
    let (sign, w) := w.peek 1
    let (d, w) := w.peek (exponentLead sign)
    if isDigit d then (w.extend (exponentLead sign + 1)).extendDigits else w
  else
    w

def number (w : Window) : Bool × Window :=
  let mark := w.len
  let (found, w) := w.minusSign.integerPart
  if found then
    let (goesOn, w) := w.fractionPart
    (true, if goesOn then w.exponentPart else w)
  else
    (false, w.setLen mark)

/-- Whether the bytes from place `i` on are the given ones, looked at one by one. -/
def spells (w : Window) (i : Nat) : Bytes → Bool × Window
  | [] => (true, w)
  | c :: rest =>
      let (d, w) := w.peek i
      if d = c then w.spells (i + 1) rest else (false, w)

theorem spells_cons (w : Window) (i : Nat) (c : UInt8) (rest : Bytes) :
    w.spells i (c :: rest) =
      if (w.peek i).1 = c then (w.peek i).2.spells (i + 1) rest else (false, (w.peek i).2) := rfl

/-- The first of the words that stands here. -/
def oneOf (w : Window) : List Bytes → Bool × Window
  | [] => (false, w)
  | word :: rest =>
      let (found, w) := w.spells 0 word
      if found then (true, w.extend word.length) else w.oneOf rest

theorem oneOf_cons (w : Window) (word : Bytes) (rest : List Bytes) :
    w.oneOf (word :: rest) =
      if (w.spells 0 word).1 then (true, (w.spells 0 word).2.extend word.length)
      else (w.spells 0 word).2.oneOf rest := rfl

def literals : List Bytes := ["null", "true", "false"].map Bytes.ofString

def literal (w : Window) : Bool × Window := w.oneOf literals

end JsonEvents.Window

namespace JsonEvents.Segment

/-- How many backslashes end the lexeme, its first byte apart; `n` is how far to look back. -/
def trailingBackslashes (s : Segment) : Nat → Nat
  | 0 => 0
  | n + 1 =>
      if s.bytes[s.start + n + 1]? = some Ascii.backslash then s.trailingBackslashes n + 1 else 0

/-- Whether a quote behind the lexeme is escaped: an odd number of backslashes precedes it. -/
def escapesQuote (s : Segment) : Bool := s.trailingBackslashes (s.len - 1) % 2 == 1

end JsonEvents.Segment

namespace JsonEvents.Window

open Ascii

/-- The rest of a string, up to and including the first quote that is not escaped. -/
def stringRest (w : Window) : Bool × Window :=
  match _h : w.peek 0 with
  | (c, v) =>
      if c = quote then
        if v.escapesQuote then stringRest (v.extend 1) else (true, v.extend 1)
      else if c = nul then (false, v)
      else stringRest (v.extend 1)
termination_by w.remaining
decreasing_by
  · next isQuote _ => exact remaining_extend_lt _h (by rw [isQuote]; decide) Nat.one_pos
  · next notNul => exact remaining_extend_lt _h notNul Nat.one_pos

/-- A string, whose opening quote is in front. -/
def string (w : Window) : Bool × Window := (w.extend 1).stringRest

end JsonEvents.Window
