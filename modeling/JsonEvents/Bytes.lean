/-!
# Bytes and their ASCII meaning

A text is a list of bytes.  Only a few ASCII characters have a meaning of their
own; the byte NUL never stands for a character of a document.
-/

namespace JsonEvents

abbrev Bytes := List UInt8

namespace Bytes

/-- Each character up to U+00FF stands for one byte. -/
def ofString (s : String) : Bytes := s.toList.map fun c => c.toUInt8

/-- The bytes before the first NUL. -/
def untilNul (s : Bytes) : Bytes := s.takeWhile (· != 0)

theorem zero_not_mem_untilNul (s : Bytes) : (0 : UInt8) ∉ s.untilNul := by
  induction s with
  | nil => simp [untilNul]
  | cons c rest ih =>
      unfold untilNul at *
      rw [List.takeWhile_cons]
      split
      · next h =>
          have : c ≠ 0 := by simpa using h
          simp [ih, Ne.symm this]
      · simp

variable {s t : Bytes}

theorem untilNul_of_no_nul (h : (0 : UInt8) ∉ s) : s.untilNul = s := by
  induction s with
  | nil => rfl
  | cons c s ih =>
      rw [List.mem_cons, not_or] at h
      obtain ⟨some, rest⟩ := h
      rw [untilNul, List.takeWhile_cons_of_pos (by simpa using Ne.symm some)]
      exact congrArg (List.cons c) (ih rest)

theorem no_nul_cons {c : UInt8} (some : c ≠ 0) (h : (0 : UInt8) ∉ s) : (0 : UInt8) ∉ c :: s := by
  rw [List.mem_cons, not_or]
  exact ⟨some.symm, h⟩

theorem no_nul_append (h : (0 : UInt8) ∉ s) (h' : (0 : UInt8) ∉ t) : (0 : UInt8) ∉ s ++ t := by
  rw [List.mem_append, not_or]
  exact ⟨h, h'⟩

end Bytes

namespace Ascii

abbrev nul : UInt8 := 0
abbrev tab : UInt8 := 9
abbrev lineFeed : UInt8 := 10
abbrev carriageReturn : UInt8 := 13
abbrev space : UInt8 := 32
abbrev quote : UInt8 := 34
abbrev plus : UInt8 := 43
abbrev comma : UInt8 := 44
abbrev minus : UInt8 := 45
abbrev point : UInt8 := 46
abbrev zero : UInt8 := 48
abbrev one : UInt8 := 49
abbrev nine : UInt8 := 57
abbrev colon : UInt8 := 58
abbrev upperE : UInt8 := 69
abbrev openBracket : UInt8 := 91
abbrev backslash : UInt8 := 92
abbrev closeBracket : UInt8 := 93
abbrev caret : UInt8 := 94
abbrev lowerE : UInt8 := 101
abbrev openBrace : UInt8 := 123
abbrev closeBrace : UInt8 := 125
abbrev delete : UInt8 := 127

def isDigit (c : UInt8) : Bool := zero ≤ c && c ≤ nine

/-- The white space that may stand between the tokens of a JSON text. -/
def isSpace (c : UInt8) : Bool :=
  c == space || c == tab || c == lineFeed || c == carriageReturn

def isSign (c : UInt8) : Bool := c == plus || c == minus

def isExponentMark (c : UInt8) : Bool := c == lowerE || c == upperE

theorem ne_zero_of_isDigit {c : UInt8} (h : isDigit c = true) : c ≠ 0 := by
  rintro rfl; exact absurd h (by decide)

theorem ne_zero_of_one_le {c : UInt8} (h : one ≤ c) : c ≠ 0 := by
  rintro rfl; exact absurd h (by decide)

theorem ne_zero_of_isSpace {c : UInt8} (h : isSpace c = true) : c ≠ 0 := by
  rintro rfl; exact absurd h (by decide)

theorem ne_zero_of_isSign {c : UInt8} (h : isSign c = true) : c ≠ 0 := by
  rintro rfl; exact absurd h (by decide)

theorem ne_zero_of_isExponentMark {c : UInt8} (h : isExponentMark c = true) : c ≠ 0 := by
  rintro rfl; exact absurd h (by decide)

/-- The number that a digit stands for. -/
def digitValue (c : UInt8) : Nat := c.toNat - 48

end Ascii

end JsonEvents
