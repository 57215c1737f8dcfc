import JsonEvents.Tokenizer.Recognizers

/-!
# Scans of a text at hand

How many bytes at the front of a text are white space, a number, a literal or
the rest of a string.
-/

namespace JsonEvents.Scan

open Ascii

/-- The byte at a place, or NUL behind the end. -/
def byte (s : Bytes) (i : Nat) : UInt8 := s[i]?.getD 0

theorem byte_cons (c : UInt8) (s : Bytes) : byte (c :: s) 0 = c := rfl

theorem byte_drop (s : Bytes) (n i : Nat) : byte (s.drop n) i = byte s (n + i) := by
  simp [byte]

/-- A byte other than NUL is there. -/
theorem getElem?_of_byte {s : Bytes} {i : Nat} {c : UInt8} (h : byte s i = c) (hc : c ≠ 0) :
    s[i]? = some c := by
  unfold byte at h
  cases here : s[i]? with
  | none => rw [here] at h; exact absurd h.symm hc
  | some d => rw [here] at h; exact congrArg some h

theorem eq_cons_of_byte {s : Bytes} {c : UInt8} (h : byte s 0 = c) (hc : c ≠ 0) :
    s = c :: s.drop 1 := by
  cases s with
  | nil => exact absurd h.symm hc
  | cons d rest => rw [← h]; rfl

/-- How many bytes at the front have a property. -/
def run (p : UInt8 → Bool) (s : Bytes) : Nat := (s.takeWhile p).length

theorem run_of_byte {p : UInt8 → Bool} {s : Bytes} (hp : p 0 = false) (h : p (byte s 0) = true) :
    run p s = run p (s.drop 1) + 1 := by
  cases s with
  | nil => exact absurd (hp.symm.trans h) nofun
  | cons c rest =>
      have h : p c = true := h
      simp [run, h]

theorem run_of_not_byte {p : UInt8 → Bool} {s : Bytes} (h : p (byte s 0) = false) :
    run p s = 0 := by
  cases s with
  | nil => rfl
  | cons c rest =>
      have h : p c = false := h
      simp [run, h]

theorem run_le (p : UInt8 → Bool) (s : Bytes) : run p s ≤ s.length :=
  (List.takeWhile_prefix p).length_le

def blanks (s : Bytes) : Nat := run isSpace s

def digits (s : Bytes) : Nat := run isDigit s

def sign (s : Bytes) : Nat := if byte s 0 = minus then 1 else 0

/-- A zero, or digits that begin with another one. -/
def integer? (s : Bytes) : Option Nat :=
  if byte s 0 = zero then some 1
  else if one ≤ byte s 0 ∧ byte s 0 ≤ nine then some (1 + digits (s.drop 1))
  else none

/-- A point with digits, or nothing, and whether an exponent may follow. -/
def fraction (s : Bytes) : Bool × Nat :=
  if byte s 0 = point then
    if isDigit (byte s 1) then (true, 2 + digits (s.drop 2)) else (false, 0)
  else
    (true, 0)

/-- An exponent mark with digits, which may have a sign, or nothing. -/
def exponent (s : Bytes) : Nat :=
  if isExponentMark (byte s 0) then
    let lead := Window.exponentLead (byte s 1)
    if isDigit (byte s lead) then lead + 1 + digits (s.drop (lead + 1)) else 0
  else
    0

/-- What may follow the integer part of a number. -/
def tail (s : Bytes) : Nat :=
  let (goesOn, n) := fraction s
  n + if goesOn then exponent (s.drop n) else 0

def number? (s : Bytes) : Option Nat :=
  (integer? (s.drop (sign s))).map fun n => sign s + n + tail (s.drop (sign s + n))

/-- The length of the first of the words that begins the text. -/
def oneOf? (s : Bytes) : List Bytes → Option Nat
  | [] => none
  | word :: rest => if word.isPrefixOf s then some word.length else oneOf? s rest

def literal? (s : Bytes) : Option Nat := oneOf? s Window.literals

/--
The rest of a string: whether it is closed, and its bytes up to the closing
quote and with it, or else up to the first NUL or the end.  A backslash escapes
the byte behind it.
-/
def stringRest (escaped : Bool) : Bytes → Bool × Nat
  | [] => (false, 0)
  | c :: rest =>
      if c = nul then (false, 0)
      else if c = quote ∧ escaped = false then (true, 1)
      else
        let (closed, n) := stringRest (c == backslash && !escaped) rest
        (closed, n + 1)

theorem stringRest_of_close (rest : Bytes) : stringRest false (quote :: rest) = (true, 1) := rfl

theorem stringRest_of_nul (escaped : Bool) (rest : Bytes) :
    stringRest escaped (nul :: rest) = (false, 0) := rfl

theorem stringRest_cons {escaped : Bool} {c : UInt8} (rest : Bytes) (some : c ≠ nul)
    (inside : ¬ (c = quote ∧ escaped = false)) :
    stringRest escaped (c :: rest) =
      ((stringRest (c == backslash && !escaped) rest).1,
        (stringRest (c == backslash && !escaped) rest).2 + 1) := by
  rw [stringRest, if_neg some, if_neg inside]

/-- A string, whose opening quote is in front. -/
def string (s : Bytes) : Bool × Nat :=
  let (closed, n) := stringRest false (s.drop 1)
  (closed, n + 1)

/-! ## Lengths -/

theorem lt_length_of_byte {s : Bytes} {i : Nat} (some : byte s i ≠ 0) : i < s.length := by
  rcases Nat.lt_or_ge i s.length with inside | behind
  · exact inside
  · rw [byte, List.getElem?_eq_none behind] at some
    exact absurd rfl some

theorem digits_drop_le {s : Bytes} {n : Nat} (inside : n ≤ s.length) :
    n + digits (s.drop n) ≤ s.length := by
  have bound : digits (s.drop n) ≤ (s.drop n).length := run_le isDigit _
  rw [List.length_drop] at bound
  omega

theorem sign_le (s : Bytes) : sign s ≤ s.length := by
  by_cases negative : byte s 0 = minus
  · rw [sign, if_pos negative]
    exact lt_length_of_byte (by rw [negative]; decide)
  · rw [sign, if_neg negative]
    exact Nat.zero_le _

theorem integer?_bounds {s : Bytes} {n : Nat} (h : integer? s = some n) :
    0 < n ∧ n ≤ s.length := by
  unfold integer? at h
  split at h
  · next isZero =>
      obtain rfl := Option.some.inj h
      exact ⟨Nat.one_pos, lt_length_of_byte (by rw [isZero]; decide)⟩
  · split at h
    · next leading =>
        obtain rfl := Option.some.inj h
        have inside := lt_length_of_byte (ne_zero_of_one_le leading.1)
        exact ⟨by omega, digits_drop_le inside⟩
    · cases h

theorem fraction_le (s : Bytes) : (fraction s).2 ≤ s.length := by
  unfold fraction
  split
  · split
    · next digit => exact digits_drop_le (lt_length_of_byte (ne_zero_of_isDigit digit))
    · exact Nat.zero_le _
  · exact Nat.zero_le _

theorem exponent_le (s : Bytes) : exponent s ≤ s.length := by
  unfold exponent
  split
  · dsimp only
    split
    · next digit => exact digits_drop_le (lt_length_of_byte (ne_zero_of_isDigit digit))
    · exact Nat.zero_le _
  · exact Nat.zero_le _

theorem tail_le (s : Bytes) : tail s ≤ s.length := by
  have front := fraction_le s
  unfold tail
  rcases part : fraction s with ⟨goesOn, n⟩
  rw [part] at front
  cases goesOn with
  | true =>
      have behind := exponent_le (s.drop n)
      rw [List.length_drop] at behind
      simp only [if_true]
      omega
  | false => exact front

theorem number?_bounds {s : Bytes} {n : Nat} (h : number? s = some n) : 0 < n ∧ n ≤ s.length := by
  unfold number? at h
  cases leading : integer? (s.drop (sign s)) with
  | none => rw [leading] at h; cases h
  | some m =>
      rw [leading] at h
      obtain rfl := Option.some.inj h
      obtain ⟨some, front⟩ := integer?_bounds leading
      have signed := sign_le s
      have behind := tail_le (s.drop (sign s + m))
      rw [List.length_drop] at front behind
      dsimp only
      omega

theorem oneOf?_bounds {s : Bytes} {words : List Bytes} {n : Nat} (some : [] ∉ words)
    (h : oneOf? s words = Option.some n) : 0 < n ∧ n ≤ s.length := by
  induction words with
  | nil => cases h
  | cons word rest ih =>
      rw [oneOf?] at h
      split at h
      · next here =>
          obtain rfl := Option.some.inj h
          refine ⟨?_, (List.isPrefixOf_iff_prefix.mp here).length_le⟩
          apply List.length_pos_iff.mpr
          rintro rfl
          exact some List.mem_cons_self
      · exact ih (fun member => some (List.mem_cons_of_mem _ member)) h

theorem literal?_bounds {s : Bytes} {n : Nat} (h : literal? s = some n) : 0 < n ∧ n ≤ s.length :=
  oneOf?_bounds (by decide) h

theorem stringRest_le (escaped : Bool) (s : Bytes) : (stringRest escaped s).2 ≤ s.length := by
  induction s generalizing escaped with
  | nil => exact Nat.le_refl _
  | cons c s ih =>
      by_cases isNul : c = nul
      · rw [isNul, stringRest_of_nul]
        exact Nat.zero_le _
      · by_cases closes : c = quote ∧ escaped = false
        · obtain ⟨rfl, rfl⟩ := closes
          rw [stringRest_of_close]
          exact Nat.succ_le_succ (Nat.zero_le _)
        · rw [stringRest_cons s isNul closes]
          exact Nat.succ_le_succ (ih _)

theorem string_bounds {s : Bytes} (isQuote : byte s 0 = quote) :
    0 < (string s).2 ∧ (string s).2 ≤ s.length := by
  have inside := lt_length_of_byte (s := s) (i := 0) (by rw [isQuote]; decide)
  have bound := stringRest_le false (s.drop 1)
  rw [List.length_drop] at bound
  refine ⟨Nat.succ_pos _, ?_⟩
  change (stringRest false (s.drop 1)).2 + 1 ≤ s.length
  omega

end JsonEvents.Scan
