import JsonEvents.Proofs.Scan

/-!
# How far a scan looks

`numberLooks` and its like count the bytes of a text up to the furthest one that
a scan looks at.  All but the last of them are there (`Ahead`), so a scan looks
no further than to the first byte behind the end of its text.
-/

namespace JsonEvents.Scan

open Ascii

def integerLooks (s : Bytes) : Nat :=
  if byte s 0 = zero then 1
  else if one ≤ byte s 0 ∧ byte s 0 ≤ nine then 1 + (digits (s.drop 1) + 1)
  else 1

def fractionLooks (s : Bytes) : Nat :=
  if byte s 0 = point then
    if isDigit (byte s 1) then 2 + (digits (s.drop 2) + 1) else 2
  else
    1

def exponentLooks (s : Bytes) : Nat :=
  if isExponentMark (byte s 0) then
    let lead := Window.exponentLead (byte s 1)
    if isDigit (byte s lead) then lead + 1 + (digits (s.drop (lead + 1)) + 1) else lead + 1
  else
    1

def tailLooks (s : Bytes) : Nat :=
  let (goesOn, n) := fraction s
  max (fractionLooks s) (if goesOn then n + exponentLooks (s.drop n) else 0)

def numberLooks (s : Bytes) : Nat :=
  let m := s.drop (sign s)
  sign s + max (integerLooks m)
    (match integer? m with
      | some n => n + tailLooks (m.drop n)
      | none => 0)

def spellsLooks (s : Bytes) : Bytes → Nat
  | [] => 0
  | c :: rest => if byte s 0 = c then 1 + spellsLooks (s.drop 1) rest else 1

def oneOfLooks (s : Bytes) : List Bytes → Nat
  | [] => 0
  | word :: rest => max (spellsLooks s word) (if word.isPrefixOf s then 0 else oneOfLooks s rest)

def literalLooks (s : Bytes) : Nat := oneOfLooks s Window.literals

/-- A string that is closed is looked at up to its closing quote, and any other one byte further. -/
def stringRestLooks (escaped : Bool) (s : Bytes) : Nat :=
  let (closed, n) := stringRest escaped s
  if closed then n else n + 1

def stringLooks (s : Bytes) : Nat := 1 + stringRestLooks false (s.drop 1)

/-- Behind a key its colon is looked for. -/
def keyLooks (s : Bytes) : Nat :=
  let (closed, n) := string s
  max (stringLooks s) (if closed then n + (blanks (s.drop n) + 1) else 0)

def scalarLooks (s : Bytes) : Nat :=
  if byte s 0 = quote then stringLooks s
  else max (numberLooks s) (if (number? s).isSome then 0 else literalLooks s)

theorem stringRestLooks_pos (escaped : Bool) (s : Bytes) : 0 < stringRestLooks escaped s := by
  cases s with
  | nil => exact Nat.one_pos
  | cons c s =>
      by_cases isNul : c = nul
      · rw [isNul]
        exact Nat.one_pos
      · by_cases closes : c = quote ∧ escaped = false
        · obtain ⟨rfl, rfl⟩ := closes
          exact Nat.one_pos
        · rw [stringRestLooks, stringRest_cons s isNul closes]
          dsimp only
          split <;> exact Nat.succ_pos _

theorem stringRestLooks_of_nul (escaped : Bool) {s : Bytes} (isNul : byte s 0 = nul) :
    stringRestLooks escaped s = 1 := by
  cases s with
  | nil => rfl
  | cons c s =>
      rw [show c = nul from isNul]
      rfl

theorem stringRestLooks_cons {escaped : Bool} {c : UInt8} (s : Bytes) (some : c ≠ nul)
    (inside : ¬ (c = quote ∧ escaped = false)) :
    stringRestLooks escaped (c :: s) = 1 + stringRestLooks (c == backslash && !escaped) s := by
  rw [stringRestLooks, stringRest_cons s some inside, stringRestLooks]
  dsimp only
  split <;> omega

/-! ## What is looked at -/

variable {p : UInt8 → Bool} {s : Bytes} {m n : Nat}

/-- The first `n` bytes are there and have a property. -/
def Spans (p : UInt8 → Bool) (s : Bytes) (n : Nat) : Prop :=
  ∀ k < n, ∃ c, s[k]? = some c ∧ p c = true

theorem spans_zero : Spans p s 0 := nofun

theorem spans_one (some : byte s 0 ≠ 0) (h : p (byte s 0) = true) : Spans p s 1 := by
  intro k first
  obtain rfl : k = 0 := by omega
  exact ⟨byte s 0, getElem?_of_byte rfl some, h⟩

theorem Spans.mono (h : Spans p s n) (less : m ≤ n) : Spans p s m :=
  fun k inside => h k (Nat.lt_of_lt_of_le inside less)

theorem Spans.imp {q : UInt8 → Bool} (h : Spans p s n) (imp : ∀ c, p c = true → q c = true) :
    Spans q s n :=
  fun k inside => (h k inside).imp fun c here => ⟨here.1, imp c here.2⟩

theorem Spans.add (h : Spans p s m) (h' : Spans p (s.drop m) n) : Spans p s (m + n) := by
  intro k inside
  by_cases front : k < m
  · exact h k front
  · obtain ⟨c, here, holds⟩ := h' (k - m) (by omega)
    rw [List.getElem?_drop, show m + (k - m) = k by omega] at here
    exact ⟨c, here, holds⟩

theorem Spans.le (h : Spans p s n) : n ≤ s.length := by
  cases n with
  | zero => exact Nat.zero_le _
  | succ n =>
      obtain ⟨c, here, _⟩ := h n (Nat.lt_succ_self n)
      exact (List.getElem?_eq_some_iff.mp here).1

theorem spans_run (p : UInt8 → Bool) (s : Bytes) : Spans p s (run p s) := by
  induction s with
  | nil => exact spans_zero
  | cons c s ih =>
      cases h : p c with
      | false =>
          rw [show run p (c :: s) = 0 by simp [run, h]]
          exact spans_zero
      | true =>
          rw [show run p (c :: s) = 1 + run p s by simp [run, h, Nat.add_comm]]
          refine Spans.add ?_ ih
          intro k first
          obtain rfl : k = 0 := by omega
          exact ⟨c, rfl, h⟩

/-- Of the first `n` bytes all but the last are there and have a property. -/
def Ahead (p : UInt8 → Bool) (s : Bytes) (n : Nat) : Prop := ∃ k, n = k + 1 ∧ Spans p s k

theorem ahead_one : Ahead p s 1 := ⟨0, rfl, spans_zero⟩

theorem Ahead.add (h : Spans p s m) (h' : Ahead p (s.drop m) n) : Ahead p s (m + n) := by
  obtain ⟨k, rfl, spans⟩ := h'
  exact ⟨m + k, rfl, h.add spans⟩

theorem Ahead.max (h : Ahead p s m) (h' : Ahead p s n) : Ahead p s (max m n) := by
  rcases Nat.le_total m n with less | less
  · rwa [Nat.max_eq_right less]
  · rwa [Nat.max_eq_left less]

theorem Ahead.max_zero (h : Ahead p s m) : Ahead p s (Max.max m 0) := by
  rwa [Nat.max_eq_left (Nat.zero_le m)]

theorem Ahead.pos (h : Ahead p s n) : 0 < n := by
  obtain ⟨k, rfl, _⟩ := h
  exact Nat.succ_pos k

/-- Whether a byte is no white space. -/
def dark (c : UInt8) : Bool := !isSpace c

theorem dark_of_isDigit {c : UInt8} (h : isDigit c = true) : dark c = true := by
  cases blank : isSpace c with
  | false => rw [dark, blank]; rfl
  | true =>
      simp only [isSpace, Bool.or_eq_true, beq_iff_eq] at blank
      rcases blank with ((rfl | rfl) | rfl) | rfl <;> cases h

theorem dark_of_isExponentMark {c : UInt8} (h : isExponentMark c = true) : dark c = true := by
  simp only [isExponentMark, Bool.or_eq_true, beq_iff_eq] at h
  rcases h with rfl | rfl <;> rfl

theorem dark_of_isSign {c : UInt8} (h : isSign c = true) : dark c = true := by
  simp only [isSign, Bool.or_eq_true, beq_iff_eq] at h
  rcases h with rfl | rfl <;> rfl

theorem dark_of_leading {c : UInt8} (h : one ≤ c ∧ c ≤ nine) : dark c = true := by
  apply dark_of_isDigit
  simp only [isDigit, Bool.and_eq_true, decide_eq_true_eq]
  exact ⟨UInt8.le_trans (by decide) h.1, h.2⟩

theorem spans_digits (s : Bytes) : Spans dark s (digits s) :=
  (spans_run isDigit s).imp fun _ => dark_of_isDigit

theorem ahead_digits (s : Bytes) : Ahead dark s (digits s + 1) := ⟨_, rfl, spans_digits s⟩

theorem spans_sign (s : Bytes) : Spans dark s (sign s) := by
  unfold sign
  split
  · next negative => exact spans_one (by rw [negative]; decide) (by rw [negative]; rfl)
  · exact spans_zero

theorem ahead_integer (s : Bytes) : Ahead dark s (integerLooks s) := by
  unfold integerLooks
  split
  · exact ahead_one
  · split
    · next leading =>
        have first := spans_one (ne_zero_of_one_le leading.1) (dark_of_leading leading)
        exact .add first (ahead_digits _)
    · exact ahead_one

theorem spans_integer (h : integer? s = some n) : Spans dark s n := by
  unfold integer? at h
  split at h
  · next isZero =>
      obtain rfl := Option.some.inj h
      exact spans_one (by rw [isZero]; decide) (by rw [isZero]; rfl)
  · split at h
    · next leading =>
        obtain rfl := Option.some.inj h
        have first := spans_one (ne_zero_of_one_le leading.1) (dark_of_leading leading)
        exact first.add (spans_digits _)
    · cases h

/-- A byte behind another one that is no white space. -/
theorem spans_two (first : Spans dark s 1) {c : UInt8} (second : byte s 1 = c) (some : c ≠ 0)
    (isDark : dark c = true) : Spans dark s 2 := by
  have here : byte (s.drop 1) 0 = c := (byte_drop s 1 0).trans second
  exact first.add (spans_one (by rwa [here]) (by rwa [here]))

theorem spans_point (isPoint : byte s 0 = point) : Spans dark s 1 :=
  spans_one (by rw [isPoint]; decide) (by rw [isPoint]; rfl)

theorem ahead_fraction (s : Bytes) : Ahead dark s (fractionLooks s) := by
  unfold fractionLooks
  split
  · next isPoint =>
      split
      · next digit =>
          have both := spans_two (spans_point isPoint) rfl (ne_zero_of_isDigit digit)
            (dark_of_isDigit digit)
          exact .add both (ahead_digits _)
      · exact ⟨1, rfl, spans_point isPoint⟩
  · exact ahead_one

theorem spans_fraction (s : Bytes) : Spans dark s (fraction s).2 := by
  unfold fraction
  split
  · next isPoint =>
      split
      · next digit =>
          have both := spans_two (spans_point isPoint) rfl (ne_zero_of_isDigit digit)
            (dark_of_isDigit digit)
          exact both.add (spans_digits _)
      · exact spans_zero
  · exact spans_zero

/-- The bytes in front of the first digit of an exponent. -/
theorem spans_lead (mark : isExponentMark (byte s 0) = true) :
    Spans dark s (Window.exponentLead (byte s 1)) := by
  have first := spans_one (ne_zero_of_isExponentMark mark) (dark_of_isExponentMark mark)
  unfold Window.exponentLead
  split
  · next signed => exact spans_two first rfl (ne_zero_of_isSign signed) (dark_of_isSign signed)
  · exact first

theorem ahead_exponent (s : Bytes) : Ahead dark s (exponentLooks s) := by
  unfold exponentLooks
  split
  · next mark =>
      dsimp only
      split
      · next digit =>
          have here := byte_drop s (Window.exponentLead (byte s 1)) 0
          rw [Nat.add_zero] at here
          have some : byte (s.drop (Window.exponentLead (byte s 1))) 0 ≠ 0 := by
            rw [here]
            exact ne_zero_of_isDigit digit
          have isDark : dark (byte (s.drop (Window.exponentLead (byte s 1))) 0) = true := by
            rw [here]
            exact dark_of_isDigit digit
          exact .add ((spans_lead mark).add (spans_one some isDark)) (ahead_digits _)
      · exact ⟨_, rfl, spans_lead mark⟩
  · exact ahead_one

theorem ahead_tail (s : Bytes) : Ahead dark s (tailLooks s) := by
  have front := spans_fraction s
  have looks := ahead_fraction s
  unfold tailLooks
  rcases part : fraction s with ⟨goesOn, n⟩
  rw [part] at front
  cases goesOn with
  | true => exact looks.max (.add front (ahead_exponent _))
  | false => exact looks.max_zero

theorem ahead_number (s : Bytes) : Ahead dark s (numberLooks s) := by
  have looks := ahead_integer (s.drop (sign s))
  refine .add (spans_sign s) ?_
  cases integer : integer? (s.drop (sign s)) with
  | none => exact looks.max_zero
  | some n => exact looks.max (.add (spans_integer integer) (ahead_tail _))

/-- Whether a word consists of bytes that are neither NUL nor white space, and has some. -/
def IsWord (word : Bytes) : Prop := word ≠ [] ∧ ∀ c ∈ word, c ≠ 0 ∧ dark c = true

instance (word : Bytes) : Decidable (IsWord word) := inferInstanceAs (Decidable (_ ∧ _))

theorem ahead_spells {word : Bytes} (h : IsWord word) : Ahead dark s (spellsLooks s word) := by
  obtain ⟨some, letters⟩ := h
  induction word generalizing s with
  | nil => exact absurd rfl some
  | cons c rest ih =>
      rw [spellsLooks]
      split
      · next same =>
          cases rest with
          | nil => exact ahead_one
          | cons d tail =>
              obtain ⟨letter, isDark⟩ := letters c List.mem_cons_self
              have first : Spans dark s 1 := spans_one (same ▸ letter) (same ▸ isDark)
              exact .add first (ih (List.cons_ne_nil d tail)
                fun x member => letters x (List.mem_cons_of_mem c member))
      · exact ahead_one

theorem ahead_oneOf {words : List Bytes} (some : words ≠ []) (h : ∀ word ∈ words, IsWord word) :
    Ahead dark s (oneOfLooks s words) := by
  induction words with
  | nil => exact absurd rfl some
  | cons word rest ih =>
      have here := ahead_spells (s := s) (h word List.mem_cons_self)
      rw [oneOfLooks]
      split
      · exact here.max_zero
      · cases rest with
        | nil => exact here.max_zero
        | cons next rest =>
            exact here.max (ih (List.cons_ne_nil next rest)
              fun x member => h x (List.mem_cons_of_mem word member))

theorem isWord_literals : ∀ word ∈ Window.literals, IsWord word := by decide +kernel

theorem ahead_literal (s : Bytes) : Ahead dark s (literalLooks s) :=
  ahead_oneOf (by decide) isWord_literals

/-! ## Keys and scalars -/

/-- A string is looked at to its end, and when it is not closed at the byte behind it too. -/
theorem stringLooks_eq (s : Bytes) :
    stringLooks s = if (string s).1 then (string s).2 else (string s).2 + 1 := by
  unfold stringLooks stringRestLooks string
  dsimp only
  split <;> omega

theorem stringLooks_pos (s : Bytes) : 0 < stringLooks s := by
  rw [stringLooks]
  omega

theorem keyLooks_pos (s : Bytes) : 0 < keyLooks s :=
  Nat.lt_of_lt_of_le (stringLooks_pos s) (Nat.le_max_left _ _)

theorem scalarLooks_pos (s : Bytes) : 0 < scalarLooks s := by
  unfold scalarLooks
  split
  · exact stringLooks_pos s
  · exact Nat.lt_of_lt_of_le (ahead_number s).pos (Nat.le_max_left _ _)

end JsonEvents.Scan
