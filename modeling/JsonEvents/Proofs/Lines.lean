import JsonEvents.Proofs.Scan

/-!
# The lines of a text

A line ends behind a line feed, and behind a carriage return that no line feed
follows, so the two together are one terminator.  Everything else about lines is
read off the list of the places where they end.
-/

namespace JsonEvents.Lines

open Ascii

/-- Whether a line ends behind the byte at a place. -/
def isEnd (s : Bytes) (place : Nat) : Bool :=
  Scan.byte s place == lineFeed ||
    (Scan.byte s place == carriageReturn && Scan.byte s (place + 1) != lineFeed)

/-- The places behind the terminators that end at or before a place. -/
def ends (s : Bytes) (place : Nat) : List Nat :=
  ((List.range place).filter (isEnd s)).map (· + 1)

/-- The number of the line that a place is in, counted from one. -/
def number (s : Bytes) (place : Nat) : Nat := (ends s place).length + 1

/-- The place where the line of a place begins. -/
def start (s : Bytes) (place : Nat) : Nat := (ends s place).getLastD 0

/-- Counted from one, too. -/
def column (s : Bytes) (place : Nat) : Nat := place - start s place + 1

/-- Whether a line goes on over the byte. -/
def isInside (c : UInt8) : Bool := !(c == nul || c == lineFeed || c == carriageReturn)

/-- Where the line of a place stops, which is the place itself if that is in a terminator. -/
def stop (s : Bytes) (place : Nat) : Nat := place + Scan.run isInside (s.drop place)

/-- The bytes of the line that a place is in. -/
def text (s : Bytes) (place : Nat) : Bytes :=
  (s.drop (start s place)).take (stop s place - start s place)

variable {s : Bytes} {place later : Nat}

/-! ## From a place to the next one -/

theorem ends_succ_of_end (h : isEnd s place = true) :
    ends s (place + 1) = ends s place ++ [place + 1] := by
  simp [ends, List.range_succ, h]

theorem ends_succ_of_inside (h : isEnd s place = false) : ends s (place + 1) = ends s place := by
  simp [ends, List.range_succ, h]

theorem number_succ_of_end (h : isEnd s place = true) :
    number s (place + 1) = number s place + 1 := by
  simp [number, ends_succ_of_end h]

theorem number_succ_of_inside (h : isEnd s place = false) :
    number s (place + 1) = number s place := by
  simp [number, ends_succ_of_inside h]

theorem start_succ_of_end (h : isEnd s place = true) : start s (place + 1) = place + 1 := by
  simp [start, ends_succ_of_end h]

theorem start_succ_of_inside (h : isEnd s place = false) :
    start s (place + 1) = start s place := by
  simp [start, ends_succ_of_inside h]

theorem start_le (s : Bytes) (place : Nat) : start s place ≤ place := by
  induction place with
  | zero => exact Nat.le_refl _
  | succ place ih =>
      cases isEnd : isEnd s place with
      | true => exact Nat.le_of_eq (start_succ_of_end isEnd)
      | false =>
          rw [start_succ_of_inside isEnd]
          exact Nat.le_succ_of_le ih

theorem column_zero (s : Bytes) : column s 0 = 1 := rfl

theorem column_succ_of_inside (h : isEnd s place = false) :
    column s (place + 1) = column s place + 1 := by
  have bound := start_le s place
  simp only [column, start_succ_of_inside h]
  omega

theorem column_succ_le (s : Bytes) (place : Nat) : column s (place + 1) ≤ column s place + 1 := by
  cases isEnd : isEnd s place with
  | true =>
      rw [column, start_succ_of_end isEnd, Nat.sub_self]
      exact Nat.le_add_left _ _
  | false => exact Nat.le_of_eq (column_succ_of_inside isEnd)

/-- Every line fits in so many bytes, with one to spare for the byte that ends it. -/
def Fit (s : Bytes) (top : Nat) : Prop := ∀ place < s.length, column s place < top

theorem fit_length (s : Bytes) : Fit s (s.length + 1) := by
  intro place inside
  have bound : column s place ≤ place + 1 := Nat.succ_le_succ (Nat.sub_le _ _)
  omega

/-! ## Terminators -/

theorem isEnd_of_lineFeed (h : Scan.byte s place = lineFeed) : isEnd s place = true := by
  rw [isEnd, h]
  rfl

theorem isEnd_of_carriageReturn (h : Scan.byte s place = carriageReturn)
    (alone : Scan.byte s (place + 1) ≠ lineFeed) : isEnd s place = true := by
  rw [isEnd, h, bne_iff_ne.mpr alone]
  rfl

/-- A carriage return with a line feed behind it ends no line; the line feed does. -/
theorem isEnd_of_pair (h : Scan.byte s place = carriageReturn)
    (both : Scan.byte s (place + 1) = lineFeed) : isEnd s place = false := by
  rw [isEnd, h, both]
  rfl

theorem isEnd_of_other (feed : Scan.byte s place ≠ lineFeed)
    (carriage : Scan.byte s place ≠ carriageReturn) : isEnd s place = false := by
  rw [isEnd, beq_false_of_ne feed, beq_false_of_ne carriage]
  rfl

/-! ## Where a line stops -/

theorem stop_of_inside (h : isInside (Scan.byte s place) = true) :
    stop s place = stop s (place + 1) := by
  have h : isInside (Scan.byte (s.drop place) 0) = true := by rwa [Scan.byte_drop]
  rw [stop, Scan.run_of_byte rfl h, List.drop_drop, stop]
  omega

theorem stop_of_outside (h : isInside (Scan.byte s place) = false) : stop s place = place := by
  have h : isInside (Scan.byte (s.drop place) 0) = false := by rwa [Scan.byte_drop]
  rw [stop, Scan.run_of_not_byte h, Nat.add_zero]

theorem isInside_eq_false {c : UInt8} :
    isInside c = false ↔ c = nul ∨ c = lineFeed ∨ c = carriageReturn := by
  rw [isInside, Bool.not_eq_false']
  simp only [Bool.or_eq_true, beq_iff_eq, or_assoc]

/-- A byte that the line goes on over ends no line. -/
theorem isEnd_of_isInside (h : isInside (Scan.byte s place) = true) : isEnd s place = false := by
  apply isEnd_of_other
  · intro feed
    rw [feed] at h
    cases h
  · intro carriage
    rw [carriage] at h
    cases h

/-! ## The first NUL -/

theorem byte_idxOf (s : Bytes) : Scan.byte s (s.idxOf 0) = 0 := by
  unfold Scan.byte
  rcases Nat.lt_or_ge (s.idxOf 0) s.length with inside | behind
  · rw [List.getElem?_eq_getElem inside, List.getElem_idxOf inside]
    rfl
  · rw [List.getElem?_eq_none behind]
    rfl

theorem byte_ne_of_lt_idxOf (h : place < s.idxOf 0) : Scan.byte s place ≠ 0 := by
  have inside := Nat.lt_of_lt_of_le h List.idxOf_le_length
  rw [Scan.byte, List.getElem?_eq_getElem inside, Option.getD_some]
  simpa using List.not_of_lt_findIdx h

theorem lt_idxOf (clean : ∀ i < place, Scan.byte s i ≠ 0) (some : Scan.byte s place ≠ 0) :
    place < s.idxOf 0 := by
  have isNul := byte_idxOf s
  rcases Nat.lt_trichotomy place (s.idxOf 0) with before | rfl | behind
  · exact before
  · exact absurd isNul some
  · exact absurd isNul (clean _ behind)

theorem idxOf_eq (clean : ∀ i < place, Scan.byte s i ≠ 0) (nul : Scan.byte s place = 0) :
    s.idxOf 0 = place := by
  rcases Nat.lt_trichotomy place (s.idxOf 0) with before | same | behind
  · exact absurd nul (byte_ne_of_lt_idxOf before)
  · exact same.symm
  · exact absurd (byte_idxOf s) (clean _ behind)

/-! ## Places told apart -/

theorem ends_isPrefix (h : place ≤ later) : ends s place <+: ends s later := by
  induction h with
  | refl => exact List.prefix_refl _
  | @step later _ ih =>
      cases isEnd : isEnd s later with
      | true =>
          rw [ends_succ_of_end isEnd]
          exact ih.trans (List.prefix_append _ _)
      | false => rwa [ends_succ_of_inside isEnd]

/-- A place is told by its line and column. -/
theorem place_of_number_column (line : number s place = number s later)
    (column : column s place = column s later) : place = later := by
  have same : ends s place = ends s later := by
    have length : (ends s place).length = (ends s later).length := Nat.succ.inj line
    rcases Nat.le_total place later with before | behind
    · exact (ends_isPrefix before).eq_of_length length
    · exact ((ends_isPrefix behind).eq_of_length length.symm).symm
  have bound := start_le s place
  have bound' := start_le s later
  simp only [Lines.column, start, same] at *
  omega

/-! ## The front of a text -/

theorem isEnd_take (h : Scan.byte s place ≠ lineFeed) {i : Nat} (before : i < place) :
    isEnd (s.take place) i = isEnd s i := by
  have front : ∀ j < place, Scan.byte (s.take place) j = Scan.byte s j := by
    intro j inside
    rw [Scan.byte, List.getElem?_take_of_lt inside, Scan.byte]
  rcases Nat.lt_or_eq_of_le (Nat.succ_le_of_lt before) with inside | rfl
  · rw [isEnd, front i before, front (i + 1) inside, isEnd]
  · -- The byte behind the front is cut off, but it is not the second one of a pair.
    have behind : Scan.byte (s.take (i + 1)) (i + 1) = 0 := by
      rw [Scan.byte, List.getElem?_take_eq_none (Nat.le_refl _)]
      rfl
    rw [isEnd, front i before, behind, isEnd, bne_iff_ne.mpr h]
    rfl

/-- The lines in front of a place are those of the bytes in front of it, but within a pair. -/
theorem ends_take (h : Scan.byte s place ≠ lineFeed) :
    ends (s.take place) place = ends s place := by
  have same : (List.range place).filter (isEnd (s.take place)) =
      (List.range place).filter (isEnd s) :=
    List.filter_congr fun i member => isEnd_take h (List.mem_range.mp member)
  rw [ends, same, ends]

theorem number_take (h : Scan.byte s place ≠ lineFeed) :
    number (s.take place) place = number s place := by
  rw [number, ends_take h, number]

theorem column_take (h : Scan.byte s place ≠ lineFeed) :
    column (s.take place) place = column s place := by
  rw [column, start, ends_take h, column, start]

/-! ## One line after the other -/

/-- The lines of a text, each with its terminator, which the last one may lack. -/
def split : Bytes → List Bytes
  | [] => []
  | c :: rest =>
      if isEnd (c :: rest) 0 then [c] :: split rest
      else
        match split rest with
        | [] => [[c]]
        | line :: more => (c :: line) :: more

theorem split_of_end {c : UInt8} (h : isEnd (c :: s) 0 = true) :
    split (c :: s) = [c] :: split s := if_pos h

theorem split_of_inside {c : UInt8} {line : Bytes} {more : List Bytes}
    (h : isEnd (c :: s) 0 = false) (rest : split s = line :: more) :
    split (c :: s) = (c :: line) :: more := by
  rw [split, h, rest]
  rfl

theorem column_succ_of_end (h : isEnd s place = true) : column s (place + 1) = 1 := by
  rw [column, start_succ_of_end h, Nat.sub_self]

theorem number_cons (c : UInt8) (s : Bytes) (place : Nat) :
    number (c :: s) (place + 1) = number s place + if isEnd (c :: s) 0 then 1 else 0 := by
  have behind (place : Nat) : isEnd (c :: s) (place + 1) = isEnd s place := rfl
  induction place with
  | zero =>
      cases first : isEnd (c :: s) 0 with
      | true => exact number_succ_of_end first
      | false => exact number_succ_of_inside first
  | succ place ih =>
      cases isEnd : isEnd s place with
      | true =>
          rw [number_succ_of_end ((behind place).trans isEnd), ih, number_succ_of_end isEnd]
          omega
      | false =>
          rw [number_succ_of_inside ((behind place).trans isEnd), ih, number_succ_of_inside isEnd]

/-- A byte in front shifts the columns of the first line, unless it is a line of its own. -/
theorem column_cons (c : UInt8) (s : Bytes) (place : Nat) :
    column (c :: s) (place + 1) =
      column s place + if isEnd (c :: s) 0 = false ∧ number s place = 1 then 1 else 0 := by
  have behind (place : Nat) : isEnd (c :: s) (place + 1) = isEnd s place := rfl
  induction place with
  | zero =>
      cases first : isEnd (c :: s) 0 with
      | true => exact column_succ_of_end first
      | false => exact column_succ_of_inside first
  | succ place ih =>
      cases isEnd : isEnd s place with
      | true =>
          have later : number s place + 1 ≠ 1 := Nat.succ_ne_succ_iff.mpr (Nat.succ_ne_zero _)
          rw [column_succ_of_end ((behind place).trans isEnd), column_succ_of_end isEnd,
            number_succ_of_end isEnd, if_neg fun first => later first.2]
      | false =>
          rw [column_succ_of_inside ((behind place).trans isEnd), ih, column_succ_of_inside isEnd,
            number_succ_of_inside isEnd, Nat.add_right_comm]

/-- Every place is on the line of its number, which reaches as far as its column. -/
theorem exists_line (inside : place < s.length) :
    ∃ line, (split s)[number s place - 1]? = some line ∧ column s place ≤ line.length := by
  induction s generalizing place with
  | nil => exact absurd inside (Nat.not_lt_zero place)
  | cons c s ih =>
      cases place with
      | zero =>
          have first : number (c :: s) 0 - 1 = 0 := rfl
          rw [first, column_zero, split]
          split
          · exact ⟨[c], rfl, Nat.le_refl 1⟩
          · split
            · exact ⟨[c], rfl, Nat.le_refl 1⟩
            · next line more _ => exact ⟨c :: line, rfl, Nat.succ_le_succ (Nat.zero_le _)⟩
      | succ place =>
          obtain ⟨line, found, reaches⟩ := ih (Nat.lt_of_succ_lt_succ inside)
          obtain ⟨before, isNumber⟩ : ∃ before, number s place = before + 1 := ⟨_, rfl⟩
          rw [isNumber, Nat.add_sub_cancel] at found
          rw [number_cons, column_cons, isNumber]
          cases isEnd : isEnd (c :: s) 0 with
          | true => exact ⟨line, by rw [split_of_end isEnd]; exact found, reaches⟩
          | false =>
              obtain ⟨first, more, rest⟩ : ∃ first more, split s = first :: more := by
                cases rest : split s with
                | nil => rw [rest] at found; cases found
                | cons first more => exact ⟨first, more, rfl⟩
              rw [rest] at found
              rw [split_of_inside isEnd rest]
              cases before with
              | zero =>
                  obtain rfl := Option.some.inj found
                  exact ⟨c :: first, rfl, Nat.succ_le_succ reaches⟩
              | succ before => exact ⟨line, found, reaches⟩

theorem fit_of_split {top : Nat} (short : ∀ line ∈ split s, line.length < top) : Fit s top := by
  intro place inside
  obtain ⟨line, found, reaches⟩ := exists_line inside
  exact Nat.lt_of_le_of_lt reaches (short line (List.mem_of_getElem? found))

end JsonEvents.Lines
