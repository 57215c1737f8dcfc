import JsonEvents.Excerpt

/-!
# What an excerpt shows of a line

An excerpt shows one block of a line.  The line is cut in one of four ways
(`Cut`), and whichever it is, the block holds the column with some bytes on either
side of it, the marks stand where bytes are left out, and the whole is short
(`presents_ofLine`).  None of the differences that make the excerpt passes below
zero (`ofLine?_eq`).
-/

namespace JsonEvents

open Ascii

namespace Digits

theorem space_le_digit {n : Nat} (small : n < 10) : space ≤ digit n := by
  rw [UInt8.le_iff_toNat_le, toNat_digit small]
  exact Nat.le_trans (show 32 ≤ 48 by decide) (Nat.le_add_right 48 n)

theorem space_le_of_mem_digits {n : Nat} {c : UInt8} (member : c ∈ digits n) : space ≤ c := by
  fun_induction digits n with
  | case1 n small =>
      obtain rfl := List.mem_singleton.mp member
      exact space_le_digit small
  | case2 n _ ih =>
      rcases List.mem_append.mp member with front | last
      · exact ih front
      · obtain rfl := List.mem_singleton.mp last
        exact space_le_digit (Nat.mod_lt n (show 0 < 10 by decide))

theorem space_le_of_mem_padded {width n : Nat} {c : UInt8} (member : c ∈ padded width n) :
    space ≤ c := by
  rcases List.mem_append.mp member with blank | digit
  · rw [List.eq_of_mem_replicate blank]
    exact UInt8.le_refl _
  · exact space_le_of_mem_digits digit

end Digits

namespace Excerpt

variable {text : Bytes} {length column first size : Nat}

/-! ## Ways to cut -/

/-- Where the shown block of a line begins and how many bytes it has. -/
inductive Cut (length column : Nat) : Nat → Nat → Prop
  | whole (fits : length ≤ limit) : Cut length column 0 length
  | front (long : limit < length) (near : column ≤ limit - radius) :
      Cut length column 0 (limit - ellipsis.length)
  | rear (long : limit < length) (far : limit - radius < column)
      (last : length ≤ column + radius + ellipsis.length) :
      Cut length column (length - (2 * radius + ellipsis.length + 1))
        (2 * radius + ellipsis.length + 1)
  | middle (long : limit < length) (far : limit - radius < column)
      (more : column + radius + ellipsis.length < length) :
      Cut length column (column - (radius + 1)) (2 * radius + 1)

/-- The mark of an end at which bytes are left out. -/
def mark (cut : Bool) : Bytes := if cut then ellipsis else []

/-- The excerpt that shows a block of a line. -/
def framed (text : Bytes) (column first size : Nat) : Excerpt :=
  { front := mark (first != 0)
    shown := ((text.drop first).take size).map visible
    rear := mark (first + size != text.length)
    column := (mark (first != 0)).length + (column - first) }

theorem limit_eq : limit = 60 := rfl

theorem radius_eq : radius = 20 := rfl

theorem length_ellipsis : ellipsis.length = 3 := rfl

theorem ofLine_of_rear (long : limit < text.length) (far : limit - radius < column)
    (last : text.length ≤ column + radius + ellipsis.length) :
    ofLine text column =
      framed text column (text.length - (2 * radius + ellipsis.length + 1))
        (2 * radius + ellipsis.length + 1) := by
  have begins : (text.length - (2 * radius + ellipsis.length + 1) != 0) = true := by
    rw [bne_iff_ne]
    simp only [limit_eq, radius_eq, length_ellipsis] at *
    omega
  have ends : (text.length - (2 * radius + ellipsis.length + 1) +
      (2 * radius + ellipsis.length + 1) != text.length) = false := by
    rw [bne_eq_false_iff_eq]
    simp only [limit_eq, radius_eq, length_ellipsis] at *
    omega
  have all : (text.drop (text.length - (2 * radius + ellipsis.length + 1))).take
        (2 * radius + ellipsis.length + 1) =
      text.drop (text.length - (2 * radius + ellipsis.length + 1)) := by
    apply List.take_of_length_le
    rw [List.length_drop]
    omega
  have moved : column - (text.length - (2 * radius + ellipsis.length + 1) - ellipsis.length) =
      ellipsis.length + (column - (text.length - (2 * radius + ellipsis.length + 1))) := by
    simp only [limit_eq, radius_eq, length_ellipsis] at *
    omega
  unfold ofLine framed
  dsimp only
  rw [if_neg (Nat.not_le_of_lt long), if_neg (Nat.not_le_of_lt far), if_pos last, begins, ends,
    all, moved]
  rfl

theorem ofLine_of_middle (long : limit < text.length) (far : limit - radius < column)
    (more : column + radius + ellipsis.length < text.length) :
    ofLine text column =
      framed text column (column - (radius + 1)) (2 * radius + 1) := by
  have begins : (column - (radius + 1) != 0) = true := by
    rw [bne_iff_ne]
    simp only [limit_eq, radius_eq] at far ⊢
    omega
  have ends : (column - (radius + 1) + (2 * radius + 1) != text.length) = true := by
    rw [bne_iff_ne]
    simp only [limit_eq, radius_eq, length_ellipsis] at far more ⊢
    omega
  have moved : radius + 1 + ellipsis.length =
      ellipsis.length + (column - (column - (radius + 1))) := by
    simp only [limit_eq, radius_eq, length_ellipsis] at far ⊢
    omega
  unfold ofLine framed
  dsimp only
  rw [if_neg (Nat.not_le_of_lt long), if_neg (Nat.not_le_of_lt far),
    if_neg (Nat.not_le_of_lt more), begins, ends, moved]
  rfl

/-- Every line is cut in one of the ways, which says all of its excerpt. -/
theorem exists_cut (text : Bytes) (column : Nat) :
    ∃ first size, Cut text.length column first size ∧
      ofLine text column = framed text column first size := by
  rcases Nat.lt_or_ge limit text.length with long | fits
  · rcases Nat.lt_or_ge (limit - radius) column with far | near
    · rcases Nat.lt_or_ge (column + radius + ellipsis.length) text.length with more | last
      · exact ⟨_, _, .middle long far more, ofLine_of_middle long far more⟩
      · exact ⟨_, _, .rear long far last, ofLine_of_rear long far last⟩
    · have ends : (0 + (limit - ellipsis.length) != text.length) = true := by
        rw [bne_iff_ne]
        simp only [limit_eq, length_ellipsis] at long ⊢
        omega
      refine ⟨_, _, .front long near, ?_⟩
      unfold ofLine framed
      dsimp only
      rw [if_neg (Nat.not_le_of_lt long), if_pos near, ends]
      simp [mark]
  · refine ⟨_, _, .whole fits, ?_⟩
    unfold ofLine framed
    dsimp only
    rw [if_pos fits]
    simp [mark]

/-! ## The shown block -/

/-- The least number of bytes beside the column, unless the line has fewer there. -/
def margin : Nat := 17

/-- An excerpt of a line whose shown block begins at a place of it. -/
structure Presents (text : Bytes) (column first : Nat) (e : Excerpt) : Prop where
  inside : first + e.shown.length ≤ text.length
  bytes : ∀ i < e.shown.length, ∀ c, text[first + i]? = some c →
    e.shown[i]? = some (if c < space ∨ c = delete then space else c)
  front : e.front = if first = 0 then [] else ellipsis
  rear : e.rear = if first + e.shown.length = text.length then [] else ellipsis
  whole : text.length ≤ limit → first = 0 ∧ e.shown.length = text.length
  short : (e.front ++ e.shown ++ e.rear).length ≤ limit
  holds : first < column ∧ (column ≤ first + e.shown.length ∨
    column = text.length + 1 ∧ first + e.shown.length = text.length)
  left : first = 0 ∨ margin ≤ column - 1 - first
  right : first + e.shown.length = text.length ∨ margin ≤ first + e.shown.length - column
  caret : e.column + first = e.front.length + column

theorem mark_bne (a b : Nat) : mark (a != b) = if a = b then [] else ellipsis := by
  by_cases same : a = b
  · rw [if_pos same, bne_eq_false_iff_eq.mpr same]
    rfl
  · rw [if_neg same, bne_iff_ne.mpr same]
    rfl

theorem length_mark_le (cut : Bool) : (mark cut).length ≤ ellipsis.length := by
  cases cut with
  | false => exact Nat.zero_le _
  | true => exact Nat.le_refl _

namespace Cut

theorem inside (h : Cut length column first size) : first + size ≤ length := by
  cases h with
  | whole => exact Nat.le_of_eq (Nat.zero_add _)
  | front => simp only [limit_eq, length_ellipsis] at *; omega
  | rear => simp only [limit_eq, radius_eq, length_ellipsis] at *; omega
  | middle => simp only [limit_eq, radius_eq, length_ellipsis] at *; omega

theorem whole_of_fits (h : Cut length column first size) (fits : length ≤ limit) :
    first = 0 ∧ size = length := by
  cases h with
  | whole => exact ⟨rfl, rfl⟩
  | front long => exact absurd fits (Nat.not_le_of_lt long)
  | rear long => exact absurd fits (Nat.not_le_of_lt long)
  | middle long => exact absurd fits (Nat.not_le_of_lt long)

/-- There is room for the marks. -/
theorem short (h : Cut length column first size) :
    (mark (first != 0)).length + size + (mark (first + size != length)).length ≤ limit := by
  have front := length_mark_le (first != 0)
  have rear := length_mark_le (first + size != length)
  cases h with
  | whole fits => simpa [mark] using fits
  | front =>
      have none : (mark (0 != 0)).length = 0 := rfl
      simp only [limit_eq, length_ellipsis] at *
      omega
  | rear => simp only [limit_eq, radius_eq, length_ellipsis] at *; omega
  | middle => simp only [limit_eq, radius_eq, length_ellipsis] at *; omega

theorem holds (h : Cut length column first size) (counted : 1 ≤ column)
    (reached : column ≤ length + 1) :
    first < column ∧ (column ≤ first + size ∨ column = length + 1 ∧ first + size = length) := by
  cases h with
  | whole => omega
  | front => simp only [limit_eq, radius_eq, length_ellipsis] at *; omega
  | rear => simp only [limit_eq, radius_eq, length_ellipsis] at *; omega
  | middle => simp only [limit_eq, radius_eq, length_ellipsis] at *; omega

theorem left (h : Cut length column first size) : first = 0 ∨ margin ≤ column - 1 - first := by
  cases h with
  | whole => exact .inl rfl
  | front => exact .inl rfl
  | rear => simp only [limit_eq, radius_eq, length_ellipsis, margin] at *; omega
  | middle => simp only [limit_eq, radius_eq, length_ellipsis, margin] at *; omega

theorem right (h : Cut length column first size) :
    first + size = length ∨ margin ≤ first + size - column := by
  cases h with
  | whole => exact .inl (Nat.zero_add _)
  | front => simp only [limit_eq, radius_eq, length_ellipsis, margin] at *; omega
  | rear => simp only [limit_eq, radius_eq, length_ellipsis] at *; omega
  | middle => simp only [limit_eq, radius_eq, length_ellipsis, margin] at *; omega

end Cut

theorem visible_eq (c : UInt8) : visible c = if c < space ∨ c = delete then space else c := by
  simp only [visible, Bool.or_eq_true, decide_eq_true_eq, beq_iff_eq]

theorem presents_framed (cut : Cut text.length column first size) (counted : 1 ≤ column)
    (reached : column ≤ text.length + 1) :
    Presents text column first (framed text column first size) := by
  have length : (framed text column first size).shown.length = size := by
    have inside := cut.inside
    rw [framed, List.length_map, List.length_take, List.length_drop]
    omega
  have holds := cut.holds counted reached
  constructor
  case inside => rw [length]; exact cut.inside
  case bytes =>
    intro i inside c here
    rw [length] at inside
    rw [framed, List.getElem?_map, List.getElem?_take_of_lt inside, List.getElem?_drop, here,
      ← visible_eq]
    rfl
  case front => exact mark_bne first 0
  case rear => rw [length]; exact mark_bne (first + size) text.length
  case whole => rw [length]; exact cut.whole_of_fits
  case short =>
    rw [List.length_append, List.length_append, length]
    exact cut.short
  case holds => rw [length]; exact holds
  case left => exact cut.left
  case right => rw [length]; exact cut.right
  case caret =>
    simp only [framed]
    omega

/-- An excerpt presents its line, whichever way that is cut. -/
theorem presents_ofLine (counted : 1 ≤ column) (reached : column ≤ text.length + 1) :
    ∃ first, Presents text column first (ofLine text column) := by
  obtain ⟨first, size, cut, same⟩ := exists_cut text column
  exact ⟨first, same ▸ presents_framed cut counted reached⟩

/-! ## Bytes that are shown -/

theorem space_le_visible (c : UInt8) : space ≤ visible c := by
  rw [visible_eq]
  split
  · exact UInt8.le_refl _
  · next plain => exact UInt8.not_lt.mp fun less => plain (.inl less)

theorem space_le_of_mem_mark {cut : Bool} {c : UInt8} (member : c ∈ mark cut) : space ≤ c := by
  cases cut with
  | false => cases member
  | true =>
      have dots : ellipsis = List.replicate 3 point := rfl
      rw [mark, if_pos rfl, dots] at member
      rw [List.eq_of_mem_replicate member]
      decide

/-- An excerpt has no control bytes. -/
theorem space_le_of_mem_parts {c : UInt8}
    (member : c ∈ (ofLine text column).front ++ (ofLine text column).shown ++
      (ofLine text column).rear) : space ≤ c := by
  obtain ⟨first, size, _, same⟩ := exists_cut text column
  rw [same, List.mem_append, List.mem_append] at member
  rcases member with (front | shown) | rear
  · exact space_le_of_mem_mark front
  · obtain ⟨d, _, rfl⟩ := List.mem_map.mp shown
    exact space_le_visible d
  · exact space_le_of_mem_mark rear

theorem space_le_of_mem_topLine {line : Nat} {c : UInt8}
    (member : c ∈ (ofLine text column).topLine line) : space ≤ c := by
  rw [topLine, List.append_assoc, List.append_assoc,
    ← List.append_assoc _ _ (ofLine text column).rear, List.mem_append, List.mem_append] at member
  rcases member with (number | behind) | parts
  · exact Digits.space_le_of_mem_padded number
  · rcases List.mem_cons.mp behind with rfl | blank
    · decide
    · rw [List.mem_singleton.mp blank]
      exact UInt8.le_refl _
  · exact space_le_of_mem_parts parts

/-! ## Differences -/

/-- A difference that fails where it would pass below zero. -/
def difference? (a b : Nat) : Option Nat := if b ≤ a then some (a - b) else none

/-- The excerpt, made step by step with differences that may fail. -/
def ofLine? (text : Bytes) (column : Nat) : Option Excerpt :=
  let size := text.length
  if size ≤ limit then
    some { front := [], shown := text.map visible, rear := [], column }
  else do
    let near ← difference? limit radius
    if column ≤ near then
      let count ← difference? limit ellipsis.length
      some { front := [], shown := (text.take count).map visible, rear := ellipsis, column }
    else if size ≤ column + radius + ellipsis.length then
      let beside ← difference? size (2 * radius)
      let marked ← difference? beside ellipsis.length
      let start ← difference? marked 1
      let lost ← difference? start ellipsis.length
      let left ← difference? column lost
      some
        { front := ellipsis, shown := (text.drop start).map visible, rear := [], column := left }
    else
      let beside ← difference? column radius
      let start ← difference? beside 1
      some
        { front := ellipsis, shown := ((text.drop start).take (2 * radius + 1)).map visible
          rear := ellipsis, column := radius + 1 + ellipsis.length }

theorem difference?_bind {α : Type} {a b : Nat} (h : b ≤ a) (f : Nat → Option α) :
    difference? a b >>= f = f (a - b) := by
  rw [difference?, if_pos h]
  rfl

/-- No difference that an excerpt takes passes below zero. -/
theorem ofLine?_eq (text : Bytes) (column : Nat) :
    ofLine? text column = some (ofLine text column) := by
  unfold ofLine? ofLine
  dsimp only
  by_cases fits : text.length ≤ limit
  · rw [if_pos fits, if_pos fits]
  · have near : radius ≤ limit := by decide
    have marked : ellipsis.length ≤ limit := by decide
    rw [if_neg fits, if_neg fits, difference?_bind near]
    by_cases front : column ≤ limit - radius
    · rw [if_pos front, if_pos front, difference?_bind marked]
    · rw [if_neg front, if_neg front]
      by_cases last : text.length ≤ column + radius + ellipsis.length
      · rw [if_pos last, if_pos last]
        simp only [limit_eq, radius_eq, length_ellipsis] at *
        have start : text.length - 2 * 20 - 3 - 1 = text.length - (2 * 20 + 3 + 1) := by omega
        rw [difference?_bind (by omega), difference?_bind (by omega), difference?_bind (by omega),
          difference?_bind (by omega), difference?_bind (by omega), start]
      · rw [if_neg last, if_neg last]
        simp only [limit_eq, radius_eq, length_ellipsis] at *
        have start : column - 20 - 1 = column - (20 + 1) := by omega
        rw [difference?_bind (by omega), difference?_bind (by omega), start]

end Excerpt

end JsonEvents
