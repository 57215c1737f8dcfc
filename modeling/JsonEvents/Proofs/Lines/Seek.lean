import Mathlib.Algebra.Order.Ring.Int
import JsonEvents.Location
import JsonEvents.Proofs.Lines

/-!
# The search for a place

`seek` is the search for a place by its distance from the start of the line, on
the bytes of a text alone.  Distances may be counted in anything that tells
places apart (`Measures`): in integers, in words that wrap around, and in words
whose differences mean nothing where no word holds them, as long as the place is
not too far in front of the text.
-/

namespace JsonEvents.Lines

section Seek

variable {δ : Type} [NatCast δ] {minus : δ → δ → δ}
variable {s : Bytes} {origin place : Nat} {target : Int} {distance : δ} {knows : Nat → δ → Prop}

/--
Where the search ends for what is `distance` places behind the start of the line.
A line feed behind a carriage return is on the line that it ends.
-/
def seek [DecidableEq δ] (minus : δ → δ → δ) (s : Bytes) (origin place : Nat) (distance : δ) :
    Nat :=
  if _stop : Scan.byte s place = 0 then place
  else if distance = (place - origin : Nat) then place
  else if isEnd s place then
    seek minus s (place + 1) (place + 1) (minus distance (place + 1 - origin : Nat))
  else seek minus s origin (place + 1) distance
termination_by s.length - place
decreasing_by
  all_goals
    have inside := (List.getElem?_eq_some_iff.mp (Scan.getElem?_of_byte rfl _stop)).1
    omega

section Equations

variable [DecidableEq δ]

theorem seek_of_nul (nul : Scan.byte s place = 0) : seek minus s origin place distance = place := by
  rw [seek, dif_pos nul]

theorem seek_of_here (some : Scan.byte s place ≠ 0) (here : distance = (place - origin : Nat)) :
    seek minus s origin place distance = place := by
  rw [seek, dif_neg some, if_pos here]

theorem seek_of_end (some : Scan.byte s place ≠ 0) (other : distance ≠ (place - origin : Nat))
    (isEnd : isEnd s place = true) :
    seek minus s origin place distance =
      seek minus s (place + 1) (place + 1) (minus distance (place + 1 - origin : Nat)) := by
  rw [seek, dif_neg some, if_neg other, if_pos isEnd]

theorem seek_of_inside (some : Scan.byte s place ≠ 0) (other : distance ≠ (place - origin : Nat))
    (inside : isEnd s place = false) :
    seek minus s origin place distance = seek minus s origin (place + 1) distance := by
  rw [seek, dif_neg some, if_neg other, if_neg (Bool.not_eq_true _ ▸ inside)]

end Equations

theorem lt_idxOf_of_le (before : place ≤ s.idxOf 0) (some : Scan.byte s place ≠ 0) :
    place < s.idxOf 0 := by
  refine Nat.lt_of_le_of_ne before ?_
  rintro rfl
  exact some (byte_idxOf s)

theorem eq_idxOf_of_le (before : place ≤ s.idxOf 0) (nul : Scan.byte s place = 0) :
    place = s.idxOf 0 :=
  Nat.le_antisymm before (Nat.le_of_not_lt fun inside => byte_ne_of_lt_idxOf inside nul)

theorem seek_le [DecidableEq δ] (minus : δ → δ → δ) (distance : δ) (before : place ≤ s.idxOf 0) :
    seek minus s origin place distance ≤ s.idxOf 0 := by
  fun_induction seek minus s origin place distance with
  | case1 => exact before
  | case2 => exact before
  | case3 _ place _ some _ _ ih => exact ih (lt_idxOf_of_le before some)
  | case4 _ place _ some _ _ ih => exact ih (lt_idxOf_of_le before some)

/-- The place that an offset stands for: itself, or else the end of the text. -/
def clip (s : Bytes) (target : Int) : Nat :=
  if 0 ≤ target ∧ target < s.idxOf 0 then target.toNat else s.idxOf 0

/--
What is known of a distance at the start of a line tells whether a place on it is
the one sought, and is known again of what is left at the start of the next line.
-/
structure Measures (minus : δ → δ → δ) (s : Bytes) (target : Int) (knows : Nat → δ → Prop) :
    Prop where
  here : ∀ {origin place : Nat} {distance : δ}, knows origin distance → origin ≤ place →
    place < s.idxOf 0 → (0 ≤ target → place ≤ target) →
      (distance = (place - origin : Nat) ↔ target = place)
  next : ∀ {origin place : Nat} {distance : δ}, knows origin distance → origin ≤ place →
    place < s.idxOf 0 → isEnd s place = true → (0 ≤ target → place + 1 ≤ target) →
      knows (place + 1) (minus distance (place + 1 - origin : Nat))

/-- The search never steps over the place, so it ends there, or else at the end of the text. -/
theorem Measures.seek_eq [DecidableEq δ] (measures : Measures minus s target knows)
    (known : knows origin distance) (begun : origin ≤ place) (before : place ≤ s.idxOf 0)
    (ahead : 0 ≤ target → place ≤ target) :
    seek minus s origin place distance = clip s target := by
  fun_induction seek minus s origin place distance with
  | case1 origin place distance nul =>
      have last := eq_idxOf_of_le before nul
      rw [clip, if_neg (by omega)]
      exact last
  | case2 origin place some =>
      have inside := lt_idxOf_of_le before some
      have found := (measures.here known begun inside ahead).mp rfl
      rw [clip, if_pos (by omega), found, Int.toNat_natCast]
  | case3 origin place distance some other isEnd ih =>
      have inside := lt_idxOf_of_le before some
      have missed := mt (measures.here known begun inside ahead).mpr other
      have ahead' : 0 ≤ target → place + 1 ≤ target := by omega
      have known' := measures.next known begun inside isEnd ahead'
      exact ih known' (Nat.le_refl _) inside ahead'
  | case4 origin place distance some other _ ih =>
      have inside := lt_idxOf_of_le before some
      have missed := mt (measures.here known begun inside ahead).mpr other
      exact ih known (Nat.le_succ_of_le begun) inside (by omega)

theorem Measures.seek_zero [DecidableEq δ] (measures : Measures minus s target knows)
    (known : knows 0 distance) : seek minus s 0 0 distance = clip s target :=
  measures.seek_eq known (Nat.le_refl 0) (Nat.zero_le _) id

end Seek

variable {s : Bytes} {origin place : Nat} {target : Int} {offset : Int64}

/-! ## Integers -/

theorem measures_int (s : Bytes) (target : Int) :
    Measures (· - ·) s target fun (origin : Nat) (distance : Int) => distance = target - origin where
  here := by
    intro origin place distance known begun _ _
    omega
  next := by
    intro origin place distance known begun _ _ _
    omega

theorem seek_int (s : Bytes) (target : Int) : seek (· - ·) s 0 0 target = clip s target :=
  (measures_int s target).seek_zero (Int.sub_zero target).symm

/-! ## Words that wrap around -/

theorem natCast_word (n : Nat) : (n : Int64) = Int64.ofInt n := Int64.ofInt_eq_ofNat.symm

/-- Words tell integers apart that are less than a word apart. -/
theorem ofInt_inj_of_near {a b : Int} (least : b ≤ a) (near : a - b < 2 ^ 64) :
    Int64.ofInt a = Int64.ofInt b ↔ a = b := by
  rw [Int64.ofInt_eq_iff_bmod_eq_toInt, Int64.toInt_ofInt]
  constructor
  · intro same
    rw [Int.bmod_eq_bmod_iff_bmod_sub_eq_zero, ← Int.dvd_iff_bmod_eq_zero] at same
    have none := Int.eq_zero_of_dvd_of_nonneg_of_lt (by omega) near same
    omega
  · rintro rfl
    rfl

theorem measures_wrapped (first : 0 ≤ target) (last : target < 2 ^ 64) :
    Measures (· - ·) s target fun (origin : Nat) (distance : Int64) =>
      distance = Int64.ofInt (target - origin) where
  here := by
    rintro origin place _ rfl begun _ ahead
    have ahead := ahead first
    have length : ((place - origin : Nat) : Int) = place - origin := Int.natCast_sub begun
    have least : ((place - origin : Nat) : Int) ≤ target - origin := by omega
    have near : target - origin - (place - origin : Nat) < 2 ^ 64 := by omega
    rw [natCast_word, ofInt_inj_of_near least near, length]
    omega
  next := by
    rintro origin place _ rfl begun _ _ _
    have left : target - origin - (place + 1 - origin : Nat) = target - (place + 1 : Nat) := by
      omega
    rw [natCast_word, ← Int64.ofInt_sub, left]

/-- The integer that a word stands for if words count around behind the last of them. -/
def around (offset : Int64) : Int := offset.toInt % 2 ^ 64

theorem ofInt_around (offset : Int64) : Int64.ofInt (around offset) = offset := by
  rw [Int64.ofInt_eq_iff_bmod_eq_toInt]
  exact (Int.emod_bmod offset.toInt Int64.size).trans offset.toInt_bmod_size

/-- An offset in front of the text is sought a whole round of words behind it. -/
theorem seek_word (s : Bytes) (offset : Int64) :
    seek (· - ·) s 0 0 offset = clip s (around offset) := by
  have first : 0 ≤ around offset := Int.emod_nonneg _ (by decide)
  have last : around offset < 2 ^ 64 := Int.emod_lt_of_pos _ (by decide)
  apply (measures_wrapped first last).seek_zero
  rw [Int.natCast_zero, Int.sub_zero, ofInt_around]

theorem around_of_nonneg (first : 0 ≤ offset.toInt) : around offset = offset.toInt := by
  have most := offset.toInt_lt
  exact Int.emod_eq_of_lt first (by omega)

theorem around_of_neg (front : offset.toInt < 0) : around offset = offset.toInt + 2 ^ 64 := by
  have least := offset.le_toInt
  unfold around
  omega

/-- That is behind the text, too, unless the text is longer than anything in memory. -/
theorem clip_around (counted : s.length < 2 ^ 63) (offset : Int64) :
    clip s (around offset) = clip s offset.toInt := by
  have inside : s.idxOf 0 ≤ s.length := List.idxOf_le_length
  have least := offset.le_toInt
  by_cases front : offset.toInt < 0
  · rw [around_of_neg front, clip, clip, if_neg (by omega), if_neg (by omega)]
  · rw [around_of_nonneg (Int.not_lt.mp front)]

/-! ## Words whose differences are right where a word holds them -/

/-- A difference that a word holds is what it should be; of the others nothing is known. -/
def IsExact (minus : Int64 → Int64 → Int64) : Prop :=
  ∀ a b : Int64, -2 ^ 63 ≤ a.toInt - b.toInt → a.toInt - b.toInt < 2 ^ 63 →
    (minus a b).toInt = a.toInt - b.toInt

theorem start_le_start {later : Nat} (h : place ≤ later) : start s place ≤ start s later := by
  induction h with
  | refl => exact Nat.le_refl _
  | @step later before ih =>
      cases isEnd : isEnd s later with
      | true =>
          rw [start_succ_of_end isEnd]
          exact Nat.le_trans (start_le s place) (Nat.le_succ_of_le before)
      | false => rwa [start_succ_of_inside isEnd]

theorem succ_le_start (isEnd : isEnd s place = true) (before : place < s.idxOf 0) :
    place + 1 ≤ start s (s.idxOf 0) := by
  rw [← start_succ_of_end isEnd]
  exact start_le_start before

theorem toInt_natCast {n : Nat} (h : n < 2 ^ 63) : (n : Int64).toInt = n := Int64.toInt_ofNat_of_lt h

theorem measures_exact {minus : Int64 → Int64 → Int64} (exact : IsExact minus)
    (counted : s.length < 2 ^ 63) (near : (start s (s.idxOf 0) : Int) - 2 ^ 63 ≤ target)
    (most : target < 2 ^ 63) :
    Measures minus s target fun (origin : Nat) (distance : Int64) =>
      distance.toInt = target - origin where
  here := by
    intro origin place distance known begun before _
    have inside : s.idxOf 0 ≤ s.length := List.idxOf_le_length
    rw [← Int64.toInt_inj, toInt_natCast (by omega), known, Int.natCast_sub begun]
    omega
  next := by
    intro origin place distance known begun before isEnd _
    have inside : s.idxOf 0 ≤ s.length := List.idxOf_le_length
    have line := succ_le_start isEnd before
    have length := toInt_natCast (show place + 1 - origin < 2 ^ 63 by omega)
    have right := exact distance (place + 1 - origin : Nat) (by omega) (by omega)
    omega

/-- No difference overflows for an offset that is not too far in front of the last line. -/
theorem seek_exact {minus : Int64 → Int64 → Int64} (exact : IsExact minus)
    (counted : s.length < 2 ^ 63) (near : (start s (s.idxOf 0) : Int) - 2 ^ 63 ≤ offset.toInt) :
    seek minus s 0 0 offset = clip s offset.toInt :=
  (measures_exact exact counted near offset.toInt_lt).seek_zero (Int.sub_zero _).symm

/-- The difference if a word holds it, or else zero. -/
def orZero (a b : Int64) : Int64 :=
  if -2 ^ 63 ≤ a.toInt - b.toInt ∧ a.toInt - b.toInt < 2 ^ 63 then a - b else 0

theorem isExact_orZero : IsExact orZero := by
  intro a b least most
  rw [orZero, if_pos ⟨least, most⟩, Int64.toInt_sub]
  exact Int.bmod_eq_of_le (by omega) (by omega)

/--
For any offset further in front some difference overflows.  If that gave zero,
the start of a line would be the place that is found.
-/
theorem seek_orZero_lt {distance : Int64} (counted : s.length < 2 ^ 63)
    (far : target < (start s (s.idxOf 0) : Int) - 2 ^ 63)
    (last : start s (s.idxOf 0) < s.idxOf 0) (line : origin = start s place)
    (before : place ≤ s.idxOf 0) (known : distance.toInt = target - origin) :
    seek orZero s origin place distance < s.idxOf 0 := by
  have inside : s.idxOf 0 ≤ s.length := List.idxOf_le_length
  fun_induction seek orZero s origin place distance with
  | case1 origin place distance nul =>
      have least := distance.le_toInt
      obtain rfl := eq_idxOf_of_le before nul
      omega
  | case2 origin place some => exact lt_idxOf_of_le before some
  | case3 origin place distance some other isEnd ih =>
      have within := lt_idxOf_of_le before some
      have next := succ_le_start isEnd within
      have length := toInt_natCast (show place + 1 - origin < 2 ^ 63 by omega)
      have begun := start_le s place
      by_cases fits : -2 ^ 63 ≤ distance.toInt - ((place + 1 - origin : Nat) : Int64).toInt
      · have most := distance.toInt_lt
        have right := isExact_orZero distance (place + 1 - origin : Nat) fits (by omega)
        exact ih (start_succ_of_end isEnd).symm within (by omega)
      · have spilled : orZero distance (place + 1 - origin : Nat) = 0 :=
          if_neg fun held => fits held.1
        have here : (0 : Int64) = (place + 1 - (place + 1) : Nat) := by
          rw [Nat.sub_self]
          rfl
        have some' := byte_ne_of_lt_idxOf (Nat.lt_of_le_of_lt next last)
        rw [spilled, seek_of_here some' here]
        exact Nat.lt_of_le_of_lt next last
  | case4 origin place distance some other inside ih =>
      have within := lt_idxOf_of_le before some
      rw [Bool.not_eq_true] at inside
      exact ih (line.trans (start_succ_of_inside inside).symm) within known

end JsonEvents.Lines
