import JsonEvents.Proofs.Numeral.Grouped
import JsonEvents.Proofs.Numeral.Scanned

/-!
# Grouped numbers are read back

A grouped number is written with its integer digits in groups, of which only the
first one may be shorter, and with all its places (`IsLaidOut`).  With the
separators that it was written with it is read back as a whole
(`scanGrouped_appendGrouped`).
-/

namespace JsonEvents

open Ascii Grammar

/-! ## Digits that are written -/

namespace Digits

theorem isDigit_digit {n : Nat} (small : n < 10) : isDigit (digit n) = true := by
  simp only [isDigit, Bool.and_eq_true, decide_eq_true_eq, UInt8.le_iff_toNat_le,
    toNat_digit small]
  have least : zero.toNat = 48 := rfl
  have greatest : nine.toNat = 57 := rfl
  omega

theorem areDigits_digits (n : Nat) : AreDigits (digits n) := by
  fun_induction digits n with
  | case1 n small => exact List.forall_mem_singleton.mpr (isDigit_digit small)
  | case2 n large ih =>
      exact List.forall_mem_append.mpr
        ⟨ih, List.forall_mem_singleton.mpr (isDigit_digit (Nat.mod_lt n (by decide)))⟩

/-- The digits of a number other than zero do not begin with a zero. -/
theorem exists_leading {n : Nat} (some : 0 < n) :
    ∃ c ds, digits n = c :: ds ∧ (one ≤ c ∧ c ≤ nine) ∧ AreDigits ds := by
  fun_induction digits n with
  | case1 n small =>
      refine ⟨digit n, [], rfl, ?_, List.forall_mem_nil _⟩
      have first : one.toNat = 49 := rfl
      have last : nine.toNat = 57 := rfl
      rw [UInt8.le_iff_toNat_le, UInt8.le_iff_toNat_le, toNat_digit small]
      omega
  | case2 n large ih =>
      obtain ⟨c, ds, front, leading, all⟩ := ih (by omega)
      have last := isDigit_digit (Nat.mod_lt n (by decide))
      refine ⟨c, ds ++ [digit (n % 10)], by rw [front]; rfl, leading, ?_⟩
      exact List.forall_mem_append.mpr ⟨all, List.forall_mem_singleton.mpr last⟩

theorem isInteger_digits (n : Nat) : IsInteger (digits n) := by
  rcases Nat.eq_zero_or_pos n with rfl | some
  · have single : digits 0 = [zero] := by
      rw [digits]
      rfl
    rw [single]
    exact .zero
  · obtain ⟨c, ds, text, leading, all⟩ := exists_leading some
    rw [text]
    exact .digits leading all

/-- Zeros in front of digits do not change their value. -/
theorem value_zeros_append (n : Nat) (ds : Bytes) :
    value (List.replicate n zero ++ ds) = value ds := by
  induction n with
  | zero => rfl
  | succ n ih =>
      rw [List.replicate_succ, List.cons_append]
      exact ih

end Digits

namespace Numeral

variable {s t u v w ds : Bytes} {c g d : UInt8} {separators : Separators} {n size places : Nat}

theorem areDigits_zeros (n : Nat) : AreDigits (List.replicate n zero) := by
  intro c member
  rw [List.eq_of_mem_replicate member]
  rfl

theorem areDigits_widen (width : Nat) (digits : AreDigits ds) : AreDigits (widen width ds) :=
  List.forall_mem_append.mpr ⟨areDigits_zeros _, digits⟩

theorem value_widen (width : Nat) (ds : Bytes) :
    Digits.value (widen width ds) = Digits.value ds := Digits.value_zeros_append _ ds

theorem length_widen (width : Nat) (ds : Bytes) :
    (widen width ds).length = max width ds.length := by
  rw [widen, List.length_append, List.length_replicate]
  omega

theorem isInteger_take (integer : IsInteger ds) (some : 0 < n) : IsInteger (ds.take n) := by
  obtain ⟨k, rfl⟩ := Nat.exists_eq_succ_of_ne_zero (Nat.ne_of_gt some)
  cases integer with
  | zero => simpa using IsInteger.zero
  | digits leading all =>
      exact .digits leading fun c member => all c (List.mem_of_mem_take member)

/-- The digits in front of the places of a number have no zero too many. -/
theorem isInteger_whole (n places : Nat) :
    IsInteger ((widen (places + 1) (Digits.digits n)).take
      ((widen (places + 1) (Digits.digits n)).length - places)) := by
  rw [length_widen]
  by_cases short : (Digits.digits n).length ≤ places
  · -- Zeros are put in front, and only one of them is in front of the places.
    have one : max (places + 1) (Digits.digits n).length - places = 1 := by omega
    have more : places + 1 - (Digits.digits n).length =
        (places - (Digits.digits n).length) + 1 := by omega
    rw [one, widen, more, List.replicate_succ]
    exact .zero
  · have none : places + 1 - (Digits.digits n).length = 0 := by omega
    rw [widen, none]
    exact isInteger_take (Digits.isInteger_digits n) (by omega)

/-! ## Groups -/

/--
Digits are written in groups of a size, of which only the first one may be
shorter.  There are no groups of size zero.
-/
structure IsInGroups (separator : UInt8) (size : Nat) (ds text : Bytes) : Prop where
  plain : size = 0 → text = ds
  groups : 0 < size → ∃ (first : Bytes) (groups : List Bytes), ds = first ++ groups.flatten ∧
    text = first ++ groups.flatMap (separator :: ·) ∧ 1 ≤ first.length ∧ first.length ≤ size ∧
    ∀ group ∈ groups, group.length = size

theorem separate_zero (separator : UInt8) (ds : Bytes) : separate separator 0 ds = ds := by
  induction ds with
  | nil => rfl
  | cons c ds ih =>
      rw [separate, if_neg (by simp), ih]

theorem length_flatten {groups : List Bytes} (all : ∀ group ∈ groups, group.length = size) :
    groups.flatten.length = size * groups.length := by
  induction groups with
  | nil => rfl
  | cons group groups ih =>
      obtain ⟨one, others⟩ := List.forall_mem_cons.mp all
      rw [List.flatten_cons, List.length_append, one, ih others, List.length_cons, Nat.mul_succ,
        Nat.add_comm]

/-- A group is complete when what follows a digit is cut into groups of the size. -/
theorem exists_groups (separator : UInt8) (positive : 0 < size) (some : ds ≠ []) :
    ∃ (first : Bytes) (groups : List Bytes), ds = first ++ groups.flatten ∧
      separate separator size ds = first ++ groups.flatMap (separator :: ·) ∧
      1 ≤ first.length ∧ first.length ≤ size ∧ ∀ group ∈ groups, group.length = size := by
  induction ds with
  | nil => exact absurd rfl some
  | cons c ds ih =>
      by_cases last : ds = []
      · subst last
        exact ⟨[c], [], rfl, rfl, Nat.le_refl 1, positive, List.forall_mem_nil _⟩
      · obtain ⟨first, groups, digits, text, least, most, all⟩ := ih last
        have length : ds.length = first.length + size * groups.length := by
          rw [digits, List.length_append, length_flatten all]
        rw [separate]
        by_cases full : first.length = size
        · have complete : ds.length % size = 0 := by
            rw [length, full, Nat.add_mul_mod_self_left, Nat.mod_self]
          refine ⟨[c], first :: groups, ?_, ?_, Nat.le_refl 1, positive,
            List.forall_mem_cons.mpr ⟨full, all⟩⟩
          · rw [digits]
            rfl
          · rw [if_pos ⟨last, positive, complete⟩, text]
            rfl
        · have partly : ds.length % size ≠ 0 := by
            rw [length, Nat.add_mul_mod_self_left, Nat.mod_eq_of_lt (by omega)]
            omega
          refine ⟨c :: first, groups, ?_, ?_, Nat.le_add_left 1 _, ?_, all⟩
          · rw [digits]
            rfl
          · rw [if_neg fun complete => partly complete.2.2, text]
            rfl
          · rw [List.length_cons]
            omega

theorem isInGroups_separate (separator : UInt8) (size : Nat) (some : ds ≠ []) :
    IsInGroups separator size ds (separate separator size ds) where
  plain := by
    rintro rfl
    exact separate_zero separator ds
  groups := fun positive => exists_groups separator positive some

/-- Only digits and separators are written, and the digits as they are. -/
theorem separate_digits (size : Nat) (plain : isDigit g = false)
    (digits : AreDigits ds) :
    (separate g size ds).filter isDigit = ds ∧
      ∀ c ∈ separate g size ds, isDigit c = true ∨ c = g := by
  induction ds with
  | nil => exact ⟨rfl, List.forall_mem_nil _⟩
  | cons c ds ih =>
      obtain ⟨digit, others⟩ := List.forall_mem_cons.mp digits
      obtain ⟨same, all⟩ := ih others
      rw [separate]
      split
      · refine ⟨by simp [digit, plain, same], ?_⟩
        exact List.forall_mem_cons.mpr ⟨.inl digit, List.forall_mem_cons.mpr ⟨.inr rfl, all⟩⟩
      · exact ⟨by simp [digit, same], List.forall_mem_cons.mpr ⟨.inl digit, all⟩⟩

/-! ## Texts that are read as a whole -/

theorem IsBody.append (whole : ∀ c ∈ w, isDigit c = true ∨ isGap separators c = true)
    (body : IsBody separators t) : IsBody separators (w ++ t) := by
  induction w with
  | nil => exact body
  | cons c w ih =>
      obtain ⟨part, others⟩ := List.forall_mem_cons.mp whole
      exact .whole part (ih others)

theorem placesOf_append (whole : ∀ c ∈ w, isDigit c = true ∨ isGap separators c = true) :
    placesOf separators (w ++ t) = placesOf separators t := by
  unfold placesOf
  rw [List.dropWhile_append_of_pos]
  intro c member
  rw [Bool.not_eq_true']
  rcases whole c member with digit | gap
  · exact not_isMark_of_isDigit digit
  · exact not_isMark_of_isGap gap

theorem placesOf_mark (mark : isMark separators c = true) (digits : AreDigits ds) :
    placesOf separators (c :: ds) = ds.length := by
  have plain := not_isDigit_of_isMark mark
  rw [placesOf, List.dropWhile_cons_of_neg (by simp [mark]), List.countP_cons_of_neg (by simp [plain]),
    List.countP_eq_length.mpr digits]

theorem eq_of_groupedOutcome {found : Option (Nat × Grouped)} {i : Int64} (some : n ≠ 0)
    (outcome : groupedOutcome found = (n, i.toInt, places)) :
    found = Option.some (n, ⟨i, places⟩) := by
  cases found with
  | none => exact absurd (congrArg Prod.fst outcome).symm some
  | some number =>
      obtain ⟨m, value, more⟩ := number
      simp only [groupedOutcome, Option.map_some, Option.getD_some, Prod.mk.injEq,
        Int64.toInt_inj] at outcome
      obtain ⟨rfl, rfl, rfl⟩ := outcome
      rfl

/-- A grouped number whose integer is in range is found as a whole. -/
theorem scanGrouped_of_isGrouped (grouped : IsGrouped separators s)
    (digit : s.any isDigit = true) {i : Int64} (value : groupedValue s = i.toInt) :
    scanGrouped s separators = some (s.length, ⟨i, groupedPlaces separators s⟩) := by
  have finds := finds_grouped s separators
  have itself : ∀ {t}, IsLongest (IsGrouped separators) s t → t = s := by
    intro t longest
    exact longest.front.eq_of_length_le (longest.longest s (List.prefix_refl s) grouped)
  generalize found : groupedOutcome (scanGrouped s separators) = outcome at finds
  cases finds with
  | nothing longest noDigit =>
      rw [itself longest, digit] at noDigit
      cases noDigit
  | outside longest outside =>
      rw [itself longest, value] at outside
      exact absurd (inRange_toInt i) outside
  | inside longest =>
      rw [itself longest, value] at found
      have some : s.length ≠ 0 := by
        rintro none
        rw [List.eq_nil_of_length_eq_zero none] at digit
        cases digit
      exact eq_of_groupedOutcome some found

/-! ## Numbers that are written -/

/-- The separators, with defaults for negative ones. -/
def Separators.orDefault (separators : Separators) : Separators where
  group := if separators.group < 0 then point.toNat else separators.group
  decimal := if separators.decimal < 0 then comma.toNat else separators.decimal

/-- The separators are two different bytes that are no digits. -/
structure Separators.Are (separators : Separators) (g d : UInt8) : Prop where
  group : separators.group = g.toNat
  decimal : separators.decimal = d.toNat
  plainGroup : isDigit g = false
  plainDecimal : isDigit d = false
  apart : g ≠ d

theorem separatorByte_eq {default : UInt8} {separator : Int}
    (same : (if separator < 0 then (default.toNat : Int) else separator) = g.toNat) :
    separatorByte default separator = g := by
  unfold separatorByte
  split at same
  · next negative =>
      rw [if_pos negative]
      exact UInt8.toNat_inj.mp (Int.ofNat.inj same)
  · next byte =>
      rw [if_neg byte, same, Int.toNat_natCast, Nat.toUInt8_eq, UInt8.ofNat_toNat]

theorem isSeparator_iff {x : Int} (byte : x = g.toNat) : isSeparator c x = true ↔ c = g := by
  rw [isSeparator, beq_iff_eq, byte, Int.natCast_inj, UInt8.toNat_inj]

namespace Separators.Are

theorem isMark (are : separators.Are g d) : Numeral.isMark separators d = true := by
  have own := (isSeparator_iff are.decimal).mpr (rfl : d = d)
  simp [Numeral.isMark, are.plainDecimal, own]

theorem isGap (are : separators.Are g d) : Numeral.isGap separators g = true := by
  have own := (isSeparator_iff are.group).mpr (rfl : g = g)
  have other : isSeparator g separators.decimal = false :=
    Bool.eq_false_iff.mpr (mt (isSeparator_iff are.decimal).mp are.apart)
  simp [Numeral.isGap, are.plainGroup, own, other]

end Separators.Are

/--
A number as it is written: a minus if it is negative, integer digits without a
zero too many in groups of a size, and all places behind the mark, if any.
-/
inductive IsLaidOut (value : Int64) (places size : Nat) (g d : UInt8) : Bytes → Prop
  | parts {ds whole fraction : Bytes} (integer : IsInteger ds) (groups : IsInGroups g size ds whole)
      (digits : AreDigits fraction) (length : fraction.length = places) :
      IsLaidOut value places size g d ((if value < 0 then [minus] else []) ++
        (whole ++ if places = 0 then [] else d :: fraction))

/-- The mark and the places behind it are read as they are. -/
theorem tail_read (are : separators.Are g d) (digits : AreDigits t) (length : t.length = places) :
    IsBody separators (if places = 0 then [] else d :: t) ∧
      placesOf separators (if places = 0 then [] else d :: t) = places ∧
      (if places = 0 then [] else d :: t).filter isDigit = t := by
  by_cases none : places = 0
  · rw [if_pos none]
    subst none
    rw [List.eq_nil_of_length_eq_zero length]
    exact ⟨.none, rfl, rfl⟩
  · rw [if_neg none, placesOf_mark are.isMark digits]
    exact ⟨.mark are.isMark digits, length,
      by rw [List.filter_cons_of_neg (by simp [are.plainDecimal]), List.filter_eq_self.mpr digits]⟩

theorem exists_separate (g : UInt8) (size : Nat) (c : UInt8) (ds : Bytes) :
    ∃ rest, separate g size (c :: ds) = c :: rest := by
  rw [separate]
  split
  · exact ⟨_, rfl⟩
  · exact ⟨_, rfl⟩

/-- Behind a sign that is written a number that begins with a digit is read as it is. -/
theorem signed_read (negative : Bool) (digit : isDigit c = true) (begins : u = c :: t)
    (body : IsBody separators u) :
    let s := (if negative then [minus] else []) ++ u
    IsGrouped separators s ∧ s.any isDigit = true ∧
      groupedValue s = signed negative (Digits.value (u.filter isDigit)) ∧
      groupedPlaces separators s = placesOf separators u := by
  subst begins
  have plain : hasMinus (c :: t) = false := by
    have other := Scan.not_isSign_of_isDigit digit
    simp only [isSign, Bool.or_eq_false_iff, beq_eq_false_iff_ne] at other
    simp [hasMinus, other.2]
  cases negative with
  | true =>
      refine ⟨.parts .minus body, ?_, rfl, rfl⟩
      simp [digit]
  | false =>
      refine ⟨.parts .none body, ?_, ?_, ?_⟩
      · simp [digit]
      · change groupedValue (c :: t) = _
        rw [groupedValue, plain]
      · change groupedPlaces separators (c :: t) = _
        rw [groupedPlaces, behindSign, plain]
        rfl

theorem signed_natAbs (i : Int64) : signed (decide (i < 0)) i.toInt.natAbs = i.toInt := by
  have zero : (0 : Int64).toInt = 0 := rfl
  unfold signed
  simp only [decide_eq_true_eq, Int64.lt_iff_toInt_lt, zero]
  omega

/-- What is written is read back: digits and separators, and the places behind the mark. -/
theorem scanGrouped_parts (are : separators.Are g d) {value : Int64} (digit : isDigit c = true)
    (begins : w = c :: u) (parts : ∀ b ∈ w, isDigit b = true ∨ b = g) (digits : AreDigits t)
    (length : t.length = places)
    (number : Digits.value (w.filter isDigit ++ t) = value.toInt.natAbs) :
    let s := (if value < 0 then [minus] else []) ++ (w ++ if places = 0 then [] else d :: t)
    scanGrouped s separators = some (s.length, ⟨value, places⟩) := by
  intro s
  have sign : s = (if decide (value < 0) = true then [minus] else []) ++
      (w ++ if places = 0 then [] else d :: t) := by
    simp only [decide_eq_true_eq, s]
  obtain ⟨tail, count, same⟩ := tail_read are digits length
  have whole : ∀ b ∈ w, isDigit b = true ∨ isGap separators b = true := by
    intro b member
    rcases parts b member with digit | rfl
    · exact .inl digit
    · exact .inr are.isGap
  have first : (w ++ if places = 0 then [] else d :: t) = c :: (u ++ _) :=
    congrArg (· ++ _) begins
  obtain ⟨grouped, some, total, behind⟩ :=
    signed_read (decide (value < 0)) digit first (tail.append whole)
  have integer : groupedValue s = value.toInt := by
    rw [sign, total, List.filter_append, same, number, signed_natAbs]
  rw [← sign] at grouped some behind
  rw [scanGrouped_of_isGrouped grouped some integer, behind, placesOf_append whole, count]

/--
A number is written in the form of its layout, behind what was written before,
and the text is read back as a whole with the number and its places, whatever
two bytes other than digits the separators are.
-/
theorem scanGrouped_appendGrouped (out : Bytes) (value : Int64) (places groupSize : Int)
    (are : separators.orDefault.Are g d) :
    ∃ text, appendGrouped out value places groupSize separators = out ++ text ∧
      IsLaidOut value places.toNat groupSize.toNat g d text ∧
      scanGrouped text separators.orDefault = some (text.length, ⟨value, places.toNat⟩) := by
  have group : separatorByte point separators.group = g := separatorByte_eq are.group
  have decimal : separatorByte comma separators.decimal = d := separatorByte_eq are.decimal
  generalize number : widen (places.toNat + 1) (Digits.digits value.toInt.natAbs) = ds
  generalize cut : ds.length - places.toNat = n
  have integer : IsInteger (ds.take n) := by
    rw [← cut, ← number]
    exact isInteger_whole value.toInt.natAbs places.toNat
  have digits : AreDigits ds := number ▸ areDigits_widen _ (Digits.areDigits_digits _)
  have fraction : AreDigits (ds.drop n) := fun c member => digits c (List.mem_of_mem_drop member)
  have length : (ds.drop n).length = places.toNat := by
    have width := length_widen (places.toNat + 1) (Digits.digits value.toInt.natAbs)
    rw [number] at width
    rw [List.length_drop]
    omega
  have total : Digits.value (ds.take n ++ ds.drop n) = value.toInt.natAbs := by
    rw [List.take_append_drop, ← number, value_widen, Digits.value_digits]
  obtain ⟨first, some⟩ := areDigits_of_isInteger integer
  obtain ⟨same, parts⟩ := separate_digits groupSize.toNat are.plainGroup first
  have groups := isInGroups_separate g groupSize.toNat some
  have text : appendGrouped out value places groupSize separators =
      out ++ ((if value < 0 then [minus] else []) ++ (separate g groupSize.toNat (ds.take n) ++
        if places.toNat = 0 then [] else d :: ds.drop n)) := by
    simp only [appendGrouped, number, cut, group, decimal, List.append_assoc]
  refine ⟨_, text, .parts integer groups fraction length, ?_⟩
  -- The text begins with the first digit, so that no separator is taken for a sign.
  obtain ⟨c, others, begins⟩ := List.exists_cons_of_ne_nil some
  obtain ⟨rest, whole⟩ := exists_separate g groupSize.toNat c others
  have leading : isDigit c = true := first c (begins ▸ List.mem_cons_self)
  rw [← begins] at whole
  rw [← same] at total
  exact scanGrouped_parts are leading whole parts fraction length total

/-- The least integer is read back as well, also where a minus separates its groups. -/
theorem scanGrouped_appendGrouped_least :
    let text := Bytes.ofString "-92-233-720-368-547-758,08"
    Separators.Are (Separators.orDefault ⟨45, -1⟩) minus comma ∧
      appendGrouped (Bytes.ofString "= ") Int64.minValue 2 3 ⟨45, -1⟩ =
        Bytes.ofString "= " ++ text ∧
      IsLaidOut Int64.minValue 2 3 minus comma text ∧
      scanGrouped text ⟨45, 44⟩ = some (26, ⟨Int64.minValue, 2⟩) := by
  intro text
  have are : Separators.Are (Separators.orDefault ⟨45, -1⟩) minus comma :=
    ⟨rfl, rfl, rfl, rfl, by decide⟩
  have given : appendGrouped (Bytes.ofString "= ") Int64.minValue 2 3 ⟨45, -1⟩ =
      Bytes.ofString "= " ++ text := by decide +kernel
  obtain ⟨written, same, laidOut, read⟩ :=
    scanGrouped_appendGrouped (Bytes.ofString "= ") Int64.minValue 2 3 are
  obtain rfl := List.append_cancel_left (same.symm.trans given)
  exact ⟨are, given, laidOut, read⟩

end Numeral

end JsonEvents
