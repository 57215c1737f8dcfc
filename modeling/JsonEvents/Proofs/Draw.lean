import JsonEvents.Replay
import Mathlib.Algebra.Order.Ring.Int
import Mathlib.Data.List.DropRight
import Mathlib.Data.Nat.Size

/-!
# What is drawn lies in its range

An integer is the least one of its range and the number that the bytes at the end
stand for, cut down to the width of the range (`Range.draw_eq`).  A sequence of
draws leaves the front of the text, and every sequence of integers is drawn from
some end (`integers_drawn`).
-/

namespace JsonEvents

/-! ## Types and words -/

namespace IntegerType

variable {t : IntegerType} {a b n : Int} {size : Nat}

/-- The integers of a type. -/
def Holds : IntegerType → Int → Prop
  | truth, n => 0 ≤ n ∧ n ≤ 1
  | unsigned size _, n => 0 ≤ n ∧ n < count size
  | signed size _, n => -(count size : Int) ≤ n * 2 ∧ n * 2 < count size

instance (t : IntegerType) (n : Int) : Decidable (t.Holds n) :=
  match t with
  | truth => inferInstanceAs (Decidable (0 ≤ n ∧ n ≤ 1))
  | unsigned size _ => inferInstanceAs (Decidable (0 ≤ n ∧ n < count size))
  | signed size _ => inferInstanceAs (Decidable (-(count size : Int) ≤ n * 2 ∧ n * 2 < count size))

theorem size_le (t : IntegerType) : t.size ≤ 8 := by
  cases t with
  | truth => decide
  | unsigned size fits => exact fits
  | signed size fits => exact fits

theorem count_dvd (fits : size ≤ 8) : (count size : Int) ∣ 2 ^ 64 := by
  have divides : count size ∣ count 8 := Nat.pow_dvd_pow 256 fits
  exact Int.natCast_dvd_natCast.mpr divides

theorem Holds.between (least : t.Holds a) (most : t.Holds b) (above : a ≤ n) (below : n ≤ b) :
    t.Holds n := by
  cases t with
  | truth => exact ⟨Int.le_trans least.1 above, Int.le_trans below most.2⟩
  | unsigned size fits => exact ⟨Int.le_trans least.1 above, Int.lt_of_le_of_lt below most.2⟩
  | signed size fits =>
      obtain ⟨lower, -⟩ := least
      obtain ⟨-, upper⟩ := most
      constructor <;> omega

/-- From one integer of a type to another it is less than the type has integers. -/
theorem Holds.sub_lt (least : t.Holds a) (most : t.Holds b) : b - a < count t.size := by
  cases t with
  | truth =>
      have one : b - a ≤ 1 := by unfold Holds at least most; omega
      exact Int.lt_of_le_of_lt one (by decide)
  | unsigned size fits =>
      unfold Holds at least most
      exact Int.lt_of_le_of_lt (Int.sub_le_self b least.1) most.2
  | signed size fits =>
      unfold Holds at least most
      rw [IntegerType.size]
      omega

end IntegerType

namespace Draw

variable {t : IntegerType} {n : Int} {c : UInt8} {s : Bytes} {span word : UInt64} {k more : Nat}

theorem toNat_toWord (n : Int) : ((toWord n).toNat : Int) = n % 2 ^ 64 := by
  have nonneg : 0 ≤ n % 2 ^ 64 := Int.emod_nonneg n (by decide)
  have below : n % 2 ^ 64 < 2 ^ 64 := Int.emod_lt_of_pos n (by decide)
  rw [toWord, UInt64.ofInt, UInt64.toNat_ofNat']
  omega

theorem toWord_toNat (word : UInt64) : toWord word.toNat = word := by
  have below := word.toNat_lt
  apply UInt64.toNat_inj.mp
  have value := toNat_toWord word.toNat
  omega

theorem toWord_sub (a b : Int) : toWord a - toWord b = toWord (a - b) := by
  have sum : toWord (a - b) + toWord b = toWord a := by
    unfold toWord
    rw [← UInt64.ofInt_add, Int.sub_add_cancel]
  rw [← sum, UInt64.add_sub_cancel]

/-- An integer of a type is what its word is converted to. -/
theorem ofWord_toWord (holds : t.Holds n) : t.ofWord (toWord n) = n := by
  cases t with
  | truth =>
      obtain rfl | rfl : n = 0 ∨ n = 1 := by unfold IntegerType.Holds at holds; omega
      · rfl
      · rfl
  | unsigned size fits =>
      have word := toNat_toWord n
      rw [IntegerType.ofWord, Int.natCast_emod, word,
        Int.emod_emod_of_dvd n (IntegerType.count_dvd fits)]
      exact Int.emod_eq_of_lt holds.1 holds.2
  | signed size fits =>
      rw [IntegerType.ofWord, toNat_toWord, Int.bmod,
        Int.emod_emod_of_dvd n (IntegerType.count_dvd fits)]
      exact Int.bmod_eq_of_le_mul_two holds.1 holds.2

/-! ## Bytes from the end -/

/-- The number of bytes that the bits of a number take. -/
def byteCount (width : Nat) : Nat := (Nat.size width + 7) / 8

theorem byteCount_le_iff {width : Nat} : byteCount width ≤ k ↔ width < 2 ^ (8 * k) := by
  rw [byteCount, ← Nat.size_le]
  omega

/-- The number that bytes stand for, the first one the lowest, with another number above them. -/
def numberUnder (top : Nat) (s : Bytes) : Nat := s.foldr (fun c n => c.toNat + 256 * n) top

theorem numberUnder_cons (top : Nat) (c : UInt8) (s : Bytes) :
    numberUnder top (c :: s) = c.toNat + 256 * numberUnder top s := rfl

theorem numberUnder_concat (top : Nat) (s : Bytes) (c : UInt8) :
    numberUnder top (s ++ [c]) = numberUnder (c.toNat + 256 * top) s := by
  rw [numberUnder, List.foldr_append]
  rfl

/-- Every number is that of some bytes, as many as it needs. -/
theorem exists_bytes {number : Nat} (fits : number < 2 ^ (8 * k)) :
    ∃ s : Bytes, s.length = k ∧ numberUnder 0 s = number := by
  induction k generalizing number with
  | zero => exact ⟨[], rfl, (Nat.lt_one_iff.mp fits).symm⟩
  | succ k ih =>
      have inside : number / 256 < 2 ^ (8 * k) := by
        rw [Nat.mul_succ, Nat.pow_add] at fits
        exact Nat.div_lt_of_lt_mul (Nat.mul_comm .. ▸ fits)
      obtain ⟨s, length, value⟩ := ih inside
      have low : (number % 256).toUInt8.toNat = number % 256 :=
        Nat.mod_eq_of_lt (Nat.mod_lt number (by decide))
      refine ⟨(number % 256).toUInt8 :: s, congrArg (· + 1) length, ?_⟩
      rw [numberUnder_cons, low, value]
      exact Nat.mod_add_div number 256

/-- A byte put below a number of at most seven bytes. -/
theorem toNat_push (room : word.toNat < 2 ^ 56) :
    (word <<< 8 ||| c.toUInt64).toNat = c.toNat + 256 * word.toNat := by
  have low : c.toUInt64.toNat < 2 ^ 8 := c.toNat_lt
  have high : (word <<< 8).toNat = word.toNat <<< 8 := by
    have eight : (8 : UInt64).toNat % 64 = 8 := rfl
    rw [UInt64.toNat_shiftLeft, eight]
    apply Nat.mod_eq_of_lt
    omega
  rw [UInt64.toNat_or, high, ← Nat.shiftLeft_add_eq_or_of_lt low, Nat.shiftLeft_eq,
    UInt8.toNat_toUInt64]
  omega

theorem shifted_eq_zero_iff (few : k < 8) :
    span >>> (8 * k).toUInt64 = 0 ↔ byteCount span.toNat ≤ k := by
  have places : (8 * k).toUInt64.toNat = 8 * k := Nat.mod_eq_of_lt (by omega)
  rw [byteCount_le_iff, ← UInt64.toNat_inj, UInt64.toNat_shiftRight, places,
    Nat.mod_eq_of_lt (by omega), Nat.shiftRight_eq_div_pow]
  exact Nat.div_eq_zero_iff_lt (Nat.two_pow_pos _)

/-- Where the bytes taken hold the width, the loop ends, if the type has not ended it. -/
theorem gather_of_held (few : k + more ≤ 8) (held : byteCount span.toNat ≤ k) :
    gather span (8 * k) word s more = (word, s) := by
  cases more with
  | zero => rfl
  | succ more => rw [gather, if_pos ((shifted_eq_zero_iff (by omega)).mpr held)]

theorem gather_nil (few : k < 8) (needed : ¬ byteCount span.toNat ≤ k) :
    gather span (8 * k) word [] (more + 1) = (word, []) := by
  rw [gather, if_neg (mt (shifted_eq_zero_iff few).mp needed), List.getLast?_nil]

theorem gather_concat (few : k < 8) (needed : ¬ byteCount span.toNat ≤ k) :
    gather span (8 * k) word (s ++ [c]) (more + 1) =
      gather span (8 * (k + 1)) (word <<< 8 ||| c.toUInt64) s more := by
  rw [gather, if_neg (mt (shifted_eq_zero_iff few).mp needed), List.getLast?_concat,
    List.dropLast_concat]
  rfl

/--
The bytes that the width still needs are taken from the end, or all there are, and
put below the word.  With at most eight bytes in all no shift reaches the width of
a word.
-/
theorem gather_eq (span : UInt64) (s : Bytes) (few : k + more ≤ 8)
    (enough : byteCount span.toNat ≤ k + more) (small : word.toNat < 2 ^ (8 * k)) :
    (gather span (8 * k) word s more).1.toNat =
        numberUnder word.toNat (s.rtake (byteCount span.toNat - k)) ∧
      (gather span (8 * k) word s more).2 = s.rdrop (byteCount span.toNat - k) := by
  -- By induction on the bytes that the type allows; they suffice for what is needed.
  induction more generalizing k word s with
  | zero =>
      rw [Nat.add_zero] at enough
      rw [gather_of_held few enough, Nat.sub_eq_zero_of_le enough, List.rtake_zero, List.rdrop_zero]
      exact ⟨rfl, rfl⟩
  | succ more ih =>
      by_cases held : byteCount span.toNat ≤ k
      · rw [gather_of_held few held, Nat.sub_eq_zero_of_le held, List.rtake_zero, List.rdrop_zero]
        exact ⟨rfl, rfl⟩
      have few' : k < 8 := by omega
      obtain rfl | ⟨s, c, rfl⟩ := List.eq_nil_or_concat s
      · rw [gather_nil few' held, List.rtake_nil, List.rdrop_nil]
        exact ⟨rfl, rfl⟩
      · have room : word.toNat < 2 ^ 56 :=
          Nat.lt_of_lt_of_le small (Nat.pow_le_pow_right (by decide) (by omega))
        have pushed := toNat_push (c := c) room
        have small' : (word <<< 8 ||| c.toUInt64).toNat < 2 ^ (8 * (k + 1)) := by
          have byte := c.toNat_lt
          rw [pushed, Nat.mul_succ, Nat.pow_add]
          omega
        have next : byteCount span.toNat - k = byteCount span.toNat - (k + 1) + 1 := by omega
        rw [List.concat_eq_append, gather_concat few' held, next, List.rtake_concat_succ,
          List.rdrop_concat_succ, numberUnder_concat, ← pushed]
        exact ih s (by omega) (by omega) small'

/-- The remainder is the true one, for the full range of words as well. -/
theorem toNat_cut (span word : UInt64) : (cut span word).toNat = word.toNat % (span.toNat + 1) := by
  have all : (18446744073709551615 : UInt64).toNat = 2 ^ 64 - 1 := rfl
  have one : (1 : UInt64).toNat = 1 := rfl
  have below := word.toNat_lt
  have below' := span.toNat_lt
  unfold cut
  split
  · next full =>
      rw [full, all]
      exact (Nat.mod_eq_of_lt below).symm
  · next less =>
      rw [← UInt64.toNat_inj, all] at less
      have size : (span + 1).toNat = span.toNat + 1 := by
        rw [UInt64.toNat_add, one]
        apply Nat.mod_eq_of_lt
        omega
      rw [UInt64.toNat_mod, size]

/-- A word added to that of an integer gives their sum, if it is one of the type. -/
theorem ofWord_add (holds : t.Holds (n + word.toNat)) :
    t.ofWord (toWord n + word) = n + word.toNat := by
  have sum : toWord n + word = toWord (n + word.toNat) := by
    rw [toWord, toWord, UInt64.ofInt_add]
    exact congrArg (UInt64.ofInt n + ·) (toWord_toNat word).symm
  rw [sum, ofWord_toWord holds]

/-! ## One integer -/

/-- The integers of a type from a least to a most one. -/
structure Range where
  type : IntegerType
  least : Int
  most : Int
  least_holds : type.Holds least
  most_holds : type.Holds most
  ordered : least ≤ most

namespace Range

variable {r : Range}

def Covers (r : Range) (n : Int) : Prop := r.least ≤ n ∧ n ≤ r.most

def width (r : Range) : Nat := (r.most - r.least).toNat

/-- The number of bytes that an integer of the range is made of. -/
def size (r : Range) : Nat := byteCount r.width

def draw (r : Range) (s : Bytes) : Int × Bytes := integer r.type r.least r.most s

theorem width_eq (r : Range) : (r.width : Int) = r.most - r.least :=
  Int.toNat_of_nonneg (Int.sub_nonneg_of_le r.ordered)

theorem width_lt (r : Range) : r.width < 2 ^ (8 * r.type.size) := by
  have less := r.least_holds.sub_lt r.most_holds
  rw [← width_eq] at less
  rw [Nat.pow_mul]
  exact Int.ofNat_lt.mp less

theorem size_le (r : Range) : r.size ≤ r.type.size := byteCount_le_iff.mpr r.width_lt

theorem Covers.holds (covers : r.Covers n) : r.type.Holds n :=
  r.least_holds.between r.most_holds covers.1 covers.2

theorem covers_iff : r.Covers n ↔ ∃ d < r.width + 1, n = r.least + d := by
  have width := r.width_eq
  constructor
  · rintro ⟨above, below⟩
    exact ⟨(n - r.least).toNat, by omega, by omega⟩
  · rintro ⟨d, inside, rfl⟩
    constructor <;> omega

/-- The width as a word: no bits are lost, whichever signs the bounds have. -/
def wordWidth (r : Range) : UInt64 := toWord r.most - toWord r.least

theorem toNat_wordWidth (r : Range) : r.wordWidth.toNat = r.width := by
  have value := toNat_toWord (r.most - r.least)
  have width := r.width_eq
  have less := r.width_lt
  have word : 2 ^ (8 * r.type.size) ≤ 2 ^ 64 :=
    Nat.pow_le_pow_right (by decide) (Nat.mul_le_mul_left 8 r.type.size_le)
  rw [wordWidth, toWord_sub]
  omega

/-- The bytes of the type suffice, so the loop goes on until the width is held. -/
theorem gathered (r : Range) (s : Bytes) :
    (gather r.wordWidth 0 0 s r.type.size).1.toNat = numberUnder 0 (s.rtake r.size) ∧
      (gather r.wordWidth 0 0 s r.type.size).2 = s.rdrop r.size := by
  have needed : byteCount r.wordWidth.toNat = r.size := congrArg byteCount r.toNat_wordWidth
  have few : 0 + r.type.size ≤ 8 := by
    rw [Nat.zero_add]
    exact r.type.size_le
  have enough : byteCount r.wordWidth.toNat ≤ 0 + r.type.size := by
    rw [needed, Nat.zero_add]
    exact r.size_le
  have empty : (0 : UInt64).toNat < 2 ^ (8 * 0) := by decide
  have gathers := gather_eq r.wordWidth s few enough empty
  rwa [needed, Nat.sub_zero] at gathers

theorem covers_mod (r : Range) (number : Nat) :
    r.Covers (r.least + (number % (r.width + 1) : Nat)) :=
  covers_iff.mpr ⟨_, Nat.mod_lt number (Nat.succ_pos r.width), rfl⟩

/-- Whatever word is gathered, the conversion to the type keeps all of the sum. -/
theorem ofWord_cut (r : Range) (word : UInt64) :
    r.type.ofWord (toWord r.least + cut r.wordWidth word) =
      r.least + (word.toNat % (r.width + 1) : Nat) := by
  have number := toNat_cut r.wordWidth word
  rw [toNat_wordWidth] at number
  have inside : r.Covers (r.least + (cut r.wordWidth word).toNat) := by
    rw [number]
    exact r.covers_mod word.toNat
  rw [ofWord_add inside.holds, number]

/-- The integer is made of the bytes at the end alone, which are all that is taken. -/
theorem draw_eq (r : Range) (s : Bytes) :
    r.draw s =
      (r.least + (numberUnder 0 (s.rtake r.size) % (r.width + 1) : Nat), s.rdrop r.size) := by
  obtain ⟨value, left⟩ := r.gathered s
  have number := r.ofWord_cut (gather r.wordWidth 0 0 s r.type.size).1
  rw [value] at number
  exact Prod.ext number left

theorem covers_draw (r : Range) (s : Bytes) : r.Covers (r.draw s).1 := by
  rw [draw_eq]
  exact r.covers_mod _

/-- Every integer of the range is drawn from some bytes, whatever stands in front of them. -/
theorem exists_draw (covers : r.Covers n) :
    ∃ t : Bytes, t.length = r.size ∧ ∀ front, r.draw (front ++ t) = (n, front) := by
  obtain ⟨d, inside, rfl⟩ := covers_iff.mp covers
  obtain ⟨t, length, value⟩ := exists_bytes
    (Nat.lt_of_le_of_lt (Nat.le_of_lt_succ inside) (byteCount_le_iff.mp (Nat.le_refl r.size)))
  refine ⟨t, length, fun front => ?_⟩
  have taken : (front ++ t).rtake r.size = t := by
    rw [← length, List.rtake, List.length_append, Nat.add_sub_cancel, List.drop_left]
  have left : (front ++ t).rdrop r.size = front := by
    rw [← length, List.rdrop_append_length]
  rw [draw_eq, taken, left, value, Nat.mod_eq_of_lt inside]

end Range

/-! ## One integer after the other -/

def integers : List Range → Bytes → List Int × Bytes
  | [], s => ([], s)
  | r :: ranges, s =>
      let (n, s) := r.draw s
      let (ns, s) := integers ranges s
      (n :: ns, s)

theorem integers_cons (r : Range) (ranges : List Range) (s : Bytes) :
    integers (r :: ranges) s =
      ((r.draw s).1 :: (integers ranges (r.draw s).2).1, (integers ranges (r.draw s).2).2) := rfl

/-- The number of bytes that integers of the ranges are made of together. -/
def totalSize (ranges : List Range) : Nat := (ranges.map Range.size).sum

theorem covers_integers (ranges : List Range) (s : Bytes) :
    List.Forall₂ Range.Covers ranges (integers ranges s).1 := by
  induction ranges generalizing s with
  | nil => exact .nil
  | cons r ranges ih => exact .cons (r.covers_draw s) (ih (r.draw s).2)

theorem integers_left (ranges : List Range) (s : Bytes) :
    (integers ranges s).2 = s.rdrop (totalSize ranges) := by
  induction ranges generalizing s with
  | nil => exact (List.rdrop_zero s).symm
  | cons r ranges ih =>
      have left : (r.draw s).2 = s.rdrop r.size := congrArg Prod.snd (r.draw_eq s)
      calc (integers (r :: ranges) s).2
          = (integers ranges (r.draw s).2).2 := by rw [integers_cons]
        _ = (s.rdrop r.size).rdrop (totalSize ranges) := by rw [ih, left]
        _ = s.rdrop (totalSize (r :: ranges)) := List.rdrop_add r.size (totalSize ranges)

/-- What the first draw takes stands behind what the others take. -/
theorem exists_integers {ranges : List Range} {ns : List Int}
    (covers : List.Forall₂ Range.Covers ranges ns) :
    ∃ t : Bytes, t.length = totalSize ranges ∧
      ∀ front, integers ranges (front ++ t) = (ns, front) := by
  induction covers with
  | nil => exact ⟨[], rfl, fun front => congrArg (Prod.mk []) (List.append_nil front)⟩
  | @cons r n ranges ns first _ ih =>
      obtain ⟨t, length, others⟩ := ih
      obtain ⟨last, length', draws⟩ := Range.exists_draw first
      refine ⟨t ++ last, ?_, fun front => ?_⟩
      · rw [List.length_append, length, length', Nat.add_comm]
        rfl
      · rw [← List.append_assoc, integers_cons, draws, others]

/--
Whatever the text, an integer lies in the range that it is drawn from, and takes
the bytes that the width of the range has from the end, or all that are left.  A
sequence of draws leaves just the front, and each sequence of integers in their
ranges is drawn from some end.
-/
theorem integers_drawn (ranges : List Range) (s : Bytes) :
    (∀ r : Range, r.Covers (r.draw s).1 ∧ (r.draw s).2 <+: s ∧
      s.length = (r.draw s).2.length + min s.length r.size) ∧
    List.Forall₂ Range.Covers ranges (integers ranges s).1 ∧
    rest (integers ranges s).2 = (s.take (s.length - totalSize ranges), []) ∧
    ∀ ns, List.Forall₂ Range.Covers ranges ns →
      ∃ t : Bytes, t.length = totalSize ranges ∧
        ∀ front, integers ranges (front ++ t) = (ns, front) := by
  refine ⟨fun r => ⟨r.covers_draw s, ?front, ?taken⟩, covers_integers ranges s, ?rest,
    fun ns covers => exists_integers covers⟩
  case front =>
    rw [r.draw_eq]
    exact List.take_prefix _ _
  case taken =>
    rw [r.draw_eq, List.rdrop, List.length_take]
    omega
  case rest => exact congrArg (Prod.mk · []) (integers_left ranges s)

/-- Three bytes run out in the second of three draws; ten are enough for the last integers. -/
theorem integers_drawn_from_short_text :
    let truths : Range := ⟨.truth, 0, 1, by decide, by decide, by decide⟩
    let words : Range :=
      ⟨.i64, -9223372036854775808, 9223372036854775807, by decide, by decide, by decide⟩
    let few : Range := ⟨.i8, -3, 2, by decide, by decide, by decide⟩
    (integers [truths, words, few] [7, 0, 255]).1 = [1, -9223372036854775801, -3] ∧
      rest (integers [truths, words, few] [7, 0, 255]).2 = ([], []) ∧
      List.Forall₂ Range.Covers [truths, words, few] [1, 9223372036854775807, 2] ∧
      ∃ t : Bytes, t.length = 10 ∧ ∀ front,
        integers [truths, words, few] (front ++ t) = ([1, 9223372036854775807, 2], front) := by
  intro truths words few
  have ten : totalSize [truths, words, few] = 10 := by decide +kernel
  have covers : List.Forall₂ Range.Covers [truths, words, few] [1, 9223372036854775807, 2] :=
    .cons ⟨by decide, by decide⟩ (.cons ⟨by decide, by decide⟩ (.cons ⟨by decide, by decide⟩ .nil))
  obtain ⟨-, -, left, reached⟩ := integers_drawn [truths, words, few] [7, 0, 255]
  rw [ten] at left
  obtain ⟨t, length, draws⟩ := reached _ covers
  exact ⟨by decide +kernel, left, covers, t, length.trans ten, draws⟩

end Draw

namespace Replay

open Draw

def bufferRange : Range where
  type := .u64
  least := Options.smallestBuffer
  most := 64
  least_holds := by decide
  most_holds := by decide
  ordered := by decide

def commaRange : Range where
  type := .i32
  least := 0
  most := 1
  least_holds := by decide
  most_holds := by decide
  ordered := by decide

def pieceRange : Range where
  type := .u64
  least := 1
  most := 128
  least_holds := by decide
  most_holds := by decide
  ordered := by decide

/-- A trial has parameters in their bounds, and its document stands in front of three bytes. -/
theorem Trial.ofText_bounds (s : Bytes) :
    bufferRange.Covers (Trial.ofText s).options.minBufferSize ∧
      pieceRange.Covers (Trial.ofText s).pieceSize ∧
      (Trial.ofText s).document = (s.take (s.length - 3)).take documentLimit := by
  have three : totalSize [bufferRange, commaRange, pieceRange] = 3 := by decide +kernel
  have left := integers_left [bufferRange, commaRange, pieceRange] s
  rw [three] at left
  have buffer := bufferRange.covers_draw s
  have piece := pieceRange.covers_draw (commaRange.draw (bufferRange.draw s).2).2
  refine ⟨?buffer, ?piece, congrArg (List.take documentLimit) left⟩
  case buffer =>
    have drawn := Int.toNat_of_nonneg (Int.le_trans (by decide) buffer.1)
    exact drawn.symm ▸ buffer
  case piece =>
    have drawn := Int.toNat_of_nonneg (Int.le_trans (by decide) piece.1)
    exact drawn.symm ▸ piece

end Replay

end JsonEvents
