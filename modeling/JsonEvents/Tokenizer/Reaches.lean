import JsonEvents.Tokenizer.Recognizers

/-!
# Reaching one window from another

`Reaches w v` says that `v` comes from `w` by looking and by taking bytes that
were seen.  Every recognizer reaches its result; one that finds something has
taken at least one byte (`number_takes`, `literal_takes`).  On the way the
supply is changed by refills alone (`Onward`), so what every refill keeps is
kept (`Onward.keeps`), and so is a failure (`Onward.given`).
-/

namespace JsonEvents.Window

open Ascii

/-- `v` comes from `w` by looks and by moves of the lexeme, in any order. -/
inductive Onward : Window → Window → Prop
  | refl (w : Window) : Onward w w
  | peek {v w : Window} (i : Nat) (rest : Onward (w.peek i).2 v) : Onward w v
  | move {u v w : Window} (supply : u.supply = w.supply) (reach : u.reach = w.reach)
      (rest : Onward u v) : Onward w v

namespace Onward

variable {u v w : Window}

theorem trans (h : Onward u v) (h' : Onward v w) : Onward u w := by
  induction h with
  | refl => exact h'
  | peek i _ ih => exact .peek i (ih h')
  | move supply reach _ ih => exact .move supply reach (ih h')

theorem of_peek {i : Nat} {c : UInt8} (h : w.peek i = (c, v)) : Onward w v :=
  .peek i (by rw [h]; exact .refl v)

theorem moved (supply : v.supply = w.supply) (reach : v.reach = w.reach) : Onward w v :=
  .move supply reach (.refl v)

/-- What every refill of a supply keeps. -/
theorem keeps {I : Supply → Prop}
    (refills : ∀ seg str need, I (.stream str) → I (.stream (Stream.refill seg str need).2.2))
    (h : Onward w v) (holds : I w.supply) : I v.supply := by
  induction h with
  | refl => exact holds
  | @peek v w i _ ih =>
      apply ih
      unfold Window.peek look
      dsimp only
      split
      · exact holds
      · split
        · next none => exact holds
        · next str some => exact refills _ _ _ (some ▸ holds)
  | move supply _ _ ih => exact ih (supply ▸ holds)

theorem reach_le (h : Onward w v) : w.reach ≤ v.reach := by
  induction h with
  | refl => exact Nat.le_refl _
  | @peek v w i _ ih =>
      rw [reach_peek] at ih
      exact Nat.le_trans (Nat.le_max_left _ _) ih
  | move _ reach _ ih => exact reach ▸ ih

/-- A failure of the supply stays. -/
theorem given (h : Onward w v) (failed : w.given.isOk = false) : v.given = w.given := by
  induction h with
  | refl => rfl
  | @peek v w i _ ih =>
      have same := given_peek (w := w) (i := i) rfl failed
      exact (ih (same ▸ failed)).trans same
  | @move u v w supply _ _ ih =>
      have same : u.given = w.given := by rw [Window.given, supply, Window.given]
      exact (ih (same ▸ failed)).trans same

end Onward

structure Reaches (w v : Window) : Prop where
  total : v.total = w.total
  cursor : w.cursor ≤ v.cursor
  fill : w.fill ≤ v.fill
  arrived : w.cursor ≤ w.fill → v.cursor ≤ v.fill
  onward : Onward w v

namespace Reaches

theorem refl (w : Window) : Reaches w w :=
  ⟨rfl, Nat.le_refl _, Nat.le_refl _, id, .refl w⟩

theorem trans {u v w : Window} (h : Reaches u v) (h' : Reaches v w) : Reaches u w :=
  ⟨h'.total.trans h.total, Nat.le_trans h.cursor h'.cursor, Nat.le_trans h.fill h'.fill,
    fun arrived => h'.arrived (h.arrived arrived), h.onward.trans h'.onward⟩

theorem given {v w : Window} (h : Reaches w v) (failed : w.given.isOk = false) :
    v.given = w.given := h.onward.given failed

end Reaches

/-- `v` comes from `w` by taking at least one byte, all of them seen. -/
structure Takes (w v : Window) : Prop where
  total : v.total = w.total
  cursor : w.cursor < v.cursor
  arrived : v.cursor ≤ v.fill
  onward : Onward w v

namespace Takes

theorem trans_reaches {u v w : Window} (h : Takes u v) (h' : Reaches v w) : Takes u w :=
  ⟨h'.total.trans h.total, Nat.lt_of_lt_of_le h.cursor h'.cursor, h'.arrived h.arrived,
    h.onward.trans h'.onward⟩

theorem of_reaches {u v w : Window} (h : Reaches u v) (h' : Takes v w) : Takes u w :=
  ⟨h'.total.trans h.total, Nat.lt_of_le_of_lt h.cursor h'.cursor, h'.arrived,
    h.onward.trans h'.onward⟩

/-- What was taken is gone from what remains, also when a new lexeme begins. -/
theorem remaining_skip_lt {w v : Window} (h : Takes w v) : v.skip.remaining < w.remaining := by
  have fill := fill_le_total v
  have := h.total
  have := h.cursor
  have := h.arrived
  simp only [remaining, total_skip, cursor_skip h.arrived]
  omega

end Takes

theorem reaches_peek {w v : Window} {i : Nat} {c : UInt8} (h : w.peek i = (c, v)) :
    Reaches w v := by
  obtain ⟨cursor, total, fill⟩ := peek_keeps h
  exact ⟨total, Nat.le_of_eq cursor.symm, fill, fun arrived => by omega, .of_peek h⟩

theorem takes_extend {w v : Window} {i n : Nat} {c : UInt8} (h : w.peek i = (c, v))
    (hc : c ≠ 0) (hn : 0 < n) (hi : n ≤ i + 1) : Takes w (v.extend n) := by
  obtain ⟨cursor, total, _⟩ := peek_keeps h
  have seen := peek_sees h hc
  refine ⟨total, ?_, ?_, (Onward.of_peek h).trans (.moved rfl rfl)⟩ <;>
    rw [cursor_extend]
  · omega
  · rw [fill_extend]; omega

theorem Takes.reaches {w v : Window} (h : Takes w v) (fill : w.fill ≤ v.fill) : Reaches w v :=
  ⟨h.total, Nat.le_of_lt h.cursor, fill, fun _ => h.arrived, h.onward⟩

theorem reaches_extend {w v : Window} {i n : Nat} {c : UInt8} (h : w.peek i = (c, v))
    (hc : c ≠ 0) (hn : 0 < n) (hi : n ≤ i + 1) : Reaches w (v.extend n) :=
  (takes_extend h hc hn hi).reaches (reaches_peek h).fill

theorem reaches_skip {w : Window} (h : w.cursor ≤ w.fill) : Reaches w w.skip :=
  ⟨rfl, Nat.le_of_eq (cursor_skip h).symm, Nat.le_refl _, fun _ => by
    rw [cursor_skip h, fill_skip]; exact h, .moved rfl rfl⟩

theorem reaches_skipSpace (w : Window) : Reaches w w.skipSpace := by
  fun_induction skipSpace w with
  | case1 w c v seen blank ih =>
      have took := takes_extend seen (ne_zero_of_isSpace blank) Nat.one_pos (Nat.le_refl _)
      exact (took.reaches (reaches_peek seen).fill).trans ((reaches_skip took.arrived).trans ih)
  | case2 w c v seen => exact reaches_peek seen

theorem reaches_extendSpace (w : Window) : Reaches w w.extendSpace := by
  fun_induction extendSpace w with
  | case1 w c v seen blank ih =>
      exact (reaches_extend seen (ne_zero_of_isSpace blank) Nat.one_pos (Nat.le_refl _)).trans ih
  | case2 w c v seen => exact reaches_peek seen

theorem reaches_extendDigits (w : Window) : Reaches w w.extendDigits := by
  fun_induction extendDigits w with
  | case1 w c v seen digit ih =>
      exact (reaches_extend seen (ne_zero_of_isDigit digit) Nat.one_pos (Nat.le_refl _)).trans ih
  | case2 w c v seen => exact reaches_peek seen

theorem reaches_minusSign (w : Window) : Reaches w w.minusSign := by
  unfold minusSign
  split
  next c v seen =>
    split
    · next sign => exact reaches_extend seen (by rw [sign]; decide) Nat.one_pos (Nat.le_refl _)
    · exact reaches_peek seen

theorem takes_integerPart {w : Window} (h : w.integerPart.1 = true) :
    Takes w w.integerPart.2 := by
  unfold integerPart at *
  split
  next c v seen =>
    simp only [seen] at h
    split
    · next isZero => exact takes_extend seen (by rw [isZero]; decide) Nat.one_pos (Nat.le_refl _)
    · split
      · next digit =>
          exact (takes_extend seen (ne_zero_of_one_le digit.1) Nat.one_pos
            (Nat.le_refl _)).trans_reaches (reaches_extendDigits _)
      · simp_all

theorem reaches_integerPart (w : Window) : Reaches w w.integerPart.2 := by
  unfold integerPart
  split
  next c v seen =>
    split
    · next isZero => exact reaches_extend seen (by rw [isZero]; decide) Nat.one_pos (Nat.le_refl _)
    · split
      · next digit =>
          exact (reaches_extend seen (ne_zero_of_one_le digit.1) Nat.one_pos
            (Nat.le_refl _)).trans (reaches_extendDigits _)
      · exact reaches_peek seen

theorem reaches_fractionPart (w : Window) : Reaches w w.fractionPart.2 := by
  unfold fractionPart
  split
  next c v seen =>
    split
    · split
      next d u seen' =>
        split
        · next digit =>
            exact (reaches_peek seen).trans ((reaches_extend seen' (ne_zero_of_isDigit digit)
              Nat.two_pos (Nat.le_refl _)).trans (reaches_extendDigits _))
        · exact (reaches_peek seen).trans (reaches_peek seen')
    · exact reaches_peek seen

theorem reaches_exponentPart (w : Window) : Reaches w w.exponentPart := by
  unfold exponentPart
  split
  next c v seen =>
    split
    · split
      next sign u seen' =>
        split
        next d t seen'' =>
          have looked := (reaches_peek seen).trans ((reaches_peek seen').trans (reaches_peek seen''))
          split
          · next digit =>
              exact (reaches_peek seen).trans ((reaches_peek seen').trans
                ((reaches_extend seen'' (ne_zero_of_isDigit digit) (Nat.succ_pos _)
                  (Nat.le_refl _)).trans (reaches_extendDigits _)))
          · exact looked
    · exact reaches_peek seen

/-- What follows the integer part of a number. -/
def numberTail (w : Window) : Window :=
  if w.fractionPart.1 then w.fractionPart.2.exponentPart else w.fractionPart.2

theorem reaches_numberTail (w : Window) : Reaches w w.numberTail := by
  unfold numberTail
  split
  · exact (reaches_fractionPart w).trans (reaches_exponentPart _)
  · exact reaches_fractionPart w

theorem number_eq (w : Window) :
    w.number =
      if w.minusSign.integerPart.1 then (true, w.minusSign.integerPart.2.numberTail)
      else (false, w.minusSign.integerPart.2.setLen w.len) := by
  rcases integer : w.minusSign.integerPart with ⟨found, u⟩
  rcases fraction : u.fractionPart with ⟨goesOn, v⟩
  simp only [number, numberTail, integer, fraction]

theorem number_takes {w : Window} (h : w.number.1 = true) : Takes w w.number.2 := by
  rw [number_eq] at *
  split
  · next found =>
      have took := Takes.of_reaches (reaches_minusSign w) (takes_integerPart found)
      dsimp only
      exact took.trans_reaches (reaches_numberTail _)
  · next lost => simp [lost] at h

theorem offset_minusSign (w : Window) : w.minusSign.offset = w.offset := by
  have looked := offset_peek w 0
  unfold minusSign
  dsimp only
  split <;> exact looked

theorem offset_integerPart_of_none {w : Window} (h : w.integerPart.1 = false) :
    w.integerPart.2.offset = w.offset := by
  have looked := offset_peek w 0
  unfold integerPart at *
  dsimp only at *
  split
  · simp_all
  · split
    · simp_all
    · exact looked

theorem reaches_setLen {w v : Window} (h : Reaches w v) (offset : v.offset = w.offset) :
    Reaches w (v.setLen w.len) := by
  have cursor : (v.setLen w.len).cursor = w.cursor := by
    simp only [Segment.cursor, Segment.offset, setLen, Segment.setLen] at *
    omega
  refine ⟨h.total, Nat.le_of_eq cursor.symm, h.fill, fun arrived => ?_,
    h.onward.trans (.moved rfl rfl)⟩
  rw [cursor]
  exact Nat.le_trans arrived h.fill

theorem reaches_number (w : Window) : Reaches w w.number.2 := by
  rw [number_eq]
  have integer := (reaches_minusSign w).trans (reaches_integerPart _)
  split
  · dsimp only
    exact integer.trans (reaches_numberTail _)
  · next lost =>
      have lost : w.minusSign.integerPart.1 = false := by simpa using lost
      dsimp only
      exact reaches_setLen integer
        ((offset_integerPart_of_none lost).trans (offset_minusSign w))

theorem spells_takes (w : Window) (i : Nat) (word : Bytes) (h0 : ∀ c ∈ word, c ≠ 0)
    (h : (w.spells i word).1 = true) (hw : word ≠ []) :
    Takes w ((w.spells i word).2.extend (i + word.length)) := by
  induction word generalizing w i with
  | nil => exact absurd rfl hw
  | cons c rest ih =>
      rw [spells_cons] at *
      split
      · next same =>
          rw [if_pos same] at h
          have c_ne : (w.peek i).1 ≠ 0 := same ▸ h0 c List.mem_cons_self
          have looked : Reaches w (w.peek i).2 := reaches_peek rfl
          cases rest with
          | nil => exact takes_extend rfl c_ne (by simp) (by simp)
          | cons d tail =>
              have took := ih (w.peek i).2 (i + 1) (fun x hx => h0 x (List.mem_cons_of_mem _ hx)) h
                (List.cons_ne_nil _ _)
              have lengths : i + 1 + (d :: tail).length = i + (c :: d :: tail).length := by
                simp only [List.length_cons]; omega
              rw [lengths] at took
              exact Takes.of_reaches looked took
      · next other => simp [other] at h

theorem reaches_spells (w : Window) (i : Nat) (word : Bytes) :
    Reaches w (w.spells i word).2 := by
  induction word generalizing w i with
  | nil => exact .refl w
  | cons c rest ih =>
      rw [spells_cons]
      split
      · exact Reaches.trans (reaches_peek rfl) (ih _ _)
      · exact reaches_peek rfl

theorem oneOf_takes (w : Window) (words : List Bytes)
    (h0 : ∀ word ∈ words, word ≠ [] ∧ ∀ c ∈ word, c ≠ 0) (h : (w.oneOf words).1 = true) :
    Takes w (w.oneOf words).2 := by
  induction words generalizing w with
  | nil => simp [oneOf] at h
  | cons word rest ih =>
      rw [oneOf_cons] at *
      split
      · next found =>
          obtain ⟨some, letters⟩ := h0 word List.mem_cons_self
          simpa using spells_takes w 0 word letters found some
      · next lost =>
          rw [if_neg lost] at h
          exact Takes.of_reaches (reaches_spells _ _ _)
            (ih _ (fun x hx => h0 x (List.mem_cons_of_mem _ hx)) h)

theorem reaches_oneOf (w : Window) (words : List Bytes)
    (h0 : ∀ word ∈ words, word ≠ [] ∧ ∀ c ∈ word, c ≠ 0) : Reaches w (w.oneOf words).2 := by
  induction words generalizing w with
  | nil => exact .refl w
  | cons word rest ih =>
      rw [oneOf_cons]
      have looked := reaches_spells w 0 word
      split
      · next found =>
          obtain ⟨some, letters⟩ := h0 word List.mem_cons_self
          have took := spells_takes w 0 word letters found some
          rw [Nat.zero_add] at took
          exact took.reaches looked.fill
      · exact looked.trans (ih _ fun x hx => h0 x (List.mem_cons_of_mem _ hx))

theorem literals_letters : ∀ word ∈ literals, word ≠ [] ∧ ∀ c ∈ word, c ≠ 0 := by
  decide +kernel

theorem literal_takes {w : Window} (h : w.literal.1 = true) : Takes w w.literal.2 :=
  oneOf_takes w literals literals_letters h

theorem reaches_literal (w : Window) : Reaches w w.literal.2 :=
  reaches_oneOf w literals literals_letters

theorem reaches_stringRest (w : Window) : Reaches w w.stringRest.2 := by
  fun_induction stringRest w with
  | case1 w v _ seen ih =>
      exact (reaches_extend ‹_› (by decide) Nat.one_pos (Nat.le_refl _)).trans ih
  | case2 w v => exact reaches_extend ‹_› (by decide) Nat.one_pos (Nat.le_refl _)
  | case3 w v seen => exact reaches_peek seen
  | case4 w c v seen _ notNul ih =>
      exact (reaches_extend seen notNul Nat.one_pos (Nat.le_refl _)).trans ih

end JsonEvents.Window
