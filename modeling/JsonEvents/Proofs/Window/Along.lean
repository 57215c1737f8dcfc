import JsonEvents.Proofs.Window.Shows

/-!
# Windows that go along their input

`Along w v` says that `v` comes from `w` by looks and by moves of the lexeme over
bytes that have arrived.  Whether or not everything fits on the way, a window
on an input stays on it (`Along.shows`), and where nothing is read nothing is
dropped (`Along.base`).
-/

namespace JsonEvents.Window

open Ascii

inductive Along : Window → Window → Prop
  | refl (w : Window) : Along w w
  | peek {v w : Window} (i : Nat) (rest : Along (w.peek i).2 v) : Along w v
  | take {v w : Window} {n : Nat} (arrived : w.cursor + n ≤ w.fill) (rest : Along (w.extend n) v) :
      Along w v
  | shorten {v w : Window} {n : Nat} (shorter : n ≤ w.len) (rest : Along (w.setLen n) v) :
      Along w v
  | skip {v w : Window} (rest : Along w.skip v) : Along w v

variable {u v w : Window} {c : UInt8} {i n : Nat}

namespace Along

theorem trans (h : Along u v) (h' : Along v w) : Along u w := by
  induction h with
  | refl => exact h'
  | peek i _ ih => exact .peek i (ih h')
  | take arrived _ ih => exact .take arrived (ih h')
  | shorten shorter _ ih => exact .shorten shorter (ih h')
  | skip _ ih => exact .skip (ih h')

theorem of_peek (seen : w.peek i = (c, v)) : Along w v := .peek i (by rw [seen]; exact .refl v)

/-- Bytes that were seen, the last of them not NUL, can be taken. -/
theorem of_take (seen : w.peek i = (c, v)) (some : c ≠ 0) (inside : n ≤ i + 1) :
    Along w (v.extend n) := by
  have arrived := peek_sees seen some
  have same := peek_keeps seen
  exact (of_peek seen).trans (.take (by omega) (.refl _))

theorem shows {input : Bytes} {ending : Status} (h : Along w v) (shows : w.Shows input ending) :
    v.Shows input ending := by
  induction h with
  | refl => exact shows
  | @peek v w i _ ih =>
      apply ih
      have looks := shows.looks i
      rcases seen : w.peek i with ⟨c, u⟩
      rw [seen] at looks
      cases looks with
      | sees shows => exact shows
      | spills shows => exact shows
  | take arrived _ ih => exact ih (shows.extend arrived).shows
  | shorten shorter _ ih => exact ih (shows.setLen shorter)
  | skip _ ih => exact ih shows.skip

theorem onward (h : Along w v) : Onward w v := by
  induction h with
  | refl w => exact .refl w
  | peek i _ ih => exact .peek i ih
  | @take v w n _ _ ih => exact .move (u := w.extend n) rfl rfl ih
  | @shorten v w n _ _ ih => exact .move (u := w.setLen n) rfl rfl ih
  | @skip v w _ ih => exact .move (u := w.skip) rfl rfl ih

/-- Where nothing is read the bytes stay as they are. -/
theorem whole (h : Along w v) (nothing : w.supply = .nothing) :
    v.bytes = w.bytes ∧ v.base = w.base := by
  induction h with
  | refl => exact ⟨rfl, rfl⟩
  | @peek v w i _ ih =>
      have same : (w.peek i).2.bytes = w.bytes ∧ (w.peek i).2.base = w.base ∧
          (w.peek i).2.supply = .nothing := by
        unfold Window.peek look
        rw [nothing]
        dsimp only
        split <;> exact ⟨rfl, rfl, rfl⟩
      obtain ⟨bytes, base⟩ := ih same.2.2
      exact ⟨bytes.trans same.1, base.trans same.2.1⟩
  | take _ _ ih => exact ih nothing
  | shorten _ _ ih => exact ih nothing
  | skip _ ih => exact ih nothing

theorem base (h : Along w v) (nothing : w.supply = .nothing) : v.base = w.base :=
  (h.whole nothing).2

end Along

/-! ## Recognizers -/

theorem along_skipSpace (w : Window) : Along w w.skipSpace := by
  fun_induction skipSpace w with
  | case1 w c v seen blank ih =>
      exact (Along.of_take seen (ne_zero_of_isSpace blank) (Nat.le_refl 1)).trans (.skip ih)
  | case2 w c v seen => exact .of_peek seen

theorem along_extendSpace (w : Window) : Along w w.extendSpace := by
  fun_induction extendSpace w with
  | case1 w c v seen blank ih =>
      exact (Along.of_take seen (ne_zero_of_isSpace blank) (Nat.le_refl 1)).trans ih
  | case2 w c v seen => exact .of_peek seen

theorem along_extendDigits (w : Window) : Along w w.extendDigits := by
  fun_induction extendDigits w with
  | case1 w c v seen digit ih =>
      exact (Along.of_take seen (ne_zero_of_isDigit digit) (Nat.le_refl 1)).trans ih
  | case2 w c v seen => exact .of_peek seen

theorem along_minusSign (w : Window) : Along w w.minusSign := by
  rcases seen : w.peek 0 with ⟨c, v⟩
  simp only [minusSign, seen]
  split
  · next sign => exact .of_take seen (by rw [sign]; decide) (Nat.le_refl 1)
  · exact .of_peek seen

theorem along_integerPart (w : Window) : Along w w.integerPart.2 := by
  rcases seen : w.peek 0 with ⟨c, v⟩
  simp only [integerPart, seen]
  split
  · next isZero => exact .of_take seen (by rw [isZero]; decide) (Nat.le_refl 1)
  · split
    · next digit =>
        exact (Along.of_take seen (ne_zero_of_one_le digit.1) (Nat.le_refl 1)).trans
          (along_extendDigits _)
    · exact .of_peek seen

theorem along_fractionPart (w : Window) : Along w w.fractionPart.2 := by
  rcases seen : w.peek 0 with ⟨c, v⟩
  rcases seen' : v.peek 1 with ⟨d, u⟩
  simp only [fractionPart, seen, seen']
  split
  · split
    · next digit =>
        exact (Along.of_peek seen).trans ((Along.of_take seen' (ne_zero_of_isDigit digit)
          (Nat.le_refl 2)).trans (along_extendDigits _))
    · exact (Along.of_peek seen).trans (.of_peek seen')
  · exact .of_peek seen

theorem along_exponentPart (w : Window) : Along w w.exponentPart := by
  rcases seen : w.peek 0 with ⟨c, v⟩
  rcases seen' : v.peek 1 with ⟨sign, u⟩
  rcases seen'' : u.peek (exponentLead sign) with ⟨d, t⟩
  simp only [exponentPart, seen, seen', seen'']
  have looked := (Along.of_peek seen).trans (.of_peek seen')
  split
  · split
    · next digit =>
        exact looked.trans ((Along.of_take seen'' (ne_zero_of_isDigit digit)
          (Nat.le_refl _)).trans (along_extendDigits _))
    · exact looked.trans (.of_peek seen'')
  · exact .of_peek seen

theorem along_numberTail (w : Window) : Along w w.numberTail := by
  unfold numberTail
  split
  · exact (along_fractionPart w).trans (along_exponentPart _)
  · exact along_fractionPart w

theorem along_number (w : Window) : Along w w.number.2 := by
  have integer := (along_minusSign w).trans (along_integerPart _)
  rw [number_eq]
  split
  · dsimp only
    exact integer.trans (along_numberTail _)
  · next lost =>
      dsimp only
      have offset := (offset_integerPart_of_none (Bool.eq_false_iff.mpr lost)).trans
        (offset_minusSign w)
      have cursor := ((reaches_minusSign w).trans (reaches_integerPart _)).cursor
      have shorter : w.len ≤ w.minusSign.integerPart.2.len := by
        simp only [Segment.cursor, Segment.offset] at cursor offset
        omega
      exact integer.trans (.shorten shorter (.refl _))

theorem along_spells (w : Window) (i : Nat) (word : Bytes) : Along w (w.spells i word).2 := by
  induction word generalizing w i with
  | nil => exact .refl w
  | cons c rest ih =>
      rw [spells_cons]
      split
      · exact (Along.of_peek rfl).trans (ih _ _)
      · exact .of_peek rfl

theorem along_oneOf (w : Window) {words : List Bytes}
    (letters : ∀ word ∈ words, word ≠ [] ∧ ∀ c ∈ word, c ≠ 0) : Along w (w.oneOf words).2 := by
  induction words generalizing w with
  | nil => exact .refl w
  | cons word rest ih =>
      have looked := along_spells w 0 word
      rw [oneOf_cons]
      split
      · next found =>
          obtain ⟨some, here⟩ := letters word List.mem_cons_self
          have arrived := (spells_takes w 0 word here found some).arrived
          rw [Nat.zero_add, cursor_extend, fill_extend] at arrived
          exact looked.trans (.take arrived (.refl _))
      · exact looked.trans (ih _ fun word member => letters word (List.mem_cons_of_mem _ member))

theorem along_literal (w : Window) : Along w w.literal.2 := along_oneOf w literals_letters

theorem along_stringRest (w : Window) : Along w w.stringRest.2 := by
  fun_induction stringRest w with
  | case1 w v _ seen ih => exact (Along.of_take seen (by decide) (Nat.le_refl 1)).trans ih
  | case2 w v _ seen => exact .of_take seen (by decide) (Nat.le_refl 1)
  | case3 w v seen => exact .of_peek seen
  | case4 w c v seen _ some ih => exact (Along.of_take seen some (Nat.le_refl 1)).trans ih

/-- A string whose opening quote was seen. -/
theorem along_string (seen : u.peek 0 = (c, w)) (some : c ≠ 0) : Along u w.string.2 :=
  (Along.of_take seen some (Nat.le_refl 1)).trans (along_stringRest _)

end JsonEvents.Window
