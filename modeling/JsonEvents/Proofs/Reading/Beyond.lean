import JsonEvents.Proofs.Reading.Extended
import JsonEvents.Proofs.Reading.Run
import JsonEvents.Proofs.Scan.Cut

/-!
# Readings that look beyond their text

A reading looks for a byte behind its text where its reply is about the end of
the text, or where the text ends in the middle of a number or a literal
(`last_or_stopsShort`).  A text that ends so can go on to an event that it does
not give (`StopsShort.exists_behind`).
-/

namespace JsonEvents

open Ascii

/-- The place that a reply leads to. -/
def Reply.place : Reply → Reading
  | .gives _ after => after
  | .halts _ place => place

/-- Whether a reply is about the end of the text. -/
def Reply.IsLast : Reply → Prop
  | .gives event after => after.rest = [] ∧ (after.cut = true ∨ event.kind = .number)
  | .halts _ place => place.rest = []

namespace Reading

open Scan (goesOn)
open Grammar (IsUnfinished)

variable {policy : TrailingComma} {q r r' : Reading} {e : Event}

/-- The text ends in the middle of the next token, which is a number or a literal. -/
structure StopsShort (policy : TrailingComma) (r : Reading) : Prop where
  whole : r.cut = false
  short : ∃ q, Leads policy r q ∧ q.needComma = false ∧ q.nesting.top ≠ .objectKey ∧
    IsUnfinished q.rest

theorem looksInside_iff (leads : Leads policy r q) :
    r.LooksInside policy ↔
      q.moveLooks (Move.of q.nesting.top q.needComma q.byte) ≤ q.rest.length := by
  rw [LooksInside, looks, front_eq_none.mpr leads]

/-- Where the text stops short of a value, the value is looked for beyond it. -/
theorem StopsShort.beyond (h : r.StopsShort policy) : ¬ r.LooksInside policy := by
  obtain ⟨q, leads, free, outside, unfinished⟩ := h.short
  have move := Move.of_plain outside (Scan.isPlain_of_isUnfinished unfinished)
  rw [looksInside_iff leads, free, byte, move]
  exact Nat.not_le_of_lt (Scan.lt_scalarLooks_of_isUnfinished unfinished)

/-- A byte that a number could go on with is none that may follow a value. -/
theorem ne_of_goesOn {c : UInt8} (h : goesOn c = true) :
    isSpace c = false ∧ c ≠ comma ∧ c ≠ closeBrace ∧ c ≠ closeBracket ∧ c ≠ nul := by
  refine ⟨?_, ?_, ?_, ?_, ?_⟩
  · cases blank : isSpace c with
    | false => rfl
    | true =>
        simp only [isSpace, Bool.or_eq_true, beq_iff_eq] at blank
        rcases blank with ((rfl | rfl) | rfl) | rfl <;> cases h
  · rintro rfl
    cases h
  · rintro rfl
    cases h
  · rintro rfl
    cases h
  · rintro rfl
    cases h

/-- Where a comma is needed no number goes on. -/
theorem halts_of_goesOn (whole : r.cut = false) (needed : r.needComma = true)
    (more : goesOn r.byte = true) : Halts policy r := by
  obtain ⟨dark, noComma, noBrace, noBracket, some⟩ := ne_of_goesOn more
  refine ⟨.refused .missingComma, r, ?_⟩
  rw [next, whole, if_neg Bool.false_ne_true, front_eq_none.mpr (leads_self dark noComma)]
  dsimp only
  rw [Move.of, if_pos ⟨needed, noBrace, noBracket, some⟩, perform]

/-- A token that is looked at beyond the text is the last one, or the text ends short of its end. -/
theorem Token.beyond (h : Token q e r')
    (beyond : ¬ q.moveLooks (Move.of q.nesting.top q.needComma q.byte) ≤ q.rest.length) :
    (r'.rest = [] ∧ (r'.cut = true ∨ e.kind = .number)) ∨
      (r'.needComma = true ∧ goesOn r'.byte = true) ∧
        q.needComma = false ∧ q.nesting.top ≠ .objectKey ∧ IsUnfinished q.rest := by
  have bracket {c : UInt8} (some : c ≠ nul) (byte : q.byte = c) : 1 ≤ q.rest.length :=
    length_of_byte (by rwa [byte])
  cases h with
  | @opens l free byte =>
      rw [free, byte, Move.of_opening] at beyond
      have first := bracket l.opening_ne byte
      cases l <;> exact absurd first beyond
  | @closes l inside byte =>
      rw [inside, byte, Move.of_closing] at beyond
      have first := bracket l.closing_ne.1 byte
      cases l <;> exact absurd first beyond
  | @key n free inside byte closed isColon =>
      rw [free, inside, byte, Move.of_quote, if_pos rfl, moveLooks, Scan.keyLooks,
        Scan.stringLooks_eq, closed] at beyond
      have colon : 0 < (q.advance n).skipBlanks.rest.length :=
        length_of_byte (by rw [isColon]; decide)
      change 0 < ((q.rest.drop n).drop (Scan.blanks (q.rest.drop n))).length at colon
      rw [List.length_drop, List.length_drop] at colon
      dsimp only at beyond
      rw [if_pos rfl, if_pos rfl] at beyond
      omega
  | @scalar kind n free outside scanned =>
      rw [move_of_scalar free outside scanned] at beyond
      obtain ⟨number, rfl | ⟨more, unfinished⟩⟩ := scanned.beyond (Nat.lt_of_not_le beyond)
      · exact .inl ⟨List.drop_length, .inr number⟩
      · have byte := Scan.byte_drop q.rest n 0
        exact .inr ⟨⟨rfl, (congrArg goesOn byte).trans more⟩, free, outside, unfinished⟩
  | openString free outside byte unclosed nothing => exact .inl ⟨nothing, .inl rfl⟩

theorem exists_halt_of_noToken (q : Reading) : ∃ halt, q.noToken = .halts halt q := by
  unfold noToken
  split
  · split <;> exact ⟨_, rfl⟩
  · exact ⟨_, rfl⟩

theorem last_of_string {halt : Halt} {place : Reading} (h : q.string = .halts halt place)
    (beyond : ¬ Scan.stringLooks q.rest ≤ q.rest.length) : place.rest = [] := by
  rw [Scan.stringLooks_eq] at beyond
  unfold string at h
  rcases scan : Scan.string q.rest with ⟨closed, n⟩
  rw [scan] at h beyond
  dsimp only at h beyond
  cases closed with
  | true => cases h
  | false =>
      rw [if_neg Bool.false_ne_true] at h beyond
      split at h
      · cases h
      · obtain ⟨_, rfl⟩ := Reply.halts.inj h
        exact List.drop_eq_nil_of_le (by omega)

theorem last_of_key {halt : Halt} {place : Reading} (isQuote : q.byte = quote)
    (h : q.key = .halts halt place) (beyond : ¬ Scan.keyLooks q.rest ≤ q.rest.length) :
    place.rest = [] := by
  have bound := (Scan.string_bounds isQuote).2
  rw [Scan.keyLooks, Scan.stringLooks_eq] at beyond
  unfold key at h
  rcases scan : Scan.string q.rest with ⟨closed, n⟩
  rw [scan] at h beyond bound
  dsimp only at h beyond bound
  cases closed with
  | false =>
      rw [if_neg Bool.false_ne_true, if_neg Bool.false_ne_true] at beyond
      rw [if_neg Bool.false_ne_true] at h
      obtain ⟨_, rfl⟩ := Reply.halts.inj h
      exact List.drop_eq_nil_of_le (by omega)
  | true =>
      rw [if_pos rfl, if_pos rfl] at beyond
      rw [if_pos rfl] at h
      split at h
      · cases h
      · obtain ⟨_, rfl⟩ := Reply.halts.inj h
        apply List.drop_eq_nil_of_le
        change (q.rest.drop n).length ≤ Scan.blanks (q.rest.drop n)
        rw [List.length_drop]
        omega

/-- Where no value is found the text is at its end or stops short of one. -/
theorem last_of_value {halt : Halt} {place : Reading} (leads : Leads policy r q)
    (whole : r.cut = false) (legal : Move.IsLegal q.nesting.top q.needComma q.byte .value)
    (h : q.value = .halts halt place) (beyond : ¬ Scan.scalarLooks q.rest ≤ q.rest.length) :
    place.rest = [] ∨ r.StopsShort policy := by
  unfold value at h
  by_cases isQuote : q.byte = quote
  · have isQuote' : Scan.byte q.rest 0 = quote := isQuote
    rw [Scan.scalarLooks, if_pos isQuote'] at beyond
    rw [if_pos isQuote] at h
    exact .inl (last_of_string h beyond)
  · rw [if_neg isQuote] at h
    cases number : Scan.number? q.rest with
    | some n =>
        rw [number] at h
        cases h
    | none =>
        cases literal : Scan.literal? q.rest with
        | some n =>
            rw [number, literal] at h
            cases h
        | none =>
            rw [number, literal] at h
            obtain ⟨_, none⟩ := exists_halt_of_noToken q
            obtain ⟨_, rfl⟩ := Reply.halts.inj (none.symm.trans h)
            by_cases nothing : q.rest = []
            · exact .inl nothing
            · rcases Scan.cut_of_scalarLooks nothing isQuote (Nat.lt_of_not_le beyond) with
                ended | unfinished
              · rw [number] at ended
                cases ended
              · have plain := Scan.isPlain_of_isUnfinished unfinished
                obtain ⟨free, outside⟩ := legal (Move.ne_of_isPlain plain rfl)
                exact .inr ⟨whole, q, leads, free, outside, unfinished⟩

/-- Where there is no token either all is in the text, or the text is at its end or stops short. -/
theorem last_of_halts {halt : Halt} {place : Reading} (leads : Leads policy r q)
    (whole : r.cut = false)
    (h : q.perform (Move.of q.nesting.top q.needComma q.byte) = .halts halt place)
    (beyond : ¬ q.moveLooks (Move.of q.nesting.top q.needComma q.byte) ≤ q.rest.length) :
    place.rest = [] ∨ r.StopsShort policy := by
  have legal := Move.isLegal_of q.nesting.top q.needComma q.byte
  have some := fun token : Move.of q.nesting.top q.needComma q.byte ≠ .value =>
    length_of_byte (ne_zero_of_move rfl token)
  generalize Move.of q.nesting.top q.needComma q.byte = move at h beyond legal some
  cases move with
  | openObject | closeObject | openArray | closeArray => cases h
  | refuse fault => exact absurd (some (by intro same; cases same)) beyond
  | key => exact .inl (last_of_key legal.2.2 h beyond)
  | value => exact last_of_value leads whole legal h beyond

/-- A reading looks beyond its text only at its end, or where the text stops short of a value. -/
theorem last_or_stopsShort (whole : r.cut = false) (beyond : ¬ r.LooksInside policy) :
    (r.next policy).IsLast ∨ r.StopsShort policy := by
  cases reply : r.next policy with
  | gives e r' =>
      obtain ⟨_, q, leads, token⟩ := next_eq_gives.mp reply
      rw [looksInside_iff leads] at beyond
      exact (token.beyond beyond).imp_right fun short => ⟨whole, q, leads, short.2⟩
  | halts halt place =>
      rw [next, whole, if_neg Bool.false_ne_true] at reply
      rcases front : r.front policy with ⟨q, fault⟩
      rw [front] at reply
      cases fault with
      | some fault =>
          -- The comma or the bracket that is at fault is in the text.
          have inside := length_of_byte (byte_of_fault front)
          rw [LooksInside, looks, front] at beyond
          exact absurd inside beyond
      | none =>
          have leads := front_eq_none.mp front
          rw [looksInside_iff leads] at beyond
          exact last_of_halts leads whole reply beyond

/-- An event that is looked for beyond the text is the last one, with or without text behind it. -/
theorem last_or_halts (h : r.next policy = .gives e r') (beyond : ¬ r.LooksInside policy) :
    (Reply.gives e r').IsLast ∨ r'.rest ≠ [] ∧ Halts policy r' := by
  obtain ⟨whole, q, leads, token⟩ := next_eq_gives.mp h
  rw [looksInside_iff leads] at beyond
  rcases token.beyond beyond with last | ⟨⟨needed, more⟩, _⟩
  · exact .inl last
  · have some : r'.rest ≠ [] := by
      obtain ⟨_, _, _, _, some⟩ := ne_of_goesOn more
      exact rest_of_length (length_of_byte some)
    cases cut : r'.cut with
    | false => exact .inr ⟨some, halts_of_goesOn cut needed more⟩
    | true =>
        refine .inr ⟨some, .ended, r', ?_⟩
        rw [next, cut, if_pos rfl]

/-- A number that ends with the text is looked at beyond it. -/
theorem not_looksInside_of_number (h : r.next policy = .gives e r') (number : e.kind = .number)
    (nothing : r'.rest = []) : ¬ r.LooksInside policy := by
  obtain ⟨_, q, leads, token⟩ := next_eq_gives.mp h
  rw [looksInside_iff leads]
  cases token with
  | @opens l => cases l <;> cases number
  | @closes l => cases l <;> cases number
  | key | openString => cases number
  | @scalar kind n free outside scanned =>
      rw [move_of_scalar free outside scanned]
      cases scanned with
      | string | literal => cases number
      | number found =>
          have all : q.rest.length ≤ n := List.drop_eq_nil_iff.mp nothing
          have looks := Scan.number?_lt_scalarLooks found
          rw [moveLooks]
          omega

/-! ## Texts that stop short -/

/-- A reading that comes to a byte had bytes before. -/
theorem Run.rest_ne_nil {marks : List Mark} (h : Run policy r marks q) (some : q.rest ≠ []) :
    r.rest ≠ [] := by
  cases h with
  | nil => exact some
  | cons gives rest =>
      intro nothing
      rw [next_of_nothing nothing] at gives
      cases gives

theorem StopsShort.rest_ne_nil (h : r.StopsShort policy) : r.rest ≠ [] := by
  obtain ⟨q, leads, _, _, unfinished⟩ := h.short
  obtain ⟨g, _, text, _⟩ := leads.gap
  rw [text]
  exact List.append_ne_nil_of_right_ne_nil g unfinished.some

/-- Where a text stops short the reading does not come to its end. -/
theorem StopsShort.place_ne_nil (h : r.StopsShort policy) : (r.next policy).place.rest ≠ [] := by
  obtain ⟨q, leads, free, outside, unfinished⟩ := h.short
  have plain := Scan.isPlain_of_isUnfinished unfinished
  have noQuote : q.byte ≠ quote := Move.ne_of_isPlain plain rfl
  have move : Move.of q.nesting.top q.needComma q.byte = .value := by
    rw [free]
    exact Move.of_plain outside plain
  have behind {n : Nat} (found : Scan.number? q.rest = some n ∨ Scan.literal? q.rest = some n) :
      q.rest.drop n ≠ [] := by
    have less := Scan.lt_length_of_isUnfinished unfinished found
    exact fun nothing => Nat.not_le_of_lt less (List.drop_eq_nil_iff.mp nothing)
  rw [next, h.whole, if_neg Bool.false_ne_true, front_eq_none.mpr leads]
  dsimp only
  rw [move, perform, value, if_neg noQuote]
  cases number : Scan.number? q.rest with
  | some n => exact behind (.inl number)
  | none =>
      cases literal : Scan.literal? q.rest with
      | some n => exact behind (.inr literal)
      | none =>
          obtain ⟨_, none⟩ := exists_halt_of_noToken q
          dsimp only
          rw [none]
          exact unfinished.some

/-- A text that stops short can go on to an event that it does not give. -/
theorem StopsShort.exists_behind (h : r.StopsShort policy) :
    ∃ behind e r', (r.extend behind).next policy = .gives e r' ∧ r'.rest = [] ∧
      ∀ r'', r.next policy ≠ .gives e r'' := by
  obtain ⟨q, leads, free, outside, unfinished⟩ := h.short
  obtain ⟨t, finished⟩ := unfinished.finished
  have front := front_eq_none.mpr leads
  have leads' : Leads policy (r.extend t) (q.extend t) := by
    have extended : (r.extend t).front policy = _ :=
      front_extend t (by rw [front]; exact unfinished.some)
    rw [front] at extended
    exact front_eq_none.mp extended
  obtain ⟨kind, scanned⟩ : ∃ kind, Scan.Scalar (q.rest ++ t) kind (q.rest ++ t).length := by
    rcases finished with number | literal
    · exact ⟨.number, .number (Scan.number?_of_isNumber number)⟩
    · exact ⟨.literal, .literal (Scan.literal?_of_isLiteral literal)⟩
  have token := Token.scalar (q := q.extend t) free outside scanned
  refine ⟨t, _, _, next_eq_gives.mpr ⟨h.whole, _, leads', token⟩, List.drop_length,
    fun r'' gives => ?_⟩
  obtain ⟨_, q', leads'', token'⟩ := next_eq_gives.mp gives
  obtain ⟨rfl, _⟩ := Prod.mk.inj (front.symm.trans (front_eq_none.mpr leads''))
  -- The event would be all of the text and more.
  obtain ⟨g, takes⟩ := token'.takes
  have text := congrArg List.length takes.text
  have whole : (q.extend t).rest.take (q.rest ++ t).length = q.rest ++ t := List.take_length
  rw [whole, List.length_append, List.length_append] at text
  have nothing : t = [] := List.eq_nil_of_length_eq_zero (by omega)
  rw [nothing, List.append_nil] at finished
  exact finished.elim unfinished.noNumber unfinished.noLiteral

end Reading

end JsonEvents
