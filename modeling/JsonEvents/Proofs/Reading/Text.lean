import JsonEvents.Proofs.Grammar.Scanned

/-!
# The text of a step

What a reading passes over for an event: the gap in front of its token
(`Leads.gap`), the token, and behind a key its colon (`Token.text`).
-/

namespace JsonEvents.Reading

open Ascii Grammar

variable {policy : TrailingComma} {q r : Reading} {e : Event}

theorem skipBlanks_text (r : Reading) :
    ∃ a, IsBlank a ∧ r.rest = a ++ r.skipBlanks.rest ∧
      r.skipBlanks.offset = r.offset + a.length := by
  refine ⟨r.rest.take (Scan.blanks r.rest), Scan.isBlank_take r.rest, ?_, ?_⟩
  · exact (List.take_append_drop _ _).symm
  · have size : Scan.blanks r.rest ≤ r.rest.length := Scan.run_le _ _
    rw [List.length_take, Nat.min_eq_left size]
    rfl

/-- The bytes of the gap in front of a token: white space, with a comma where one is due. -/
inductive Gap (policy : TrailingComma) (r q : Reading) : Bytes → Prop
  | blank {a : Bytes} (blank : IsBlank a) (kept : q.needComma = r.needComma) : Gap policy r q a
  | comma {a b : Bytes} (front : IsBlank a) (back : IsBlank b)
      (separates : Front.isStray policy r.nesting.top r.needComma = false)
      (fine : Front.faultBehind policy q.byte = none) (free : q.needComma = false) :
      Gap policy r q (a ++ comma :: b)

theorem Leads.gap (h : Leads policy r q) :
    ∃ g, Gap policy r q g ∧ r.rest = g ++ q.rest ∧ q.offset = r.offset + g.length := by
  obtain ⟨a, front, text, offset⟩ := r.skipBlanks_text
  cases h with
  | blanks => exact ⟨a, .blank front rfl, text, offset⟩
  | comma isComma separates fine =>
      obtain ⟨b, back, text', offset'⟩ := (r.skipBlanks.advance 1).skipBlanks_text
      have behind : r.skipBlanks.rest = Ascii.comma :: (r.skipBlanks.advance 1).rest :=
        Scan.eq_cons_of_byte isComma (by decide)
      refine ⟨a ++ Ascii.comma :: b, .comma front back separates fine rfl, ?_, ?_⟩
      · rw [text, behind, text', List.append_assoc]
        rfl
      · have first : (r.skipBlanks.advance 1).offset = r.offset + a.length + 1 :=
          congrArg (· + 1) offset
        have size : (a ++ Ascii.comma :: b).length = a.length + (b.length + 1) := List.length_append
        rw [first] at offset'
        rw [size, ← Nat.add_assoc, ← Nat.add_assoc, Nat.add_right_comm]
        exact offset'

theorem Leads.nesting_eq (h : Leads policy r q) : q.nesting = r.nesting := by
  cases h <;> rfl

theorem Leads.cut_eq (h : Leads policy r q) : q.cut = r.cut := by
  cases h <;> rfl

/-- A comma separates the items of a list, under `reject` only behind a complete one. -/
theorem of_separates {context : Context} {needComma : Bool}
    (h : Front.isStray policy context needComma = false) :
    (context = .array ∨ context = .objectKey) ∧ (policy = .reject → needComma = true) := by
  rw [Front.isStray, Bool.or_eq_false_iff] at h
  obtain ⟨list, owed⟩ := h
  constructor
  · cases context with
    | value | objectValue => cases list
    | array => exact .inl rfl
    | objectKey => exact .inr rfl
  · rintro rfl
    cases needComma with
    | true => rfl
    | false => cases owed

/-- Under `reject` no closing bracket stands behind a comma. -/
theorem not_close_of_fine {c : UInt8} (fine : Front.faultBehind .reject c = none) :
    ¬ (c = closeBracket ∨ c = closeBrace) := by
  intro close
  rw [Front.faultBehind] at fine
  split at fine
  · cases fine
  · rw [if_pos ⟨rfl, close⟩] at fine
    cases fine

/-- The byte in front of a token is its first one. -/
theorem rest_of_byte {c : UInt8} (byte : q.byte = c) (some : c ≠ 0) :
    q.rest = c :: (q.advance 1).rest := Scan.eq_cons_of_byte byte some

/-- Behind a key there may be white space, and then its colon. -/
theorem key_text {n : Nat} (isColon : (q.advance n).skipBlanks.byte = colon) :
    ∃ a, IsBlank a ∧
      q.rest = q.rest.take n ++ (a ++ colon :: ((q.advance n).skipBlanks.advance 1).rest) ∧
      ((q.advance n).skipBlanks.advance 1).offset = q.offset + n + a.length + 1 := by
  obtain ⟨a, blank, text, offset⟩ := (q.advance n).skipBlanks_text
  refine ⟨a, blank, ?_, ?_⟩
  · rw [← rest_of_byte isColon (by decide), ← text]
    exact (List.take_append_drop n q.rest).symm
  · rw [advance, offset, advance]

/-! ## Tokens -/

/-- Whether an event that was met in a context is a key. -/
def isKey (context : Context) (e : Event) : Bool := context == .objectKey && e.kind == .string

/-- Whether an event that was met in a context completes a value. -/
def completes (context : Context) (e : Event) : Bool :=
  match e.kind with
  | .number | .literal | .endObject | .endArray => true
  | .string => context != .objectKey
  | _ => false

/-- Whether an event closes an object or an array. -/
def closes (e : Event) : Bool := e.kind == .endObject || e.kind == .endArray

/-- The bytes `g` behind an event: behind a key white space and its colon, else nothing. -/
def IsTrail (key : Bool) (g : Bytes) : Prop :=
  if key then ∃ a, IsBlank a ∧ g = a ++ [colon] else g = []

/-- What the token `e` takes of the text at `q`, and how it leaves the reading behind it. -/
structure Takes (q : Reading) (e : Event) (r : Reading) (g : Bytes) : Prop where
  text : q.rest = e.data ++ (g ++ r.rest)
  offset : r.offset = q.offset + e.data.length + g.length
  some : e.data ≠ []
  trail : IsTrail (isKey q.nesting.top e) g
  context : isKey q.nesting.top e = true → r.nesting.top = .objectValue
  owed : r.cut = false → r.needComma = completes q.nesting.top e
  free : closes e = false → q.needComma = false
  close : closes e = true → q.byte = closeBracket ∨ q.byte = closeBrace

/-- A token that nothing trails. -/
theorem takes_of_advance {kind : Kind} {n : Nat} (some : 0 < n) (inside : n ≤ q.rest.length)
    (noKey : isKey q.nesting.top ⟨kind, q.rest.take n⟩ = false)
    (rest : r.rest = (q.advance n).rest) (offset : r.offset = (q.advance n).offset)
    (owed : r.cut = false → r.needComma = completes q.nesting.top ⟨kind, q.rest.take n⟩)
    (free : closes ⟨kind, q.rest.take n⟩ = false → q.needComma = false)
    (close : closes ⟨kind, q.rest.take n⟩ = true →
      q.byte = closeBracket ∨ q.byte = closeBrace) :
    Takes q ⟨kind, q.rest.take n⟩ r [] := by
  have size : (q.rest.take n).length = n := by rw [List.length_take, Nat.min_eq_left inside]
  constructor
  · rw [rest]
    exact (List.take_append_drop n q.rest).symm
  · rw [size]
    exact offset
  · apply List.ne_nil_of_length_pos
    rw [size]
    exact some
  · rw [noKey]
    rfl
  · rw [noKey]
    nofun
  · exact owed
  · exact free
  · exact close

theorem not_isKey_of_context {context : Context} (outside : context ≠ .objectKey) (e : Event) :
    isKey context e = false := by
  rw [isKey, beq_eq_false_iff_ne.mpr outside, Bool.false_and]

theorem not_isKey_of_kind {e : Event} (kind : e.kind ≠ .string) (context : Context) :
    isKey context e = false := by
  rw [isKey, beq_eq_false_iff_ne.mpr kind, Bool.and_false]

theorem takes_opening {l : Listed} (free : q.needComma = false) (byte : q.byte = l.opening) :
    ∃ g, Takes q ⟨l.startKind, q.rest.take 1⟩
      { q.advance 1 with nesting := q.nesting.push l.context, needComma := false } g := by
  have inside : 0 < q.rest.length :=
    Scan.lt_length_of_byte fun none => l.opening_ne (byte.symm.trans none)
  refine ⟨[], takes_of_advance Nat.one_pos inside ?_ rfl rfl ?_ (fun _ => free) ?_⟩
  · exact not_isKey_of_kind l.startKind_ne.1 _
  · cases l <;> exact fun _ => rfl
  · cases l <;> nofun

theorem takes_closing {l : Listed} (byte : q.byte = l.closing) :
    ∃ g, Takes q ⟨l.endKind, q.rest.take 1⟩
      { q.advance 1 with nesting := q.nesting.pop, needComma := true } g := by
  have inside : 0 < q.rest.length :=
    Scan.lt_length_of_byte fun none => l.closing_ne.1 (byte.symm.trans none)
  refine ⟨[], takes_of_advance Nat.one_pos inside ?_ rfl rfl ?_ ?_ ?_⟩
  · exact not_isKey_of_kind l.endKind_ne.1 _
  · cases l <;> exact fun _ => rfl
  · cases l <;> nofun
  · intro _
    rw [byte]
    exact l.closing_cases

theorem takes_key {n : Nat} (free : q.needComma = false) (inside : q.nesting.top = .objectKey)
    (isQuote : q.byte = quote) (scanned : Scan.string q.rest = (true, n))
    (isColon : (q.advance n).skipBlanks.byte = colon) :
    ∃ g, Takes q ⟨.string, q.rest.take n⟩
      { (q.advance n).skipBlanks.advance 1 with nesting := q.nesting.setTop .objectValue } g := by
  obtain ⟨a, blank, text, offset⟩ := key_text isColon
  have bounds := Scan.string_bounds isQuote
  rw [scanned] at bounds
  have size : (q.rest.take n).length = n := by rw [List.length_take, Nat.min_eq_left bounds.2]
  refine ⟨a ++ [colon], ?_⟩
  constructor
  · rw [List.append_assoc]
    exact text
  · rw [List.length_append, size, ← Nat.add_assoc]
    exact offset
  · apply List.ne_nil_of_length_pos
    rw [size]
    exact bounds.1
  · rw [isKey, inside]
    exact ⟨a, blank, rfl⟩
  · exact fun _ => rfl
  · rw [inside]
    exact fun _ => free
  · exact fun _ => free
  · nofun

theorem Token.takes (h : Token q e r) : ∃ g, Takes q e r g := by
  cases h with
  | @opens l free byte => exact takes_opening free byte
  | @closes l inside byte => exact takes_closing byte
  | key free inside isQuote scanned isColon => exact takes_key free inside isQuote scanned isColon
  | scalar free outside scanned =>
      obtain ⟨some, inside⟩ := scanned.bounds
      refine ⟨[], takes_of_advance some inside (not_isKey_of_context outside _) rfl rfl ?_
        (fun _ => free) ?_⟩
      · intro _
        cases scanned with
        | string => exact (bne_iff_ne.mpr outside).symm
        | number | literal => rfl
      · cases scanned <;> nofun
  | openString free outside isQuote scanned =>
      have bounds := Scan.string_bounds isQuote
      rw [scanned] at bounds
      exact ⟨[], takes_of_advance bounds.1 bounds.2 (not_isKey_of_context outside _) rfl rfl nofun
        (fun _ => free) nofun⟩

/-- What a reading takes of the text it counts. -/
theorem length_of_gives {r' : Reading} (h : r.next policy = .gives e r') :
    r'.offset + r'.rest.length = r.offset + r.rest.length := by
  obtain ⟨_, q, leads, token⟩ := next_eq_gives.mp h
  obtain ⟨g, _, text, offset⟩ := leads.gap
  obtain ⟨g', takes⟩ := token.takes
  rw [text, takes.text, takes.offset, offset]
  simp only [List.length_append]
  omega

end JsonEvents.Reading
