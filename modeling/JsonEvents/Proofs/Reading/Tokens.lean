import JsonEvents.Proofs.Reading

/-!
# The tokens of a reading

`Leads policy r q` says that the next token after `r` begins at `q`, and
`Token q e r` that it is the event `e` with `r` behind it.  Together they are
exactly the events that a reading gives (`next_eq_gives`).
-/

namespace JsonEvents.Scan

open Ascii

/-- A number begins with a minus sign or a digit. -/
theorem byte_of_number? {s : Bytes} {n : Nat} (h : number? s = some n) :
    byte s 0 = minus ∨ isDigit (byte s 0) = true := by
  by_cases negative : byte s 0 = minus
  · exact .inl negative
  · right
    have none : sign s = 0 := if_neg negative
    unfold number? at h
    rw [none, List.drop_zero] at h
    cases leading : integer? s with
    | none => rw [leading] at h; cases h
    | some m =>
        unfold integer? at leading
        split at leading
        · next isZero => rw [isZero]; rfl
        · split at leading
          · next digit =>
              simp only [isDigit, Bool.and_eq_true, decide_eq_true_eq]
              refine ⟨?_, digit.2⟩
              have least : zero ≤ one := by decide
              exact UInt8.le_trans least digit.1
          · cases leading

/-- A literal begins with the first byte of one of the words. -/
theorem byte_of_literal? {s : Bytes} {n : Nat} (h : literal? s = some n) :
    byte s 0 ∈ Window.literals.map (byte · 0) := by
  have words : ∀ words : List Bytes, [] ∉ words → oneOf? s words = some n →
      byte s 0 ∈ words.map (byte · 0) := by
    intro words
    induction words with
    | nil => intro _ found; cases found
    | cons word rest ih =>
        intro some found
        rw [oneOf?] at found
        split at found
        · next here =>
            obtain ⟨tail, rfl⟩ := List.isPrefixOf_iff_prefix.mp here
            cases word with
            | nil => exact absurd (List.mem_cons_self) some
            | cons c word => exact List.mem_cons_self
        · exact List.mem_cons_of_mem _
            (ih (fun member => some (List.mem_cons_of_mem _ member)) found)
  exact words Window.literals (by decide) h

/-- A scalar of the given kind and length is in front. -/
inductive Scalar (s : Bytes) : Kind → Nat → Prop
  | string {n : Nat} (byte : byte s 0 = quote) (closed : string s = (true, n)) :
      Scalar s .string n
  | number {n : Nat} (found : number? s = some n) : Scalar s .number n
  | literal {n : Nat} (found : literal? s = some n) : Scalar s .literal n

theorem Scalar.bounds {s : Bytes} {kind : Kind} {n : Nat} (h : Scalar s kind n) :
    0 < n ∧ n ≤ s.length := by
  cases h with
  | string isQuote closed =>
      have bounds := string_bounds isQuote
      rw [closed] at bounds
      exact bounds
  | number found => exact number?_bounds found
  | literal found => exact literal?_bounds found

/-- What begins like a literal is no number. -/
theorem number?_of_literal? {s : Bytes} {n : Nat} (h : literal? s = some n) :
    number? s = none := by
  have others :
      (Window.literals.map (byte · 0)).all (fun c => c != minus && !isDigit c) = true := by decide
  have other := List.all_eq_true.mp others _ (byte_of_literal? h)
  cases found : number? s with
  | none => rfl
  | some m =>
      rcases byte_of_number? found with negative | digit
      · rw [negative] at other; cases other
      · rw [digit, Bool.not_true, Bool.and_false] at other; cases other

end JsonEvents.Scan

namespace JsonEvents

open Ascii

/-- What is written as a list between brackets. -/
inductive Listed
  | object
  | array

namespace Listed

def opening : Listed → UInt8
  | .object => openBrace
  | .array => openBracket

def closing : Listed → UInt8
  | .object => closeBrace
  | .array => closeBracket

/-- The context that an item is expected in. -/
def context : Listed → Context
  | .object => .objectKey
  | .array => .array

def startKind : Listed → Kind
  | .object => .startObject
  | .array => .startArray

def endKind : Listed → Kind
  | .object => .endObject
  | .array => .endArray

theorem opening_ne (l : Listed) : l.opening ≠ nul := by
  cases l <;> decide

theorem closing_ne (l : Listed) : l.closing ≠ nul ∧ l.closing ≠ comma := by
  cases l <;> decide

theorem isSpace_closing (l : Listed) : isSpace l.closing = false := by
  cases l <;> rfl

theorem closing_cases (l : Listed) : l.closing = closeBracket ∨ l.closing = closeBrace := by
  cases l with
  | object => exact .inr rfl
  | array => exact .inl rfl

theorem context_ne (l : Listed) : l.context ≠ .value := by
  cases l <;> decide

theorem startKind_cases (l : Listed) : l.startKind = .startObject ∨ l.startKind = .startArray := by
  cases l with
  | object => exact .inl rfl
  | array => exact .inr rfl

theorem startKind_ne (l : Listed) : l.startKind ≠ .string ∧ l.startKind ≠ .error := by
  cases l <;> decide

theorem endKind_ne (l : Listed) : l.endKind ≠ .string ∧ l.endKind ≠ .error := by
  cases l <;> decide

end Listed

namespace Move

/-- Whether a byte is no bracket, no brace, no quote and not NUL. -/
def isPlain (c : UInt8) : Bool :=
  c ∉ [openBrace, closeBrace, openBracket, closeBracket, quote, nul]

theorem isPlain_of_isDigit {c : UInt8} (h : isDigit c = true) : isPlain c = true := by
  simp only [isPlain, decide_eq_true_eq]
  intro member
  have none : [openBrace, closeBrace, openBracket, closeBracket, quote, nul].all (!isDigit ·) := by
    decide
  have := List.all_eq_true.mp none c member
  rw [h] at this
  cases this

theorem isPlain_of_number? {s : Bytes} {n : Nat} (h : Scan.number? s = some n) :
    isPlain (Scan.byte s 0) = true := by
  rcases Scan.byte_of_number? h with negative | digit
  · rw [negative]; decide
  · exact isPlain_of_isDigit digit

theorem isPlain_of_literal? {s : Bytes} {n : Nat} (h : Scan.literal? s = some n) :
    isPlain (Scan.byte s 0) = true := by
  have all : (Window.literals.map (Scan.byte · 0)).all isPlain = true := by decide
  exact List.all_eq_true.mp all _ (Scan.byte_of_literal? h)

theorem ne_of_isPlain {c d : UInt8} (h : isPlain c = true) (hd : isPlain d = false) : c ≠ d := by
  rintro rfl
  rw [h] at hd
  cases hd

/-- What a move needs: which structure is open, and which byte is in front. -/
def IsLegal (context : Context) (needComma : Bool) (c : UInt8) : Move → Prop
  | .openObject => needComma = false ∧ c = openBrace
  | .closeObject => context = .objectKey ∧ c = closeBrace
  | .openArray => needComma = false ∧ c = openBracket
  | .closeArray => context = .array ∧ c = closeBracket
  | .key => needComma = false ∧ context = .objectKey ∧ c = quote
  | .value => c ≠ nul → needComma = false ∧ context ≠ .objectKey
  | .refuse _ => True

theorem isLegal_of (context : Context) (needComma : Bool) (c : UInt8) :
    IsLegal context needComma c (of context needComma c) := by
  unfold of
  by_cases missing : needComma = true ∧ c ≠ closeBrace ∧ c ≠ closeBracket ∧ c ≠ nul
  · rw [if_pos missing]
    trivial
  · rw [if_neg missing]
    have free : c ≠ closeBrace → c ≠ closeBracket → c ≠ nul → needComma = false := by
      intro notBrace notBracket notNul
      cases needComma with
      | false => rfl
      | true => exact absurd ⟨rfl, notBrace, notBracket, notNul⟩ missing
    by_cases isOpenBrace : c = openBrace
    · rw [if_pos isOpenBrace]
      exact ⟨by apply free <;> rw [isOpenBrace] <;> decide, isOpenBrace⟩
    · rw [if_neg isOpenBrace]
      by_cases isCloseBrace : c = closeBrace
      · rw [if_pos isCloseBrace]
        by_cases inside : context = .objectKey
        · rw [if_pos inside]
          exact ⟨inside, isCloseBrace⟩
        · rw [if_neg inside]
          trivial
      · rw [if_neg isCloseBrace]
        by_cases isOpenBracket : c = openBracket
        · rw [if_pos isOpenBracket]
          exact ⟨by apply free <;> rw [isOpenBracket] <;> decide, isOpenBracket⟩
        · rw [if_neg isOpenBracket]
          by_cases isCloseBracket : c = closeBracket
          · rw [if_pos isCloseBracket]
            by_cases inside : context = .array
            · rw [if_pos inside]
              exact ⟨inside, isCloseBracket⟩
            · rw [if_neg inside]
              trivial
          · rw [if_neg isCloseBracket]
            have free := free isCloseBrace isCloseBracket
            by_cases inKey : context = .objectKey ∧ c ≠ nul
            · rw [if_pos inKey]
              by_cases isQuote : c = quote
              · rw [if_pos isQuote]
                exact ⟨free inKey.2, inKey.1, isQuote⟩
              · rw [if_neg isQuote]
                trivial
            · rw [if_neg inKey]
              exact fun some => ⟨free some, fun inside => inKey ⟨inside, some⟩⟩

theorem of_plain {context : Context} {c : UInt8} (outside : context ≠ .objectKey)
    (plain : isPlain c = true) : of context false c = .value := by
  have ne := fun d (hd : isPlain d = false) => ne_of_isPlain plain hd
  unfold of
  rw [if_neg (fun h => nomatch h.1), if_neg (ne _ rfl), if_neg (ne _ rfl), if_neg (ne _ rfl),
    if_neg (ne _ rfl), if_neg (fun h => outside h.1)]

theorem of_nul (context : Context) (needComma : Bool) : of context needComma nul = .value := by
  cases context <;> cases needComma <;> rfl

theorem of_quote {context : Context} :
    of context false quote = if context = .objectKey then .key else .value := by
  cases context <;> rfl

theorem of_opening (context : Context) (l : Listed) :
    of context false l.opening = match l with | .object => .openObject | .array => .openArray := by
  cases l <;> cases context <;> rfl

theorem of_closing (needComma : Bool) (l : Listed) :
    of l.context needComma l.closing =
      match l with | .object => .closeObject | .array => .closeArray := by
  cases l <;> cases needComma <;> rfl

end Move

namespace Reading

variable {policy : TrailingComma} {q r r' : Reading} {e : Event}

/-! ## In front of a token -/

/-- The next token begins at `q`, behind white space and a comma that may be there. -/
inductive Leads (policy : TrailingComma) (r : Reading) : Reading → Prop
  | blanks (other : r.skipBlanks.byte ≠ comma) : Leads policy r r.skipBlanks
  | comma (isComma : r.skipBlanks.byte = comma)
      (separates : Front.isStray policy r.nesting.top r.needComma = false)
      (fine : Front.faultBehind policy (r.skipBlanks.advance 1).skipBlanks.byte = none) :
      Leads policy r { (r.skipBlanks.advance 1).skipBlanks with needComma := false }

theorem front_eq_none : r.front policy = (q, none) ↔ Leads policy r q := by
  constructor
  · intro h
    unfold front at h
    dsimp only at h
    split at h
    · next isComma =>
        split at h
        · cases h
        · next separates =>
            obtain ⟨rfl, fine⟩ := Prod.mk.inj h
            exact .comma isComma (Bool.eq_false_iff.mpr separates) fine
    · next other =>
        obtain ⟨rfl, _⟩ := Prod.mk.inj h
        exact .blanks other
  · intro h
    unfold front
    cases h with
    | blanks other =>
        dsimp only
        rw [if_neg other]
    | comma isComma separates fine =>
        have separates :
            ¬ Front.isStray policy r.skipBlanks.nesting.top r.skipBlanks.needComma = true :=
          Bool.eq_false_iff.mp separates
        dsimp only
        rw [if_pos isComma, if_neg separates]
        exact congrArg (Prod.mk _) fine

/-! ## Tokens -/

/-- The token at `q` is the event `e`, and `r` is the place behind it. -/
inductive Token (q : Reading) : Event → Reading → Prop
  | opens {l : Listed} (free : q.needComma = false) (byte : q.byte = l.opening) :
      Token q ⟨l.startKind, q.rest.take 1⟩
        { q.advance 1 with nesting := q.nesting.push l.context, needComma := false }
  | closes {l : Listed} (inside : q.nesting.top = l.context) (byte : q.byte = l.closing) :
      Token q ⟨l.endKind, q.rest.take 1⟩
        { q.advance 1 with nesting := q.nesting.pop, needComma := true }
  | key {n : Nat} (free : q.needComma = false) (inside : q.nesting.top = .objectKey)
      (byte : q.byte = quote) (closed : Scan.string q.rest = (true, n))
      (colon : (q.advance n).skipBlanks.byte = colon) :
      Token q ⟨.string, q.rest.take n⟩
        { (q.advance n).skipBlanks.advance 1 with nesting := q.nesting.setTop .objectValue }
  | scalar {kind : Kind} {n : Nat} (free : q.needComma = false)
      (outside : q.nesting.top ≠ .objectKey) (scanned : Scan.Scalar q.rest kind n) :
      Token q ⟨kind, q.rest.take n⟩
        { q.advance n with
          nesting := q.nesting.setTop q.nesting.top.afterValue, needComma := true }
  | openString {n : Nat} (free : q.needComma = false) (outside : q.nesting.top ≠ .objectKey)
      (byte : q.byte = quote) (unclosed : Scan.string q.rest = (false, n))
      (nothing : q.rest.drop n = []) :
      Token q ⟨.string, q.rest.take n⟩ { q.advance n with cut := true }

theorem Token.kind_ne (h : Token q e r) : e.kind ≠ .error := by
  cases h with
  | @opens l => exact l.startKind_ne.2
  | @closes l => exact l.endKind_ne.2
  | scalar free outside scanned => cases scanned <;> exact nofun
  | key | openString => exact nofun

theorem key_eq_gives (free : q.needComma = false) (inside : q.nesting.top = .objectKey)
    (byte : q.byte = quote) (h : q.key = .gives e r) : Token q e r := by
  unfold key at h
  rcases scan : Scan.string q.rest with ⟨closed, n⟩
  rw [scan] at h
  dsimp only at h
  split at h
  · next isClosed =>
      split at h
      · next isColon =>
          obtain ⟨rfl, rfl⟩ := Reply.gives.inj h
          exact .key free inside byte (scan.trans (by rw [isClosed])) isColon
      · cases h
  · cases h

theorem string_eq_gives (free : q.needComma = false) (outside : q.nesting.top ≠ .objectKey)
    (byte : q.byte = quote) (h : q.string = .gives e r) : Token q e r := by
  unfold string at h
  rcases scan : Scan.string q.rest with ⟨closed, n⟩
  rw [scan] at h
  dsimp only at h
  split at h
  · next isClosed =>
      obtain ⟨rfl, rfl⟩ := Reply.gives.inj h
      exact .scalar free outside (.string byte (scan.trans (by rw [isClosed])))
  · next isOpen =>
      split at h
      · next nothing =>
          obtain ⟨rfl, rfl⟩ := Reply.gives.inj h
          have isOpen : closed = false := Bool.eq_false_iff.mpr isOpen
          exact .openString free outside byte (scan.trans (by rw [isOpen])) nothing
      · cases h

theorem value_eq_gives (legal : Move.IsLegal q.nesting.top q.needComma q.byte .value)
    (h : q.value = .gives e r) : Token q e r := by
  unfold value at h
  split at h
  · next isQuote =>
      obtain ⟨free, outside⟩ := legal (by rw [isQuote]; decide)
      exact string_eq_gives free outside isQuote h
  · split at h
    · next n found =>
        have plain := Move.isPlain_of_number? found
        obtain ⟨free, outside⟩ := legal (Move.ne_of_isPlain plain rfl)
        obtain ⟨rfl, rfl⟩ := Reply.gives.inj h
        exact .scalar free outside (.number found)
    · split at h
      · next n found =>
          have plain := Move.isPlain_of_literal? found
          obtain ⟨free, outside⟩ := legal (Move.ne_of_isPlain plain rfl)
          obtain ⟨rfl, rfl⟩ := Reply.gives.inj h
          exact .scalar free outside (.literal found)
      · unfold noToken at h
        split at h
        · split at h <;> cases h
        · cases h

theorem token_of_perform
    (h : q.perform (Move.of q.nesting.top q.needComma q.byte) = .gives e r) : Token q e r := by
  have legal := Move.isLegal_of q.nesting.top q.needComma q.byte
  cases move : Move.of q.nesting.top q.needComma q.byte with
  | openObject =>
      rw [move] at h legal
      obtain ⟨rfl, rfl⟩ := Reply.gives.inj h
      exact .opens (l := .object) legal.1 legal.2
  | closeObject =>
      rw [move] at h legal
      obtain ⟨rfl, rfl⟩ := Reply.gives.inj h
      exact .closes (l := .object) legal.1 legal.2
  | openArray =>
      rw [move] at h legal
      obtain ⟨rfl, rfl⟩ := Reply.gives.inj h
      exact .opens (l := .array) legal.1 legal.2
  | closeArray =>
      rw [move] at h legal
      obtain ⟨rfl, rfl⟩ := Reply.gives.inj h
      exact .closes (l := .array) legal.1 legal.2
  | key =>
      rw [move] at h legal
      exact key_eq_gives legal.1 legal.2.1 legal.2.2 h
  | value =>
      rw [move] at h legal
      exact value_eq_gives legal h
  | refuse fault =>
      rw [move] at h
      cases h

/-- Where a value is expected a scalar is taken as one. -/
theorem move_of_scalar {kind : Kind} {n : Nat} (free : q.needComma = false)
    (outside : q.nesting.top ≠ .objectKey) (scanned : Scan.Scalar q.rest kind n) :
    Move.of q.nesting.top q.needComma q.byte = .value := by
  rw [free]
  cases scanned with
  | string byte _ =>
      have isQuote : q.byte = quote := byte
      rw [isQuote, Move.of_quote, if_neg outside]
  | number found => exact Move.of_plain outside (Move.isPlain_of_number? found)
  | literal found => exact Move.of_plain outside (Move.isPlain_of_literal? found)

theorem perform_of_scalar {kind : Kind} {n : Nat} (free : q.needComma = false)
    (outside : q.nesting.top ≠ .objectKey) (scanned : Scan.Scalar q.rest kind n) :
    q.perform (Move.of q.nesting.top q.needComma q.byte) = q.scalar kind n := by
  rw [move_of_scalar free outside scanned, perform, value]
  cases scanned with
  | string byte closed =>
      have isQuote : q.byte = quote := byte
      rw [if_pos isQuote, string, closed]
      rfl
  | number found =>
      have notQuote : q.byte ≠ quote := Move.ne_of_isPlain (Move.isPlain_of_number? found) rfl
      rw [if_neg notQuote, found]
  | literal found =>
      have notQuote : q.byte ≠ quote := Move.ne_of_isPlain (Move.isPlain_of_literal? found) rfl
      rw [if_neg notQuote, Scan.number?_of_literal? found, found]

theorem perform_of_token (h : Token q e r) :
    q.perform (Move.of q.nesting.top q.needComma q.byte) = .gives e r := by
  cases h with
  | @opens l free byte =>
      rw [free, byte, Move.of_opening]
      cases l <;> rfl
  | @closes l inside byte =>
      rw [inside, byte, Move.of_closing]
      cases l <;> rfl
  | key free inside byte closed isColon =>
      rw [free, inside, byte, Move.of_quote, if_pos rfl, perform, key, closed]
      exact if_pos isColon
  | scalar free outside scanned => exact perform_of_scalar free outside scanned
  | openString free outside byte unclosed nothing =>
      rw [free, byte, Move.of_quote, if_neg outside, perform, value, if_pos byte, string,
        unclosed]
      exact if_pos nothing

/-- A token is what the move that its first byte calls for gives. -/
theorem perform_eq_gives :
    q.perform (Move.of q.nesting.top q.needComma q.byte) = .gives e r ↔ Token q e r :=
  ⟨token_of_perform, perform_of_token⟩

theorem next_eq_gives :
    r.next policy = .gives e r' ↔ r.cut = false ∧ ∃ q, Leads policy r q ∧ Token q e r' := by
  unfold next
  cases cut : r.cut with
  | true => exact ⟨nofun, fun h => nomatch h.1⟩
  | false =>
      simp only [Bool.false_eq_true, if_false, true_and]
      rcases front : r.front policy with ⟨q, fault⟩
      cases fault with
      | some fault =>
          constructor
          · nofun
          · rintro ⟨q', leads, _⟩
            rw [front_eq_none.mpr leads] at front
            cases front
      | none =>
          have leads := front_eq_none.mp front
          constructor
          · intro h
            exact ⟨q, leads, perform_eq_gives.mp h⟩
          · rintro ⟨q', leads', token⟩
            obtain ⟨rfl, _⟩ := Prod.mk.inj (front.symm.trans (front_eq_none.mpr leads'))
            exact perform_eq_gives.mpr token

theorem kind_of_gives (h : r.next policy = .gives e r') : e.kind ≠ .error := by
  obtain ⟨_, q, _, token⟩ := next_eq_gives.mp h
  exact token.kind_ne

/-! ## The end of the input -/

/-- Where a byte is in front that is no white space and no comma, the next token begins. -/
theorem leads_self (dark : isSpace r.byte = false) (other : r.byte ≠ comma) :
    Leads policy r r := by
  have none : Scan.blanks r.rest = 0 := Scan.run_of_not_byte dark
  have same : r.skipBlanks = r := by
    rw [skipBlanks, none]
    rfl
  have blanks : Leads policy r r.skipBlanks := .blanks (by rwa [same])
  rwa [same] at blanks

theorem next_of_nothing (nothing : r.rest = []) : r.next policy = .halts .ended r := by
  have byte : r.byte = nul := by
    rw [Reading.byte, nothing]
    rfl
  have leads : Leads policy r r := leads_self (by rw [byte]; rfl) (by rw [byte]; decide)
  rw [next, front_eq_none.mpr leads]
  split
  · rfl
  · dsimp only
    rw [byte, Move.of_nul, perform, value, byte, if_neg (by decide), noToken, byte, if_pos rfl,
      if_pos nothing, nothing]
    rfl

theorem perform_eq_ended {place : Reading} {move : Move}
    (h : q.perform move = .halts .ended place) : place = q ∧ q.rest = [] := by
  cases move with
  | openObject | closeObject | openArray | closeArray | refuse => cases h
  | key =>
      rw [perform, key] at h
      split at h
      dsimp only at h
      split at h
      · split at h <;> cases h
      · cases h
  | value =>
      rw [perform, value] at h
      split at h
      · rw [string] at h
        split at h
        dsimp only at h
        split at h
        · cases h
        · split at h <;> cases h
      · split at h
        · cases h
        · split at h
          · cases h
          · rw [noToken] at h
            split at h
            · split at h
              · next nothing =>
                  cases h
                  exact ⟨rfl, nothing⟩
              · cases h
            · cases h

/-- Where the input is at its end, nothing is left in front of the next token. -/
theorem next_eq_ended {place : Reading} (whole : r.cut = false)
    (h : r.next policy = .halts .ended place) : Leads policy r place ∧ place.rest = [] := by
  rw [next, whole] at h
  simp only [Bool.false_eq_true, if_false] at h
  rcases front : r.front policy with ⟨q, fault⟩
  rw [front] at h
  cases fault with
  | some fault => cases h
  | none =>
      obtain ⟨rfl, nothing⟩ := perform_eq_ended h
      exact ⟨front_eq_none.mp front, nothing⟩

end Reading

end JsonEvents
