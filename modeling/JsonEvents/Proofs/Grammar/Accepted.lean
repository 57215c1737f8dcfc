import JsonEvents.Proofs.Grammar.Scanned
import JsonEvents.Proofs.Reading.Run

/-!
# Every text is read

A reading of a JSON text passes over exactly the events of its value tree, in
the contexts of the tree, and then comes to the end of the input.  The proof is
an induction on how the text is written.
-/

namespace JsonEvents.Reading

open Ascii Grammar

variable {policy : TrailingComma} {p q r : Reading} {s t y : Bytes} {n : Nesting} {needComma : Bool}

/-! ## Places -/

/-- What is left at a place, what is open there, and whether a value is complete. -/
structure IsAt (r : Reading) (rest : Bytes) (nesting : Nesting) (needComma : Bool) : Prop where
  rest : r.rest = rest
  nesting : r.nesting = nesting
  needComma : r.needComma = needComma
  whole : r.cut = false

/-- From `r` to `q` the reading gives these events in these contexts. -/
def Passes (policy : TrailingComma) (r : Reading) (turns : List (Context × Event)) (q : Reading) :
    Prop :=
  ∃ marks, r.Run policy marks q ∧ Mark.turns r.nesting.top marks = turns

theorem Passes.append {turns more : List (Context × Event)} (h : Passes policy r turns q)
    (h' : Passes policy q more p) : Passes policy r (turns ++ more) p := by
  obtain ⟨marks, run, rfl⟩ := h
  obtain ⟨marks', run', rfl⟩ := h'
  exact ⟨marks ++ marks', run.append run', run.turns_append marks'⟩

theorem Passes.single {event : Event} (whole : r.cut = false) (leads : Leads policy r p)
    (token : Token p event q) : Passes policy r [(r.nesting.top, event)] q :=
  ⟨_, .single (next_eq_gives.mpr ⟨whole, p, leads, token⟩), rfl⟩

/-- The next token begins with the given text, and nothing is owed before it. -/
def Meets (policy : TrailingComma) (r : Reading) (s : Bytes) : Prop :=
  r.cut = false ∧ ∃ q, Leads policy r q ∧ q.IsAt s r.nesting false

/-! ## Coming to a token -/

theorem skipBlanks_of_blank {a : Bytes} (blank : IsBlank a)
    (stops : isSpace (Scan.byte s 0) = false) (rest : r.rest = a ++ s) :
    r.skipBlanks = r.advance a.length ∧ r.skipBlanks.rest = s := by
  have size : Scan.blanks r.rest = a.length := by
    rw [rest]
    exact Scan.run_append blank stops
  refine ⟨by rw [skipBlanks, size], ?_⟩
  rw [skipBlanks, size, advance, rest]
  exact List.drop_left

theorem leads_of_blank {a : Bytes} (h : r.IsAt (a ++ s) n needComma) (blank : IsBlank a)
    (stops : isSpace (Scan.byte s 0) = false) (other : Scan.byte s 0 ≠ comma) :
    ∃ q, Leads policy r q ∧ q.IsAt s n needComma := by
  obtain ⟨_, rest⟩ := skipBlanks_of_blank blank stops h.rest
  have byte : r.skipBlanks.byte = Scan.byte s 0 := by rw [byte, rest]
  exact ⟨_, .blanks (byte ▸ other), rest, h.nesting, h.needComma, h.whole⟩

/-- Whether a value or a member may begin with a byte. -/
def isStart (c : UInt8) : Bool :=
  !isSpace c && c != comma && c != closeBracket && c != closeBrace

theorem isStart_of_isDigit {c : UInt8} (h : isDigit c = true) : isStart c = true := by
  have others : [space, tab, lineFeed, carriageReturn, comma, closeBracket, closeBrace].all
      (!isDigit ·) = true := by decide
  have ne := fun d member => (show c ≠ d from by
    rintro rfl
    have other := List.all_eq_true.mp others c member
    rw [h] at other
    cases other)
  simp only [isStart, isSpace, Bool.and_eq_true, Bool.not_eq_true', Bool.or_eq_false_iff,
    beq_eq_false_iff_ne, bne_iff_ne]
  exact ⟨⟨⟨⟨⟨⟨ne _ (by decide), ne _ (by decide)⟩, ne _ (by decide)⟩, ne _ (by decide)⟩,
    ne _ (by decide)⟩, ne _ (by decide)⟩, ne _ (by decide)⟩

theorem isStart_of_writes {phrase : Phrase} (h : Writes phrase s) (y : Bytes) :
    isStart (Scan.byte (s ++ y) 0) = true := by
  induction h generalizing y with
  | literal literal =>
      simp only [IsLiteral, List.map_cons, List.map_nil, List.mem_cons, List.not_mem_nil,
        or_false] at literal
      rcases literal with rfl | rfl | rfl <;> rfl
  | number number =>
      cases number with
      | parts sign integer =>
          cases sign with
          | minus => rfl
          | none =>
              cases integer with
              | zero => rfl
              | digits leading =>
                  refine isStart_of_isDigit ?_
                  simp only [isDigit, Bool.and_eq_true, decide_eq_true_eq]
                  exact ⟨UInt8.le_trans (by decide) leading.1, leading.2⟩
  | string string =>
      rw [Scan.byte_of_isString string]
      rfl
  | emptyArray | array | emptyObject | object => rfl
  | element _ ih => exact ih y
  | elements _ _ _ _ ih =>
      rw [List.append_assoc]
      exact ih _
  | member key =>
      rw [List.append_assoc, Scan.byte_of_isString key]
      rfl
  | members key =>
      rw [List.append_assoc, Scan.byte_of_isString key]
      rfl

theorem meets_of_blank {a : Bytes} (h : r.IsAt (a ++ s) n false) (blank : IsBlank a)
    (start : isStart (Scan.byte s 0) = true) : Meets policy r s := by
  simp only [isStart, Bool.and_eq_true, Bool.not_eq_true', bne_iff_ne] at start
  obtain ⟨⟨⟨stops, other⟩, _⟩, _⟩ := start
  obtain ⟨q, leads, there⟩ := leads_of_blank h blank stops other
  exact ⟨h.whole, q, leads, h.nesting ▸ there⟩

/-- Behind a value that is complete a comma leads to the next one, under either policy. -/
theorem meets_of_comma {a b : Bytes} (h : r.IsAt (a ++ comma :: (b ++ s)) n true)
    (list : n.top = .array ∨ n.top = .objectKey) (front : IsBlank a) (back : IsBlank b)
    (start : isStart (Scan.byte s 0) = true) : Meets policy r s := by
  simp only [isStart, Bool.and_eq_true, Bool.not_eq_true', bne_iff_ne] at start
  obtain ⟨⟨⟨stops, other⟩, noBracket⟩, noBrace⟩ := start
  obtain ⟨_, rest⟩ := skipBlanks_of_blank (s := comma :: (b ++ s)) front rfl h.rest
  have isComma : r.skipBlanks.byte = comma := by rw [byte, rest]; rfl
  have behind : (r.skipBlanks.advance 1).rest = b ++ s := by rw [advance, rest]; rfl
  obtain ⟨_, rest'⟩ := skipBlanks_of_blank back stops behind
  have separates : Front.isStray policy r.nesting.top r.needComma = false := by
    rw [h.nesting, h.needComma, Front.isStray]
    rcases list with array | object
    · rw [array]; cases policy <;> rfl
    · rw [object]; cases policy <;> rfl
  have fine : Front.faultBehind policy (r.skipBlanks.advance 1).skipBlanks.byte = none := by
    rw [byte, rest', Front.faultBehind, if_neg other, if_neg]
    rintro ⟨_, isBracket | isBrace⟩
    · exact noBracket isBracket
    · exact noBrace isBrace
  exact ⟨h.whole, _, .comma isComma separates fine, rest', rfl, rfl, h.whole⟩

/-! ## Passing over a token -/

theorem passes_scalar {kind : Kind} (h : Meets policy r (s ++ y))
    (outside : r.nesting.top ≠ .objectKey) (scanned : Scan.Scalar (s ++ y) kind s.length) :
    ∃ q, Passes policy r [(r.nesting.top, ⟨kind, s⟩)] q ∧
      q.IsAt y (r.nesting.setTop r.nesting.top.afterValue) true := by
  obtain ⟨whole, p, leads, there⟩ := h
  have outside' : p.nesting.top ≠ .objectKey := by rw [there.nesting]; exact outside
  have token := Token.scalar there.needComma outside' (there.rest ▸ scanned)
  have data : p.rest.take s.length = s := by rw [there.rest]; exact List.take_left
  rw [data] at token
  refine ⟨_, .single whole leads token, ?_⟩
  constructor
  · rw [advance, there.rest]
    exact List.drop_left
  · rw [there.nesting]
  · rfl
  · exact there.whole

theorem passes_key {k a : Bytes} (h : Meets policy r (k ++ (a ++ colon :: y)))
    (inside : r.nesting.top = .objectKey) (isString : IsString k) (blank : IsBlank a) :
    ∃ q, Passes policy r [(.objectKey, ⟨.string, k⟩)] q ∧
      q.IsAt y (r.nesting.setTop .objectValue) false := by
  obtain ⟨whole, p, leads, there⟩ := h
  have inside' : p.nesting.top = .objectKey := by rw [there.nesting]; exact inside
  have isQuote : p.byte = quote := by
    rw [byte, there.rest]
    exact Scan.byte_of_isString isString _
  have closed : Scan.string p.rest = (true, k.length) := by
    rw [there.rest]
    exact Scan.string_append isString _
  have behind : (p.advance k.length).rest = a ++ colon :: y := by
    rw [advance, there.rest]
    exact List.drop_left
  obtain ⟨_, rest⟩ := skipBlanks_of_blank (s := colon :: y) blank rfl behind
  have isColon : (p.advance k.length).skipBlanks.byte = colon := by rw [byte, rest]; rfl
  have token := Token.key there.needComma inside' isQuote closed isColon
  have data : p.rest.take k.length = k := by rw [there.rest]; exact List.take_left
  rw [data] at token
  rw [← inside]
  refine ⟨_, .single whole leads token, ?_⟩
  constructor
  · rw [advance, rest]
    rfl
  · rw [there.nesting]
  · exact there.needComma
  · exact there.whole

theorem passes_opening {l : Listed} (h : Meets policy r (l.opening :: y)) :
    ∃ q, Passes policy r [(r.nesting.top, ⟨l.startKind, [l.opening]⟩)] q ∧
      q.IsAt y (r.nesting.push l.context) false := by
  obtain ⟨whole, p, leads, there⟩ := h
  have byte : p.byte = l.opening := by rw [byte, there.rest]; rfl
  have token := Token.opens there.needComma byte
  rw [there.rest] at token
  refine ⟨_, .single whole leads token, ?_⟩
  constructor
  · rw [advance, there.rest]
    rfl
  · rw [there.nesting]
  · rfl
  · exact there.whole

theorem passes_closing {l : Listed} {a : Bytes} (h : r.IsAt (a ++ l.closing :: y) n needComma)
    (blank : IsBlank a) (inside : n.top = l.context) :
    ∃ q, Passes policy r [(l.context, ⟨l.endKind, [l.closing]⟩)] q ∧ q.IsAt y n.pop true := by
  obtain ⟨p, leads, there⟩ := leads_of_blank h blank l.isSpace_closing l.closing_ne.2
  have byte : p.byte = l.closing := by rw [byte, there.rest]; rfl
  have token := Token.closes (there.nesting ▸ inside) byte
  rw [there.rest] at token
  have context : r.nesting.top = l.context := by rw [h.nesting, inside]
  rw [← context]
  refine ⟨_, .single h.whole leads token, ?_⟩
  constructor
  · rw [advance, there.rest]
    rfl
  · rw [there.nesting]
  · rfl
  · exact there.whole

/-- An empty list leaves the place as a value that is complete does. -/
theorem passes_empty {l : Listed} {a : Bytes}
    (meets : Meets policy r (l.opening :: (a ++ l.closing :: y))) (blank : IsBlank a) :
    ∃ q, Passes policy r [(r.nesting.top, ⟨l.startKind, [l.opening]⟩),
        (l.context, ⟨l.endKind, [l.closing]⟩)] q ∧
      q.IsAt y (r.nesting.setTop r.nesting.top.afterValue) true := by
  obtain ⟨p, opens, inside⟩ := passes_opening meets
  obtain ⟨q, closes, behind⟩ := passes_closing inside blank rfl
  exact ⟨q, opens.append closes, behind⟩

/-- So does a list whose items are passed over and leave the list as it was. -/
theorem passes_list {l : Listed} {a b : Bytes} {turns : List (Context × Event)}
    (meets : Meets policy r (l.opening :: (a ++ (s ++ (b ++ l.closing :: y)))))
    (front : IsBlank a) (back : IsBlank b)
    (start : isStart (Scan.byte (s ++ (b ++ l.closing :: y)) 0) = true)
    (items : ∀ p, Meets policy p (s ++ (b ++ l.closing :: y)) → p.nesting.top = l.context →
      ∃ q, Passes policy p turns q ∧ q.IsAt (b ++ l.closing :: y) p.nesting true) :
    ∃ q, Passes policy r ((r.nesting.top, ⟨l.startKind, [l.opening]⟩) ::
        (turns ++ [(l.context, ⟨l.endKind, [l.closing]⟩)])) q ∧
      q.IsAt y (r.nesting.setTop r.nesting.top.afterValue) true := by
  obtain ⟨p, opens, inside⟩ := passes_opening meets
  have context : p.nesting.top = l.context := by rw [inside.nesting]; rfl
  obtain ⟨p', passes, inside'⟩ := items p (meets_of_blank inside front start) context
  rw [inside.nesting] at inside'
  obtain ⟨q, closes, behind⟩ := passes_closing inside' back rfl
  exact ⟨q, opens.append (passes.append closes), behind⟩

/-! ## Passing over a phrase -/

theorem not_goesOn_of_blank {a : Bytes} (blank : IsBlank a)
    (stops : Scan.goesOn (Scan.byte y 0) = false) : Scan.goesOn (Scan.byte (a ++ y) 0) = false := by
  cases a with
  | nil => exact stops
  | cons c a =>
      have isBlank : isSpace c = true := blank c List.mem_cons_self
      simp only [isSpace, Bool.or_eq_true, beq_iff_eq] at isBlank
      rcases isBlank with ((rfl | rfl) | rfl) | rfl <;> rfl

/-- Wherever a value may stand, the reading passes over the phrase and no further. -/
def Accepts (policy : TrailingComma) (s : Bytes) : Phrase → Prop
  | .value v => ∀ r y, Meets policy r (s ++ y) → r.nesting.top ≠ .objectKey →
      Scan.goesOn (Scan.byte y 0) = false →
      ∃ q, Passes policy r (v.turns r.nesting.top) q ∧
        q.IsAt y (r.nesting.setTop r.nesting.top.afterValue) true
  | .elements vs => ∀ r y, Meets policy r (s ++ y) → r.nesting.top = .array →
      Scan.goesOn (Scan.byte y 0) = false →
      ∃ q, Passes policy r (elementTurns vs) q ∧ q.IsAt y r.nesting true
  | .members ms => ∀ r y, Meets policy r (s ++ y) → r.nesting.top = .objectKey →
      Scan.goesOn (Scan.byte y 0) = false →
      ∃ q, Passes policy r (memberTurns ms) q ∧ q.IsAt y r.nesting true

/-- A value in an array leaves the array as it was. -/
theorem Accepts.element {v : Value} (h : Accepts policy s (.value v))
    (meets : Meets policy r (s ++ y)) (inside : r.nesting.top = .array)
    (stops : Scan.goesOn (Scan.byte y 0) = false) :
    ∃ q, Passes policy r (v.turns .array) q ∧ q.IsAt y r.nesting true := by
  obtain ⟨q, passes, there⟩ := h r y meets (by rw [inside]; decide) stops
  rw [inside] at passes
  have same : r.nesting.setTop r.nesting.top.afterValue = r.nesting := by
    have kept : Context.afterValue .array = .array := rfl
    rw [inside, kept, ← inside]
    rfl
  exact ⟨q, passes, same ▸ there⟩

/-- A key and its value leave the object as it was. -/
theorem Accepts.member {v : Value} {k a b : Bytes} (h : Accepts policy s (.value v))
    (meets : Meets policy r (k ++ (a ++ colon :: (b ++ (s ++ y)))))
    (start : isStart (Scan.byte (s ++ y) 0) = true) (inside : r.nesting.top = .objectKey)
    (key : IsString k) (front : IsBlank a) (back : IsBlank b)
    (stops : Scan.goesOn (Scan.byte y 0) = false) :
    ∃ q, Passes policy r ((.objectKey, ⟨.string, k⟩) :: v.turns .objectValue) q ∧
      q.IsAt y r.nesting true := by
  obtain ⟨p, passes, there⟩ := passes_key meets inside key front
  have context : p.nesting.top = .objectValue := by rw [there.nesting]; rfl
  obtain ⟨q, passes', there'⟩ :=
    h p y (meets_of_blank there back start) (by rw [context]; decide) stops
  rw [context] at passes' there'
  have same : p.nesting.setTop .objectKey = r.nesting := by
    rw [there.nesting, ← inside]
    rfl
  exact ⟨q, passes.append passes', same ▸ there'⟩

theorem accepts_of_writes {phrase : Phrase} (h : Writes phrase s) : Accepts policy s phrase := by
  induction h with
  | @literal s literal =>
      intro r y meets outside _
      exact passes_scalar meets outside (.literal (Scan.literal?_append literal y))
  | @number s number =>
      -- A number is the one phrase that the byte behind it could make longer.
      intro r y meets outside stops
      exact passes_scalar meets outside (.number (Scan.number?_append number stops))
  | @string s string =>
      intro r y meets outside _
      exact passes_scalar meets outside
        (.string (Scan.byte_of_isString string y) (Scan.string_append string y))
  | @emptyArray a blank =>
      intro r y meets _ _
      rw [List.cons_append, List.append_assoc] at meets
      exact passes_empty (l := .array) meets blank
  | @array a b s vs front elements back ih =>
      intro r y meets _ _
      simp only [List.cons_append, List.append_assoc, List.nil_append] at meets
      exact passes_list (l := .array) meets front back (isStart_of_writes elements _)
        fun p meets inside => ih p _ meets inside (not_goesOn_of_blank back rfl)
  | @emptyObject a blank =>
      intro r y meets _ _
      rw [List.cons_append, List.append_assoc] at meets
      exact passes_empty (l := .object) meets blank
  | @object a b s ms front members back ih =>
      intro r y meets _ _
      simp only [List.cons_append, List.append_assoc, List.nil_append] at meets
      exact passes_list (l := .object) meets front back (isStart_of_writes members _)
        fun p meets inside => ih p _ meets inside (not_goesOn_of_blank back rfl)
  | @element s v value ih =>
      intro r y meets inside stops
      obtain ⟨q, passes, there⟩ := ih.element meets inside stops
      rw [elementTurns, elementTurns, List.append_nil]
      exact ⟨q, passes, there⟩
  | @elements a b s t v vs value front back more ih ih' =>
      intro r y meets inside stops
      simp only [List.append_assoc, List.cons_append] at meets
      have stops' : Scan.goesOn (Scan.byte (a ++ comma :: (b ++ (t ++ y))) 0) = false :=
        not_goesOn_of_blank front rfl
      obtain ⟨p, passes, there⟩ := ih.element meets inside stops'
      have meets' : Meets policy p (t ++ y) :=
        meets_of_comma there (.inl inside) front back (isStart_of_writes more y)
      obtain ⟨q, passes', there'⟩ := ih' p y meets' (there.nesting ▸ inside) stops
      exact ⟨q, passes.append passes', there.nesting ▸ there'⟩
  | @member a b k s v key front back value ih =>
      intro r y meets inside stops
      simp only [List.append_assoc, List.cons_append] at meets
      obtain ⟨q, passes, there⟩ :=
        ih.member meets (isStart_of_writes value y) inside key front back stops
      rw [memberTurns, memberTurns, List.append_nil]
      exact ⟨q, passes, there⟩
  | @members a b c d k s t v ms key front back value behind before more ih ih' =>
      intro r y meets inside stops
      simp only [List.append_assoc, List.cons_append] at meets
      have stops' : Scan.goesOn (Scan.byte (c ++ comma :: (d ++ (t ++ y))) 0) = false :=
        not_goesOn_of_blank behind rfl
      obtain ⟨p, passes, there⟩ :=
        ih.member meets (isStart_of_writes value _) inside key front back stops'
      have meets' : Meets policy p (t ++ y) :=
        meets_of_comma there (.inr inside) behind before (isStart_of_writes more y)
      obtain ⟨q, passes', there'⟩ := ih' p y meets' (there.nesting ▸ inside) stops
      exact ⟨q, passes.append passes', there.nesting ▸ there'⟩

/-! ## Texts -/

/-- Where only white space is left and nothing is open, the input is at its end. -/
theorem next_of_blank (h : r.IsAt s .bottom needComma) (blank : IsBlank s) :
    r.next policy = .halts .ended (r.advance s.length) := by
  have text : r.rest = s ++ [] := by rw [h.rest, List.append_nil]
  obtain ⟨place, rest⟩ := skipBlanks_of_blank blank rfl text
  have byte : r.skipBlanks.byte = nul := by rw [byte, rest]; rfl
  have front : r.front policy = (r.skipBlanks, none) :=
    front_eq_none.mpr (.blanks (by rw [byte]; decide))
  rw [next, h.whole, front, ← place]
  simp only [Bool.false_eq_true, if_false, byte, Move.of_nul]
  rw [perform, value, byte, if_neg (by decide), rest]
  rw [noToken, byte, if_pos rfl, if_pos rest]
  rfl

/-- A JSON text is passed over to the end of the input. -/
theorem passes_of_isText {v : Value} (h : IsText v s) :
    ∃ q b, Passes policy (start s) (v.turns .value) q ∧ q.IsAt b .bottom true ∧ IsBlank b := by
  obtain ⟨a, x, b, front, value, back, rfl⟩ := h
  have start : (start (a ++ (x ++ b))).IsAt (a ++ (x ++ b)) .bottom false := ⟨rfl, rfl, rfl, rfl⟩
  have meets : Meets policy (Reading.start (a ++ (x ++ b))) (x ++ b) :=
    meets_of_blank start front (isStart_of_writes value b)
  have stops : Scan.goesOn (Scan.byte b 0) = false := by
    rw [← List.append_nil b]
    exact not_goesOn_of_blank back rfl
  obtain ⟨q, passes, there⟩ := accepts_of_writes value _ b meets nofun stops
  exact ⟨q, b, passes, there, back⟩

end JsonEvents.Reading
