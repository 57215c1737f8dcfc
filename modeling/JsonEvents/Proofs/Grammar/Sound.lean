import JsonEvents.Proofs.Reading.Run
import JsonEvents.Proofs.Reading.Text

/-!
# Only texts are read

`Awaits contexts needComma s` says what must be left of a text when these
structures are open.  A reading that comes to the end of its input with nothing
open awaited what was left to it at every place (`awaits_of_run`), as long as
no object or array was opened where a key should be.  The induction is on the
rest of the run, so it is the later steps that say how the earlier ones go on.
-/

namespace JsonEvents.Reading

open Ascii Grammar

def IsElements (s : Bytes) : Prop := ∃ vs, Writes (.elements vs) s

def IsMembers (s : Bytes) : Prop := ∃ ms, Writes (.members ms) s

def IsItems : Listed → Bytes → Prop
  | .object => IsMembers
  | .array => IsElements

/-- From behind an item of a list to behind the bracket that closes it. -/
inductive ListRest (l : Listed) (t : Bytes) : Bytes → Prop
  | close {a : Bytes} (blank : IsBlank a) : ListRest l t (a ++ l.closing :: t)
  | more {a b c s : Bytes} (front : IsBlank a) (back : IsBlank b) (more : IsItems l s)
      (behind : IsBlank c) :
      ListRest l t (a ++ comma :: (b ++ (s ++ (c ++ l.closing :: t))))

/-- From behind the bracket that opens a list to behind the one that closes it. -/
inductive ListBody (l : Listed) (t : Bytes) : Bytes → Prop
  | empty {a : Bytes} (blank : IsBlank a) : ListBody l t (a ++ l.closing :: t)
  | full {a b s : Bytes} (front : IsBlank a) (all : IsItems l s) (back : IsBlank b) :
      ListBody l t (a ++ (s ++ (b ++ l.closing :: t)))

/-- What must be left of a text behind a complete value. -/
def Rests : List Context → Bytes → Prop
  | [], _ => False
  | .value :: outer, s => outer = [] ∧ IsBlank s
  | .array :: outer, s => ∃ t, ListRest .array t s ∧ Rests outer t
  | .objectKey :: outer, s => ∃ t, ListRest .object t s ∧ Rests outer t
  | .objectValue :: outer, s => ∃ t, ListRest .object t s ∧ Rests outer t

/-- A value and what must be left behind it. -/
def HasValue (contexts : List Context) (s : Bytes) : Prop :=
  ∃ v x y, Writes (.value v) x ∧ s = x ++ y ∧ Rests contexts y

/-- What must be left of a text. -/
def Awaits : List Context → Bool → Bytes → Prop
  | contexts, true, s => Rests contexts s
  | [], false, _ => False
  | .value :: outer, false, s =>
      outer = [] ∧ (IsBlank s ∨ ∃ a t, IsBlank a ∧ s = a ++ t ∧ HasValue [.value] t)
  | .array :: outer, false, s => ∃ t, ListBody .array t s ∧ Rests outer t
  | .objectKey :: outer, false, s => ∃ t, ListBody .object t s ∧ Rests outer t
  | .objectValue :: outer, false, s =>
      ∃ a t, IsBlank a ∧ s = a ++ t ∧ HasValue (.objectValue :: outer) t

variable {r p q : Reading} {e : Event} {s t : Bytes} {l : Listed}

theorem rests_context {outer : List Context} :
    Rests (l.context :: outer) s ↔ ∃ t, ListRest l t s ∧ Rests outer t := by
  cases l <;> exact Iff.rfl

theorem awaits_context {outer : List Context} :
    Awaits (l.context :: outer) false s ↔ ∃ t, ListBody l t s ∧ Rests outer t := by
  cases l <;> exact Iff.rfl

theorem rests_afterValue (context : Context) (outer : List Context) :
    Rests (context.afterValue :: outer) s ↔ Rests (context :: outer) s := by
  cases context <;> exact Iff.rfl

theorem rests_setTop {nesting : Nesting}
    (h : Rests (nesting.setTop nesting.top.afterValue).contexts s) : Rests nesting.contexts s :=
  (rests_afterValue nesting.top nesting.outer).mp h

/-- The structure that was closed has another one around it. -/
theorem rests_pop {nesting : Nesting} (h : Rests nesting.pop.contexts s)
    (inside : nesting.top ≠ .value) : Rests nesting.outer s := by
  obtain ⟨top, outer, depth, depth_eq⟩ := nesting
  cases outer with
  | nil =>
      have h : Rests [top] s := h
      cases top with
      | value => exact absurd rfl inside
      | array => obtain ⟨_, _, none⟩ := h; exact none
      | objectKey => obtain ⟨_, _, none⟩ := h; exact none
      | objectValue => obtain ⟨_, _, none⟩ := h; exact none
  | cons context outer => exact (rests_afterValue context outer).mp h

/-! ## Putting texts together -/

theorem elements_of_value {v : Value} {x y : Bytes} (value : Writes (.value v) x)
    (rest : ListRest .array t y) :
    ∃ z c, IsElements z ∧ IsBlank c ∧ x ++ y = z ++ (c ++ closeBracket :: t) := by
  cases rest with
  | @close c blank => exact ⟨x, c, ⟨_, .element value⟩, blank, rfl⟩
  | @more a b c z front back more behind =>
      obtain ⟨vs, more⟩ := more
      refine ⟨x ++ (a ++ comma :: (b ++ z)), c, ⟨_, .elements value front back more⟩, behind, ?_⟩
      simp only [List.append_assoc, List.cons_append, Listed.closing]

theorem members_of_member {v : Value} {k a b x y : Bytes} (key : IsString k) (front : IsBlank a)
    (back : IsBlank b) (value : Writes (.value v) x) (rest : ListRest .object t y) :
    ∃ z c, IsMembers z ∧ IsBlank c ∧
      k ++ (a ++ colon :: (b ++ (x ++ y))) = z ++ (c ++ closeBrace :: t) := by
  cases rest with
  | @close c blank =>
      refine ⟨k ++ (a ++ colon :: (b ++ x)), c, ⟨_, .member key front back value⟩, blank, ?_⟩
      simp only [List.append_assoc, List.cons_append, Listed.closing]
  | @more a' b' c z front' back' more behind =>
      obtain ⟨ms, more⟩ := more
      refine ⟨k ++ (a ++ colon :: (b ++ (x ++ (a' ++ comma :: (b' ++ z))))), c,
        ⟨_, .members key front back value front' back' more⟩, behind, ?_⟩
      simp only [List.append_assoc, List.cons_append, Listed.closing]

theorem writes_empty (l : Listed) {a : Bytes} (blank : IsBlank a) :
    ∃ v, Writes (.value v) (l.opening :: (a ++ [l.closing])) := by
  cases l with
  | object => exact ⟨_, .emptyObject blank⟩
  | array => exact ⟨_, .emptyArray blank⟩

theorem writes_full {a b : Bytes} (front : IsBlank a) (all : IsItems l s) (back : IsBlank b) :
    ∃ v, Writes (.value v) (l.opening :: (a ++ (s ++ (b ++ [l.closing])))) := by
  cases l with
  | object =>
      obtain ⟨ms, members⟩ := all
      exact ⟨_, .object front members back⟩
  | array =>
      obtain ⟨vs, elements⟩ := all
      exact ⟨_, .array front elements back⟩

/-! ## Steps -/

/-- Where a value begins, what is left in front of it was awaited. -/
theorem awaits_of_value (leads : Leads .reject r q) (free : q.needComma = false)
    (outside : q.nesting.top ≠ .objectKey) (has : HasValue q.nesting.contexts q.rest) :
    Awaits r.nesting.contexts r.needComma r.rest := by
  obtain ⟨g, gap, text, _⟩ := leads.gap
  rw [leads.nesting_eq] at outside has
  have has' := has
  obtain ⟨v, x, y, value, rest, rests⟩ := has'
  rw [text]
  cases gap with
  | blank blank kept =>
      rw [← kept, free]
      rcases nesting : r.nesting with ⟨top, outer, depth, depth_eq⟩
      rw [nesting] at outside has rests
      cases top with
      | value =>
          obtain ⟨rfl, _⟩ := rests
          exact ⟨rfl, .inr ⟨g, q.rest, blank, rfl, has⟩⟩
      | array =>
          obtain ⟨t, list, rests⟩ := rests
          obtain ⟨z, c, elements, behind, whole⟩ := elements_of_value value list
          refine ⟨t, ?_, rests⟩
          rw [rest, whole]
          exact .full blank elements behind
      | objectKey => exact absurd rfl outside
      | objectValue => exact ⟨g, q.rest, blank, rfl, has⟩
  | @comma a b front back separates fine free =>
      obtain ⟨inside, owed⟩ := of_separates separates
      have owed := owed rfl
      rcases inside with list | key
      · rcases nesting : r.nesting with ⟨top, outer, depth, depth_eq⟩
        rw [nesting] at list rests
        obtain rfl : top = .array := list
        obtain ⟨t, list, rests⟩ := rests
        obtain ⟨z, c, elements, behind, whole⟩ := elements_of_value value list
        rw [owed]
        refine ⟨t, ?_, rests⟩
        rw [rest, whole, List.append_assoc]
        exact .more front back elements behind
      · exact absurd key outside

/-- Where a member begins, what is left in front of it was awaited. -/
theorem awaits_of_members {z c : Bytes} (leads : Leads .reject r q) (free : q.needComma = false)
    (inside : q.nesting.top = .objectKey) (members : IsMembers z) (blank : IsBlank c)
    (whole : q.rest = z ++ (c ++ closeBrace :: t)) (rests : Rests q.nesting.outer t) :
    Awaits r.nesting.contexts r.needComma r.rest := by
  obtain ⟨g, gap, text, _⟩ := leads.gap
  rw [leads.nesting_eq] at inside rests
  rw [Nesting.contexts, inside, text, whole]
  cases gap with
  | blank front kept =>
      rw [← kept, free]
      exact ⟨t, .full front members blank, rests⟩
  | @comma a b front back separates fine free =>
      have owed := (of_separates separates).2 rfl
      rw [owed, List.append_assoc]
      exact ⟨t, .more front back members blank, rests⟩

theorem isBlank_of_close {g : Bytes} (gap : Gap .reject r q g)
    (close : q.byte = closeBracket ∨ q.byte = closeBrace) : IsBlank g := by
  cases gap with
  | blank blank => exact blank
  | comma front back separates fine => exact absurd close (not_close_of_fine fine)

theorem awaits_of_closing (leads : Leads .reject r q) (inside : q.nesting.top = l.context)
    (isClosing : q.byte = l.closing) (rests : Rests q.nesting.outer (q.advance 1).rest) :
    Awaits r.nesting.contexts r.needComma r.rest := by
  obtain ⟨g, gap, text, _⟩ := leads.gap
  have blank : IsBlank g := by
    apply isBlank_of_close gap
    rw [isClosing]
    exact l.closing_cases
  rw [leads.nesting_eq] at inside rests
  rw [Nesting.contexts, inside, text, rest_of_byte isClosing l.closing_ne.1]
  cases r.needComma with
  | true => exact rests_context.mpr ⟨_, .close blank, rests⟩
  | false => exact awaits_context.mpr ⟨_, .empty blank, rests⟩

theorem hasValue_of_opening {contexts : List Context} (isOpening : q.byte = l.opening)
    (awaits : Awaits (l.context :: contexts) false (q.advance 1).rest) :
    HasValue contexts q.rest := by
  obtain ⟨t, body, rests⟩ := awaits_context.mp awaits
  rw [rest_of_byte isOpening l.opening_ne]
  generalize (q.advance 1).rest = behind at body ⊢
  cases body with
  | @empty a blank =>
      obtain ⟨v, value⟩ := writes_empty l blank
      refine ⟨v, _, t, value, ?_, rests⟩
      simp only [List.cons_append, List.append_assoc, List.nil_append]
  | @full a b s front all back =>
      obtain ⟨v, value⟩ := writes_full front all back
      refine ⟨v, _, t, value, ?_, rests⟩
      simp only [List.cons_append, List.append_assoc, List.nil_append]

/-- One step back: what is awaited behind an event makes what is awaited before it. -/
theorem awaits_of_token (leads : Leads .reject r p) (token : Token p e q)
    (noKey : ¬ OpensAsKey (r.nesting.top, e))
    (awaits : Awaits q.nesting.contexts q.needComma q.rest)
    (closed : e.kind = .string → ¬ IsOpenString e.data) :
    Awaits r.nesting.contexts r.needComma r.rest := by
  cases token with
  | @opens l free isOpening =>
      have outside : p.nesting.top ≠ .objectKey := by
        intro inside
        rw [leads.nesting_eq] at inside
        exact noKey ⟨inside, l.startKind_cases⟩
      exact awaits_of_value leads free outside (hasValue_of_opening isOpening awaits)
  | @closes l inside isClosing =>
      have around : p.nesting.top ≠ .value := by
        rw [inside]
        exact l.context_ne
      exact awaits_of_closing leads inside isClosing (rests_pop awaits around)
  | key free inside isQuote scanned isColon =>
      obtain ⟨a, front, text, _⟩ := key_text isColon
      have awaits : Awaits (.objectValue :: p.nesting.outer) p.needComma _ := awaits
      rw [free] at awaits
      obtain ⟨b, t, back, behind, v, x, y, value, rest, t', list, rests⟩ := awaits
      obtain ⟨z, c, members, blank, whole⟩ :=
        members_of_member (Scan.isString_take isQuote scanned) front back value list
      have behind : ((p.advance _).skipBlanks.advance 1).rest = b ++ t := behind
      rw [behind, rest, whole] at text
      exact awaits_of_members leads free inside members blank text rests
  | scalar free outside scanned =>
      obtain ⟨v, value⟩ := scanned.writes
      have has : HasValue p.nesting.contexts p.rest :=
        ⟨v, _, _, value, (List.take_append_drop _ _).symm, rests_setTop awaits⟩
      exact awaits_of_value leads free outside has
  | openString free outside isQuote scanned nothing =>
      exact absurd (Scan.isOpenString_take isQuote scanned nothing) (closed rfl)

/-! ## Runs -/

theorem awaits_of_end (leads : Leads .reject r q) (nothing : q.rest = [])
    (outermost : q.nesting = .bottom) : Awaits r.nesting.contexts r.needComma r.rest := by
  obtain ⟨g, gap, text, _⟩ := leads.gap
  rw [leads.nesting_eq] at outermost
  rw [outermost, text, nothing, List.append_nil]
  cases gap with
  | blank blank kept =>
      cases r.needComma with
      | true => exact ⟨rfl, blank⟩
      | false => exact ⟨rfl, .inl blank⟩
  | comma front back separates fine free =>
      rw [outermost] at separates
      cases separates

/-- A run to the end of the input awaited at its beginning what was left of the text. -/
theorem awaits_of_run {marks : List Mark} {place : Reading} (run : Run .reject r marks q)
    (ends : q.next .reject = .halts .ended place) (outermost : place.nesting = .bottom)
    (noKeys : ∀ turn ∈ Mark.turns r.nesting.top marks, ¬ OpensAsKey turn)
    (closed : ∀ mark ∈ marks, mark.event.kind = .string → ¬ IsOpenString mark.event.data)
    (whole : r.cut = false) : Awaits r.nesting.contexts r.needComma r.rest := by
  -- What is awaited before an event is made of what the rest of the run awaits behind it.
  induction run with
  | nil =>
      obtain ⟨leads, nothing⟩ := next_eq_ended whole ends
      exact awaits_of_end leads nothing outermost
  | @cons r r' q event marks gives rest ih =>
      obtain ⟨_, p, leads, token⟩ := next_eq_gives.mp gives
      have noKey := noKeys _ List.mem_cons_self
      have noKeys' := fun turn member => noKeys turn (List.mem_cons_of_mem _ member)
      have closed' := fun mark member => closed mark (List.mem_cons_of_mem _ member)
      have isClosed := closed _ List.mem_cons_self
      have whole' : r'.cut = false := by
        rw [leads.cut_eq.symm] at whole
        cases token with
        | openString free outside isQuote scanned nothing =>
            exact absurd (Scan.isOpenString_take isQuote scanned nothing) (isClosed rfl)
        | opens | closes | key | scalar => exact whole
      exact awaits_of_token leads token noKey (ih ends noKeys' closed' whole') isClosed

/-- Under these conditions the whole input is white space or a JSON text. -/
theorem isText_of_run {marks : List Mark} {place : Reading} (run : Run .reject (start s) marks q)
    (ends : q.next .reject = .halts .ended place) (outermost : place.nesting = .bottom)
    (noKeys : ∀ turn ∈ Mark.turns .value marks, ¬ OpensAsKey turn)
    (closed : ∀ mark ∈ marks, mark.event.kind = .string → ¬ IsOpenString mark.event.data) :
    IsBlank s ∨ ∃ v, IsText v s := by
  obtain ⟨_, blank | ⟨a, t, front, rfl, v, x, b, value, rfl, _, back⟩⟩ :=
    awaits_of_run run ends outermost noKeys closed rfl
  · exact .inl blank
  · exact .inr ⟨v, a, x, b, front, value, back, rfl⟩

end JsonEvents.Reading
