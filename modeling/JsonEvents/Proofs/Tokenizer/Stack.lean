import JsonEvents.Proofs.Brackets
import JsonEvents.Proofs.Tokenizer.Calls

/-!
# The stack of contexts over a run

`Stacked past t ls` relates the events that a tokenizer has given to the lists
that are open in it.  Every call keeps it (`Stacked.next`), whatever the source
delivers and however it fails, so it holds after any number of calls.
-/

namespace JsonEvents

/-! ## Contexts of open lists -/

/-- The list whose items are expected in a context. -/
def Context.listed? : Context → Option Listed
  | .value => none
  | .objectKey | .objectValue => some .object
  | .array => some .array

namespace Context

theorem listed?_afterValue (context : Context) : context.afterValue.listed? = context.listed? := by
  cases context <;> rfl

theorem listed?_eq_none (context : Context) : context.listed? = none ↔ context = .value := by
  cases context <;> simp [listed?]

theorem listed?_eq_array (context : Context) : context.listed? = some .array ↔ context = .array := by
  cases context <;> simp [listed?]

theorem listed?_eq_object (context : Context) :
    context.listed? = some .object ↔ context = .objectKey ∨ context = .objectValue := by
  cases context <;> simp [listed?]

end Context

theorem Listed.listed?_context (l : Listed) : l.context.listed? = some l := by
  cases l <;> rfl

namespace Nesting

variable {n : Nesting} {ls : List Listed} {l : Listed}

/-- The contexts are those of the open lists, and below them the one of the document's value. -/
def Holds (n : Nesting) (ls : List Listed) : Prop :=
  n.contexts.map Context.listed? = ls.map some ++ [none]

theorem holds_bottom : bottom.Holds [] := rfl

theorem Holds.push (h : n.Holds ls) (l : Listed) : (n.push l.context).Holds (l :: ls) := by
  have top := l.listed?_context
  simp only [Holds, Nesting.push, contexts, List.map_cons, List.cons_append] at h ⊢
  rw [top, h]

theorem Holds.setTop (h : n.Holds ls) {context : Context}
    (same : context.listed? = n.top.listed?) : (n.setTop context).Holds ls := by
  simp only [Holds, Nesting.setTop, contexts, List.map_cons] at h ⊢
  rw [same, h]

theorem Holds.outer (h : n.Holds (l :: ls)) :
    n.outer.map Context.listed? = ls.map some ++ [none] := by
  simp only [Holds, contexts, List.map_cons, List.cons_append, List.cons.injEq] at h
  exact h.2

theorem Holds.pop (h : n.Holds (l :: ls)) : n.pop.Holds ls := by
  have behind := h.outer
  unfold Nesting.pop
  split
  · next none => simp [none] at behind
  · next context outer some =>
      rw [some, List.map_cons] at behind
      simp only [Holds, contexts, List.map_cons]
      rw [context.listed?_afterValue, behind]

theorem Holds.depth (h : n.Holds ls) : n.depth = ls.length + 1 := by
  have lengths := congrArg List.length h
  simp only [List.length_map, List.length_append, List.length_cons, List.length_nil] at lengths
  rw [depth_eq_length, lengths]

theorem Holds.top (h : n.Holds ls) : n.top.listed? = ls.head? := by
  cases ls with
  | nil =>
      simp only [Holds, contexts, List.map_cons, List.map_nil, List.nil_append,
        List.cons.injEq] at h
      exact h.1
  | cons l ls =>
      simp only [Holds, contexts, List.map_cons, List.cons_append, List.cons.injEq] at h
      exact h.1

theorem Holds.top_eq_value (h : n.Holds ls) : n.top = .value ↔ ls = [] := by
  rw [← Context.listed?_eq_none, h.top, List.head?_eq_none_iff]

theorem Holds.top_pop_ne (h : n.Holds (l :: ls)) : n.pop.top ≠ .objectValue := by
  have behind := h.outer
  unfold Nesting.pop
  split
  · next none => simp [none] at behind
  · next context _ _ => exact context.afterValue_ne

/-- The lowest context is the one of the document's value, and no other is. -/
theorem Holds.bottom (h : n.Holds ls) :
    ∃ inner, n.contexts = inner ++ [.value] ∧ .value ∉ inner := by
  obtain ⟨inner, last, contexts, open', below⟩ := List.map_eq_append_iff.mp h
  obtain ⟨context, rfl, isNone⟩ := List.map_eq_singleton_iff.mp below
  refine ⟨inner, ?_, ?_⟩
  · cases context with
    | value => exact contexts
    | objectKey | objectValue | array => cases isNone
  · intro member
    have lost := List.mem_map_of_mem (f := Context.listed?) member
    rw [open'] at lost
    obtain ⟨_, _, isNone⟩ := List.mem_map.mp lost
    cases isNone

end Nesting

namespace Tokenizer

variable {t u : Tokenizer} {past : List Event} {ls : List Listed} {e : Event}

/-! ## Events -/

/-- An event was given, other than the error event. -/
def Gave (events : List Event) : Prop := ∃ e ∈ events, e.kind ≠ .error

theorem Gave.append {front : List Event} (some : Gave front) (back : List Event) :
    Gave (front ++ back) :=
  some.imp fun _ given => ⟨List.mem_append_left _ given.1, given.2⟩

theorem gave_of_error (some : Gave (past ++ [.error])) : Gave past := by
  obtain ⟨e, member, other⟩ := some
  rcases List.mem_append.mp member with before | last
  · exact ⟨e, before, other⟩
  · rw [List.mem_singleton.mp last] at other
    exact absurd rfl other

/-- How many of the events open a list. -/
def openings (events : List Event) : Nat :=
  events.countP fun e => e.kind == .startObject || e.kind == .startArray

/-- How many of the events close a list. -/
def closings (events : List Event) : Nat :=
  events.countP fun e => e.kind == .endObject || e.kind == .endArray

theorem openings_eq (events : List Event) :
    openings events = (brackets events).countP Bracket.isOpening := by
  rw [brackets, List.countP_filterMap]
  exact congrArg (List.countP · events) (funext fun e => by cases e.kind <;> rfl)

theorem closings_eq (events : List Event) :
    closings events = (brackets events).countP Bracket.isClosing := by
  rw [brackets, List.countP_filterMap]
  exact congrArg (List.countP · events) (funext fun e => by cases e.kind <;> rfl)

/-! ## What a call keeps -/

/-- The lists that the events given so far have left open are those of the stack. -/
structure Stacked (past : List Event) (t : Tokenizer) (ls : List Listed) : Prop where
  leaves : Leaves (brackets past) ls
  holds : t.nesting.Holds ls
  noComma : t.needComma = true → t.context ≠ .objectValue
  complete : Gave past → ls = [] → t.latched.isOk = true → t.needComma = true
  once : ∀ front back, past = front ++ back → Gave front → Balanced (brackets front) →
    ∀ e ∈ back, e.kind = .error

/-- Going to the front of a token opens and closes nothing. -/
theorem Stacked.facing (h : Stacked past t ls) : Stacked past t.facing ls where
  leaves := h.leaves
  holds := h.holds
  noComma := by
    intro needed
    rcases Front.needComma_of t.trailingComma t.context t.needComma t.window with kept | ⟨free, _⟩
    · exact h.noComma (kept.symm.trans needed)
    · exact absurd (free.symm.trans needed) nofun
  complete := by
    intro some whole ok
    have outside : t.context = .value := h.holds.top_eq_value.mpr whole
    rcases Front.needComma_of t.trailingComma t.context t.needComma t.window with kept | ⟨_, list⟩
    · exact kept.trans (h.complete some whole ok)
    · rw [outside] at list
      rcases list with isArray | isKey
      · cases isArray
      · cases isKey
  once := h.once

/-- Behind a complete value no event is given. -/
theorem Stacked.halts (h : Stacked past t ls) (ok : t.latched.isOk = true) (some : Gave past)
    (whole : ls = []) (turn : Turn t (e, u)) : e.kind = .error := by
  have needed := h.complete some whole ok
  have outside : t.context = .value := h.holds.top_eq_value.mpr whole
  cases turn with
  | stays => rfl
  | opens l free | key free | scalar _ free | openString free =>
      exact absurd (free.symm.trans needed) nofun
  | closes l inside => exact absurd (inside.symm.trans outside) l.context_ne

theorem Stacked.once_append (h : Stacked past t ls)
    (halts : Gave past → ls = [] → e.kind = .error) (front back : List Event)
    (split : past ++ [e] = front ++ back) (some : Gave front)
    (whole : Balanced (brackets front)) : ∀ e ∈ back, e.kind = .error := by
  rcases List.eq_nil_or_concat back with rfl | ⟨behind, last, rfl⟩
  · nofun
  · rw [List.concat_eq_append, ← List.append_assoc] at split
    obtain ⟨rfl, same⟩ := List.append_inj' split rfl
    obtain ⟨rfl, _⟩ := List.cons.inj same
    have errors := h.once front behind rfl some whole
    have none := fun e member => congrArg Kind.bracket? (errors e member)
    have closed := h.leaves.balanced_iff.mp (by rwa [brackets_append_of_none none])
    rw [List.concat_eq_append]
    intro e member
    rcases List.mem_append.mp member with before | last
    · exact errors e before
    · rw [List.mem_singleton.mp last]
      exact halts (some.append behind) closed

/-- A turn keeps the stack in step with the events. -/
theorem Stacked.turn (h : Stacked past t ls) (ok : t.latched.isOk = true) (turn : Turn t (e, u)) :
    ∃ ls', Stacked (past ++ [e]) u ls' := by
  have once := h.once_append fun some whole => h.halts ok some whole turn
  have leaves := h.leaves
  cases turn with
  | stays nesting comma =>
      refine ⟨ls, ?_, nesting ▸ h.holds, ?_, ?_, once⟩
      · rwa [brackets_append_none rfl]
      · rw [comma, context, nesting]
        exact h.noComma
      · intro some whole _
        rw [comma]
        exact h.complete (gave_of_error some) whole ok
  | opens l free nesting comma =>
      refine ⟨l :: ls, ?_, nesting ▸ h.holds.push l, ?_, nofun, once⟩
      · rw [brackets_append_some (Kind.bracket?_startKind l)]
        exact leaves.opens l
      · intro needed
        exact absurd (comma.symm.trans needed) nofun
  | closes l inside nesting comma =>
      obtain ⟨ls, rfl⟩ : ∃ ls', ls = l :: ls' := by
        have top := h.holds.top
        rw [show t.nesting.top = l.context from inside, l.listed?_context] at top
        exact List.head?_eq_some_iff.mp top.symm
      refine ⟨ls, ?_, nesting ▸ h.holds.pop, ?_, fun _ _ _ => comma, once⟩
      · rw [brackets_append_some (Kind.bracket?_endKind l)]
        exact leaves.closes
      · rw [context, nesting]
        exact fun _ => h.holds.top_pop_ne
  | key free inside nesting comma =>
      have top : t.nesting.top = .objectKey := inside
      refine ⟨ls, ?_, nesting ▸ h.holds.setTop (by rw [top]; rfl), ?_, ?_, once⟩
      · rwa [brackets_append_none rfl]
      · intro needed
        exact absurd (comma.symm.trans needed) nofun
      · intro _ whole
        rw [h.holds.top_eq_value.mpr whole] at top
        cases top
  | @scalar _ kind _ scalar free outside nesting comma =>
      have none : kind.bracket? = none := by
        rcases scalar with rfl | rfl | rfl <;> rfl
      refine ⟨ls, ?_, nesting ▸ h.holds.setTop (Context.listed?_afterValue _), ?_,
        fun _ _ _ => comma, once⟩
      · rwa [brackets_append_none none]
      · rw [context, nesting]
        exact fun _ => Context.afterValue_ne _
  | openString free outside nesting comma latched =>
      refine ⟨ls, ?_, nesting ▸ h.holds, ?_, ?_, once⟩
      · rwa [brackets_append_none rfl]
      · intro needed
        exact absurd (comma.symm.trans needed) nofun
      · intro _ _ ok'
        exact absurd (latched.symm.trans ok') nofun

/-- A call keeps the stack in step with the events. -/
theorem Stacked.next (h : Stacked past t ls) (steady : t.window.supply.IsSteady) :
    ∃ ls', Stacked (past ++ [t.next.1]) t.next.2 ls' := by
  rcases turn_next steady with ⟨failed, stopped⟩ | ⟨ok, turn⟩
  · rw [stopped]
    refine ⟨ls, ?_, h.holds, h.noComma, ?_, h.once_append fun _ _ => rfl⟩
    · rw [brackets_append_none rfl]
      exact h.leaves
    · intro _ _ ok
      exact absurd (failed.symm.trans ok) nofun
  · exact h.facing.turn ok turn

/-! ## Runs -/

theorem Stacked.run (h : Stacked past t ls) (steady : t.window.supply.IsSteady) (n : Nat) :
    ∃ ls', Stacked (past ++ t.events n) (t.after n) ls' := by
  induction n generalizing t past ls with
  | zero =>
      refine ⟨ls, ?_⟩
      rwa [show t.events 0 = [] from rfl, List.append_nil]
  | succ n ih =>
      obtain ⟨ls', next⟩ := h.next steady
      have rest := ih next ((onward_next t).steady steady)
      rw [events, after, runCalls_succ]
      rwa [List.append_assoc] at rest

/-- Where a run begins: over an input at hand, or over a reader that goes on until it fails. -/
inductive Begins : Tokenizer → Prop
  | ofBytes (input : Bytes) (o : Options) : Begins (ofBytes input o)
  | ofReader {reader : Reader} (o : Options) (steady : reader.IsSteady)
      (fails : reader.ending.isOk = false) : Begins (ofReader reader o)

theorem Begins.steady (h : Begins t) : t.window.supply.IsSteady := by
  cases h with
  | ofBytes => trivial
  | ofReader o steady fails => exact ⟨steady, fails, o.sanitize_min_pos⟩

theorem Begins.stacked (h : Begins t) : Stacked [] t [] := by
  have bottom : t.nesting = .bottom ∧ t.needComma = false := by
    cases h <;> exact ⟨rfl, rfl⟩
  refine ⟨.balanced .nil, ?_, ?_, ?_, ?_⟩
  · rw [bottom.1]
    exact Nesting.holds_bottom
  · rw [bottom.2]
    nofun
  · rintro ⟨_, member, _⟩
    cases member
  · intro front back split some
    obtain ⟨rfl, rfl⟩ := List.append_eq_nil_iff.mp split.symm
    nofun

/-- What the events given so far and the stack have to do with each other. -/
structure WellStacked (events : List Event) (t : Tokenizer) : Prop where
  bottom : ∃ inner, t.nesting.contexts = inner ++ [.value] ∧ .value ∉ inner
  pops : t.move? = some .closeObject ∨ t.move? = some .closeArray → 1 < t.nesting.contexts.length
  depth : t.depth + closings events = 1 + openings events
  nested : ∃ rest, Balanced (brackets events ++ rest)
  inArray : t.context = .array ↔ InsideOf .array (brackets events)
  inObject : t.context = .objectKey ∨ t.context = .objectValue ↔ InsideOf .object (brackets events)
  outside : t.context = .value ↔ Balanced (brackets events)
  noComma : t.context = .objectValue → t.needComma = false
  once : ∀ front back, events = front ++ back → Gave front → Balanced (brackets front) →
    ∀ e ∈ back, e.kind = .error

/-- A list is closed only inside of one. -/
theorem Stacked.pops (h : Stacked past t ls)
    (closes : t.move? = some .closeObject ∨ t.move? = some .closeArray) :
    1 < t.nesting.contexts.length := by
  have inside : t.context ≠ .value := by
    rcases closes with object | array
    · have legal := Move.isLegal_of t.context t.front.needComma t.front.byte
      rw [← (of_move? object).2] at legal
      rw [legal.1]
      decide
    · have legal := Move.isLegal_of t.context t.front.needComma t.front.byte
      rw [← (of_move? array).2] at legal
      rw [legal.1]
      decide
  have some : ls ≠ [] := fun none => inside (h.holds.top_eq_value.mpr none)
  rw [← Nesting.depth_eq_length, h.holds.depth]
  exact Nat.succ_lt_succ (List.length_pos_iff.mpr some)

theorem Stacked.wellStacked (h : Stacked past t ls) : WellStacked past t where
  bottom := h.holds.bottom
  pops := h.pops
  depth := by
    rw [depth, h.holds.depth, openings_eq, closings_eq, h.leaves.count]
    omega
  nested := h.leaves.completed
  inArray := by rw [h.leaves.insideOf_iff, ← h.holds.top, Context.listed?_eq_array]; rfl
  inObject := by rw [h.leaves.insideOf_iff, ← h.holds.top, Context.listed?_eq_object]; rfl
  outside := by rw [h.leaves.balanced_iff, ← h.holds.top_eq_value]; rfl
  noComma := by
    intro isValue
    cases needed : t.needComma with
    | false => rfl
    | true => exact absurd isValue (h.noComma needed)
  once := h.once

/--
After any number of calls, over any input and however its source fails, the
contexts are those of the brackets that were given and are still open, and
nothing follows a complete value.
-/
theorem wellStacked_after (h : Begins t) (n : Nat) : WellStacked (t.events n) (t.after n) := by
  obtain ⟨ls, stacked⟩ := h.stacked.run h.steady n
  exact stacked.wellStacked

/-- A source that fails with its last bytes, inside of two lists. -/
theorem wellStacked_after_failure :
    let reader : Reader :=
      { pieces := [Bytes.ofString "\x7b\"a\": [1", Bytes.ofString ", tr"]
        ending := .plain .notFound .unspecified
        endsWithLast := true }
    let t := ofReader reader {}
    reader.IsSteady ∧ reader.ending.isOk = false ∧
      (t.events 6).map Event.kind =
        [.startObject, .string, .startArray, .number, .error, .error] ∧
      WellStacked (t.events 6) (t.after 6) := by
  intro reader t
  have steady : reader.IsSteady := ⟨by decide, by decide⟩
  exact ⟨steady, rfl, by decide +kernel, wellStacked_after (.ofReader {} steady rfl) 6⟩

end Tokenizer

end JsonEvents
