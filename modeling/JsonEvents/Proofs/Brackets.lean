import JsonEvents.Proofs.Reading.Tokens

/-!
# Nested brackets

`Leaves bs ls` says that the brackets `bs`, in the order in which they were
given, nest properly and leave the lists `ls` open, the innermost one first.
What is left open is determined (`Leaves.unclosed`), and closing it makes the
sequence balanced (`Leaves.completed`).
-/

namespace JsonEvents

inductive Bracket
  | opens (l : Listed)
  | closes (l : Listed)

namespace Bracket

def isOpening : Bracket → Bool
  | .opens _ => true
  | .closes _ => false

def isClosing (b : Bracket) : Bool := !b.isOpening

end Bracket

namespace Kind

/-- The bracket that an event of this kind is. -/
def bracket? : Kind → Option Bracket
  | .startObject => some (.opens .object)
  | .endObject => some (.closes .object)
  | .startArray => some (.opens .array)
  | .endArray => some (.closes .array)
  | .error | .whitespace | .literal | .number | .string => none

theorem bracket?_startKind (l : Listed) : l.startKind.bracket? = some (.opens l) := by
  cases l <;> rfl

theorem bracket?_endKind (l : Listed) : l.endKind.bracket? = some (.closes l) := by
  cases l <;> rfl

end Kind

/-- The brackets among some events. -/
def brackets (events : List Event) : List Bracket := events.filterMap (·.kind.bracket?)

section

variable {past back : List Event} {e : Event}

theorem brackets_append_of_none (none : ∀ e ∈ back, e.kind.bracket? = none) :
    brackets (past ++ back) = brackets past := by
  rw [brackets, List.filterMap_append, List.filterMap_eq_nil_iff.mpr none, List.append_nil]
  rfl

theorem brackets_append_none (none : e.kind.bracket? = none) :
    brackets (past ++ [e]) = brackets past :=
  brackets_append_of_none fun _ last => List.mem_singleton.mp last ▸ none

theorem brackets_append_some {b : Bracket} (some : e.kind.bracket? = some b) :
    brackets (past ++ [e]) = brackets past ++ [b] := by
  simp [brackets, some]

end

/-- Every bracket that opens is closed by one of the same list, in the right order. -/
inductive Balanced : List Bracket → Prop
  | nil : Balanced []
  | enclose (l : Listed) {inside behind : List Bracket} (inner : Balanced inside)
      (rest : Balanced behind) : Balanced (.opens l :: (inside ++ .closes l :: behind))

theorem Balanced.append {front back : List Bracket} (h : Balanced front) (h' : Balanced back) :
    Balanced (front ++ back) := by
  induction h with
  | nil => exact h'
  | @enclose l inside behind inner rest _ ih =>
      rw [List.cons_append, List.append_assoc, List.cons_append]
      exact .enclose l inner ih

theorem Balanced.count {bs : List Bracket} (h : Balanced bs) :
    bs.countP Bracket.isOpening = bs.countP Bracket.isClosing := by
  induction h with
  | nil => rfl
  | enclose l inner rest ih ih' =>
      simp only [List.countP_cons, List.countP_append, ih, ih', Bracket.isClosing,
        Bracket.isOpening, Bool.not_true, Bool.not_false, Bool.false_eq_true, if_true, if_false]
      omega

/-- The innermost bracket that is still open is one of this list. -/
def InsideOf (l : Listed) (bs : List Bracket) : Prop :=
  ∃ front inside, bs = front ++ .opens l :: inside ∧ Balanced inside

inductive Leaves : List Bracket → List Listed → Prop
  | balanced {bs : List Bracket} (whole : Balanced bs) : Leaves bs []
  | inside {bs inside : List Bracket} {ls : List Listed} (l : Listed) (outer : Leaves bs ls)
      (inner : Balanced inside) : Leaves (bs ++ .opens l :: inside) (l :: ls)

namespace Bracket

/-- The lists that are open behind a bracket, when it closes none but the innermost one. -/
def apply : List Listed → Bracket → Option (List Listed)
  | ls, .opens l => some (l :: ls)
  | .object :: ls, .closes .object => some ls
  | .array :: ls, .closes .array => some ls
  | _, .closes _ => none

end Bracket

/-- The lists that brackets leave open, which some lists were open before. -/
def unclosed (ls : List Listed) (bs : List Bracket) : Option (List Listed) :=
  bs.foldlM Bracket.apply ls

theorem unclosed_append (ls : List Listed) (front back : List Bracket) :
    unclosed ls (front ++ back) = (unclosed ls front).bind (unclosed · back) :=
  List.foldlM_append

theorem unclosed_opens (ls : List Listed) (l : Listed) (bs : List Bracket) :
    unclosed ls (.opens l :: bs) = unclosed (l :: ls) bs := rfl

theorem unclosed_closes (ls : List Listed) (l : Listed) (bs : List Bracket) :
    unclosed (l :: ls) (.closes l :: bs) = unclosed ls bs := by
  cases l <;> rfl

theorem Balanced.unclosed {bs : List Bracket} (h : Balanced bs) (ls : List Listed) :
    unclosed ls bs = some ls := by
  induction h generalizing ls with
  | nil => rfl
  | enclose l _ _ inner rest =>
      rw [unclosed_opens, unclosed_append, inner, Option.bind_some, unclosed_closes, rest]

namespace Leaves

variable {bs more : List Bracket} {ls : List Listed} {l : Listed}

theorem unclosed (h : Leaves bs ls) : unclosed [] bs = some ls := by
  induction h with
  | balanced whole => exact whole.unclosed []
  | inside l _ inner ih =>
      rw [unclosed_append, ih, Option.bind_some, unclosed_opens, inner.unclosed]

theorem count (h : Leaves bs ls) :
    bs.countP Bracket.isOpening = bs.countP Bracket.isClosing + ls.length := by
  induction h with
  | balanced whole => exact whole.count
  | inside l outer inner ih =>
      simp only [List.countP_cons, List.countP_append, ih, inner.count, Bracket.isClosing,
        Bracket.isOpening, Bool.not_true, Bool.false_eq_true, if_true, if_false, List.length_cons]
      omega

theorem append (h : Leaves bs ls) (balanced : Balanced more) : Leaves (bs ++ more) ls := by
  cases h with
  | balanced whole => exact .balanced (whole.append balanced)
  | inside l outer inner =>
      rw [List.append_assoc]
      exact .inside l outer (inner.append balanced)

theorem opens (h : Leaves bs ls) (l : Listed) : Leaves (bs ++ [.opens l]) (l :: ls) :=
  .inside l h .nil

theorem closes (h : Leaves bs (l :: ls)) : Leaves (bs ++ [.closes l]) ls := by
  cases h with
  | @inside bs inside _ _ outer inner =>
      have pair : Balanced (.opens l :: (inside ++ [.closes l])) := .enclose l inner .nil
      rw [List.append_assoc, List.cons_append]
      exact outer.append pair

/-- What is open can be closed. -/
theorem completed (h : Leaves bs ls) : ∃ rest, Balanced (bs ++ rest) := by
  induction ls generalizing bs with
  | nil =>
      cases h with
      | balanced whole => exact ⟨[], by rwa [List.append_nil]⟩
  | cons l ls ih =>
      obtain ⟨rest, whole⟩ := ih h.closes
      exact ⟨.closes l :: rest, by rwa [List.append_assoc] at whole⟩

theorem balanced_iff (h : Leaves bs ls) : Balanced bs ↔ ls = [] := by
  constructor
  · intro whole
    exact Option.some.inj (h.unclosed.symm.trans (whole.unclosed []))
  · rintro rfl
    cases h with
    | balanced whole => exact whole

theorem insideOf_iff (h : Leaves bs ls) (l : Listed) : InsideOf l bs ↔ ls.head? = some l := by
  constructor
  · rintro ⟨front, inside, rfl, inner⟩
    have open' := h.unclosed
    rw [unclosed_append] at open'
    obtain ⟨outer, _, behind⟩ := Option.bind_eq_some_iff.mp open'
    rw [unclosed_opens, inner.unclosed] at behind
    rw [← Option.some.inj behind]
    rfl
  · intro head
    cases h with
    | balanced => cases head
    | @inside bs inside ls m _ inner =>
        obtain rfl : m = l := Option.some.inj head
        exact ⟨bs, inside, rfl, inner⟩

end Leaves

end JsonEvents
