import JsonEvents.Proofs.Reading.Run
import JsonEvents.Proofs.Reading.Text
import JsonEvents.Proofs.Tokenizer.Runs

/-!
# The layout of an input

The events of a run are blocks of the input in their order, and what lies
between two of them is white space with the colon or the comma that belongs
there (`exists_layout`).  Nothing of the input is lost and nothing is invented.
-/

namespace JsonEvents

open Ascii Grammar

/-- The bytes from one place to another. -/
def Bytes.block (s : Bytes) (start stop : Nat) : Bytes := (s.drop start).take (stop - start)

/-- An event with the context that it was met in, the offset after it and its block of the input. -/
structure Placed where
  context : Context
  event : Event
  offset : Nat
  start : Nat
  stop : Nat

namespace Placed

def isKey (p : Placed) : Bool := Reading.isKey p.context p.event

def completes (p : Placed) : Bool := Reading.completes p.context p.event

def closes (p : Placed) : Bool := Reading.closes p.event

/-- Where the gap behind an event begins. -/
def stopOf : Option Placed → Nat
  | none => 0
  | some p => p.stop

/-- The data is a block of the input, and the offset is its end or behind the colon of a key. -/
structure IsPlaced (input : Bytes) (p : Placed) : Prop where
  nonempty : p.start < p.stop
  inside : p.stop ≤ input.length
  data : p.event.data = input.block p.start p.stop
  offset :
    if p.isKey then
      ∃ place, IsBlank (input.block p.stop place) ∧ p.stop ≤ place ∧
        input[place]? = some colon ∧ p.offset = place + 1
    else p.offset = p.stop

/-- Whether a byte may stand between two tokens. -/
def IsFiller (c : UInt8) : Prop := isSpace c ∨ c = comma ∨ c = colon

/-- How many commas the gap in front of an event may hold. -/
def CommasFit (policy : TrailingComma) (before : Option Placed) (p : Placed) (commas : Nat) :
    Prop :=
  if before.any completes && !p.closes then commas = 1
  else
    match policy with
    | .reject => commas = 0
    | .allow => commas ≤ 1 ∧ (before = none ∨ before.any isKey → commas = 0)

/-- The gap between two events, or in front of the first one. -/
structure Separates (policy : TrailingComma) (input : Bytes) (before : Option Placed) (p : Placed) :
    Prop where
  ordered : stopOf before ≤ p.start
  fillers : ∀ c ∈ input.block (stopOf before) p.start, IsFiller c
  colons : (input.block (stopOf before) p.start).count colon = if before.any isKey then 1 else 0
  commas : CommasFit policy before p ((input.block (stopOf before) p.start).count comma)

/-- Every event is a block of the input, and every gap is as it should be. -/
def Laid (policy : TrailingComma) (input : Bytes) : Option Placed → List Placed → Prop
  | _, [] => True
  | before, p :: rest =>
      p.IsPlaced input ∧ Separates policy input before p ∧ Laid policy input (some p) rest

/-- There are no more events than bytes. -/
theorem Laid.length_le {policy : TrailingComma} {input : Bytes} {before : Option Placed}
    {placed : List Placed} (h : Laid policy input before placed)
    (bound : stopOf before ≤ input.length) : stopOf before + placed.length ≤ input.length := by
  induction placed generalizing before with
  | nil => exact bound
  | cons p rest ih =>
      obtain ⟨isPlaced, separates, behind⟩ := h
      have more := ih behind isPlaced.inside
      have := isPlaced.nonempty
      have := separates.ordered
      rw [stopOf] at more
      rw [List.length_cons]
      omega

/-! ## Gaps -/

variable {policy : TrailingComma} {input : Bytes} {before : Option Placed} {r q : Reading}
  {e : Event} {g : Bytes}

theorem count_of_blank {a : Bytes} {c : UInt8} (blank : IsBlank a) (other : isSpace c = false) :
    a.count c = 0 := by
  apply List.count_eq_zero.mpr
  intro member
  rw [blank c member] at other
  cases other

theorem filler_of_blank {a : Bytes} (blank : IsBlank a) : ∀ c ∈ a, IsFiller c :=
  fun c member => .inl (blank c member)

theorem filler_append {a b : Bytes} (front : ∀ c ∈ a, IsFiller c) (back : ∀ c ∈ b, IsFiller c) :
    ∀ c ∈ a ++ b, IsFiller c := by
  intro c member
  rcases List.mem_append.mp member with inside | inside
  · exact front c inside
  · exact back c inside

/-- The trail of an event holds one colon behind a key, and no comma. -/
theorem counts_of_trail {key : Bool} (trail : Reading.IsTrail key g) :
    (∀ c ∈ g, IsFiller c) ∧ g.count colon = (if key then 1 else 0) ∧ g.count comma = 0 := by
  cases key with
  | false =>
      obtain rfl : g = [] := trail
      exact ⟨nofun, rfl, rfl⟩
  | true =>
      obtain ⟨a, blank, rfl⟩ := trail
      refine ⟨filler_append (filler_of_blank blank) ?_, ?_, ?_⟩
      · intro c member
        exact .inr (.inr (List.mem_singleton.mp member))
      · rw [List.count_append, count_of_blank blank rfl]
        rfl
      · rw [List.count_append, count_of_blank blank rfl]
        rfl

/-- The gap in front of a token holds no colon. -/
theorem counts_of_gap (gap : Reading.Gap policy r q g) :
    (∀ c ∈ g, IsFiller c) ∧ g.count colon = 0 := by
  cases gap with
  | blank blank => exact ⟨filler_of_blank blank, count_of_blank blank rfl⟩
  | comma front back =>
      refine ⟨filler_append (filler_of_blank front) ?_, ?_⟩
      · intro c member
        rcases List.mem_cons.mp member with rfl | inside
        · exact .inr (.inl rfl)
        · exact filler_of_blank back c inside
      · rw [List.count_append, List.count_cons, count_of_blank front rfl, count_of_blank back rfl]
        rfl

/-! ## Steps -/

/-- Behind an event the reading stands at the end of what trails it. -/
structure Ready (input : Bytes) (before : Option Placed) (r : Reading) (g : Bytes) : Prop where
  text : input.drop (stopOf before) = g ++ r.rest
  offset : r.offset = stopOf before + g.length
  trail : Reading.IsTrail (before.any isKey) g
  context : before.any isKey = true → r.nesting.top = .objectValue
  first : before = none → r.nesting.top = .value
  owed : r.cut = false → r.needComma = before.any completes

/-- The commas in front of a token are as many as the events around them call for. -/
theorem commas_of_gap {p : Placed} {more : Bytes} (ready : Ready input before r more)
    (whole : r.cut = false) (gap : Reading.Gap policy r q g)
    (free : p.closes = false → q.needComma = false)
    (close : p.closes = true → q.byte = closeBracket ∨ q.byte = closeBrace) :
    CommasFit policy before p (g.count comma) := by
  have owed := ready.owed whole
  unfold CommasFit
  cases gap with
  | blank blank kept =>
      rw [count_of_blank blank rfl]
      -- A comma that is owed may be missing in front of a closing bracket only.
      have paid : (before.any completes && !p.closes) = false := by
        rw [← owed, ← kept]
        cases closes : p.closes with
        | true => exact Bool.and_false _
        | false => rw [free closes]; rfl
      rw [paid]
      cases policy with
      | reject => rfl
      | allow => exact ⟨Nat.zero_le 1, fun _ => rfl⟩
  | comma front back separates fine =>
      obtain ⟨list, needs⟩ := Reading.of_separates separates
      rw [List.count_append, List.count_cons, count_of_blank front rfl, count_of_blank back rfl]
      cases due : (before.any completes && !p.closes) with
      | true => rfl
      | false =>
          cases policy with
          | reject =>
              have complete : before.any completes = true := owed.symm.trans (needs rfl)
              rw [complete, Bool.true_and, Bool.not_eq_false'] at due
              exact absurd (close due) (Reading.not_close_of_fine fine)
          | allow =>
              constructor
              · exact Nat.le_refl 1
              · intro first
                have noList : r.nesting.top ≠ .array ∧ r.nesting.top ≠ .objectKey := by
                  rcases first with rfl | key
                  · rw [ready.first rfl]
                    decide
                  · rw [ready.context key]
                    decide
                rcases list with isArray | isObject
                · exact absurd isArray noList.1
                · exact absurd isObject noList.2

theorem block_of_drop {s x y : Bytes} {start : Nat} (h : s.drop start = x ++ y) :
    s.block start (start + x.length) = x ∧ s.drop (start + x.length) = y := by
  constructor
  · rw [Bytes.block, h, Nat.add_sub_cancel_left]
    exact List.take_left
  · rw [← List.drop_drop, h]
    exact List.drop_left

/-- A block that is not empty lies within the input. -/
theorem le_length_of_drop {s x y : Bytes} {start : Nat} (h : s.drop start = x ++ y)
    (some : x ≠ []) : start < start + x.length ∧ start + x.length ≤ s.length := by
  have size := congrArg List.length h
  have positive := List.length_pos_iff.mpr some
  rw [List.length_drop, List.length_append] at size
  omega

/-- The offset behind an event is the end of what trails it. -/
theorem isPlaced_of_trail {p : Placed} {trail behind : Bytes} (nonempty : p.start < p.stop)
    (inside : p.stop ≤ input.length) (data : p.event.data = input.block p.start p.stop)
    (rest : input.drop p.stop = trail ++ behind) (isTrail : Reading.IsTrail p.isKey trail)
    (place : p.offset = p.stop + trail.length) : p.IsPlaced input := by
  refine ⟨nonempty, inside, data, ?_⟩
  cases key : p.isKey with
  | false =>
      rw [key] at isTrail
      obtain rfl : trail = [] := isTrail
      exact place
  | true =>
      rw [key] at isTrail
      obtain ⟨a, blank, rfl⟩ := isTrail
      rw [List.append_assoc] at rest
      obtain ⟨white, colon⟩ := block_of_drop rest
      refine ⟨p.stop + a.length, ?_, Nat.le_add_right _ _, ?_, ?_⟩
      · rw [white]
        exact blank
      · rw [← Nat.add_zero (p.stop + a.length), ← List.getElem?_drop, colon]
        rfl
      · rw [List.length_append] at place
        exact place

/-- What trails an event and the gap in front of the next one lie between the two. -/
theorem separates_of_gap {p : Placed} {gap : Bytes} (ready : Ready input before r g)
    (whole : r.cut = false) (between : Reading.Gap policy r q gap)
    (start : p.start = stopOf before + (g ++ gap).length)
    (front : input.block (stopOf before) p.start = g ++ gap)
    (free : p.closes = false → q.needComma = false)
    (close : p.closes = true → q.byte = closeBracket ∨ q.byte = closeBrace) :
    Separates policy input before p := by
  obtain ⟨fillers, colons, none⟩ := counts_of_trail ready.trail
  obtain ⟨fillers', none'⟩ := counts_of_gap between
  have commas := commas_of_gap ready whole between free close
  constructor
  · rw [start]
    exact Nat.le_add_right _ _
  · rw [front]
    exact filler_append fillers fillers'
  · rw [front, List.count_append, colons, none', Nat.add_zero]
  · rw [front, List.count_append, none, Nat.zero_add]
    exact commas

/-- An event is placed behind the gap in front of it, and leaves the reading ready again. -/
theorem Ready.step {r' : Reading} (ready : Ready input before r g)
    (gives : r.next policy = .gives e r') :
    ∃ p g', p.context = r.nesting.top ∧ p.event = e ∧ p.offset = r'.offset ∧ p.IsPlaced input ∧
      Separates policy input before p ∧ Ready input (some p) r' g' := by
  obtain ⟨whole, q, leads, token⟩ := Reading.next_eq_gives.mp gives
  obtain ⟨gap, between, text, offset⟩ := leads.gap
  obtain ⟨trail, takes⟩ := token.takes
  have context := leads.nesting_eq
  let start := stopOf before + (g ++ gap).length
  let p : Placed := ⟨r.nesting.top, e, r'.offset, start, start + e.data.length⟩
  have sameKey : p.isKey = Reading.isKey q.nesting.top e := by rw [context]; rfl
  have sameValue : p.completes = Reading.completes q.nesting.top e := by rw [context]; rfl
  have all : input.drop (stopOf before) = (g ++ gap) ++ (e.data ++ (trail ++ r'.rest)) := by
    rw [ready.text, text, takes.text, List.append_assoc]
  obtain ⟨front, rest⟩ := block_of_drop all
  obtain ⟨data, behind⟩ := block_of_drop rest
  obtain ⟨nonempty, inside⟩ := le_length_of_drop rest takes.some
  have place : r'.offset = p.stop + trail.length := by
    have := ready.offset
    have := takes.offset
    simp only [p, start, List.length_append]
    omega
  have isTrail : Reading.IsTrail p.isKey trail := sameKey ▸ takes.trail
  refine ⟨p, trail, rfl, rfl, rfl, ?_, ?_, ?_⟩
  · exact isPlaced_of_trail nonempty inside data.symm behind isTrail place
  · exact separates_of_gap ready whole between rfl front takes.free takes.close
  · constructor
    · exact behind
    · exact place
    · exact isTrail
    · intro key
      exact takes.context (sameKey ▸ key)
    · nofun
    · intro whole'
      rw [takes.owed whole', ← sameValue]
      rfl

end Placed

/-! ## Runs -/

open Placed in
/-- The events of a run can be placed one after the other. -/
theorem Reading.Run.layout {policy : TrailingComma} {input g : Bytes} {before : Option Placed}
    {r q : Reading} {marks : List Mark} (run : r.Run policy marks q)
    (ready : Ready input before r g) :
    ∃ placed : List Placed,
      placed.map (fun p => (p.context, p.event)) = Mark.turns r.nesting.top marks ∧
      placed.map Placed.offset = marks.map Mark.offset ∧ Laid policy input before placed := by
  induction run generalizing before g with
  | nil => exact ⟨[], rfl, rfl, trivial⟩
  | @cons r r' q event marks gives rest ih =>
      obtain ⟨p, g', context, same, offset, isPlaced, separates, ready'⟩ := ready.step gives
      obtain ⟨placed, turns, offsets, laid⟩ := ih ready'
      refine ⟨p :: placed, ?_, ?_, isPlaced, separates, laid⟩
      · rw [List.map_cons, turns, context, same]
        rfl
      · rw [List.map_cons, offsets, offset]
        rfl

namespace Tokenizer

open Placed

/--
The events before the first error event are blocks of the input, one behind the
other, with the offsets where they end, and the gaps in front of them hold
white space, the colon of a key and the commas that belong there.
-/
theorem exists_layout (input : Bytes) (o : Options) :
    ∃ placed : List Placed,
      placed.map (fun p => (p.context, p.event)) = (ofBytes input o).turns ∧
      placed.map Placed.offset = (ofBytes input o).steps.map (·.after.offset) ∧
      Laid o.trailingComma input none placed ∧ placed.length ≤ input.length := by
  by_cases opens : LogOpens o
  · obtain ⟨q, halt, place, run, _⟩ := run_ofBytes opens input
    have ready : Ready input none (.start input) [] :=
      ⟨rfl, rfl, rfl, nofun, fun _ => rfl, fun _ => rfl⟩
    obtain ⟨placed, turns, offsets, laid⟩ := run.layout ready
    have size := laid.length_le (Nat.zero_le _)
    rw [stopOf, Nat.zero_add] at size
    rw [marks, List.map_map] at offsets
    exact ⟨placed, turns, offsets, laid, size⟩
  · have none : (ofBytes input o).marks = [] := (stops_without_log opens (.ofBytes input)).1
    have steps : (ofBytes input o).steps = [] := List.map_eq_nil_iff.mp none
    refine ⟨[], ?_, ?_, trivial, Nat.zero_le _⟩
    · rw [turns, none]
      rfl
    · rw [steps]
      rfl

end Tokenizer

end JsonEvents
