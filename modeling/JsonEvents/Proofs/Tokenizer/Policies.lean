import JsonEvents.Tokenizer.Run

/-!
# The two policies for trailing commas

The policy is looked at in `Front.of` alone, where it refuses a comma or changes
nothing (`Front.of_policies`).  Behind the front of a token the two runs over a
text go in step (`Under`), so they are the same until the strict one refuses a
comma (`steps_of_policies`).
-/

namespace JsonEvents

open Ascii

/-! ## Where the policy is looked at -/

/-- The strict policy refuses the comma, or both policies find the same. -/
theorem Front.of_policies (context : Context) (needComma : Bool) (w : Window) :
    (∃ fault, (Front.of .reject context needComma w).fault = some fault ∧
        fault.reason = .badComma) ∨
      Front.of .reject context needComma w = Front.of .allow context needComma w := by
  unfold Front.of
  rcases w.skipSpace.peek 0 with ⟨c, v⟩
  dsimp only
  by_cases isComma : c = comma
  · rw [if_pos isComma, if_pos isComma]
    by_cases stray : Front.isStray .reject context needComma = true
    · rw [if_pos stray]
      exact .inl ⟨.strayComma, rfl, rfl⟩
    · -- A comma that the strict policy takes as a separator is one for the other policy too.
      have stray' : ¬ Front.isStray .allow context needComma = true := by
        simp only [Front.isStray, Bool.or_eq_true, not_or] at stray ⊢
        exact ⟨stray.1, by simp⟩
      rw [if_neg stray, if_neg stray']
      rcases (v.extend 1).skip.skipSpace.peek 0 with ⟨d, u⟩
      dsimp only
      by_cases again : d = comma
      · exact .inl ⟨.strayComma, if_pos again, rfl⟩
      · by_cases closes : d = closeBracket ∨ d = closeBrace
        · refine .inl ⟨.danglingComma, ?_, rfl⟩
          rw [Front.faultBehind, if_neg again, if_pos ⟨rfl, closes⟩]
        · right
          simp [Front.faultBehind, again, closes]
  · rw [if_neg isComma, if_neg isComma]
    exact .inr rfl

namespace Tokenizer

/-- The tokenizer under a policy, with some log. -/
def under (policy : TrailingComma) (log : Log) (t : Tokenizer) : Tokenizer :=
  { t with trailingComma := policy, log }

/-- The second result is the first one but for the policy and the log. -/
def Under (policy : TrailingComma) (result result' : Event × Tokenizer) : Prop :=
  ∃ log, result' = (result.1, result.2.under policy log)

variable (policy : TrailingComma) (log : Log) (t : Tokenizer)

/-! ## What a call ends with -/

theorem under_stop (s : Status) : Under policy (t.stop s) ((t.under policy log).stop s) :=
  ⟨_, rfl⟩

theorem under_refuse (fault : Fault) :
    Under policy (t.refuse fault) ((t.under policy log).refuse fault) := ⟨_, rfl⟩

theorem under_refuseUnlessFailed (fault : Fault) :
    Under policy (t.refuseUnlessFailed fault) ((t.under policy log).refuseUnlessFailed fault) := by
  have same : (t.under policy log).failure? = t.failure? := rfl
  unfold refuseUnlessFailed
  rw [same]
  split
  · exact under_stop policy log t _
  · exact under_refuse policy log t fault

theorem under_emit (kind : Kind) : Under policy (t.emit kind) ((t.under policy log).emit kind) :=
  ⟨log, rfl⟩

theorem under_emitBracket (kind : Kind) (nesting : Nesting) (needComma : Bool) :
    Under policy (t.emitBracket kind nesting needComma)
      ((t.under policy log).emitBracket kind nesting needComma) :=
  under_emit policy log { t with window := t.window.extend 1, nesting, needComma } kind

theorem under_emitScalar (kind : Kind) :
    Under policy (t.emitScalar kind) ((t.under policy log).emitScalar kind) := by
  have same : (t.under policy log).failure? = t.failure? := rfl
  unfold emitScalar
  rw [same]
  split
  · exact under_stop policy log t _
  · exact under_emit policy log _ kind

theorem under_emitOpenString (s : Status) :
    Under policy (t.emitOpenString s) ((t.under policy log).emitOpenString s) := ⟨_, rfl⟩

theorem under_noToken (c : UInt8) :
    Under policy (t.noToken c) ((t.under policy log).noToken c) := by
  have same : (t.under policy log).window = t.window := rfl
  unfold noToken
  rw [same]
  split
  · split
    · exact under_refuse policy log t .nulByte
    · split
      · exact ⟨_, rfl⟩
      · exact under_stop policy log t _
  · exact under_refuseUnlessFailed policy log t .strayByte

/-! ## Keys, strings and values -/

theorem under_nextKey : Under policy t.nextKey (t.under policy log).nextKey := by
  have same : (t.under policy log).window = t.window := rfl
  unfold nextKey
  rw [same]
  dsimp only
  split
  · split
    · exact ⟨log, rfl⟩
    · exact under_refuseUnlessFailed policy log _ .missingColon
  · exact under_refuseUnlessFailed policy log _ .badKey

theorem under_nextString : Under policy t.nextString (t.under policy log).nextString := by
  have same : (t.under policy log).window = t.window := rfl
  unfold nextString
  rw [same]
  dsimp only
  split
  · exact under_emitScalar policy log _ .string
  · split
    · exact under_refuse policy log _ .nulByte
    · split
      · exact under_emitOpenString policy log _ _
      · exact under_stop policy log _ _

theorem under_nextScalar (c : UInt8) :
    Under policy (t.nextScalar c) ((t.under policy log).nextScalar c) := by
  have same : (t.under policy log).window = t.window := rfl
  unfold nextScalar
  rw [same]
  rcases t.window.number with ⟨isNumber, v⟩
  rcases found : v.literal with ⟨isLiteral, w⟩
  simp only [found]
  split
  · exact under_nextString policy log t
  · split
    · exact under_emitScalar policy log { t with window := v } .number
    · split
      · exact under_emitScalar policy log { t with window := w } .literal
      · exact under_noToken policy log { t with window := w } c

theorem under_perform (c : UInt8) (move : Move) :
    Under policy (t.perform c move) ((t.under policy log).perform c move) := by
  cases move with
  | openObject | closeObject | openArray | closeArray =>
      exact under_emitBracket policy log t _ _ _
  | key => exact under_nextKey policy log t
  | value => exact under_nextScalar policy log t c
  | refuse fault => exact under_refuse policy log t fault

/-! ## Calls and runs -/

/-- What a call does once the front of the token is found. -/
def face (t : Tokenizer) (front : Front) : Event × Tokenizer :=
  let t := { t with window := front.window, needComma := front.needComma }
  match front.fault with
  | some fault => t.refuse fault
  | none => t.perform front.byte (Move.of t.context t.needComma front.byte)

theorem under_face (front : Front) :
    Under policy (t.face front) ((t.under policy log).face front) := by
  unfold face
  dsimp only
  split
  · exact under_refuse policy log _ _
  · exact under_perform policy log _ _ _

variable {policy log t}

theorem next_under (runs : t.latched.isOk = true) :
    (t.under policy log).next =
      (t.under policy log).face (Front.of policy t.context t.needComma t.window) := if_pos runs

theorem next_under_of_latched (stopped : ¬ t.latched.isOk = true) :
    (t.under policy log).next = (.error, t.under policy log) := if_neg stopped

/-- A call that stops for a comma that separates nothing. -/
def RefusesComma (result : Event × Tokenizer) : Prop :=
  result.1.kind = .error ∧ result.2.status.isRefusal .badComma = true

theorem refusesComma_face {front : Front} {fault : Fault} (found : front.fault = some fault)
    (isComma : fault.reason = .badComma) : RefusesComma (t.face front) := by
  unfold face
  rw [found]
  refine ⟨rfl, ?_⟩
  rw [status, if_neg (by nofun)]
  show (fault.reason == .badComma) = true
  rw [isComma]
  rfl

/-- The strict call refuses a comma, or the two calls are the same but for policy and log. -/
theorem next_of_policies (t : Tokenizer) (strict lax : Log) :
    RefusesComma (t.under .reject strict).next ∨
      ∃ result : Event × Tokenizer, Under .reject result (t.under .reject strict).next ∧
        Under .allow result (t.under .allow lax).next := by
  by_cases runs : t.latched.isOk = true
  · rw [next_under runs, next_under runs]
    rcases Front.of_policies t.context t.needComma t.window with ⟨fault, found, isComma⟩ | same
    · exact .inl (refusesComma_face found isComma)
    · rw [same]
      exact .inr ⟨_, under_face .reject strict t _, under_face .allow lax t _⟩
  · rw [next_under_of_latched runs, next_under_of_latched runs]
    exact .inr ⟨(.error, t), ⟨strict, rfl⟩, ⟨lax, rfl⟩⟩

/-- The two runs of one tokenizer are the same until the strict one refuses a comma. -/
theorem steps_of_under (t : Tokenizer) (strict lax : Log) :
    (t.under .reject strict).steps <+: (t.under .allow lax).steps ∧
      ((t.under .reject strict).final.status.isRefusal .badComma = false →
        (t.under .reject strict).steps = (t.under .allow lax).steps ∧
        (t.under .reject strict).final.snapshot = (t.under .allow lax).final.snapshot) := by
  rcases next_of_policies t strict lax with
    ⟨error, refused⟩ | ⟨⟨event, u⟩, ⟨strict', call⟩, ⟨lax', call'⟩⟩
  · obtain ⟨none, final⟩ := steps_of_error (Prod.eta _).symm error
    rw [none, final, refused]
    exact ⟨List.nil_prefix, nofun⟩
  · by_cases error : event.kind = .error
    · obtain ⟨none, final⟩ := steps_of_error call error
      obtain ⟨none', final'⟩ := steps_of_error call' error
      rw [none, final, none', final']
      exact ⟨List.nil_prefix, fun _ => ⟨rfl, rfl⟩⟩
    · obtain ⟨steps, final⟩ := steps_of_event call error
      obtain ⟨steps', final'⟩ := steps_of_event call' error
      have shorter : (u.under .reject strict').window.remaining <
          (t.under .reject strict).window.remaining := remaining_next_lt call error
      obtain ⟨part, same⟩ := steps_of_under u strict' lax'
      rw [steps, final, steps', final']
      refine ⟨List.cons_prefix_cons.mpr ⟨rfl, part⟩, fun other => ?_⟩
      obtain ⟨rest, last⟩ := same other
      exact ⟨congrArg _ rest, last⟩
termination_by t.window.remaining

theorem ofBytes_under (input : Bytes) (o : Options) (policy policy' : TrailingComma) :
    ∃ log, ofBytes input { o with trailingComma := policy' } =
      (ofBytes input { o with trailingComma := policy }).under policy' log := by
  unfold ofBytes ofWindow
  have same : Log.opened { o with trailingComma := policy' }.sanitize =
      Log.opened { o with trailingComma := policy }.sanitize := rfl
  dsimp only
  rw [same]
  exact ⟨_, rfl⟩

/--
Over every text, the strict run gives the first steps of the run that allows
trailing commas.  Unless it ends because of a comma, both runs give the same
steps and end with the same status, context, depth and offset.
-/
theorem steps_of_policies (input : Bytes) (o : Options) :
    (ofBytes input { o with trailingComma := .reject }).steps <+:
        (ofBytes input { o with trailingComma := .allow }).steps ∧
      ((ofBytes input { o with trailingComma := .reject }).final.status.isRefusal .badComma =
          false →
        (ofBytes input { o with trailingComma := .reject }).steps =
            (ofBytes input { o with trailingComma := .allow }).steps ∧
          (ofBytes input { o with trailingComma := .reject }).final.snapshot =
            (ofBytes input { o with trailingComma := .allow }).final.snapshot) := by
  obtain ⟨strict, same⟩ := ofBytes_under input o .reject .reject
  obtain ⟨lax, same'⟩ := ofBytes_under input o .reject .allow
  rw [same', same]
  exact steps_of_under _ strict lax

/-- Both policies refuse a missing comma in the same words. -/
theorem steps_of_policies_missing_comma :
    (ofBytes (Bytes.ofString "[1 2]") { trailingComma := .reject }).final.status.isRefusal
        .badComma = false ∧
      (ofBytes (Bytes.ofString "[1 2]") { trailingComma := .reject }).final.snapshot =
        (ofBytes (Bytes.ofString "[1 2]") { trailingComma := .allow }).final.snapshot := by
  have other : (ofBytes (Bytes.ofString "[1 2]")
      { trailingComma := .reject }).final.status.isRefusal .badComma = false := by decide +kernel
  exact ⟨other, ((steps_of_policies (Bytes.ofString "[1 2]") {}).2 other).2⟩

/-- The first difference is at the bracket behind a comma. -/
example :
    ((ofBytes (Bytes.ofString "[1,]") { trailingComma := .reject }).steps.map (·.event.kind),
        (ofBytes (Bytes.ofString "[1,]") { trailingComma := .allow }).steps.map (·.event.kind)) =
      ([.startArray, .number], [.startArray, .number, .endArray]) := by
  decide +kernel

end Tokenizer

end JsonEvents
