import JsonEvents.Proofs.Reading.Tokens
import JsonEvents.Proofs.Window.Shows
import JsonEvents.Tokenizer.Run

/-!
# What a call does

A call looks for the front of a token (`Tokenizer.facing`) and then makes the
move that is called for there.  `Turn` lists what comes of that for the nesting,
the comma and the latch; `onward_next` says it of the window.
-/

namespace JsonEvents

open Ascii

/-! ## Supplies that go on -/

namespace Supply

/-- Each read that succeeds brings something, and there is always room for a byte. -/
def IsSteady : Supply → Prop
  | .nothing => True
  | .stream str => str.reader.IsSteady ∧ str.reader.ending.isOk = false ∧ 0 < str.capacity

end Supply

namespace Stream

theorem isSteady_fetch {seg seg' : Segment} {str str' : Stream} {capacity : Nat} {data : Bytes}
    (steady : (Supply.stream str).IsSteady) (room : 0 < capacity)
    (got : fetch seg str capacity = (data, seg', str')) : (Supply.stream str').IsSteady := by
  obtain ⟨reads, fails, _⟩ := steady
  simp only [fetch, Prod.mk.injEq] at got
  obtain ⟨_, _, rfl⟩ := got
  exact ⟨reads.read _, by rwa [Reader.ending_read], room⟩

theorem isSteady_refill (seg : Segment) (str : Stream) (need : Nat)
    (steady : (Supply.stream str).IsSteady) :
    (Supply.stream (refill seg str need).2.2).IsSteady := by
  have room := fun (seg : Segment) (str : Stream) (steady : (Supply.stream str).IsSteady) =>
    Nat.lt_of_lt_of_le steady.2.2 (le_room (seg.bytes.size - seg.start) need str.limit str.capacity)
  fun_induction refill seg str need with
  | case1 => exact steady
  | case2 seg str _ _ _ _ _ _ got => exact isSteady_fetch steady (room seg str steady) got
  | case3 seg str _ _ _ _ _ _ got => exact isSteady_fetch steady (room seg str steady) got
  | case4 seg str _ _ _ _ _ _ got _ _ ih =>
      exact ih (isSteady_fetch steady (room seg str steady) got)
  | case5 => exact steady

/-- Where a refill brings no byte but NUL, it is the NUL of the input or there are no more bytes. -/
theorem refill_nul {seg : Segment} {str : Stream} {need : Nat}
    (steady : (Supply.stream str).IsSteady) (asked : 0 < need) (none : seg.last? need = none)
    (nul : (refill seg str need).1 = 0) :
    (refill seg str need).2.1.last? need = some 0 ∨
      (refill seg str need).2.1.last? need = Option.none ∧
        (refill seg str need).2.2.status.isOk = false := by
  fun_induction refill seg str need with
  | case1 => exact .inr ⟨none, rfl⟩
  | case2 seg str _ capacity _ data seg' str' got c found =>
      left
      rw [found]
      exact congrArg some nul
  | case3 seg str _ capacity fits seg' str' missed got =>
      right
      have free := Nat.lt_of_lt_of_le (Segment.size_compact_lt asked none) (Nat.le_of_not_lt fits)
      have asked := Nat.sub_pos_of_lt free
      obtain ⟨reads, fails, _⟩ := steady
      simp only [fetch, Prod.mk.injEq] at got
      obtain ⟨nothing, _, rfl⟩ := got
      exact ⟨missed, by rw [(reads.read_nil asked nothing).1]; exact fails⟩
  | case4 seg str _ capacity _ data seg' str' got missed _ ih =>
      have room := Nat.lt_of_lt_of_le steady.2.2
        (le_room (seg.bytes.size - seg.start) need str.limit str.capacity)
      exact ih (isSteady_fetch steady room got) missed nul
  | case5 seg str failed => exact .inr ⟨none, Bool.eq_false_iff.mpr failed⟩

end Stream

namespace Window

variable {v w : Window}

theorem Onward.steady (h : Onward w v) (steady : w.supply.IsSteady) : v.supply.IsSteady :=
  h.keeps Stream.isSteady_refill steady

/-- Every look at the byte behind the lexeme shows NUL. -/
def StaysNul (w : Window) : Prop := w.at? 0 = some 0 ∨ w.at? 0 = none ∧ w.given.isOk = false

theorem StaysNul.peek (h : w.StaysNul) : (w.peek 0).1 = 0 ∧ (w.peek 0).2.StaysNul := by
  rcases h with here | ⟨here, failed⟩
  · rw [peek_of_arrived here]
    exact ⟨rfl, .inl here⟩
  · cases supply : w.supply with
    | nothing =>
        rw [peek_of_nothing here supply]
        exact ⟨rfl, .inr ⟨here, failed⟩⟩
    | stream str =>
        have stopped : str.status.isOk = false := by rwa [given, supply] at failed
        rw [peek_of_stream here supply, Stream.refill_of_failed _ stopped]
        exact ⟨rfl, .inr ⟨here, stopped⟩⟩

/-- A steady supply that shows NUL goes on to show NUL. -/
theorem staysNul_of_peek (steady : w.supply.IsSteady) (seen : w.peek 0 = (0, v)) : v.StaysNul := by
  have len := len_peek w 0
  have last := v.last?_of_len 0
  cases here : w.at? 0 with
  | some c =>
      rw [peek_of_arrived here] at seen
      obtain ⟨rfl, rfl⟩ := Prod.mk.inj seen
      exact .inl here
  | none =>
      cases supply : w.supply with
      | nothing =>
          rw [peek_of_nothing here supply] at seen
          obtain ⟨_, rfl⟩ := Prod.mk.inj seen
          exact .inr ⟨here, by simp only [given, supply]; rfl⟩
      | stream str =>
          rw [supply] at steady
          rw [peek_of_stream here supply] at seen len
          obtain ⟨nul, rfl⟩ := Prod.mk.inj seen
          have missed := (w.last?_of_len 0).trans here
          have shown := Stream.refill_nul steady (Nat.succ_pos _) missed nul
          rw [len] at last
          rwa [last] at shown

/-- Where NUL stays there is no number, and what was taken for one is given back. -/
theorem StaysNul.number_eq (h : w.StaysNul) :
    w.number = (false, ((w.peek 0).2.peek 0).2.setLen w.len) := by
  have none : ¬ ((0 : UInt8) = minus) ∧ ¬ ((0 : UInt8) = zero) ∧
      ¬ (one ≤ (0 : UInt8) ∧ (0 : UInt8) ≤ nine) := by decide
  obtain ⟨nul, stays⟩ := h.peek
  obtain ⟨nul', _⟩ := stays.peek
  have sign : w.minusSign = (w.peek 0).2 := by
    unfold minusSign
    dsimp only
    rw [nul, if_neg none.1]
  have integer : w.minusSign.integerPart = (false, ((w.peek 0).2.peek 0).2) := by
    rw [sign]
    unfold integerPart
    dsimp only
    rw [nul', if_neg none.2.1, if_neg none.2.2]
  rw [Window.number_eq, integer, if_neg Bool.false_ne_true]

theorem StaysNul.number (h : w.StaysNul) : w.number.1 = false ∧ w.number.2.StaysNul := by
  have stays := h.peek.2.peek.2
  have len : ((w.peek 0).2.peek 0).2.len = w.len := by rw [len_peek, len_peek]
  rw [h.number_eq, ← len]
  exact ⟨rfl, stays⟩

theorem StaysNul.oneOf {words : List Bytes} (h : w.StaysNul)
    (letters : ∀ word ∈ words, word ≠ [] ∧ ∀ c ∈ word, c ≠ 0) : (w.oneOf words).1 = false := by
  induction words generalizing w with
  | nil => rfl
  | cons word rest ih =>
      obtain ⟨nul, stays⟩ := h.peek
      obtain ⟨some, here⟩ := letters word List.mem_cons_self
      obtain ⟨c, tail, rfl⟩ := List.exists_cons_of_ne_nil some
      have other : ¬ (0 : UInt8) = c := fun same => here c List.mem_cons_self same.symm
      rw [oneOf_cons, spells_cons, nul, if_neg other, if_neg Bool.false_ne_true]
      exact ih stays fun word member => letters word (List.mem_cons_of_mem _ member)

end Window

/-- A comma in front of a token separates the items of a list, and no other is needed then. -/
theorem Front.needComma_of (policy : TrailingComma) (context : Context) (needComma : Bool)
    (w : Window) :
    (Front.of policy context needComma w).needComma = needComma ∨
      (Front.of policy context needComma w).needComma = false ∧
        (context = .array ∨ context = .objectKey) := by
  unfold Front.of
  dsimp only
  split
  · split
    · exact .inl rfl
    · next separates =>
        refine .inr ⟨rfl, ?_⟩
        cases context with
        | value | objectValue => exact absurd rfl separates
        | array => exact .inl rfl
        | objectKey => exact .inr rfl
  · exact .inl rfl

namespace Tokenizer

variable {t : Tokenizer}

/-! ## Moves -/

/-- What the next call finds in front of a token. -/
def front (t : Tokenizer) : Front := Front.of t.trailingComma t.context t.needComma t.window

/-- The tokenizer in front of the token. -/
def facing (t : Tokenizer) : Tokenizer :=
  { t with window := t.front.window, needComma := t.front.needComma }

/-- The move that the next call makes, if it comes so far. -/
def move? (t : Tokenizer) : Option Move :=
  if t.latched.isOk ∧ t.front.fault = none then
    some (Move.of t.context t.front.needComma t.front.byte)
  else
    none

/-- A call refuses the fault in front of the token, or makes a move there. -/
theorem next_of_ok (ok : t.latched.isOk = true) :
    t.next =
      match t.front.fault with
      | some fault => t.facing.refuse fault
      | none => t.facing.perform t.front.byte
          (Move.of t.context t.front.needComma t.front.byte) :=
  if_pos ok

theorem of_move? {move : Move} (h : t.move? = some move) :
    t.latched.isOk = true ∧ move = Move.of t.context t.front.needComma t.front.byte := by
  unfold move? at h
  split at h
  · next so => exact ⟨so.1, (Option.some.inj h).symm⟩
  · cases h

theorem next_of_move? {move : Move} (h : t.move? = some move) :
    t.next = t.facing.perform t.front.byte move := by
  unfold move? at h
  split at h
  · next so =>
      obtain ⟨ok, none⟩ := so
      obtain rfl := Option.some.inj h
      unfold next
      rw [if_pos ok]
      dsimp only
      split
      · next found =>
          rw [show t.front.fault = _ from found] at none
          cases none
      · rfl
  · cases h

/-- Without a move there is a fault in front, or the tokenizer has stopped already. -/
theorem next_of_no_move (h : t.move? = none) :
    t.latched.isOk = false ∧ t.next = (.error, t) ∨
      t.latched.isOk = true ∧ ∃ fault, t.next = t.facing.refuse fault := by
  unfold next
  cases latched : t.latched.isOk with
  | false => exact .inl ⟨rfl, if_neg Bool.false_ne_true⟩
  | true =>
      refine .inr ⟨rfl, ?_⟩
      rw [if_pos rfl]
      dsimp only
      split
      · next fault _ => exact ⟨fault, rfl⟩
      · next none =>
          rw [move?, if_pos ⟨latched, none⟩] at h
          cases h

theorem isOk_of_failure {s : Status} (h : t.failure? = some s) : s.isOk = false := by
  unfold failure? at h
  split at h
  · cases h
  · next other =>
      obtain rfl := Option.some.inj h
      rw [Bool.or_eq_true, not_or] at other
      exact Bool.eq_false_iff.mpr other.1

/-! ## What comes of a move -/

/-- What a move does to the nesting, the comma and the latch, by the event that it gives. -/
inductive Turn (t : Tokenizer) : Event × Tokenizer → Prop
  | stays {u : Tokenizer} (nesting : u.nesting = t.nesting) (comma : u.needComma = t.needComma) :
      Turn t (.error, u)
  | opens {u : Tokenizer} {data : Bytes} (l : Listed) (free : t.needComma = false)
      (nesting : u.nesting = t.nesting.push l.context) (comma : u.needComma = false) :
      Turn t (⟨l.startKind, data⟩, u)
  | closes {u : Tokenizer} {data : Bytes} (l : Listed) (inside : t.context = l.context)
      (nesting : u.nesting = t.nesting.pop) (comma : u.needComma = true) :
      Turn t (⟨l.endKind, data⟩, u)
  | key {u : Tokenizer} {data : Bytes} (free : t.needComma = false)
      (inside : t.context = .objectKey) (nesting : u.nesting = t.nesting.setTop .objectValue)
      (comma : u.needComma = false) : Turn t (⟨.string, data⟩, u)
  | scalar {u : Tokenizer} {kind : Kind} {data : Bytes}
      (scalar : kind = .string ∨ kind = .number ∨ kind = .literal) (free : t.needComma = false)
      (outside : t.context ≠ .objectKey)
      (nesting : u.nesting = t.nesting.setTop t.context.afterValue) (comma : u.needComma = true) :
      Turn t (⟨kind, data⟩, u)
  | openString {u : Tokenizer} {data : Bytes} (free : t.needComma = false)
      (outside : t.context ≠ .objectKey) (nesting : u.nesting = t.nesting)
      (comma : u.needComma = false) (latched : u.latched.isOk = false) :
      Turn t (⟨.string, data⟩, u)

variable {w : Window}

theorem turn_refuseUnlessFailed (fault : Fault) :
    Turn t ({ t with window := w }.refuseUnlessFailed fault) := by
  unfold refuseUnlessFailed
  split <;> exact .stays rfl rfl

theorem turn_noToken (c : UInt8) : Turn t ({ t with window := w }.noToken c) := by
  unfold noToken
  split
  · split
    · exact .stays rfl rfl
    · split <;> exact .stays rfl rfl
  · exact turn_refuseUnlessFailed _

theorem turn_emitScalar {kind : Kind} (scalar : kind = .string ∨ kind = .number ∨ kind = .literal)
    (free : t.needComma = false) (outside : t.context ≠ .objectKey) :
    Turn t ({ t with window := w }.emitScalar kind) := by
  unfold emitScalar
  split
  · exact .stays rfl rfl
  · exact .scalar scalar free outside rfl rfl

theorem turn_nextKey (free : t.needComma = false) (inside : t.context = .objectKey) :
    Turn t t.nextKey := by
  unfold nextKey
  dsimp only
  split
  · split
    · exact .key free inside rfl free
    · exact turn_refuseUnlessFailed _
  · exact turn_refuseUnlessFailed _

theorem turn_nextString (free : t.needComma = false) (outside : t.context ≠ .objectKey) :
    Turn t t.nextString := by
  unfold nextString
  dsimp only
  split
  · exact turn_emitScalar (.inl rfl) free outside
  · split
    · exact .stays rfl rfl
    · next failed =>
        split
        · exact .openString free outside rfl free (Bool.eq_false_iff.mpr failed)
        · exact .stays rfl rfl

theorem turn_nextScalar {c : UInt8} (nul : c = nul → t.window.StaysNul)
    (legal : c ≠ Ascii.nul → t.needComma = false ∧ t.context ≠ .objectKey) :
    Turn t (t.nextScalar c) := by
  unfold nextScalar
  dsimp only
  by_cases isNul : c = Ascii.nul
  · -- Nothing begins with a NUL that stays.
    obtain ⟨noNumber, stays⟩ := (nul isNul).number
    have noLiteral : t.window.number.2.literal.1 = false :=
      stays.oneOf Window.literals_letters
    rw [if_neg (by rw [isNul]; decide), noNumber, if_neg Bool.false_ne_true, noLiteral, if_neg Bool.false_ne_true]
    exact turn_noToken c
  · obtain ⟨free, outside⟩ := legal isNul
    split
    · exact turn_nextString free outside
    · split
      · exact turn_emitScalar (.inr (.inl rfl)) free outside
      · split
        · exact turn_emitScalar (.inr (.inr rfl)) free outside
        · exact turn_noToken c

theorem turn_perform {c : UInt8} (nul : c = nul → t.window.StaysNul) :
    Turn t (t.perform c (Move.of t.context t.needComma c)) := by
  have legal := Move.isLegal_of t.context t.needComma c
  cases move : Move.of t.context t.needComma c with
  | openObject => rw [move] at legal; exact .opens .object legal.1 rfl rfl
  | closeObject => rw [move] at legal; exact .closes .object legal.1 rfl rfl
  | openArray => rw [move] at legal; exact .opens .array legal.1 rfl rfl
  | closeArray => rw [move] at legal; exact .closes .array legal.1 rfl rfl
  | key => rw [move] at legal; exact turn_nextKey legal.1 legal.2.1
  | value => rw [move] at legal; exact turn_nextScalar nul legal
  | refuse fault => exact .stays rfl rfl

/-- A call of a tokenizer that has not stopped takes a turn from the front of a token. -/
theorem turn_next (steady : t.window.supply.IsSteady) :
    t.latched.isOk = false ∧ t.next = (.error, t) ∨
      t.latched.isOk = true ∧ Turn t.facing t.next := by
  cases move : t.move? with
  | some move' =>
      obtain ⟨ok, rfl⟩ := of_move? move
      refine .inr ⟨ok, ?_⟩
      rw [next_of_move? move]
      apply turn_perform (t := t.facing)
      intro isNul
      obtain ⟨u, reached, seen⟩ := Front.of_peek t.trailingComma t.context t.needComma t.window
      rw [show (Front.of t.trailingComma t.context t.needComma t.window).byte = 0 from isNul] at seen
      exact Window.staysNul_of_peek (reached.onward.steady steady) seen
  | none =>
      refine (next_of_no_move move).imp_right fun ⟨ok, fault, refused⟩ => ⟨ok, ?_⟩
      rw [refused]
      exact .stays rfl rfl

/-! ## The window behind a call -/

open Window (Onward)

theorem onward_refuseUnlessFailed (fault : Fault) (h : w.Onward t.window) :
    w.Onward (t.refuseUnlessFailed fault).2.window := by
  unfold refuseUnlessFailed
  split <;> exact h

theorem onward_emit (kind : Kind) (h : w.Onward t.window) : w.Onward (t.emit kind).2.window :=
  h.trans (.moved rfl rfl)

theorem onward_emitBracket (t : Tokenizer) (kind : Kind) (nesting : Nesting) (needComma : Bool) :
    t.window.Onward (t.emitBracket kind nesting needComma).2.window :=
  onward_emit kind (.moved rfl rfl)

theorem onward_emitScalar (kind : Kind) (h : w.Onward t.window) :
    w.Onward (t.emitScalar kind).2.window := by
  unfold emitScalar
  split
  · exact h
  · exact onward_emit kind h

theorem onward_noToken (c : UInt8) (h : w.Onward t.window) :
    w.Onward (t.noToken c).2.window := by
  unfold noToken
  split
  · split
    · exact h
    · split <;> exact h
  · exact onward_refuseUnlessFailed _ h

theorem onward_string (w : Window) : w.Onward w.string.2 :=
  Onward.trans (v := w.extend 1) (.moved rfl rfl) (Window.reaches_stringRest _).onward

theorem onward_string_nextKey (t : Tokenizer) :
    t.window.string.2.Onward t.nextKey.2.window := by
  unfold nextKey
  dsimp only
  split
  · have looked :=
      (Window.reaches_extendSpace t.window.string.2).onward.trans (.of_peek (i := 0) rfl)
    split
    · exact looked.trans (.moved rfl rfl)
    · exact onward_refuseUnlessFailed _ looked
  · exact onward_refuseUnlessFailed _ (.refl _)

theorem onward_nextKey (t : Tokenizer) : t.window.Onward t.nextKey.2.window :=
  (onward_string t.window).trans (onward_string_nextKey t)

theorem onward_string_nextString (t : Tokenizer) :
    t.window.string.2.Onward t.nextString.2.window := by
  unfold nextString
  dsimp only
  split
  · exact onward_emitScalar _ (.refl _)
  · split
    · exact .refl _
    · split
      · exact onward_emit _ (.refl _)
      · exact .refl _

theorem onward_nextString (t : Tokenizer) : t.window.Onward t.nextString.2.window :=
  (onward_string t.window).trans (onward_string_nextString t)

theorem onward_nextScalar (t : Tokenizer) (c : UInt8) :
    t.window.Onward (t.nextScalar c).2.window := by
  have number := (Window.reaches_number t.window).onward
  unfold nextScalar
  split
  · exact onward_nextString t
  · rcases found : t.window.number with ⟨isNumber, v⟩
    have literal := number.trans (Window.reaches_literal t.window.number.2).onward
    rw [found] at number literal
    rcases found' : v.literal with ⟨isLiteral, u⟩
    rw [found'] at literal
    simp only [found']
    split
    · exact onward_emitScalar (t := { t with window := v }) _ number
    · split
      · exact onward_emitScalar (t := { t with window := u }) _ literal
      · exact onward_noToken (t := { t with window := u }) c literal

theorem onward_perform (t : Tokenizer) (c : UInt8) (move : Move) :
    t.window.Onward (t.perform c move).2.window := by
  cases move with
  | openObject => exact onward_emitBracket t _ _ _
  | closeObject => exact onward_emitBracket t _ _ _
  | openArray => exact onward_emitBracket t _ _ _
  | closeArray => exact onward_emitBracket t _ _ _
  | key => exact onward_nextKey t
  | value => exact onward_nextScalar t c
  | refuse fault => exact .refl _

theorem onward_facing (t : Tokenizer) : t.window.Onward t.facing.window := by
  obtain ⟨u, reached, seen⟩ := Front.of_peek t.trailingComma t.context t.needComma t.window
  exact reached.onward.trans (.of_peek seen)

/-- A call changes the window by looks and by moves of the lexeme alone. -/
theorem onward_next (t : Tokenizer) : t.window.Onward t.next.2.window := by
  cases move : t.move? with
  | some move' =>
      rw [next_of_move? move]
      exact (onward_facing t).trans (onward_perform _ _ _)
  | none =>
      rcases next_of_no_move move with ⟨_, stopped⟩ | ⟨_, fault, refused⟩
      · rw [stopped]
        exact .refl _
      · rw [refused]
        exact onward_facing t

/-! ## Several calls -/

theorem collectCalls_eq (t : Tokenizer) (n : Nat) (steps : List Step) :
    t.collectCalls n steps = ((t.collectCalls n []).1 ++ steps, (t.collectCalls n []).2) := by
  induction n generalizing t steps with
  | zero => rfl
  | succ n ih =>
      unfold collectCalls
      dsimp only
      rw [ih, ih _ [_], List.append_assoc]
      rfl

/-- A call more is a call and the calls behind it. -/
theorem runCalls_succ (t : Tokenizer) (n : Nat) :
    t.runCalls (n + 1) =
      (⟨t.next.1, t.next.2.snapshot⟩ :: (t.next.2.runCalls n).1, (t.next.2.runCalls n).2) := by
  unfold runCalls
  rw [collectCalls]
  dsimp only
  rw [collectCalls_eq, List.reverse_append]
  rfl

/-- The events of the first calls. -/
def events (t : Tokenizer) (n : Nat) : List Event := (t.runCalls n).1.map Step.event

/-- The tokenizer behind the first calls. -/
def after (t : Tokenizer) (n : Nat) : Tokenizer := (t.runCalls n).2

end Tokenizer

end JsonEvents
