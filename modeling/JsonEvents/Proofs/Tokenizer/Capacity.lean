import Mathlib.Algebra.Group.Nat.Defs
import Mathlib.Order.Bounds.Defs
import JsonEvents.Proofs.Tokenizer.Delivery
import JsonEvents.Proofs.Tokenizer.Looked

/-!
# What does not fit

A lexeme that does not fit makes a call over the whole input look beyond the
most bytes that there can be room for (`Follows.exceeds`), and those bytes are
of one token.  So it is never white space in front of a token that is too much.
-/

namespace JsonEvents

open Ascii

/-! ## Doubling -/

namespace Stream

variable {limit top capacity : Nat}

theorem exists_climbs {capacity : Nat} (some : 0 < capacity) (fits : capacity ≤ limit) :
    ∃ top, Climbs limit top capacity := by
  by_cases more : 2 * capacity ≤ limit
  · obtain ⟨top, rest⟩ := exists_climbs (Nat.mul_pos Nat.two_pos some) more
    exact ⟨top, .twice rest⟩
  · exact ⟨capacity, .there fits (Nat.lt_of_not_le more)⟩
termination_by limit - capacity

/-- Twice the top is over the limit. -/
theorem Climbs.lt (h : Climbs limit top capacity) : limit < 2 * top := by
  induction h with
  | there _ last => exact last
  | twice _ ih => exact ih

/-- The top is what the capacity comes to by doubling, as far as the limit allows it. -/
theorem Climbs.isGreatest (h : Climbs limit top capacity) :
    IsGreatest {n | ∃ k, n = capacity * 2 ^ k ∧ n ≤ limit} top := by
  induction h with
  | there fits last =>
      constructor
      · exact ⟨0, by rw [pow_zero, Nat.mul_one], fits⟩
      · rintro _ ⟨k, rfl, fits'⟩
        cases k with
        | zero => exact Nat.le_of_eq (by rw [pow_zero, Nat.mul_one])
        | succ k =>
            have least : 0 < 2 ^ k := Nat.two_pow_pos k
            have more := Nat.mul_le_mul_left (top * 2) least
            rw [pow_succ, Nat.mul_comm (2 ^ k), ← Nat.mul_assoc] at fits'
            omega
  | @twice capacity rest ih =>
      obtain ⟨⟨k, here, fits⟩, most⟩ := ih
      have shift (k : Nat) : 2 * capacity * 2 ^ k = capacity * 2 ^ (k + 1) := by
        rw [pow_succ, Nat.mul_comm 2, Nat.mul_assoc, Nat.mul_comm 2]
      constructor
      · exact ⟨k + 1, here.trans (shift k), fits⟩
      · rintro _ ⟨k, rfl, fits'⟩
        cases k with
        | zero =>
            have bounds := rest.le
            rw [pow_zero]
            omega
        | succ k =>
            apply most
            exact ⟨k, (shift k).symm, fits'⟩

end Stream

/-! ## Statuses of a run -/

theorem Log.isBufferExceeded_opened (o : Options) : (Log.opened o).1.isBufferExceeded = false := by
  unfold Log.opened
  split
  · rfl
  · split <;> rfl

namespace Tokenizer

open Window (Looked)

variable {input : Bytes} {ending : Status} {policy : TrailingComma} {t u : Tokenizer} {r : Reading}
  {size : Nat}

theorem Explains.isBufferExceeded {s : Status} {halt : Halt} (h : Explains s halt) :
    s.isBufferExceeded = false := by
  cases halt with
  | ended =>
      simp only [Explains, Status.isEndOfInput, Bool.and_eq_true, beq_iff_eq] at h
      rw [Status.isBufferExceeded, h.1]
      rfl
  | refused fault =>
      simp only [Explains, Status.isRefusal, Bool.and_eq_true, beq_iff_eq] at h
      rw [Status.isBufferExceeded, h.1]
      rfl

/--
The next call looks beyond so many bytes from the start of a lexeme, for the
first time in its run.  Those bytes are of the input and of one token, in front
of which there is nothing but white space and a comma.
-/
structure Exceeds (input : Bytes) (size : Nat) (t : Tokenizer) : Prop where
  before : t.window.reach ≤ size
  beyond : size < t.next.2.window.reach
  token : ∃ gap start, input.drop t.offset = gap ++ input.drop start ∧
    (∀ c ∈ gap, isSpace c ∨ c = comma) ∧ start + size ≤ input.length ∧
      Reading.Within t.context (input.drop start) size

/-- With the whole input in view nothing overflows. -/
theorem given_next (whole : t.window.given = .endOfInput) :
    t.next.2.window.given = .endOfInput ∧ ¬ t.next.2.window.Overflows := by
  have stays := ((onward_next t).given (by rw [whole]; rfl)).trans whole
  refine ⟨stays, ?_⟩
  intro spilled
  rw [Window.Overflows, stays] at spilled
  cases spilled

/-- A reading that looks far has a token to look at. -/
theorem Follows.exceeds_of_looks (h : Follows input ending policy t r) (some : 0 < size)
    (before : t.window.reach ≤ size) (beyond : size < t.next.2.window.reach)
    (looks : size < r.looks policy) : Exceeds input size t := by
  obtain ⟨q, leads, within⟩ := Reading.within_of_lt_looks some looks
  obtain ⟨gap, between, text, offset⟩ := leads.gap
  have place : t.offset = r.offset := h.offset
  have behind : input.drop q.offset = q.rest := by
    rw [offset, ← List.drop_drop, h.rest, text, List.drop_left]
  have inside := within.le
  rw [← behind, List.length_drop] at inside
  constructor
  · exact before
  · exact beyond
  · refine ⟨gap, q.offset, ?_, ?_, by omega, ?_⟩
    · rw [place, h.rest, text, behind]
    · intro c member
      cases between with
      | blank blank => exact .inl (blank c member)
      | comma front back =>
          rcases List.mem_append.mp member with front' | behind'
          · exact .inl (front c front')
          · rcases List.mem_cons.mp behind' with isComma | back'
            · exact .inr isComma
            · exact .inl (back c back')
    · rw [behind, context, h.nesting]
      exact within

/--
Of two tokenizers on one reading, the first with its input in pieces and the
second with the whole of it: where the first ends as a lexeme does not fit, the
second looked beyond the most bytes that the first could have had room for.
-/
theorem Follows.exceeds {t u : Tokenizer} {r : Reading} (h : Follows input ending policy t r)
    (ended : ending.isEndOfInput = true) (tops : t.window.supply.Tops size) (some : 0 < size)
    (h' : Follows input .endOfInput policy u r) (whole : u.window.given = .endOfInput)
    (before : u.window.reach ≤ size) (exceeded : t.final.status.isBufferExceeded = true) :
    ∃ calls, Exceeds input size (u.after calls) := by
  have stays := given_next whole
  have reach (uncut : r.cut = false) := (h'.looked_next uncut).reach stays.2
  have crosses (uncut : r.cut = false) (beyond : size < u.next.2.window.reach) :
      ∃ calls, Exceeds input size (u.after calls) := by
    have reach := reach uncut
    exact ⟨0, h'.exceeds_of_looks some before beyond (by omega)⟩
  rcases h.next_of_ended ended with ⟨_, _, spilled, _⟩ | agrees
  · -- What the first gave up on, the second looks at.
    cases cut : r.cut with
    | true =>
        have latched : t.latched.isOk = false := by rw [h.latched, cut]; rfl
        rw [Tokenizer.next, latched] at spilled
        exact absurd spilled h.fits
    | false =>
        have looks := (h.looked_next cut).spills h.fits spilled size tops
        have reach := reach cut
        exact crosses cut (by omega)
  · rcases h'.next_of_ended rfl with ⟨_, _, spilled, _⟩ | agrees'
    · exact absurd spilled stays.2
    · cases reply : r.next policy with
      | gives event r' =>
          have uncut := (Reading.next_eq_gives.mp reply).1
          by_cases beyond : size < u.next.2.window.reach
          · exact crosses uncut beyond
          · rw [reply] at agrees agrees'
            obtain ⟨_, final, less⟩ := agrees.marks_of_gives reply
            rw [final] at exceeded
            obtain ⟨calls, exceeds⟩ := agrees.2.exceeds ended ((onward_next t).tops tops) some
              agrees'.2 stays.1 (Nat.le_of_not_lt beyond) exceeded
            refine ⟨calls + 1, ?_⟩
            rwa [after, runCalls_succ]
      | halts halt place =>
          rw [reply] at agrees
          rw [agrees.marks_of_halts.2.explains.isBufferExceeded] at exceeded
          cases exceeded
termination_by t.window.remaining

/--
Doubling the least size of the window as far as the most allows it comes to
more than half of the most.  Whatever pieces a reader delivers, a run over them
ends as a lexeme does not fit only where some call over the whole input looks
beyond that many bytes of one token.
-/
theorem exists_capacity (o : Options) :
    ∃ size, IsGreatest {n | ∃ k, n = o.sanitize.minBufferSize * 2 ^ k ∧
        n ≤ o.sanitize.maxBufferSize} size ∧
      o.sanitize.maxBufferSize < 2 * size ∧
      ∀ reader : Reader, reader.IsSteady → reader.ending.isEndOfInput = true →
        (ofReader reader o).final.status.isBufferExceeded = true →
          size ≤ reader.pending.length ∧
            ∃ calls, Exceeds reader.pending size ((ofBytes reader.pending o).after calls) := by
  obtain ⟨size, climbs⟩ :=
    Stream.exists_climbs o.sanitize_min_pos (Options.sanitize_min_bounds o).2
  refine ⟨size, climbs.isGreatest, climbs.lt, fun reader steady ended exceeded => ?_⟩
  have some : 0 < size := Nat.lt_of_lt_of_le climbs.pos climbs.le.1
  by_cases opens : LogOpens o
  · obtain ⟨calls, exceeds⟩ := (follows_ofReader opens steady ended).exceeds ended climbs some
      (follows_ofBytes opens reader.pending) rfl (Nat.zero_le size) exceeded
    obtain ⟨_, _, _, _, inside, _⟩ := exceeds.token
    exact ⟨by omega, calls, exceeds⟩
  · have final := (stops_without_log opens (.ofReader reader o)).2
    have latched : (ofReader reader o).final.status = (Log.opened o.sanitize).1 := by
      rw [ofReader, final]
      exact if_neg opens
    rw [latched, Log.isBufferExceeded_opened] at exceeded
    cases exceeded

/-- A string of eleven bytes, where there is room for eight. -/
theorem exists_capacity_long_string :
    let reader : Reader :=
      { pieces := [Bytes.ofString "[  \"abcd", Bytes.ofString "efghi\"  ]"] }
    let o : Options := { minBufferSize := 4, maxBufferSize := 15 }
    ∃ size, IsGreatest {n | ∃ k, n = o.sanitize.minBufferSize * 2 ^ k ∧
        n ≤ o.sanitize.maxBufferSize} size ∧
      reader.IsSteady ∧ reader.ending.isEndOfInput = true ∧
      (ofReader reader o).final.status.isBufferExceeded = true ∧
      ∃ calls, Exceeds reader.pending size ((ofBytes reader.pending o).after calls) := by
  intro reader o
  have steady : reader.IsSteady := ⟨by decide, by decide⟩
  have exceeded : (ofReader reader o).final.status.isBufferExceeded = true := by decide +kernel
  obtain ⟨size, largest, _, exceeds⟩ := exists_capacity o
  exact ⟨size, largest, steady, rfl, exceeded, (exceeds reader steady rfl exceeded).2⟩

end Tokenizer

end JsonEvents
