import Mathlib.Order.Bounds.Defs
import JsonEvents.Proofs.Tokenizer.Capacity
import JsonEvents.Proofs.Window.Requests

/-!
# Bounds of a window that a reader fills

Whatever a caller does with a window, the bytes held are in the room for them,
and the room grows by doubling, no further than the looks made so far account
for (`IsFilled.obeyAll`).  A look reads into free room only, and gives a lexeme
up by itself just where it can never fit (`IsFilled.spills_iff`).

This fails for one look, at the last byte that words count behind a lexeme that
begins the window.  The count of the bytes that it needs begins again at zero
there, so it gives nothing up, and may ask for no bytes (`IsFilled.isIdle`).
-/

namespace JsonEvents

namespace Window

variable {o : Options} {top : Nat} {str : Stream} {v w : Window} {i : UInt64}

/-! ## What commands keep -/

/-- Whether words count the place of each look of a command; a scan begins at the lexeme's end. -/
def InWords (w : Window) : Command → Prop
  | .peek i => w.Counts i.toNat
  | .scan _ => w.Counts 0
  | _ => True

/-- The same of commands that are obeyed one after the other. -/
def AllInWords (w : Window) : List Command → Prop
  | [] => True
  | command :: rest => w.InWords command ∧ (w.obey command).2.AllInWords rest

instance (w : Window) : (command : Command) → Decidable (w.InWords command)
  | .peek i => inferInstanceAs (Decidable (w.Counts i.toNat))
  | .scan _ => inferInstanceAs (Decidable (w.Counts 0))
  | .move _ | .moveTo _ | .rewind _ | .lexeme | .shift | .skip | .contents | .restore =>
      .isTrue trivial

instance decidableAllInWords (w : Window) :
    (commands : List Command) → Decidable (w.AllInWords commands)
  | [] => .isTrue trivial
  | command :: rest =>
      have := decidableAllInWords (w.obey command).2 rest
      inferInstanceAs (Decidable (_ ∧ _))

section Keeps

variable {I : Window → Prop}
  (moves : ∀ {w v : Window}, I w → v.bytes = w.bytes → v.supply = w.supply → v.reach = w.reach →
    I v)
  (looks : ∀ {w : Window} {i : Nat}, I w → w.Counts i → I (w.wordPeek i).2)
  (small : ∀ {w : Window}, I w → w.bytes.size + 1 < UInt64.size)

include moves looks small

/-- A scan goes on only over bytes that have arrived, so its counts stay as small as they are. -/
theorem keeps_scan (most : Nat) {w : Window} (taken : Nat) (h : I w) (counts : w.Counts 0) :
    I (w.scan most taken).2 := by
  induction most generalizing w taken with
  | zero => exact h
  | succ most ih =>
      have looked := looks h counts
      rw [scan]
      cases seen : w.wordPeek 0 with
      | mk c v =>
          rw [seen] at looked
          dsimp only at looked ⊢
          by_cases nul : c = 0
          · rw [if_pos nul]
            exact looked
          · have arrived : v.at? 0 = some c := by
              have found := wordPeek_arrived counts (by rw [seen]; exact nul)
              rwa [seen] at found
            have inside := Segment.at?_eq_some_lt arrived
            have held := small looked
            rw [if_neg nul, wrap_of_lt (by omega)]
            refine ih (taken + 1) (moves looked rfl rfl rfl) ?_
            simp only [Counts, setLen, Segment.setLen]
            omega

theorem keeps_obey {w : Window} {command : Command} (h : I w) (counts : w.InWords command) :
    I (w.obey command).2 := by
  cases allowed : w.allows command with
  | false =>
      rw [obey_of_not_allows allowed]
      exact h
  | true =>
      unfold obey
      rw [if_pos allowed]
      cases command with
      | peek i => exact looks h counts
      | scan most => exact keeps_scan moves looks small most.toNat 0 h counts
      | move | moveTo | rewind | shift | skip => exact moves h rfl rfl rfl
      | lexeme | contents | restore => exact h

theorem keeps_obeyAll {commands : List Command} {w : Window} (h : I w)
    (counts : w.AllInWords commands) : I (w.obeyAll commands).2 := by
  induction commands generalizing w with
  | nil => exact h
  | cons command rest ih => exact ih (keeps_obey moves looks small h counts.1) counts.2

end Keeps

/-! ## The room of a window -/

/--
A stream fills the window, in room that begins with the least size of the
options and is doubled only for bytes that were looked for.
-/
structure IsFilled (o : Options) (top : Nat) (w : Window) (str : Stream) : Prop where
  supply : w.supply = .stream str
  fills : str.Fills o.sanitize.minBufferSize top w.toSegment
  limit : str.limit = o.sanitize.maxBufferSize
  grown : str.capacity = o.sanitize.minBufferSize ∨ str.capacity < 4 * w.reach

theorem isFilled_ofReader (reader : Reader)
    (climbs : Stream.Climbs o.sanitize.maxBufferSize top o.sanitize.minBufferSize) :
    ∃ str, IsFilled o top (ofReader reader o) str := by
  refine ⟨_, rfl, ⟨Nat.zero_le _, ⟨0, ?_⟩, climbs⟩, rfl, .inl rfl⟩
  rw [pow_zero, Nat.mul_one]

namespace IsFilled

theorem size_lt (h : IsFilled o top w str) : w.bytes.size + 1 < UInt64.size := by
  have held := h.fills.held
  have room := h.fills.climbs.le
  have limit := h.limit
  have most := o.sanitize_max_bounds.2
  simp only [Options.largestBuffer] at most
  have words : UInt64.size = 18446744073709551616 := rfl
  omega

theorem moved (h : IsFilled o top w str) (bytes : v.bytes = w.bytes) (supply : v.supply = w.supply)
    (reach : v.reach = w.reach) : IsFilled o top v str where
  supply := supply.trans h.supply
  fills := ⟨by rw [bytes]; exact h.fills.held, h.fills.doubled, h.fills.climbs⟩
  limit := h.limit
  grown := by rw [reach]; exact h.grown

theorem wordPeek {i : Nat} (h : IsFilled o top w str) (counts : w.Counts i) :
    ∃ str', IsFilled o top (w.wordPeek i).2 str' := by
  cases here : w.at? i with
  | some c =>
      rw [wordPeek_of_arrived counts here]
      exact ⟨str, h.supply, ⟨h.fills.held, h.fills.doubled, h.fills.climbs⟩, h.limit,
        h.grown.imp_right fun less => by dsimp only; omega⟩
  | none =>
      have missed := last?_wrap counts here
      have fills := h.fills.tell (wrap (w.len + i + 1))
      have limit := Stream.limit_tell w.toSegment str (wrap (w.len + i + 1))
      have grown : (str.tell w.toSegment (wrap (w.len + i + 1))).2.2.2.capacity = str.capacity ∨
          (str.tell w.toSegment (wrap (w.len + i + 1))).2.2.2.capacity < 4 * (w.len + i + 1) := by
        rcases Nat.lt_or_ge (w.len + i + 1) UInt64.size with enough | beyond
        · rw [wrap_of_lt enough] at missed ⊢
          exact str.capacity_tell (Nat.succ_pos _) missed
        · -- No room is as large as what words cannot count.
          have room := fills.climbs.le
          have most := o.sanitize_max_bounds.2
          simp only [Options.largestBuffer] at most
          rw [limit, h.limit] at room
          have words : UInt64.size = 18446744073709551616 := rfl
          right
          omega
      rw [Stream.tell_snd] at fills limit grown
      rw [wordPeek_of_stream counts here h.supply]
      refine ⟨_, rfl, fills, limit.trans h.limit, ?_⟩
      dsimp only
      rcases grown with same | less
      · rw [same]
        exact h.grown.imp_right fun less => by omega
      · right
        omega

theorem obeyAll {commands : List Command} (h : IsFilled o top w str)
    (counts : w.AllInWords commands) : ∃ str', IsFilled o top (w.obeyAll commands).2 str' := by
  refine keeps_obeyAll (I := fun w => ∃ str, IsFilled o top w str) ?_ ?_ ?_ ⟨str, h⟩ counts
  · rintro w v ⟨str, filled⟩ bytes supply reach
    exact ⟨str, filled.moved bytes supply reach⟩
  · rintro w i ⟨str, filled⟩ counts
    exact filled.wordPeek counts
  · rintro w ⟨str, filled⟩
    exact filled.size_lt

end IsFilled

/-! ## The reads of a look -/

/-- A look that gives a lexeme up by itself, and not because a read told it to. -/
structure Spills (w : Window) (i : Nat) : Prop where
  before : w.given.isBufferExceeded = false
  behind : (w.wordPeek i).2.given.isBufferExceeded = true
  untold : ∀ request ∈ w.requests i, request.got.status.isBufferExceeded = false

namespace IsFilled

theorem sound {i : Nat} (h : IsFilled o top w str) (counts : w.Counts i)
    (enough : w.len + i + 1 < UInt64.size) : ∀ request ∈ w.requests i, request.IsSound top := by
  cases here : w.at? i with
  | some c =>
      rw [requests_of_arrived counts here]
      exact fun _ member => absurd member List.not_mem_nil
  | none =>
      rw [requests_of_stream counts here h.supply, wrap_of_lt enough]
      exact fun _ member => h.fills.sound (Nat.succ_pos _) ((w.last?_of_len i).trans here) member

theorem length_requests {i : Nat} (h : IsFilled o top w str) (counts : w.Counts i)
    (enough : w.len + i + 1 < UInt64.size) : (w.requests i).length ≤ w.len + i + 1 := by
  cases here : w.at? i with
  | some c =>
      rw [requests_of_arrived counts here]
      exact Nat.zero_le _
  | none =>
      have asked : 0 < w.len + i + 1 := Nat.succ_pos _
      have least := str.length_tell asked ((w.last?_of_len i).trans here)
      rw [requests_of_stream counts here h.supply, wrap_of_lt enough]
      omega

theorem given_eq (h : IsFilled o top w str) : w.given = str.status := by rw [Window.given, h.supply]

/-- A lexeme is given up only by a look that needs more bytes than can ever fit. -/
theorem lt_of_spills {i : Nat} (h : IsFilled o top w str) (counts : w.Counts i)
    (spills : w.Spills i) :
    str.status.isOk = true ∧ w.at? i = none ∧ top < wrap (w.len + i + 1) := by
  obtain ⟨before, behind, untold⟩ := spills
  rw [h.given_eq] at before
  cases here : w.at? i with
  | some c =>
      rw [wordPeek_of_arrived counts here] at behind
      have behind : w.given.isBufferExceeded = true := behind
      rw [h.given_eq, before] at behind
      cases behind
  | none =>
      have told := Stream.status_tell w.toSegment (wrap (w.len + i + 1)) h.fills.climbs
      rw [requests_of_stream counts here h.supply] at untold
      rw [wordPeek_of_stream counts here h.supply, ← Stream.tell_snd] at behind
      have behind :
          (str.tell w.toSegment (wrap (w.len + i + 1))).2.2.2.status.isBufferExceeded = true :=
        behind
      cases ok : str.status.isOk with
      | false =>
          rw [Stream.tell_snd, Stream.refill_of_failed _ ok, before] at behind
          cases behind
      | true =>
          rcases told with same | ⟨request, member, same⟩ | less
          · rw [same, before] at behind
            cases behind
          · rw [same, untold request member] at behind
            cases behind
          · exact ⟨rfl, rfl, less⟩

/-- A lexeme that can never fit is given up, with nothing else changed. -/
theorem wordPeek_of_lt {i : Nat} (h : IsFilled o top w str) (counts : w.Counts i)
    (ok : str.status.isOk = true) (here : w.at? i = none) (less : top < wrap (w.len + i + 1)) :
    w.requests i = [] ∧
      w.wordPeek i = (0, { w with supply := .stream { str with status := .bufferExceeded },
                                  reach := max w.reach (w.len + i + 1) }) := by
  have told := Stream.tell_of_lt w.toSegment h.fills.climbs ok less
  have result := str.tell_snd w.toSegment (wrap (w.len + i + 1))
  rw [told] at result
  constructor
  · rw [requests_of_stream counts here h.supply, told]
  · rw [wordPeek_of_stream counts here h.supply, ← result]

theorem spills_iff {i : Nat} (h : IsFilled o top w str) (counts : w.Counts i)
    (enough : w.len + i + 1 < UInt64.size) :
    w.Spills i ↔ str.status.isOk = true ∧ w.at? i = none ∧ top < w.len + i + 1 := by
  constructor
  · intro spills
    have spilled := h.lt_of_spills counts spills
    rwa [wrap_of_lt enough] at spilled
  · rintro ⟨ok, here, less⟩
    rw [← wrap_of_lt enough] at less
    obtain ⟨none, result⟩ := h.wordPeek_of_lt counts ok here less
    constructor
    · rw [h.given_eq, (Status.isOk_iff _).mp ok]
      rfl
    · rw [result]
      rfl
    · rw [none]
      exact fun _ member => absurd member List.not_mem_nil

end IsFilled

/-! ## The bounds -/

/-- The lexeme begins among the bytes held, which are in the room for them. -/
structure IsBounded (o : Options) (w : Window) (str : Stream) : Prop where
  supply : w.supply = .stream str
  lexeme : w.offset - w.base ≤ w.bytes.size
  held : w.bytes.size ≤ str.capacity
  doubled : ∃ k, str.capacity = o.sanitize.minBufferSize * 2 ^ k
  capacity_le : str.capacity ≤ o.sanitize.maxBufferSize
  grown : str.capacity = o.sanitize.minBufferSize ∨ str.capacity < 4 * w.reach

/--
What a look does with the reader of a window: its reads are into free room, and
no more than bytes are needed.  A lexeme is given up just where it can never
fit, and then nothing but the status changes.
-/
structure IsFrugal (top : Nat) (w : Window) (str : Stream) (i : UInt64) : Prop where
  sound : ∀ request ∈ w.requests i.toNat, request.IsSound top
  few : (w.requests i.toNat).length ≤ w.len + i.toNat + 1
  reads : (w.obey (.peek i)).2.reads = w.reads + (w.requests i.toNat).length
  spills : w.Spills i.toNat ↔
    str.status.isOk = true ∧ w.at? i.toNat = none ∧ top < w.len + i.toNat + 1
  unchanged : w.Spills i.toNat →
    w.requests i.toNat = [] ∧
      w.obey (.peek i) =
        (.byte 0, { w with supply := .stream { str with status := .bufferExceeded },
                           reach := max w.reach (w.len + i.toNat + 1) })

/--
What a look does whose count of needed bytes begins again at zero.  It shows NUL
and gives nothing up, but reads as long as nothing has failed; its reads are into
free room, of which there may be none.
-/
structure IsIdle (top : Nat) (w : Window) (str : Stream) (i : UInt64) : Prop where
  blank : (w.obey (.peek i)).1 = .byte 0
  keeps : ¬ w.Spills i.toNat
  within : ∀ request ∈ w.requests i.toNat, request.IsWithin top
  few : (w.requests i.toNat).length ≤ top + 1
  reads : (w.obey (.peek i)).2.reads = w.reads + (w.requests i.toNat).length
  tries : str.status.isOk = true → w.requests i.toNat ≠ []

namespace IsFilled

theorem isBounded (h : IsFilled o top w str) : IsBounded o w str where
  supply := h.supply
  lexeme := by
    have := w.start_le
    simp only [Segment.offset]
    omega
  held := h.fills.held
  doubled := h.fills.doubled
  capacity_le := h.limit ▸ Nat.le_trans h.fills.climbs.le.1 h.fills.climbs.le.2
  grown := h.grown

theorem isFrugal (h : IsFilled o top w str) (counts : w.Counts i.toNat)
    (enough : w.len + i.toNat + 1 < UInt64.size) : IsFrugal top w str i where
  sound := h.sound counts enough
  few := h.length_requests counts enough
  reads := reads_wordPeek w i.toNat
  spills := h.spills_iff counts enough
  unchanged := by
    intro spills
    obtain ⟨ok, here, less⟩ := h.lt_of_spills counts spills
    obtain ⟨none, result⟩ := h.wordPeek_of_lt counts ok here less
    rw [obey_peek, result]
    exact ⟨none, rfl⟩

theorem isIdle (h : IsFilled o top w str) (counts : w.Counts i.toNat)
    (beyond : UInt64.size ≤ w.len + i.toNat + 1) : IsIdle top w str i := by
  have zero := wrap_of_size_le counts beyond
  have here : w.at? i.toNat = none := by
    have held := h.size_lt
    exact Array.getElem?_eq_none (by omega)
  have requests := requests_of_stream counts here h.supply
  rw [zero] at requests
  constructor
  case blank =>
    rw [obey_peek, wordPeek_of_stream counts here h.supply, zero]
    exact congrArg Answer.byte (str.refill_zero w.toSegment)
  case keeps =>
    intro spills
    obtain ⟨_, _, less⟩ := h.lt_of_spills counts spills
    rw [zero] at less
    exact Nat.not_lt_zero _ less
  case within =>
    rw [requests]
    exact fun request member => (h.fills.within request member).1
  case few =>
    rw [requests]
    exact Nat.le_trans h.fills.length_tell_le (Nat.sub_le _ _)
  case reads => exact reads_wordPeek w i.toNat
  case tries =>
    intro ok
    rw [requests]
    exact Stream.tell_zero_ne_nil ok

end IsFilled

/--
Whatever a reader delivers, and whatever is done with its window by commands
whose places words can count, the window is bounded and its next look is frugal,
unless words cannot count the bytes that it needs.
-/
theorem isBounded_obeyAll (o : Options) :
    ∃ top, IsGreatest {n | ∃ k, n = o.sanitize.minBufferSize * 2 ^ k ∧
        n ≤ o.sanitize.maxBufferSize} top ∧
      o.sanitize.maxBufferSize ≤ 2 ^ 20 ∧
      ∀ (reader : Reader) (commands : List Command),
        (ofReader reader o).AllInWords commands →
          let w := ((ofReader reader o).obeyAll commands).2
          ∃ str, IsBounded o w str ∧
            ∀ i : UInt64, w.Counts i.toNat →
              (w.len + i.toNat + 1 < UInt64.size → IsFrugal top w str i) ∧
                (UInt64.size ≤ w.len + i.toNat + 1 → IsIdle top w str i) := by
  obtain ⟨top, climbs⟩ :=
    Stream.exists_climbs o.sanitize_min_pos (Options.sanitize_min_bounds o).2
  refine ⟨top, climbs.isGreatest, (Options.sanitize_max_bounds o).2, ?_⟩
  intro reader commands counts
  obtain ⟨_, fresh⟩ := isFilled_ofReader reader climbs
  obtain ⟨str, filled⟩ := fresh.obeyAll counts
  exact ⟨str, filled.isBounded, fun i counts => ⟨filled.isFrugal counts, filled.isIdle counts⟩⟩

/-- A lexeme of eight bytes in a window for nine: a look behind it finds that it does not fit. -/
theorem isBounded_full_window :
    let reader : Reader := { pieces := [Bytes.ofString "ab", [], Bytes.ofString "cdefghijk"] }
    let o : Options := { minBufferSize := 4, maxBufferSize := 9 }
    let commands : List Command := [.peek 1, .peek 2, .peek 7, .moveTo 8]
    let w := ((ofReader reader o).obeyAll commands).2
    (ofReader reader o).AllInWords commands ∧ w.Counts (0 : UInt64).toNat ∧
      w.len + (0 : UInt64).toNat + 1 < UInt64.size ∧ w.Spills 0 ∧
      ∃ top str, IsGreatest {n | ∃ k, n = o.sanitize.minBufferSize * 2 ^ k ∧
          n ≤ o.sanitize.maxBufferSize} top ∧
        IsBounded o w str ∧ IsFrugal top w str 0 := by
  intro reader o commands w
  have counts : (ofReader reader o).AllInWords commands := by decide +kernel
  have counts' : w.Counts (0 : UInt64).toNat := by decide +kernel
  have enough : w.len + (0 : UInt64).toNat + 1 < UInt64.size := by decide +kernel
  have spills : w.Spills 0 := ⟨by decide +kernel, by decide +kernel, by decide +kernel⟩
  obtain ⟨top, largest, _, all⟩ := isBounded_obeyAll o
  obtain ⟨str, bounded, looks⟩ := all reader commands counts
  exact ⟨counts, counts', enough, spills, top, str, largest, bounded, (looks 0 counts').1 enough⟩

/--
A look at the last byte that words count, in an empty window for four bytes.  It
can never fit, but is not given up, and the second of the reads made for it asks
for no bytes.
-/
theorem isIdle_last_byte :
    let reader : Reader := { pieces := [Bytes.ofString "abcdefgh"] }
    let o : Options := { minBufferSize := 4, maxBufferSize := 4 }
    let w := ofReader reader o
    w.Counts (-1 : UInt64).toNat ∧ w.given = .ok ∧ w.at? (-1 : UInt64).toNat = none ∧
      o.sanitize.maxBufferSize < w.len + (-1 : UInt64).toNat + 1 ∧
      ¬ w.Spills (-1 : UInt64).toNat ∧ (w.wordPeek (-1 : UInt64).toNat).2.given = .ok ∧
      (w.requests (-1 : UInt64).toNat).map Request.asked = [4, 0] := by
  intro reader o w
  have unlatched : (w.wordPeek (-1 : UInt64).toNat).2.given = .ok := by decide +kernel
  refine ⟨by decide +kernel, rfl, rfl, by decide +kernel, ?_, unlatched, by decide +kernel⟩
  rintro ⟨_, behind, _⟩
  rw [unlatched] at behind
  cases behind

end Window

end JsonEvents
