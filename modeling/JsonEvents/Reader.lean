import JsonEvents.Status.Basic

/-!
# Readers

A reader delivers bytes in pieces and ends with a status.  Its behaviour is
given by the pieces still to come, so what it will deliver is their
concatenation, whatever sizes are asked for.
-/

namespace JsonEvents

/-- What one read brings. -/
structure Delivery where
  data : Bytes
  status : Status

/--
Pieces in the order of delivery.  An empty piece is one read that succeeds
without bytes.  The final status comes after the last piece, or already with it.
-/
structure Reader where
  pieces : List Bytes
  most : Option Nat := none
  ending : Status := .endOfInput
  endsWithLast : Bool := false
  /-- Whether asking for no bytes succeeds even at the end. -/
  grantsNothing : Bool := false
  reads : Nat := 0

namespace Reader

/-- All bytes as one piece, if there are any. -/
def ofBytes (input : Bytes) : Reader := { pieces := if input.isEmpty then [] else [input] }

/-- A source that only ever fails. -/
def failing (ending : Status) : Reader := { pieces := [], ending }

/-- The bytes still to come. -/
def pending (r : Reader) : Bytes := r.pieces.flatten

/-- How much of the first piece a read of the given size may take. -/
def allowance (r : Reader) (size : Nat) : Nat :=
  match r.most with
  | none => size
  | some most => min size most

/-- The pieces that are left when the front of the first one was taken. -/
def leftover (piece : Bytes) (rest : List Bytes) (n : Nat) : List Bytes :=
  match piece.drop n with
  | [] => rest
  | left => left :: rest

def read (r : Reader) (size : Nat) : Delivery × Reader :=
  match r.pieces with
  | [] =>
      (⟨[], if r.grantsNothing && size == 0 then .ok else r.ending⟩,
        { r with reads := r.reads + 1 })
  | piece :: rest =>
      let n := r.allowance size
      let left := leftover piece rest n
      (⟨piece.take n, if r.endsWithLast && left.isEmpty then r.ending else .ok⟩,
        { r with pieces := left, reads := r.reads + 1 })

theorem flatten_leftover (piece : Bytes) (rest : List Bytes) (n : Nat) :
    (leftover piece rest n).flatten = piece.drop n ++ rest.flatten := by
  unfold leftover
  split
  · next h => simp [h]
  · simp

/-- A read moves bytes from the front of what is to come into its delivery. -/
theorem pending_read (r : Reader) (size : Nat) :
    (r.read size).1.data ++ (r.read size).2.pending = r.pending := by
  unfold read pending
  split
  · next h => simp [h]
  · next piece rest h => simp [h, flatten_leftover, ← List.append_assoc]

theorem length_pending_read (r : Reader) (size : Nat) :
    (r.read size).1.data.length + (r.read size).2.pending.length = r.pending.length := by
  rw [← List.length_append, pending_read]

theorem allowance_le (r : Reader) (size : Nat) : r.allowance size ≤ size := by
  unfold allowance
  split
  · exact Nat.le_refl _
  · exact Nat.min_le_left _ _

theorem length_data_read_le (r : Reader) (size : Nat) : (r.read size).1.data.length ≤ size := by
  have allowed := r.allowance_le size
  unfold read
  split
  · exact Nat.zero_le _
  · exact Nat.le_trans (List.length_take_le _ _) allowed

theorem reads_read (r : Reader) (size : Nat) : (r.read size).2.reads = r.reads + 1 := by
  unfold read
  split <;> rfl

theorem pending_ofBytes (input : Bytes) : (ofBytes input).pending = input := by
  cases input <;> simp [ofBytes, pending]

end Reader

end JsonEvents
