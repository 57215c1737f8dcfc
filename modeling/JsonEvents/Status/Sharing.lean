import JsonEvents.Status.Basic

/-!
# Shared texts

Copies of a failure with a text share one block that counts them.  The count
has an upper limit; a copy that would pass it loses the text and keeps category
and reason.  A block is freed when its last holder lets go of it.
-/

namespace JsonEvents

structure Block where
  category : Category
  reason : Reason
  text : Bytes
  count : Nat

/-- What a status object holds: nothing, a failure without a text, or a shared block. -/
inductive Handle
  | ok
  | plain (category : Category) (reason : Reason)
  | shared (address : Nat)
  deriving DecidableEq

/-- The blocks by address; a freed one leaves a gap. -/
abbrev Store := List (Option Block)

namespace Store

/-- The largest count that a block can keep. -/
def countLimit : Nat := 65535

def block? (s : Store) (address : Nat) : Option Block := s[address]?.join

/-- The status that a handle stands for. -/
def view (s : Store) : Handle → Status
  | .ok => .ok
  | .plain category reason => .failed category reason none
  | .shared address =>
      match s.block? address with
      | some b => .failed b.category b.reason (some b.text)
      | none => .ok

/-- A new object with the given status; a text comes in a block of its own. -/
def create (s : Store) : Status → Handle × Store
  | .ok => (.ok, s)
  | .failed category reason none => (.plain category reason, s)
  | .failed category reason (some text) =>
      (.shared s.length, s ++ [some { category, reason, text, count := 1 }])

/-- A copy of an object. -/
def copy (s : Store) : Handle → Handle × Store
  | .shared address =>
      match s.block? address with
      | some b =>
          if b.count = countLimit then (.plain b.category b.reason, s)
          else (.shared address, s.set address (some { b with count := b.count + 1 }))
      | none => (.ok, s)
  | handle => (handle, s)

/-- An object goes away. -/
def release (s : Store) : Handle → Store
  | .shared address =>
      match s.block? address with
      | some b =>
          s.set address (if b.count ≤ 1 then none else some { b with count := b.count - 1 })
      | none => s
  | _ => s

/-- So many copies of an object. -/
def copies (s : Store) (handle : Handle) (made : List Handle) : Nat → List Handle × Store
  | 0 => (made, s)
  | n + 1 =>
      let (h, s) := s.copy handle
      s.copies handle (h :: made) n

end Store

/-- Status objects in numbered slots, with a bag of further copies. -/
structure Objects where
  store : Store
  slots : List Handle
  bag : List Handle

/-- What may be done with status objects. -/
inductive Action
  | assignNew (i : Nat) (status : Status)
  | assignCopy (i j : Nat)
  | assignMove (i j : Nat)
  | renewCopy (i j : Nat)
  | renewMove (i j : Nat)
  | fillBag (i n : Nat)
  | emptyBag

namespace Objects

/-- So many slots, all of them ok. -/
def start (n : Nat) : Objects := ⟨[], List.replicate n .ok, []⟩

def slot (o : Objects) (i : Nat) : Handle := o.slots.getD i .ok

/-- All objects. -/
def handles (o : Objects) : List Handle := o.slots ++ o.bag

def status (o : Objects) (i : Nat) : Status := o.store.view (o.slot i)

def statuses (o : Objects) : List Status := o.slots.map o.store.view

def perform (o : Objects) : Action → Objects
  | .assignNew i status =>
      -- The new object trades places with the old one, which then goes away.
      let (handle, store) := o.store.create status
      { o with store := store.release (o.slot i), slots := o.slots.set i handle }
  | .assignCopy i j =>
      if i = j then o
      else
        let (handle, store) := (o.store.release (o.slot i)).copy (o.slot j)
        { o with store, slots := o.slots.set i handle }
  | .assignMove i j =>
      { o with slots := (o.slots.set i (o.slot j)).set j (o.slot i) }
  | .renewCopy i j =>
      let (handle, store) := o.store.copy (o.slot j)
      { o with store := store.release (o.slot i), slots := o.slots.set i handle }
  | .renewMove i j =>
      let emptied := o.slots.set j .ok
      { o with
        store := o.store.release (emptied.getD i .ok)
        slots := emptied.set i (o.slot j) }
  | .fillBag i n =>
      let (bag, store) := o.store.copies (o.slot i) o.bag n
      { o with store, bag }
  | .emptyBag => { o with store := o.bag.foldl Store.release o.store, bag := [] }

end Objects

end JsonEvents
