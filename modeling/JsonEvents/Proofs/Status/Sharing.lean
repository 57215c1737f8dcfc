import Mathlib.Data.List.GetD
import Mathlib.Data.List.Perm.Basic
import JsonEvents.Status.Sharing

/-!
# What status objects mean

A `Ledger` says what becomes of status objects without a store: each one holds
the value that it was created with or got from another object, and which text
it shares.  A store keeps to the ledger (`Store.Tracks`), with the count of
every block at the number of the handles that point at it.
-/

namespace JsonEvents

/-! ## The ledger -/

/-- The value of an object, and the number of the text that it shares with its copies. -/
structure Holding where
  value : Status
  share : Option Nat
  deriving DecidableEq

namespace Holding

def nothing : Holding := ⟨.ok, none⟩

/-- A new object; its text, if it has one, is the next one to be numbered. -/
def create (made : Nat) (value : Status) : Holding :=
  ⟨value, match value with
    | .failed _ _ (some _) => some made
    | _ => none⟩

/-- How many of the objects share a text. -/
def sharers (all : List Holding) (text : Nat) : Nat := all.countP (·.share == some text)

/-- A copy made among all objects shares the text, unless as many as can be do so already. -/
def copy (all : List Holding) (h : Holding) : Holding :=
  match h.share with
  | some text => if sharers all text = Store.countLimit then { h with share := none } else h
  | none => h

/-- The status that can be seen of an object: one that shares no text has lost its own. -/
def shown (h : Holding) : Status :=
  match h.value with
  | .ok => .ok
  | .failed category reason text =>
      .failed category reason (if h.share.isSome then text else none)

/-- So many copies, made one after the other. -/
def copies (others : List Holding) (h : Holding) (made : List Holding) : Nat → List Holding
  | 0 => made
  | n + 1 => copies others h (h.copy (others ++ made) :: made) n

end Holding

/-- The holdings of all objects, and how many texts there have been. -/
structure Ledger where
  slots : List Holding
  bag : List Holding
  made : Nat

namespace Ledger

def start (n : Nat) : Ledger := ⟨List.replicate n .nothing, [], 0⟩

def slot (l : Ledger) (i : Nat) : Holding := l.slots.getD i .nothing

/-- All objects. -/
def holdings (l : Ledger) : List Holding := l.slots ++ l.bag

def perform (l : Ledger) : Action → Ledger
  | .assignNew i value =>
      let new := Holding.create l.made value
      { l with slots := l.slots.set i new, made := l.made + if new.share.isSome then 1 else 0 }
  | .assignCopy i j =>
      if i = j then l
      else
        -- The object gives up what it holds before it takes its share of the other's text.
        let others := l.slots.set i .nothing ++ l.bag
        { l with slots := l.slots.set i ((l.slot j).copy others) }
  | .assignMove i j => { l with slots := (l.slots.set i (l.slot j)).set j (l.slot i) }
  | .renewCopy i j => { l with slots := l.slots.set i ((l.slot j).copy l.holdings) }
  | .renewMove i j => { l with slots := (l.slots.set j .nothing).set i (l.slot j) }
  | .fillBag i n => { l with bag := Holding.copies l.slots (l.slot i) l.bag n }
  | .emptyBag => { l with bag := [] }

variable {l : Ledger} {i j : Nat}

/-- What is moved to a new object leaves an object that is ok. -/
theorem slot_renewMove (apart : i ≠ j) (inside : i < l.slots.length)
    (inside' : j < l.slots.length) :
    (l.perform (.renewMove i j)).slot i = l.slot j ∧
      (l.perform (.renewMove i j)).slot j = .nothing := by
  simp [perform, slot, apart, inside, inside']

/-- What is moved to an object that exists trades places with what was there. -/
theorem slot_assignMove (inside : i < l.slots.length) (inside' : j < l.slots.length) :
    (l.perform (.assignMove i j)).slot i = l.slot j ∧
      (l.perform (.assignMove i j)).slot j = l.slot i := by
  by_cases same : i = j
  · subst same
    simp [perform, slot, inside]
  · simp [perform, slot, Ne.symm same, inside, inside']

end Ledger

/-- The slots that an action is about. -/
def Action.slots : Action → List Nat
  | .assignNew i _ | .fillBag i _ => [i]
  | .assignCopy i j | .assignMove i j | .renewCopy i j | .renewMove i j => [i, j]
  | .emptyBag => []

/-! ## Blocks -/

/-- An object with its entry in the ledger. -/
abbrev Tracked := Handle × Holding

/-- How many of the objects point at a block. -/
def pointers (objects : List Tracked) (address : Nat) : Nat :=
  (objects.map Prod.fst).count (.shared address)

theorem pointers_cons (object : Tracked) (objects : List Tracked) (address : Nat) :
    pointers (object :: objects) address =
      pointers objects address + if object.1 = .shared address then 1 else 0 := by
  simp [pointers, List.count_cons]

theorem pointers_pos {objects : List Tracked} {held : Holding} {address : Nat}
    (member : (Handle.shared address, held) ∈ objects) : 0 < pointers objects address :=
  List.count_pos_iff.mpr (List.mem_map_of_mem (f := Prod.fst) member)

namespace Block

/-- The block with another count, freed at zero. -/
def recount (b : Block) (count : Nat) : Option Block :=
  if count = 0 then none else some { b with count }

theorem recount_of_pos {b : Block} {count : Nat} (some : 0 < count) :
    b.recount count = Option.some { b with count } := if_neg (Nat.ne_of_gt some)

end Block

namespace Store

variable {s : Store} {address other : Nat} {b : Block} {x : Handle} {held : Holding}
  {object : Tracked} {objects objects' : List Tracked}

theorem lt_of_block? (here : s.block? address = some b) : address < s.length := by
  apply Nat.lt_of_not_le
  intro behind
  rw [block?, List.getElem?_eq_none behind] at here
  cases here

theorem block?_set_self (here : s.block? address = some b) (new : Option Block) :
    block? (s.set address new) address = new := by
  rw [block?, List.getElem?_set_self (lt_of_block? here)]
  rfl

theorem block?_set_other (apart : other ≠ address) (new : Option Block) :
    block? (s.set address new) other = s.block? other := by
  rw [block?, List.getElem?_set_ne apart.symm, block?]

theorem block?_append_self (s : Store) (new : Block) :
    (s ++ [some new]).block? s.length = some new := by
  simp [block?]

theorem block?_append_of_lt (inside : address < s.length) (new : Block) :
    (s ++ [some new]).block? address = s.block? address := by
  rw [block?, List.getElem?_append_left inside, block?]

theorem length_release (s : Store) (x : Handle) : (s.release x).length = s.length := by
  unfold release
  split
  · split
    · exact List.length_set
    · rfl
  · rfl

theorem length_copy (s : Store) (x : Handle) : (s.copy x).2.length = s.length := by
  unfold copy
  split
  · split
    · split
      · rfl
      · exact List.length_set
    · rfl
  · rfl

/-- A handle stands for what the ledger says of its object. -/
inductive Shows (s : Store) : Handle → Holding → Prop
  | ok : Shows s .ok .nothing
  | plain (category : Category) (reason : Reason) (text : Option Bytes) :
      Shows s (.plain category reason) ⟨.failed category reason text, none⟩
  | shared {address : Nat} {b : Block} (here : s.block? address = some b) :
      Shows s (.shared address) ⟨.failed b.category b.reason (some b.text), some address⟩

namespace Shows

theorem view_eq (h : s.Shows x held) : s.view x = held.shown := by
  cases h with
  | ok => rfl
  | plain => rfl
  | shared here => rw [view, here]; rfl

/-- A new block changes nothing for the others. -/
theorem append (h : s.Shows x held) (new : Block) : Shows (s ++ [some new]) x held := by
  cases h with
  | ok => exact .ok
  | plain category reason text => exact .plain category reason text
  | shared here => exact .shared ((block?_append_of_lt (lt_of_block? here) new).trans here)

theorem share_iff (h : s.Shows x held) (address : Nat) :
    x = .shared address ↔ held.share = some address := by
  cases h with
  | ok => exact ⟨nofun, nofun⟩
  | plain => exact ⟨nofun, nofun⟩
  | shared => exact ⟨fun same => by cases same; rfl, fun same => by cases same; rfl⟩

end Shows

/-- Every object stands for what the ledger says, and every block counts the handles at it. -/
structure Tracks (s : Store) (objects : List Tracked) : Prop where
  shows : ∀ object ∈ objects, s.Shows object.1 object.2
  count : ∀ {address : Nat} {b : Block}, s.block? address = some b →
    b.count = pointers objects address
  bounds : ∀ {address : Nat} {b : Block}, s.block? address = some b →
    1 ≤ b.count ∧ b.count ≤ countLimit

namespace Tracks

theorem perm (h : s.Tracks objects) (same : objects.Perm objects') : s.Tracks objects' where
  shows := fun object member => h.shows object (same.mem_iff.mpr member)
  count := fun here => (h.count here).trans ((same.map Prod.fst).count_eq _)
  bounds := h.bounds

/-- No handle points behind the last block. -/
theorem pointers_length (h : s.Tracks objects) : pointers objects s.length = 0 := by
  apply List.count_eq_zero.mpr
  intro member
  obtain ⟨⟨x, held⟩, member, rfl⟩ := List.mem_map.mp member
  cases h.shows _ member with
  | shared here => exact absurd (lt_of_block? here) (Nat.lt_irrefl _)

/-- The ledger tells how many handles point at a block. -/
theorem sharers_eq (h : s.Tracks objects) (address : Nat) :
    Holding.sharers (objects.map Prod.snd) address = pointers objects address := by
  rw [Holding.sharers, pointers, List.count, List.countP_map, List.countP_map]
  apply List.countP_congr
  intro object member
  simp only [Function.comp_apply, beq_iff_eq]
  exact ((h.shows object member).share_iff address).symm

/-- An object without a block changes nothing for the others. -/
theorem cons_of_plain (plain : ∀ address, x ≠ .shared address) :
    s.Tracks ((x, held) :: objects) ↔ s.Shows x held ∧ s.Tracks objects := by
  have same (address : Nat) :
      pointers ((x, held) :: objects) address = pointers objects address := by
    rw [pointers_cons, if_neg (plain address), Nat.add_zero]
  constructor
  · intro h
    refine ⟨h.shows _ List.mem_cons_self, ?_, ?_, h.bounds⟩
    · exact fun object member => h.shows object (List.mem_cons_of_mem _ member)
    · exact fun here => (h.count here).trans (same _)
  · rintro ⟨shows, h⟩
    refine ⟨?_, ?_, h.bounds⟩
    · exact List.forall_mem_cons.mpr ⟨shows, h.shows⟩
    · exact fun here => (h.count here).trans (same _).symm

/-- One block gets the count of the handles at it, and all others have theirs. -/
theorem of_recount (here : s.block? address = some b)
    (shows : ∀ object ∈ objects, s.Shows object.1 object.2)
    (others : ∀ {other : Nat} {c : Block}, other ≠ address → s.block? other = some c →
      c.count = pointers objects other ∧ 1 ≤ c.count ∧ c.count ≤ countLimit)
    (most : pointers objects address ≤ countLimit) :
    Tracks (s.set address (b.recount (pointers objects address))) objects := by
  have counts : ∀ {other : Nat} {c : Block},
      block? (s.set address (b.recount (pointers objects address))) other = some c →
      c.count = pointers objects other ∧ 1 ≤ c.count ∧ c.count ≤ countLimit := by
    intro other c found
    by_cases same : other = address
    · subst same
      rw [block?_set_self here, Block.recount] at found
      split at found
      · cases found
      · next some =>
          obtain rfl := Option.some.inj found
          exact ⟨rfl, Nat.pos_of_ne_zero some, most⟩
    · rw [block?_set_other same] at found
      exact others same found
  refine ⟨?_, fun found => (counts found).1, fun found => (counts found).2⟩
  rintro ⟨x, held⟩ member
  cases shows _ member with
  | ok => exact .ok
  | plain category reason text => exact .plain category reason text
  | @shared other c found =>
      by_cases same : other = address
      · subst same
        obtain rfl := Option.some.inj (here.symm.trans found)
        have there := (block?_set_self here (b.recount (pointers objects other))).trans
          (Block.recount_of_pos (pointers_pos member))
        have shown := Shows.shared there
        exact shown
      · exact .shared ((block?_set_other same _).trans found)

/-! ## Objects come and go -/

theorem create (h : s.Tracks objects) (value : Status) :
    (s.create value).2.Tracks (((s.create value).1, Holding.create s.length value) :: objects) := by
  match value with
  | .ok => exact (cons_of_plain (x := .ok) nofun).mpr ⟨.ok, h⟩
  | .failed category reason none =>
      exact (cons_of_plain (x := .plain category reason) nofun).mpr
        ⟨.plain category reason none, h⟩
  | .failed category reason (some text) =>
      have counts : ∀ {address : Nat} {b : Block},
          (s.create (.failed category reason (some text))).2.block? address = some b →
          b.count = pointers ((.shared s.length,
            .create s.length (.failed category reason (some text))) :: objects) address ∧
            1 ≤ b.count ∧ b.count ≤ countLimit := by
        intro address b found
        rw [pointers_cons]
        rcases Nat.lt_trichotomy address s.length with inside | rfl | behind
        · have found := (block?_append_of_lt inside _).symm.trans found
          have apart : Handle.shared s.length ≠ .shared address :=
            fun same => Nat.ne_of_gt inside (Handle.shared.inj same)
          rw [if_neg apart]
          exact ⟨h.count found, h.bounds found⟩
        · obtain rfl := Option.some.inj ((block?_append_self s _).symm.trans found)
          rw [h.pointers_length, if_pos rfl]
          exact ⟨rfl, Nat.le_refl _, (by decide : 1 ≤ countLimit)⟩
        · have bound := lt_of_block? found
          simp only [Store.create, List.length_append, List.length_singleton] at bound
          omega
      refine ⟨?_, fun found => (counts found).1, fun found => (counts found).2⟩
      rintro ⟨x, held⟩ member
      rcases List.mem_cons.mp member with same | member
      · obtain ⟨rfl, rfl⟩ := Prod.mk.inj same
        exact .shared (block?_append_self s _)
      · exact (h.shows _ member).append _

theorem copy (h : s.Tracks objects) (member : object ∈ objects) :
    (s.copy object.1).2.Tracks
      (((s.copy object.1).1, object.2.copy (objects.map Prod.snd)) :: objects) := by
  obtain ⟨x, held⟩ := object
  cases h.shows _ member with
  | ok => exact (cons_of_plain (x := .ok) nofun).mpr ⟨.ok, h⟩
  | plain category reason text =>
      exact (cons_of_plain (x := .plain category reason) nofun).mpr
        ⟨.plain category reason text, h⟩
  | @shared address b here =>
      have count := h.count here
      simp only [Holding.copy, Store.copy, here, h.sharers_eq, ← count]
      by_cases full : b.count = countLimit
      · rw [if_pos full, if_pos full]
        exact (cons_of_plain (x := .plain b.category b.reason) nofun).mpr
          ⟨.plain b.category b.reason (some b.text), h⟩
      · rw [if_neg full, if_neg full]
        let object : Tracked :=
          (.shared address, ⟨.failed b.category b.reason (some b.text), some address⟩)
        have shows : ∀ x ∈ object :: objects, s.Shows x.1 x.2 :=
          List.forall_mem_cons.mpr ⟨h.shows _ member, h.shows⟩
        have bounds := h.bounds here
        have more := pointers_cons object objects address
        rw [if_pos rfl, ← count] at more
        have tracks := of_recount here shows ?_ (by rw [more]; omega)
        · rw [more, Block.recount_of_pos (Nat.succ_pos _)] at tracks
          exact tracks
        · intro other c apart found
          rw [pointers_cons, if_neg fun same => apart (Handle.shared.inj same).symm]
          exact ⟨h.count found, h.bounds found⟩

theorem release (h : s.Tracks (object :: objects)) : (s.release object.1).Tracks objects := by
  obtain ⟨x, held⟩ := object
  have others : ∀ object ∈ objects, s.Shows object.1 object.2 :=
    fun object member => h.shows object (List.mem_cons_of_mem _ member)
  cases h.shows _ List.mem_cons_self with
  | ok => exact ((cons_of_plain (x := .ok) nofun).mp h).2
  | plain category reason => exact ((cons_of_plain (x := .plain category reason) nofun).mp h).2
  | @shared address b here =>
      have count := h.count here
      have bounds := h.bounds here
      rw [pointers_cons, if_pos rfl] at count
      have tracks := of_recount here others ?_ (by omega)
      · have same : b.recount (pointers objects address) =
            if b.count ≤ 1 then none else some { b with count := b.count - 1 } := by
          rw [Block.recount, count, Nat.add_sub_cancel]
          by_cases last : pointers objects address = 0
          · rw [if_pos last, if_pos (by omega)]
          · rw [if_neg last, if_neg (by omega)]
        rw [same] at tracks
        simp only [Store.release, here]
        exact tracks
      · intro other c apart found
        have counted := h.count found
        rw [pointers_cons, if_neg fun same => apart (Handle.shared.inj same).symm] at counted
        exact ⟨counted, h.bounds found⟩

/-- Copies of one of the objects come one after the other. -/
theorem copies {others made : List Tracked} (h : s.Tracks (others ++ made))
    (member : object ∈ others) (n : Nat) :
    ∃ made', (s.copies object.1 (made.map Prod.fst) n).1 = made'.map Prod.fst ∧
      Holding.copies (others.map Prod.snd) object.2 (made.map Prod.snd) n = made'.map Prod.snd ∧
      (s.copies object.1 (made.map Prod.fst) n).2.length = s.length ∧
      (s.copies object.1 (made.map Prod.fst) n).2.Tracks (others ++ made') := by
  induction n generalizing s made with
  | zero => exact ⟨made, rfl, rfl, rfl, h⟩
  | succ n ih =>
      have next := (h.copy (List.mem_append_left made member)).perm List.perm_middle.symm
      obtain ⟨made', handles, holdings, length, tracks⟩ := ih next
      rw [List.map_append] at holdings
      exact ⟨made', handles, holdings, length.trans (length_copy s object.1), tracks⟩

/-- The objects of a bag go away one after the other. -/
theorem releaseAll {others bag : List Tracked} (h : s.Tracks (others ++ bag)) :
    ((bag.map Prod.fst).foldl Store.release s).Tracks others ∧
      ((bag.map Prod.fst).foldl Store.release s).length = s.length := by
  induction bag generalizing s with
  | nil => exact ⟨by rwa [List.append_nil] at h, rfl⟩
  | cons object bag ih =>
      obtain ⟨tracks, length⟩ := ih (h.perm List.perm_middle).release
      exact ⟨tracks, length.trans (length_release s object.1)⟩

end Tracks

end Store

/-! ## Slots -/

/-- An object that is ok, which is as good as none. -/
def Tracked.nothing : Tracked := (.ok, .nothing)

/-- The object in a slot. -/
def entry (slots : List Tracked) (i : Nat) : Tracked := slots.getD i .nothing

theorem getD_fst (slots : List Tracked) (i : Nat) :
    (slots.map Prod.fst).getD i .ok = (entry slots i).1 :=
  List.getD_map slots .nothing Prod.fst

theorem getD_snd (slots : List Tracked) (i : Nat) :
    (slots.map Prod.snd).getD i .nothing = (entry slots i).2 :=
  List.getD_map slots .nothing Prod.snd

variable {slots bag : List Tracked} {i j n : Nat} {object : Tracked} {s : Store}

theorem entry_eq (inside : i < slots.length) : entry slots i = slots[i] :=
  List.getD_eq_getElem _ _ inside

theorem entry_mem (inside : i < slots.length) : entry slots i ∈ slots := by
  rw [entry_eq inside]
  exact List.getElem_mem inside

/-- What is put into a slot trades places with what was there. -/
theorem perm_set (inside : i < slots.length) (object : Tracked) :
    (object :: (slots ++ bag)).Perm (entry slots i :: (slots.set i object ++ bag)) := by
  have trade := List.getD_set_perm_cons slots i object
  rw [List.getElem?_eq_getElem inside, Option.getD_some, ← entry_eq inside] at trade
  exact (trade.append_right bag).symm

namespace Store.Tracks

theorem cons_nothing : s.Tracks (.nothing :: slots) ↔ s.Tracks slots :=
  (cons_of_plain (x := .ok) nofun).trans (and_iff_right .ok)

/-- An object is put into a slot, and what was there goes away. -/
theorem exchange (h : s.Tracks (object :: (slots ++ bag))) (inside : i < slots.length) :
    (s.release (entry slots i).1).Tracks (slots.set i object ++ bag) :=
  (h.perm (perm_set inside object)).release

/-- What is in a slot is taken out of it. -/
theorem takeOut (h : s.Tracks (slots ++ bag)) (inside : i < slots.length) :
    s.Tracks (entry slots i :: (slots.set i .nothing ++ bag)) :=
  (cons_nothing.mpr h).perm (perm_set inside .nothing)

/-- An object is put into a slot that was emptied. -/
theorem putInto (h : s.Tracks (object :: (slots.set i .nothing ++ bag)))
    (inside : i < slots.length) : s.Tracks (slots.set i object ++ bag) := by
  have inside' : i < (slots.set i .nothing).length := by rwa [List.length_set]
  have there : entry (slots.set i .nothing) i = .nothing := by
    rw [entry_eq inside', List.getElem_set_self]
  have h := h.perm (perm_set inside' object)
  rw [there, List.set_set] at h
  exact cons_nothing.mp h

theorem swap (h : s.Tracks (slots ++ bag)) (inside : i < slots.length)
    (inside' : j < slots.length) :
    s.Tracks ((slots.set i (entry slots j)).set j (entry slots i) ++ bag) := by
  rw [entry_eq inside, entry_eq inside']
  exact h.perm ((List.set_set_perm inside inside').symm.append_right bag)

end Store.Tracks

/-! ## Actions -/

/-- The objects are those of the ledger, and the store keeps to it. -/
structure Objects.Matches (o : Objects) (l : Ledger) (slots bag : List Tracked) : Prop where
  handles : o.slots = slots.map Prod.fst
  copies : o.bag = bag.map Prod.fst
  holdings : l.slots = slots.map Prod.snd
  bagged : l.bag = bag.map Prod.snd
  made : l.made = o.store.length
  tracks : o.store.Tracks (slots ++ bag)

namespace Objects.Matches

variable {o : Objects} {l : Ledger}

theorem slot (h : o.Matches l slots bag) (i : Nat) : o.slot i = (entry slots i).1 := by
  rw [Objects.slot, h.handles, getD_fst]

theorem ledgerSlot (h : o.Matches l slots bag) (i : Nat) : l.slot i = (entry slots i).2 := by
  rw [Ledger.slot, h.holdings, getD_snd]

theorem setHandle (h : o.Matches l slots bag) (i : Nat) (object : Tracked) :
    o.slots.set i object.1 = (slots.set i object).map Prod.fst := by
  rw [h.handles, List.map_set]

theorem setHolding (h : o.Matches l slots bag) (i : Nat) (object : Tracked) :
    l.slots.set i object.2 = (slots.set i object).map Prod.snd := by
  rw [h.holdings, List.map_set]

theorem length_create (s : Store) (value : Status) :
    (s.create value).2.length =
      s.length + if (Holding.create s.length value).share.isSome then 1 else 0 := by
  match value with
  | .ok => rfl
  | .failed _ _ none => rfl
  | .failed _ _ (some _) => exact List.length_append

theorem holdings_eq (h : o.Matches l slots bag) :
    (slots ++ bag).map Prod.snd = l.holdings := by
  rw [List.map_append, Ledger.holdings, h.holdings, h.bagged]

theorem length_slots (h : o.Matches l slots bag) : l.slots.length = slots.length := by
  rw [h.holdings, List.length_map]

theorem handles_eq (h : o.Matches l slots bag) :
    (slots ++ bag).map Prod.fst = o.handles := by
  rw [List.map_append, Objects.handles, h.handles, h.copies]

/-- One slot gets another object. -/
theorem assign (h : o.Matches l slots bag) {s : Store} (same : s.length = o.store.length)
    (tracks : s.Tracks (slots.set i object ++ bag)) :
    Matches ⟨s, o.slots.set i object.1, o.bag⟩ { l with slots := l.slots.set i object.2 }
      (slots.set i object) bag where
  handles := h.setHandle i object
  copies := h.copies
  holdings := h.setHolding i object
  bagged := h.bagged
  made := h.made.trans same.symm
  tracks := tracks

theorem assignNew (h : o.Matches l slots bag) (inside : i < slots.length) (value : Status) :
    (o.perform (.assignNew i value)).Matches (l.perform (.assignNew i value))
      (slots.set i ((o.store.create value).1, .create o.store.length value)) bag where
  handles := h.setHandle i (_, _)
  copies := h.copies
  holdings := by
    have set := h.setHolding i ((o.store.create value).1, .create l.made value)
    rw [h.made] at set
    simp only [Ledger.perform, h.made]
    exact set
  bagged := h.bagged
  made := by
    simp only [Ledger.perform, perform, h.made, Store.length_release]
    exact (length_create o.store value).symm
  tracks := by
    have tracks := (h.tracks.create value).exchange inside
    rwa [← h.slot] at tracks

theorem assignCopy (h : o.Matches l slots bag) (apart : i ≠ j) (inside : i < slots.length)
    (inside' : j < slots.length) :
    ∃ object, (o.perform (.assignCopy i j)).Matches (l.perform (.assignCopy i j))
      (slots.set i object) bag := by
  have member : entry slots j ∈ slots.set i .nothing ++ bag := by
    apply List.mem_append_left
    have there := List.getElem_set_ne (a := Tracked.nothing) apart (by rwa [List.length_set])
    rw [entry_eq inside', ← there]
    exact List.getElem_mem _
  have tracks := ((h.tracks.takeOut inside).release.copy member).putInto inside
  have same := (Store.length_copy (o.store.release (entry slots i).1) (entry slots j).1).trans
    (Store.length_release o.store (entry slots i).1)
  have others : (slots.set i .nothing ++ bag).map Prod.snd = l.slots.set i .nothing ++ l.bag := by
    rw [List.map_append, List.map_set, h.holdings, h.bagged]
    rfl
  have matched := h.assign same tracks
  rw [others] at matched
  simp only [perform, Ledger.perform, if_neg apart, h.slot, h.ledgerSlot]
  exact ⟨_, matched⟩

theorem assignMove (h : o.Matches l slots bag) (inside : i < slots.length)
    (inside' : j < slots.length) :
    (o.perform (.assignMove i j)).Matches (l.perform (.assignMove i j))
      ((slots.set i (entry slots j)).set j (entry slots i)) bag where
  handles := by
    simp only [perform, h.slot, h.setHandle, List.map_set]
  copies := h.copies
  holdings := by
    simp only [Ledger.perform, h.ledgerSlot, h.setHolding, List.map_set]
  bagged := h.bagged
  made := h.made
  tracks := h.tracks.swap inside inside'

theorem renewCopy (h : o.Matches l slots bag) (inside : i < slots.length)
    (inside' : j < slots.length) :
    ∃ object, (o.perform (.renewCopy i j)).Matches (l.perform (.renewCopy i j))
      (slots.set i object) bag := by
  have member := List.mem_append_left bag (entry_mem inside')
  have tracks := (h.tracks.copy member).exchange inside
  have same := (Store.length_release _ (entry slots i).1).trans
    (Store.length_copy o.store (entry slots j).1)
  have matched := h.assign same tracks
  rw [h.holdings_eq] at matched
  simp only [perform, Ledger.perform, h.slot, h.ledgerSlot]
  exact ⟨_, matched⟩

theorem renewMove (h : o.Matches l slots bag) (inside : i < slots.length)
    (inside' : j < slots.length) :
    (o.perform (.renewMove i j)).Matches (l.perform (.renewMove i j))
      ((slots.set j .nothing).set i (entry slots j)) bag where
  handles := by
    simp only [perform, h.slot, h.handles, List.map_set]
    rfl
  copies := h.copies
  holdings := by
    simp only [Ledger.perform, h.ledgerSlot, h.holdings, List.map_set]
    rfl
  bagged := h.bagged
  made := h.made.trans (Store.length_release _ _).symm
  tracks := by
    have inside : i < (slots.set j .nothing).length := by rwa [List.length_set]
    have tracks := (h.tracks.takeOut inside').exchange inside
    have there : (o.slots.set j .ok).getD i .ok = (entry (slots.set j .nothing) i).1 := by
      rw [← getD_fst, List.map_set, h.handles]
      rfl
    rw [← there] at tracks
    exact tracks

theorem fillBag (h : o.Matches l slots bag) (inside : i < slots.length) (n : Nat) :
    ∃ bag', (o.perform (.fillBag i n)).Matches (l.perform (.fillBag i n)) slots bag' := by
  obtain ⟨made, handles, holdings, length, tracks⟩ := h.tracks.copies (entry_mem inside) n
  rw [← h.copies, ← h.slot] at handles length tracks
  rw [← h.holdings, ← h.bagged, ← h.ledgerSlot] at holdings
  exact ⟨made, h.handles, handles, h.holdings, holdings, h.made.trans length.symm, tracks⟩

theorem emptyBag (h : o.Matches l slots bag) :
    (o.perform .emptyBag).Matches (l.perform .emptyBag) slots [] := by
  obtain ⟨tracks, length⟩ := h.tracks.releaseAll
  rw [← h.copies] at tracks length
  refine ⟨h.handles, rfl, h.holdings, rfl, h.made.trans length.symm, ?_⟩
  rw [List.append_nil]
  exact tracks

/-- A store keeps to the ledger, whatever is done with its objects. -/
theorem perform (h : o.Matches l slots bag) {action : Action}
    (inside : ∀ i ∈ action.slots, i < slots.length) :
    ∃ slots' bag', slots'.length = slots.length ∧
      (o.perform action).Matches (l.perform action) slots' bag' := by
  cases action with
  | assignNew i value =>
      have inside := inside i (by simp [Action.slots])
      exact ⟨_, _, List.length_set, h.assignNew inside value⟩
  | assignCopy i j =>
      have inside' := inside j (by simp [Action.slots])
      have inside := inside i (by simp [Action.slots])
      by_cases same : i = j
      · refine ⟨slots, bag, rfl, ?_⟩
        simp only [Objects.perform, Ledger.perform, if_pos same]
        exact h
      · obtain ⟨object, matched⟩ := h.assignCopy same inside inside'
        exact ⟨_, _, List.length_set, matched⟩
  | assignMove i j =>
      have inside' := inside j (by simp [Action.slots])
      have inside := inside i (by simp [Action.slots])
      exact ⟨_, _, List.length_set.trans List.length_set, h.assignMove inside inside'⟩
  | renewCopy i j =>
      have inside' := inside j (by simp [Action.slots])
      have inside := inside i (by simp [Action.slots])
      obtain ⟨object, matched⟩ := h.renewCopy inside inside'
      exact ⟨_, _, List.length_set, matched⟩
  | renewMove i j =>
      have inside' := inside j (by simp [Action.slots])
      have inside := inside i (by simp [Action.slots])
      exact ⟨_, _, List.length_set.trans List.length_set, h.renewMove inside inside'⟩
  | fillBag i n =>
      have inside := inside i (by simp [Action.slots])
      obtain ⟨bag', matched⟩ := h.fillBag inside n
      exact ⟨_, _, rfl, matched⟩
  | emptyBag => exact ⟨_, _, rfl, h.emptyBag⟩

theorem run (h : o.Matches l slots bag) {actions : List Action}
    (inside : ∀ action ∈ actions, ∀ i ∈ action.slots, i < slots.length) :
    ∃ slots' bag', slots'.length = slots.length ∧
      (actions.foldl Objects.perform o).Matches (actions.foldl Ledger.perform l) slots' bag' := by
  induction actions generalizing o l slots bag with
  | nil => exact ⟨slots, bag, rfl, h⟩
  | cons action actions ih =>
      obtain ⟨here, later⟩ := List.forall_mem_cons.mp inside
      obtain ⟨slots', bag', same, matched⟩ := h.perform here
      rw [← same] at later ⊢
      exact ih matched later

theorem start (n : Nat) :
    (Objects.start n).Matches (Ledger.start n) (List.replicate n .nothing) [] where
  handles := (List.map_replicate (f := Prod.fst) (a := Tracked.nothing)).symm
  copies := rfl
  holdings := (List.map_replicate (f := Prod.snd) (a := Tracked.nothing)).symm
  bagged := rfl
  made := rfl
  tracks := by
    refine ⟨?_, nofun, nofun⟩
    intro object member
    rw [List.append_nil] at member
    rw [List.eq_of_mem_replicate member]
    exact .ok

theorem handles_iff (h : o.Matches l slots bag) (address : Nat) :
    (o.store.block? address).isSome ↔ .shared address ∈ o.handles := by
  rw [← h.handles_eq]
  constructor
  · intro some
    obtain ⟨b, here⟩ := Option.isSome_iff_exists.mp some
    apply List.count_pos_iff.mp
    have count := h.tracks.count here
    have bounds := h.tracks.bounds here
    rw [pointers] at count
    omega
  · intro member
    obtain ⟨⟨x, held⟩, member, rfl⟩ := List.mem_map.mp member
    cases h.tracks.shows _ member with
    | shared here => rw [here]; rfl

theorem view_eq (h : o.Matches l slots bag) {objects : List Tracked}
    (among : objects ⊆ slots ++ bag) :
    (objects.map Prod.fst).map o.store.view = (objects.map Prod.snd).map Holding.shown := by
  rw [List.map_map, List.map_map, List.map_inj_left]
  intro object member
  exact (h.tracks.shows object (among member)).view_eq

theorem status_eq (h : o.Matches l slots bag) (inside : i < slots.length) :
    o.status i = (l.slot i).shown := by
  rw [Objects.status, h.slot, h.ledgerSlot]
  exact (h.tracks.shows _ (List.mem_append_left bag (entry_mem inside))).view_eq

theorem status_renewMove (h : o.Matches l slots bag) (apart : i ≠ j) (inside : i < slots.length)
    (inside' : j < slots.length) :
    (o.perform (.renewMove i j)).status i = o.status j ∧
      (o.perform (.renewMove i j)).status j = .ok := by
  have moved := h.renewMove inside inside'
  have same : ((slots.set j .nothing).set i (entry slots j)).length = slots.length := by
    rw [List.length_set, List.length_set]
  rw [moved.status_eq (same ▸ inside), moved.status_eq (same ▸ inside'), h.status_eq inside']
  rw [← h.length_slots] at inside inside'
  obtain ⟨there, left⟩ := Ledger.slot_renewMove apart inside inside'
  exact ⟨congrArg Holding.shown there, congrArg Holding.shown left⟩

theorem status_assignMove (h : o.Matches l slots bag) (inside : i < slots.length)
    (inside' : j < slots.length) :
    (o.perform (.assignMove i j)).status i = o.status j ∧
      (o.perform (.assignMove i j)).status j = o.status i := by
  have moved := h.assignMove inside inside'
  have same : ((slots.set i (entry slots j)).set j (entry slots i)).length = slots.length := by
    rw [List.length_set, List.length_set]
  rw [moved.status_eq (same ▸ inside), moved.status_eq (same ▸ inside'), h.status_eq inside,
    h.status_eq inside']
  rw [← h.length_slots] at inside inside'
  obtain ⟨there, left⟩ := Ledger.slot_assignMove inside inside'
  exact ⟨congrArg Holding.shown there, congrArg Holding.shown left⟩

end Objects.Matches

/-- Status objects are values: each shows what it was made from, less a text that a full count
did not let it share, and a block lives as long as there are objects that point at it. -/
theorem Objects.perform_keeps_values (n : Nat) (actions : List Action)
    (inside : ∀ action ∈ actions, ∀ i ∈ action.slots, i < n) :
    let o := actions.foldl Objects.perform (.start n)
    let l := actions.foldl Ledger.perform (.start n)
    (∀ address b, o.store.block? address = some b →
      b.count = o.handles.count (.shared address) ∧ 1 ≤ b.count ∧ b.count ≤ 65535) ∧
    (∀ address, (o.store.block? address).isSome ↔ .shared address ∈ o.handles) ∧
    (∀ address, Holding.sharers l.holdings address = o.handles.count (.shared address)) ∧
    o.statuses = l.slots.map Holding.shown ∧
    o.bag.map o.store.view = l.bag.map Holding.shown ∧
    (∀ i < n, ∀ j < n, i ≠ j →
      (o.perform (.renewMove i j)).status i = o.status j ∧
      (o.perform (.renewMove i j)).status j = .ok) ∧
    (∀ i < n, ∀ j < n,
      (o.perform (.assignMove i j)).status i = o.status j ∧
      (o.perform (.assignMove i j)).status j = o.status i) := by
  intro o l
  have inside' : ∀ action ∈ actions, ∀ i ∈ action.slots,
      i < (List.replicate n Tracked.nothing).length := by
    rwa [List.length_replicate]
  obtain ⟨slots, bag, length, matched⟩ := (Objects.Matches.start n).run inside'
  rw [List.length_replicate] at length
  refine ⟨?counts, matched.handles_iff, ?sharers, ?slots, ?bag, ?renewed, ?assigned⟩
  case counts =>
    intro address b here
    rw [← matched.handles_eq]
    exact ⟨matched.tracks.count here, matched.tracks.bounds here⟩
  case sharers =>
    intro address
    rw [← matched.handles_eq, ← matched.holdings_eq]
    exact matched.tracks.sharers_eq address
  case slots =>
    rw [Objects.statuses, matched.handles, matched.holdings]
    exact matched.view_eq (List.subset_append_left slots bag)
  case bag =>
    rw [matched.copies, matched.bagged]
    exact matched.view_eq (List.subset_append_right slots bag)
  case renewed =>
    intro i inside j inside' apart
    exact matched.status_renewMove apart (length.symm ▸ inside) (length.symm ▸ inside')
  case assigned =>
    intro i inside j inside'
    exact matched.status_assignMove (length.symm ▸ inside) (length.symm ▸ inside')

/--
Four objects that come to share a message: copies, an assignment of an object to
itself, a bag of copies that is emptied again, and moves.
-/
theorem Objects.perform_keeps_values_of_shared :
    let actions : List Action :=
      [.assignNew 0 (.failed .corruption .badComma (some [97])), .assignCopy 1 0,
        .assignCopy 1 1, .assignCopy 1 0, .renewCopy 2 1, .fillBag 2 4, .assignMove 0 3,
        .renewMove 3 2, .emptyBag, .assignNew 3 .ok]
    let o := actions.foldl Objects.perform (.start 4)
    (∀ action ∈ actions, ∀ i ∈ action.slots, i < 4) ∧
    o.statuses = [.ok, .failed .corruption .badComma (some [97]), .ok, .ok] ∧
    (∀ address, (o.store.block? address).isSome ↔ .shared address ∈ o.handles) ∧
    ∀ address b, o.store.block? address = some b →
      b.count = o.handles.count (.shared address) ∧ 1 ≤ b.count ∧ b.count ≤ 65535 := by
  intro actions o
  have inside : ∀ action ∈ actions, ∀ i ∈ action.slots, i < 4 := by decide
  obtain ⟨counts, alive, -, statuses, -⟩ := Objects.perform_keeps_values 4 actions inside
  exact ⟨inside, statuses.trans (by decide), alive, counts⟩

end JsonEvents
