import JsonEvents.Digits

/-!
# Grammar events and nesting

A document is a sequence of events.  The nesting says which structures are open
at a point of it and what the innermost one expects next.
-/

namespace JsonEvents

inductive Kind
  | error
  | whitespace
  | literal
  | number
  | string
  | startObject
  | endObject
  | startArray
  | endArray
  deriving DecidableEq

namespace Kind

def name : Kind → String
  | .error => "Error"
  | .whitespace => "Whitespace"
  | .literal => "Literal"
  | .number => "Number"
  | .string => "String"
  | .startObject => "StartObject"
  | .endObject => "EndObject"
  | .startArray => "StartArray"
  | .endArray => "EndArray"

/-- The kinds in the order in which they are numbered. -/
def all : List Kind :=
  [.error, .whitespace, .literal, .number, .string, .startObject, .endObject, .startArray,
    .endArray]

end Kind

structure Event where
  kind : Kind
  data : Bytes
  deriving DecidableEq

namespace Event

/-- No event was to be had. -/
def error : Event := ⟨.error, []⟩

end Event

/-- What the innermost open structure expects: the document's value, a member's key or value, or elements. -/
inductive Context
  | value
  | objectKey
  | objectValue
  | array
  deriving DecidableEq

namespace Context

def name : Context → String
  | .value => "Value"
  | .objectKey => "ObjectKey"
  | .objectValue => "ObjectValue"
  | .array => "Array"

/-- The contexts in the order in which they are numbered. -/
def all : List Context := [.value, .objectKey, .objectValue, .array]

/-- The context once a value is complete: after a member's value comes a key. -/
def afterValue : Context → Context
  | .objectValue => .objectKey
  | other => other

theorem afterValue_ne (context : Context) : context.afterValue ≠ .objectValue := by
  cases context <;> decide

end Context

/-- The name of a numbered thing; a number that counts none of them is shown as it is. -/
def nameOfCode (names : List String) (code : Int) : Bytes :=
  match code with
  | .ofNat n =>
      match names[n]? with
      | some name => Bytes.ofString name
      | none => Bytes.ofString "Invalid(" ++ Digits.ofInt code ++ Bytes.ofString ")"
  | .negSucc _ => Bytes.ofString "Invalid(" ++ Digits.ofInt code ++ Bytes.ofString ")"

/-- The contexts of the open structures, the innermost one apart, and how many there are in all. -/
structure Nesting where
  top : Context
  outer : List Context
  depth : Nat
  depth_eq : depth = outer.length + 1
  deriving DecidableEq

namespace Nesting

/-- Nothing is open. -/
def bottom : Nesting := ⟨.value, [], 1, rfl⟩

def push (n : Nesting) (context : Context) : Nesting :=
  ⟨context, n.top :: n.outer, n.depth + 1, congrArg (· + 1) n.depth_eq⟩

def setTop (n : Nesting) (context : Context) : Nesting := { n with top := context }

/-- Close the innermost structure, which completes a value of the one around it. -/
def pop (n : Nesting) : Nesting :=
  match _h : n.outer with
  | [] => n
  | context :: outer =>
      ⟨context.afterValue, outer, n.depth - 1, by rw [n.depth_eq, _h]; rfl⟩

/-- The contexts from the innermost one on say everything. -/
def contexts (n : Nesting) : List Context := n.top :: n.outer

theorem eq_of_contexts {n m : Nesting} (h : n.contexts = m.contexts) : n = m := by
  obtain ⟨top, outer, depth, depth_eq⟩ := n
  obtain ⟨top', outer', depth', depth_eq'⟩ := m
  simp only [contexts, List.cons.injEq] at h
  obtain ⟨rfl, rfl⟩ := h
  subst depth_eq depth_eq'
  rfl

theorem depth_eq_length (n : Nesting) : n.depth = n.contexts.length := n.depth_eq

end Nesting

end JsonEvents
