import JsonEvents.Event

/-!
# The grammar of JSON texts

`IsText v s` says that `s` is a JSON text of the value tree `v`: its tokens in
their order, with any white space around them.  Strings are kept as the bytes
that they are written with; a backslash may escape any byte but NUL.
-/

namespace JsonEvents.Grammar

open Ascii

/-! ## Tokens -/

def IsBlank (s : Bytes) : Prop := ∀ c ∈ s, isSpace c = true

instance (s : Bytes) : Decidable (IsBlank s) :=
  List.decidableBAll (fun c => isSpace c = true) s

def AreDigits (s : Bytes) : Prop := ∀ c ∈ s, isDigit c = true

instance (s : Bytes) : Decidable (AreDigits s) :=
  List.decidableBAll (fun c => isDigit c = true) s

inductive IsSign : Bytes → Prop
  | none : IsSign []
  | minus : IsSign [minus]

inductive IsInteger : Bytes → Prop
  | zero : IsInteger [zero]
  | digits {c : UInt8} {s : Bytes} (leading : one ≤ c ∧ c ≤ nine) (digits : AreDigits s) :
      IsInteger (c :: s)

inductive IsFraction : Bytes → Prop
  | none : IsFraction []
  | digits {c : UInt8} {s : Bytes} (digit : isDigit c = true) (digits : AreDigits s) :
      IsFraction (point :: c :: s)

inductive IsExponent : Bytes → Prop
  | none : IsExponent []
  | digits {e c : UInt8} {s : Bytes} (mark : isExponentMark e = true) (digit : isDigit c = true)
      (digits : AreDigits s) : IsExponent (e :: c :: s)
  | signed {e sign c : UInt8} {s : Bytes} (mark : isExponentMark e = true)
      (signed : isSign sign = true) (digit : isDigit c = true) (digits : AreDigits s) :
      IsExponent (e :: sign :: c :: s)

inductive IsNumber : Bytes → Prop
  | parts {m i f e : Bytes} (sign : IsSign m) (integer : IsInteger i) (fraction : IsFraction f)
      (exponent : IsExponent e) : IsNumber (m ++ (i ++ (f ++ e)))

def IsLiteral (s : Bytes) : Prop := s ∈ ["true", "false", "null"].map Bytes.ofString

instance (s : Bytes) : Decidable (IsLiteral s) :=
  inferInstanceAs (Decidable (s ∈ ["true", "false", "null"].map Bytes.ofString))

/-- What may stand between the quotes of a string. -/
inductive AreUnits : Bytes → Prop
  | none : AreUnits []
  | plain {c : UInt8} {s : Bytes} (some : c ≠ nul) (noQuote : c ≠ quote)
      (noBackslash : c ≠ backslash) (units : AreUnits s) : AreUnits (c :: s)
  | escaped {c : UInt8} {s : Bytes} (some : c ≠ nul) (units : AreUnits s) :
      AreUnits (backslash :: c :: s)

inductive IsString : Bytes → Prop
  | quoted {s : Bytes} (units : AreUnits s) : IsString (quote :: (s ++ [quote]))

/-- What may stand behind the opening quote where the input ends, maybe within an escape. -/
inductive AreOpenUnits : Bytes → Prop
  | none : AreOpenUnits []
  | backslash : AreOpenUnits [backslash]
  | plain {c : UInt8} {s : Bytes} (some : c ≠ nul) (noQuote : c ≠ quote)
      (noBackslash : c ≠ Ascii.backslash) (units : AreOpenUnits s) : AreOpenUnits (c :: s)
  | escaped {c : UInt8} {s : Bytes} (some : c ≠ nul) (units : AreOpenUnits s) :
      AreOpenUnits (Ascii.backslash :: c :: s)

/-- A string that its input ends in, without a closing quote. -/
inductive IsOpenString : Bytes → Prop
  | quoted {s : Bytes} (units : AreOpenUnits s) : IsOpenString (quote :: s)

/-! ## Values -/

inductive Value
  | literal (text : Bytes)
  | number (text : Bytes)
  | string (text : Bytes)
  | array (elements : List Value)
  | object (members : List (Bytes × Value))

/-- A value, or the elements or members of one. -/
inductive Phrase
  | value (v : Value)
  | elements (vs : List Value)
  | members (ms : List (Bytes × Value))

/-- `Writes p s` says that the phrase `p` is written as `s`, from its first token to its last. -/
inductive Writes : Phrase → Bytes → Prop
  | literal {s : Bytes} (literal : IsLiteral s) : Writes (.value (.literal s)) s
  | number {s : Bytes} (number : IsNumber s) : Writes (.value (.number s)) s
  | string {s : Bytes} (string : IsString s) : Writes (.value (.string s)) s
  | emptyArray {a : Bytes} (blank : IsBlank a) :
      Writes (.value (.array [])) (openBracket :: (a ++ [closeBracket]))
  | array {a b s : Bytes} {vs : List Value} (front : IsBlank a) (elements : Writes (.elements vs) s)
      (back : IsBlank b) :
      Writes (.value (.array vs)) (openBracket :: (a ++ (s ++ (b ++ [closeBracket]))))
  | emptyObject {a : Bytes} (blank : IsBlank a) :
      Writes (.value (.object [])) (openBrace :: (a ++ [closeBrace]))
  | object {a b s : Bytes} {ms : List (Bytes × Value)} (front : IsBlank a)
      (members : Writes (.members ms) s) (back : IsBlank b) :
      Writes (.value (.object ms)) (openBrace :: (a ++ (s ++ (b ++ [closeBrace]))))
  | element {s : Bytes} {v : Value} (value : Writes (.value v) s) : Writes (.elements [v]) s
  | elements {a b s t : Bytes} {v : Value} {vs : List Value} (value : Writes (.value v) s)
      (front : IsBlank a) (back : IsBlank b) (more : Writes (.elements vs) t) :
      Writes (.elements (v :: vs)) (s ++ (a ++ comma :: (b ++ t)))
  | member {a b k s : Bytes} {v : Value} (key : IsString k) (front : IsBlank a) (back : IsBlank b)
      (value : Writes (.value v) s) : Writes (.members [(k, v)]) (k ++ (a ++ colon :: (b ++ s)))
  | members {a b c d k s t : Bytes} {v : Value} {ms : List (Bytes × Value)} (key : IsString k)
      (front : IsBlank a) (back : IsBlank b) (value : Writes (.value v) s) (behind : IsBlank c)
      (before : IsBlank d) (more : Writes (.members ms) t) :
      Writes (.members ((k, v) :: ms))
        (k ++ (a ++ colon :: (b ++ (s ++ (c ++ comma :: (d ++ t))))))

/-- A JSON text: a value with white space around it. -/
def IsText (v : Value) (s : Bytes) : Prop :=
  ∃ a x b, IsBlank a ∧ Writes (.value v) x ∧ IsBlank b ∧ s = a ++ (x ++ b)

/-! ## Events -/

mutual

/-- The events of a value in their order. -/
def Value.events : Value → List Event
  | .literal s => [⟨.literal, s⟩]
  | .number s => [⟨.number, s⟩]
  | .string s => [⟨.string, s⟩]
  | .array vs => ⟨.startArray, [openBracket]⟩ :: (elementEvents vs ++ [⟨.endArray, [closeBracket]⟩])
  | .object ms => ⟨.startObject, [openBrace]⟩ :: (memberEvents ms ++ [⟨.endObject, [closeBrace]⟩])

def elementEvents : List Value → List Event
  | [] => []
  | v :: vs => v.events ++ elementEvents vs

def memberEvents : List (Bytes × Value) → List Event
  | [] => []
  | (k, v) :: ms => ⟨.string, k⟩ :: (v.events ++ memberEvents ms)

end

mutual

/-- The events of a value, each with the context that it is met in. -/
def Value.turns (context : Context) : Value → List (Context × Event)
  | .literal s => [(context, ⟨.literal, s⟩)]
  | .number s => [(context, ⟨.number, s⟩)]
  | .string s => [(context, ⟨.string, s⟩)]
  | .array vs =>
      (context, ⟨.startArray, [openBracket]⟩) ::
        (elementTurns vs ++ [(.array, ⟨.endArray, [closeBracket]⟩)])
  | .object ms =>
      (context, ⟨.startObject, [openBrace]⟩) ::
        (memberTurns ms ++ [(.objectKey, ⟨.endObject, [closeBrace]⟩)])

def elementTurns : List Value → List (Context × Event)
  | [] => []
  | v :: vs => v.turns .array ++ elementTurns vs

def memberTurns : List (Bytes × Value) → List (Context × Event)
  | [] => []
  | (k, v) :: ms => (.objectKey, ⟨.string, k⟩) :: (v.turns .objectValue ++ memberTurns ms)

end

mutual

theorem Value.map_turns (context : Context) (v : Value) :
    (v.turns context).map Prod.snd = v.events := by
  cases v with
  | literal | number | string => rfl
  | array vs => simp [Value.turns, Value.events, map_elementTurns vs]
  | object ms => simp [Value.turns, Value.events, map_memberTurns ms]

theorem map_elementTurns (vs : List Value) :
    (elementTurns vs).map Prod.snd = elementEvents vs := by
  cases vs with
  | nil => rfl
  | cons v vs => simp [elementTurns, elementEvents, v.map_turns, map_elementTurns vs]

theorem map_memberTurns (ms : List (Bytes × Value)) :
    (memberTurns ms).map Prod.snd = memberEvents ms := by
  match ms with
  | [] => rfl
  | (k, v) :: ms => simp [memberTurns, memberEvents, v.map_turns, map_memberTurns ms]

end

/-- An object or an array is opened where a key should be. -/
def OpensAsKey (turn : Context × Event) : Prop :=
  turn.1 = .objectKey ∧ (turn.2.kind = .startObject ∨ turn.2.kind = .startArray)

instance (turn : Context × Event) : Decidable (OpensAsKey turn) :=
  inferInstanceAs (Decidable (_ ∧ _))

theorem not_opensAsKey_of_context {context : Context} (outside : context ≠ .objectKey)
    (event : Event) : ¬ OpensAsKey (context, event) :=
  fun opens => outside opens.1

mutual

/-- No value of a JSON text stands where a key should be. -/
theorem Value.not_opensAsKey {context : Context} (outside : context ≠ .objectKey) (v : Value) :
    ∀ turn ∈ v.turns context, ¬ OpensAsKey turn := by
  intro turn member
  cases v with
  | literal | number | string =>
      obtain rfl := List.mem_singleton.mp member
      exact not_opensAsKey_of_context outside _
  | array vs =>
      rw [Value.turns, List.mem_cons, List.mem_append, List.mem_singleton] at member
      rcases member with rfl | inside | rfl
      · exact not_opensAsKey_of_context outside _
      · exact not_opensAsKey_elements vs turn inside
      · exact not_opensAsKey_of_context (show Context.array ≠ .objectKey from nofun) _
  | object ms =>
      rw [Value.turns, List.mem_cons, List.mem_append, List.mem_singleton] at member
      rcases member with rfl | inside | rfl
      · exact not_opensAsKey_of_context outside _
      · exact not_opensAsKey_members ms turn inside
      · rintro ⟨_, isObject | isArray⟩
        · cases isObject
        · cases isArray

theorem not_opensAsKey_elements (vs : List Value) :
    ∀ turn ∈ elementTurns vs, ¬ OpensAsKey turn := by
  intro turn member
  cases vs with
  | nil => cases member
  | cons v vs =>
      have outside : Context.array ≠ .objectKey := nofun
      rw [elementTurns, List.mem_append] at member
      rcases member with first | rest
      · exact v.not_opensAsKey outside turn first
      · exact not_opensAsKey_elements vs turn rest

theorem not_opensAsKey_members (ms : List (Bytes × Value)) :
    ∀ turn ∈ memberTurns ms, ¬ OpensAsKey turn := by
  intro turn member
  match ms with
  | [] => cases member
  | (k, v) :: ms =>
      have outside : Context.objectValue ≠ .objectKey := nofun
      rw [memberTurns, List.mem_cons, List.mem_append] at member
      rcases member with rfl | first | rest
      · rintro ⟨_, isObject | isArray⟩
        · cases isObject
        · cases isArray
      · exact v.not_opensAsKey outside turn first
      · exact not_opensAsKey_members ms turn rest

end

end JsonEvents.Grammar
