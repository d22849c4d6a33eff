import Phrasebook.Json.Token

/-!
# Reading JSON

The tokens of a text are read from left to right with a stack of open arrays and objects.
`Json.ofText?` reads one value with nothing but blanks around it.
-/

namespace Phrasebook

namespace Json

namespace Parser

/-- An array or object that has been opened, with what it holds so far, last first. -/
inductive Frame
  /-- An array. -/
  | array (items : List Json)
  /-- An object between its fields. -/
  | object (fields : List (Option String × Json))
  /-- An object whose field `name` waits for its value. -/
  | field (fields : List (Option String × Json)) (name : Option String)

/-- What may come next. -/
inductive Expectation
  /-- A value. -/
  | value
  /-- The first item of an array, or its end. -/
  | itemOrEnd
  /-- The name of a field. -/
  | name
  /-- The name of the first field of an object, or the object's end. -/
  | nameOrEnd
  /-- The colon behind a name. -/
  | colon
  /-- A comma, or the end of what is open. -/
  | commaOrEnd
  /-- Nothing: the value is complete. -/
  | nothing (value : Json)

/-- What has been read of a value. -/
structure State where
  /-- What is open, innermost first. -/
  frames : List Frame
  /-- What may come next. -/
  expects : Expectation

namespace State

/-- Nothing has been read. -/
def initial : State := ⟨[], .value⟩

/-- A value has been read. -/
def put? (v : Json) : List Frame → Option State
  | [] => some ⟨[], .nothing v⟩
  | .array items :: frames => some ⟨.array (v :: items) :: frames, .commaOrEnd⟩
  | .field fields name :: frames => some ⟨.object ((name, v) :: fields) :: frames, .commaOrEnd⟩
  | .object _ :: _ => none

/-- The beginning of a value is read. -/
def open? (frames : List Frame) : Token → Option State
  | .scalar v => put? v frames
  | .openArray => some ⟨.array [] :: frames, .itemOrEnd⟩
  | .openObject => some ⟨.object [] :: frames, .nameOrEnd⟩
  | _ => none

/-- The end of an array or object is read. -/
def close? : List Frame → Token → Option State
  | .array items :: frames, .closeArray => put? (Json.array items.reverse) frames
  | .object fields :: frames, .closeObject => put? (Json.object fields.reverse) frames
  | _, _ => none

/-- The name of a field is read. -/
def name? : List Frame → Token → Option State
  | .object fields :: frames, .scalar (.string name) =>
    some ⟨.field fields name :: frames, .colon⟩
  | _, _ => none

/-- A comma is read. -/
def comma? : List Frame → Option State
  | .array items :: frames => some ⟨.array items :: frames, .value⟩
  | .object fields :: frames => some ⟨.object fields :: frames, .name⟩
  | _ => none

/-- One more token is read. -/
def step? (s : State) (token : Token) : Option State :=
  match s.expects with
  | .value => open? s.frames token
  | .itemOrEnd =>
    -- An array may be closed here only before its first item, as no comma may come last.
    match token with
    | .closeArray => close? s.frames token
    | _ => open? s.frames token
  | .name => name? s.frames token
  | .nameOrEnd =>
    match token with
    | .closeObject => close? s.frames token
    | _ => name? s.frames token
  | .colon =>
    match token with
    | .colon => some ⟨s.frames, .value⟩
    | _ => none
  | .commaOrEnd =>
    match token with
    | .comma => comma? s.frames
    | _ => close? s.frames token
  | .nothing _ => none

/-- The value that has been read, if it is complete. -/
def result? (s : State) : Option Json :=
  match s.expects with
  | .nothing v => some v
  | _ => none

end State

/-- The value that some tokens make. -/
def ofTokens? (tokens : List Token) : Option Json := do
  (← tokens.foldlM State.step? .initial).result?

end Parser

/-- The value that is written in some characters. -/
def ofChars? (cs : List Char) : Option Json := do
  Parser.ofTokens? (← Token.scan cs)

/-- The value that is written in a text. -/
def ofText? (text : String) : Option Json := ofChars? text.toList

/-- How deep a value may be nested that is kept as a whole. -/
def maxDepth : Nat := 127

/-- The value that is written in a text, in normal form; `none` also if it is nested too
deep. -/
def normalized? (text : String) : Option Json := do
  let value ← ofText? text
  if value.depth ≤ maxDepth then value.normalize? else none

end Json

end Phrasebook
