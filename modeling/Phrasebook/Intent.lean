import Phrasebook.Error
import Phrasebook.Text.Table

/-!
# Intents

The output of a run is decoded into an intent: its name, the words as they were matched and as
they are reported, and the entities with their spans. Decoding goes once over the symbols with
a stack of open scopes.

An entity whose marker gives a value reports that value in place of its words, and the entities
inside it then cover the value. Entities are listed in the order in which they were opened.
-/

namespace Phrasebook

/-- A named span of words. -/
structure Entity where
  /-- The entity's name. -/
  name : String
  /-- The reported words of the span. -/
  value : String
  /-- The matched words of the span. -/
  rawValue : String
  /-- The position of the first reported word. -/
  start : Nat
  /-- The position behind the last reported word. -/
  stop : Nat
  /-- The position of the first matched word. -/
  rawStart : Nat
  /-- The position behind the last matched word. -/
  rawStop : Nat
  deriving DecidableEq, Repr

/-- What a sentence means. -/
structure Intent where
  /-- The reported words, joined by spaces. -/
  text : String
  /-- The matched words, joined by spaces. -/
  rawText : String
  /-- The reported words. -/
  tokens : List String
  /-- The matched words. -/
  rawTokens : List String
  /-- The intent's name, if the sentence has an intent. -/
  name : Option String
  /-- How sure the recognition is, from 0 to 1. -/
  confidence : Float32
  /-- The entities in the order in which they were opened. -/
  entities : List Entity
  deriving Repr

namespace Intent

/-- No intent in some words. -/
def noMatch (tokens : List String) : Intent where
  text := Text.joinWords tokens
  rawText := Text.joinWords tokens
  tokens := tokens
  rawTokens := tokens
  name := none
  confidence := 0
  entities := []

/-- Whether there is no intent. -/
def isEmpty (intent : Intent) : Bool := intent.name.isNone

/-- The values of the entities by name; of two entities of one name the later counts. -/
def slots (intent : Intent) : Table String :=
  .ofList (intent.entities.map fun e => (e.name, e.value))

end Intent

namespace Decoder

/-- An open scope. -/
inductive Scope
  /-- The intent. -/
  | intent
  /-- An entity: its number, its name, its given value, and where its words begin. -/
  | entity (order : Nat) (slot : String) (value : Option String) (start rawStart : Nat)
  deriving DecidableEq, Repr

/-- What has been decoded of the symbols of a run. -/
structure State where
  /-- The reported words. -/
  tokens : Array String
  /-- The matched words. -/
  rawTokens : Array String
  /-- The intent's name, once it was opened. -/
  name : Option String
  /-- The open scopes, innermost first. -/
  scopes : List Scope
  /-- The closed entities with their numbers, last first. -/
  entities : List (Nat × Entity)
  /-- How many entities were opened. -/
  opened : Nat

namespace State

/-- Nothing has been decoded. -/
def initial : State := ⟨#[], #[], none, [], [], 0⟩

/-- An intent begins. -/
def openIntent (s : State) (name : String) : Except PathFault State :=
  if s.scopes.isEmpty ∧ s.name.isNone then .ok { s with name := some name, scopes := [.intent] }
  else .error (.intentInsideScope name)

/-- An intent ends. -/
def closeIntent (s : State) : Except PathFault State :=
  match s.scopes with
  | .intent :: scopes => .ok { s with scopes }
  | _ => .error .intentNotOpen

/-- An entity begins. -/
def openEntity (s : State) (slot : String) (value : Option String) : State :=
  { s with
    scopes := .entity s.opened slot value s.tokens.size s.rawTokens.size :: s.scopes
    opened := s.opened + 1 }

/-- The words from one position up to another. -/
def between (words : Array String) (start stop : Nat) : String :=
  Text.joinWords (words.extract start stop).toList

/-- An entity ends. A given value takes the place of the words inside it, and the entities
inside it then cover the value. -/
def closeEntity (s : State) : Except PathFault State :=
  match s.scopes with
  | .entity order slot value start rawStart :: scopes =>
    -- The matched words stay as they are.
    let tokens :=
      match value with
      | none => s.tokens
      | some value => s.tokens.extract 0 start ++ (Text.words value).toArray
    -- Entities that were opened later are inside this one.
    let entities :=
      match value with
      | none => s.entities
      | some _ =>
        s.entities.map fun (number, entity) =>
          if order < number then (number, { entity with start, stop := tokens.size })
          else (number, entity)
    let entity : Entity := {
      name := slot
      value := between tokens start tokens.size
      rawValue := between s.rawTokens rawStart s.rawTokens.size
      start
      stop := tokens.size
      rawStart
      rawStop := s.rawTokens.size }
    .ok { s with tokens, scopes, entities := (order, entity) :: entities }
  | _ => .error .entityNotOpen

/-- One more symbol is decoded. -/
def step (s : State) : Symbol → Except PathFault State
  | .word w => .ok { s with tokens := s.tokens.push w, rawTokens := s.rawTokens.push w }
  | .substitution raw value =>
    .ok { s with
      tokens := s.tokens ++ (Text.words value).toArray
      rawTokens := s.rawTokens ++ (Text.words raw).toArray }
  | .openIntent name => s.openIntent name
  | .closeIntent => s.closeIntent
  | .openEntity slot value => .ok (s.openEntity slot value)
  | .closeEntity => s.closeEntity

/-- The intent that has been decoded, unless a scope is open. -/
def finish (s : State) : Except PathFault Intent :=
  if s.scopes.isEmpty then
    .ok {
      text := Text.joinWords s.tokens.toList
      rawText := Text.joinWords s.rawTokens.toList
      tokens := s.tokens.toList
      rawTokens := s.rawTokens.toList
      name := s.name
      confidence := if s.name.isSome then 1 else 0
      -- Entities close from the inside out, but are listed as they were opened.
      entities := (s.entities.mergeSort fun a b => decide (a.1 ≤ b.1)).map Prod.snd }
  else .error (.leftOpen s.scopes.length)

end State

/-- The intent that some symbols decode to, or what is wrong with their markers. -/
def decode (symbols : List Symbol) : Except PathFault Intent := do
  (← symbols.foldlM State.step .initial).finish

end Decoder

/-- The intent that the output of a run decodes to. -/
def Intent.ofSymbols (symbols : List Symbol) : Except Error Intent :=
  (Decoder.decode symbols).mapError .malformedPath

end Phrasebook
