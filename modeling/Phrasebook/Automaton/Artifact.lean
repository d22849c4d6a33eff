import Phrasebook.Automaton.Basic
import Phrasebook.Json.Bytes
import Phrasebook.Json.Printer

/-!
# The text of an automaton

An automaton is written as JSON: an object with the `states` and the `start`, where a state has
its `arcs` and perhaps a `final_weight`, and an arc has `ilabel`, `olabel`, `weight` and `next`.
Labels that are not there and weights that are zero are left out. A weight that is not finite
has no numeral and is written `null`.

Reading allows a record also as the array of its fields in this order, passes over fields that
it does not know, and refuses a known field that occurs twice. At last the states that are named
have to be there.
-/

namespace Phrasebook

namespace Automaton

/-- A weight in JSON. -/
def weightJson (weight : Float32) : Json := .ofNumeral? (Numeral.ofSingle? weight)

namespace Arc

/-- The arc in JSON. -/
def toJson (arc : Arc) : Json :=
  .ofFields <|
    (arc.input.map fun word => ("ilabel", Json.ofString word)).toList ++
    (arc.output.map fun symbol => ("olabel", Json.ofString symbol.text)).toList ++
    (if arc.weight == 0 then [] else [("weight", weightJson arc.weight)]) ++
    [("next", .ofNat arc.target)]

end Arc

namespace State

/-- The state in JSON. -/
def toJson (s : State) : Json :=
  .ofFields <|
    ("arcs", Json.array (s.arcs.map Arc.toJson)) ::
    (s.finalWeight.map fun weight => ("final_weight", weightJson weight)).toList

end State

/-- The automaton in JSON. -/
def toJson (a : Automaton) : Json :=
  .ofFields [
    ("states", .array (a.states.toList.map State.toJson)),
    ("start", .ofNat a.start)]

/-- The text of an automaton. -/
def text (a : Automaton) : String := a.toJson.text

/-- The values that a JSON record gives to the fields called `names`. In an array they stand in
order and may end early; in an object they are found by name, and no known name may occur
twice. -/
def recordFields? (names : List String) : Json → Option (List (Option Json))
  | .array items =>
    -- Fields at the end may be missing, but none may be left over.
    if items.length ≤ names.length then
      some (items.map some ++ List.replicate (names.length - items.length) none)
    else none
  | .object fields => do
    if fields.any (·.1.isNone) then none
    else
      -- A field of another name is passed over.
      names.mapM fun name =>
        match fields.filter fun (n, _) => n = some name with
        | [] => some none
        | [(_, value)] => some (some value)
        | _ => none
  | _ => none

/-- A weight that has to be a number. -/
def weightOfJson? : Json → Option Float32
  | .number n => n.value?.map Number.toSingle
  | _ => none

/-- A text that has to be a string. -/
def textOfJson? : Json → Option String
  | .string text => text
  | _ => none

/-- A value that may be left out or `null`. -/
def optionalOfJson? {α : Type} (read : Json → Option α) : Option Json → Option (Option α)
  | none | some .null => some none
  | some value => (read value).map some

/-- The number of a state, in 32 bits. -/
def stateOfJson? : Json → Option Nat
  | .number n =>
    match n.value? with
    | some (.natural n) => if n < Nat.pow 2 32 then some n else none
    | _ => none
  | _ => none

/-- The items of an array. -/
def itemsOfJson? : Json → Option (List Json)
  | .array items => some items
  | _ => none

/-- The arc that is written in JSON. -/
def arcOfJson? (value : Json) : Option Arc := do
  match ← recordFields? ["ilabel", "olabel", "weight", "next"] value with
  | [input, output, weight, some target] =>
    return {
      input := ← optionalOfJson? textOfJson? input
      output := (← optionalOfJson? textOfJson? output).map Symbol.ofText
      weight := ← match weight with
        | none => some 0
        | some weight => weightOfJson? weight
      target := ← stateOfJson? target }
  | _ => none

/-- The state that is written in JSON. -/
def stateRecordOfJson? (value : Json) : Option State := do
  match ← recordFields? ["arcs", "final_weight"] value with
  | [some arcs, finalWeight] =>
    return {
      arcs := ← (← itemsOfJson? arcs).mapM arcOfJson?
      finalWeight := ← optionalOfJson? weightOfJson? finalWeight }
  | _ => none

/-- The automaton that is written in JSON. -/
def ofJson? (value : Json) : Option Automaton := do
  match ← recordFields? ["states", "start"] value with
  | [some states, some start] =>
    return {
      states := (← (← itemsOfJson? states).mapM stateRecordOfJson?).toArray
      start := ← stateOfJson? start }
  | _ => none

/-- The automaton that a JSON value holds, all of whose states have to be there. -/
def ofValue (value : Option Json) : Except Error Automaton :=
  match value.bind ofJson? with
  | none => .error (.artifact .unreadable)
  -- What is well formed as a text may still name states that are not there.
  | some a =>
    match a.fault? with
    | some fault => .error (.artifact fault)
    | none => .ok a

/-- The automaton that is written in a text. -/
def ofText (text : String) : Except Error Automaton := ofValue (Json.ofText? text)

/-- The automaton that is written in some bytes. -/
def ofBytes (bytes : ByteArray) : Except Error Automaton := ofValue (Json.ofBytes? bytes)

/-- The bytes of a text are read as the text is. -/
theorem ofBytes_toUTF8 (text : String) : ofBytes text.toUTF8 = ofText text := by
  rw [ofBytes, ofText, Json.ofBytes?_toUTF8]

end Automaton

end Phrasebook
