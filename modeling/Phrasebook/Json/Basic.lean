import Phrasebook.Decimal.Numeral
import Phrasebook.Text.Table

/-!
# JSON values

A JSON value keeps its numbers as numerals and its objects as lists of fields, in the order in
which they are written and with repetitions. A string literal whose escapes contain half of a
surrogate pair names no text; it is kept as `none`, so that it can be passed over where nobody
asks for it.
-/

namespace Phrasebook

/-- A JSON value. -/
inductive Json
  | null
  | bool (value : Bool)
  | number (numeral : Numeral)
  | string (text : Option String)
  | array (items : List Json)
  | object (fields : List (Option String × Json))
  deriving Inhabited, Repr

namespace Json

/-- The string of a text. -/
def ofString (text : String) : Json := string (some text)

/-- The number of a natural number. -/
def ofNat (n : Nat) : Json := number (.ofNat n)

/-- The number of a numeral; `null` stands for what has none. -/
def ofNumeral? (n : Option Numeral) : Json := (n.map number).getD null

/-- The string of a text, or `null`. -/
def ofString? (text : Option String) : Json := (text.map ofString).getD null

/-- The object with some fields. -/
def ofFields (fields : List (String × Json)) : Json :=
  object (fields.map fun (name, value) => (some name, value))

/-- The array of the strings of some texts. -/
def ofStrings (texts : List String) : Json := array (texts.map ofString)

mutual

/-- How deep arrays and objects are nested. -/
def depth : Json → Nat
  | null | bool _ | number _ | string _ => 0
  | array items => depthOfItems items + 1
  | object fields => depthOfFields fields + 1

/-- The greatest depth of an item. -/
def depthOfItems : List Json → Nat
  | [] => 0
  | item :: items => max (depth item) (depthOfItems items)

/-- The greatest depth of a field's value. -/
def depthOfFields : List (Option String × Json) → Nat
  | [] => 0
  | (_, value) :: fields => max (depth value) (depthOfFields fields)

end

mutual

/-- The value with every number in its shortest form and the fields of every object in the
order of their names, each once, of which the last counts; `none` if a string names no text or
a number is out of range. -/
def normalize? : Json → Option Json
  | null => some null
  | bool b => some (bool b)
  | number n => do return ofNumeral? (← n.value?).numeral?
  | string none => none
  | string (some text) => some (ofString text)
  | array items => do return array (← normalizeItems? items)
  | object fields => do
    return ofFields (Table.ofList (← normalizeFields? fields)).entries

/-- The items in normal form. -/
def normalizeItems? : List Json → Option (List Json)
  | [] => some []
  | item :: items => do return (← normalize? item) :: (← normalizeItems? items)

/-- The fields with their values in normal form. -/
def normalizeFields? : List (Option String × Json) → Option (List (String × Json))
  | [] => some []
  | (name, value) :: fields => do
    return (← name, ← normalize? value) :: (← normalizeFields? fields)

end

end Json

end Phrasebook
