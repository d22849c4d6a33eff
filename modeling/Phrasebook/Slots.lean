import Phrasebook.Section

/-!
# Slots

A slot is a list of values, each of them a template without references. The values of a slot
are the lines of a text; blank lines and lines that begin with `#` give no value.
-/

namespace Phrasebook

/-- The values of each slot. -/
abbrev Slots := Table (List Template)

namespace Slots

/-- The value that a line gives, if it gives one. -/
def valueOfLine (label : String) (number : Nat) (line : String) :
    Except Error (Option Template) := do
  let text := Text.trim line
  if text.isEmpty || text.toList.head? = some '#' then return none
  let value ← Template.ofLine label number text
  if value.mentions.isEmpty then return some value
  throw (.malformedLine label number .referenceInSlot)

/-- The values of some lines, the first of which has the given number. -/
def valuesOfLines (label : String) (number : Nat) : List String → Except Error (List Template)
  | [] => .ok []
  | line :: lines => do
    let value ← valueOfLine label number line
    return value.toList ++ (← valuesOfLines label (number + 1) lines)

/-- The slots with the values that the lines give to `name`, in the stead of any it had. -/
def define (slots : Slots) (name : String) (lines : List String) : Except Error Slots := do
  return slots.insert name (← valuesOfLines ("$" ++ name) 1 lines)

/-- Changes every word of every value. -/
def mapWords (f : String → String) (slots : Slots) : Slots :=
  slots.map (·.map (Template.mapWords f))

end Slots

end Phrasebook
