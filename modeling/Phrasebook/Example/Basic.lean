import Phrasebook.Automaton.Reach
import Phrasebook.Intent

/-!
# Examples

An example is the output of an accepted run together with the intent that it decodes to. It can
be written as its symbols, or as a line with a tag for every word that tells where entities
begin and continue.
-/

namespace Phrasebook

/-- The output of a run and what it means. -/
structure Example where
  /-- The symbols that were put out. -/
  symbols : List Symbol
  /-- The intent that they decode to. -/
  intent : Intent
  deriving Repr

namespace Example

/-- The example of some symbols. -/
def ofSymbols (symbols : List Symbol) : Except Error Example := do
  return ⟨symbols, ← Intent.ofSymbols symbols⟩

/-- The textual forms of the symbols. -/
def rawSymbols (e : Example) : String := Text.joinWords (e.symbols.map Symbol.text)

/-- Tags the words of an entity, of which the first is its beginning. A span that is not within
the words tags none. -/
def tagEntity (tags : List String) (e : Entity) : List String :=
  if e.start ≤ e.stop ∧ e.stop ≤ tags.length then
    tags.zipIdx.map fun (tag, i) =>
      if i = e.start ∧ i < e.stop then "B-" ++ e.name
      else if e.start < i ∧ i < e.stop then "I-" ++ e.name
      else tag
  else tags

/-- The tags of the words: those of the entities in order, of which later ones replace earlier
ones, and `O` outside of entities. -/
def tags (e : Example) : List String :=
  e.intent.entities.foldl tagEntity (e.intent.tokens.map fun _ => "O")

/-- The line with the words, their tags and the intent, separated by tabs. -/
def taggedLine (e : Example) : String :=
  "BS " ++ Text.joinWords e.intent.tokens ++ " ES\tO " ++ Text.joinWords e.tags ++ " O\t" ++
    e.intent.name.getD ""

end Example

end Phrasebook
