import Phrasebook.Automaton.Combine
import Phrasebook.Dependency

/-!
# From templates to automata

The automaton of a template is put together from those of its parts, in their order. What the
template refers to has been built before and is given by a function `resolve`, which may have to
look for it.

A slot's values become an entity of the slot's name, unless the reference is tagged itself. A
group that is reported as other words keeps its matched words and its markers, and puts out the
reported words at its end.
-/

namespace Phrasebook

/-- The automaton of a word. The empty word consumes nothing. -/
def Automaton.ofWord (text : String) (substitution : Option String) : Automaton :=
  .ofArc (if text.isEmpty then none else some text)
    (some (match substitution with
      | none => .word text
      | some value => .substitution text value))

/-- The runs of an automaton as an entity. -/
def Automaton.entity (a : Automaton) (tag : Tag) : Automaton :=
  a.wrap (.openEntity tag.slot tag.value) .closeEntity

/-- The output label that matches the same words and reports none. Markers stay. -/
def Symbol.silence : Option Symbol → Option Symbol
  | some (.word raw) | some (.substitution raw _) => some (.substitution raw "")
  | label => label

namespace Template

variable {m : Type → Type} [Monad m]

mutual

/-- The automaton of a template that is part of `intent`. -/
def build (resolve : Node → m Automaton) (intent : String) : Template → m Automaton
  | word text substitution => pure (.ofWord text substitution)
  | sequence items => do
    return (← buildAll resolve intent items).foldl .concat .epsilon
  | alternation branches => do
    return .union (← buildAll resolve intent branches)
  | optional inner => do
    return .optional (← build resolve intent inner)
  | ruleRef name => resolve (.rule (name.qualified intent))
  | slotRef name => do
    return (← resolve (.slot name)).entity ⟨name, none⟩
  -- The tag of a slot takes the place of its name: there is one entity and not two.
  | tagged (slotRef name) tag => do
    return (← resolve (.slot name)).entity tag
  | tagged inner tag => do
    return (← build resolve intent inner).entity tag
  | substituted inner value => do
    let inner ← build resolve intent inner
    -- The value is put out once, after everything that is matched.
    return (inner.mapOutputs Symbol.silence).concat
      (.ofArc none (some (.substitution "" value)))

/-- The automata of some templates. -/
def buildAll (resolve : Node → m Automaton) (intent : String) :
    List Template → m (List Automaton)
  | [] => pure []
  | t :: ts => do
    return (← build resolve intent t) :: (← buildAll resolve intent ts)

end

end Template

end Phrasebook
