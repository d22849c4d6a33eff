import Phrasebook.Automaton.Reach
import Phrasebook.Intent

/-!
# Recognitions

A recognition is the intent that was found in some words. Runs may be restricted to those
through certain intents: an arc that opens another intent is then not taken.
-/

namespace Phrasebook

/-- How the words of an input were used. -/
structure Diagnostics where
  /-- The number of words. -/
  total : Nat
  /-- The number of words that were matched. -/
  matched : Nat
  /-- The number of words that were skipped. -/
  skipped : Nat
  /-- The number of skipped words that are stop words. -/
  skippedStopWords : Nat
  deriving DecidableEq, Repr

/-- What was found in some words. -/
structure Recognition where
  /-- The intent; without a name it stands for no match. -/
  intent : Intent
  /-- How the words were used, where that was counted. -/
  diagnostics : Option Diagnostics
  deriving Repr

/-- Whether an intent was found. -/
def Recognition.isMatch (r : Recognition) : Bool := !r.intent.isEmpty

/-- Whether an arc may be taken: it must not open an intent outside of the filter. -/
def Automaton.Arc.isAllowed (filter : Option WordSet) (arc : Arc) : Bool :=
  match filter, arc.output with
  | some names, some (.openIntent name) => names.contains name
  | _, _ => true

/-- The arcs of a state that may be taken. -/
def Automaton.allowedArcs (a : Automaton) (filter : Option WordSet) (state : Nat) : List Arc :=
  (a.arcs state).filter (Arc.isAllowed filter)

end Phrasebook
