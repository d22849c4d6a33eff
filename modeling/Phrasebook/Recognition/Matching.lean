import Phrasebook.Automaton.Run
import Phrasebook.Recognition.Fuzzy

/-!
# Matchings

A matching assigns words of the input to the arcs of an accepted run that consume words. It says
what fuzzy recognition looks for, without a search: of all matchings a cheapest one, of these
one with the fewest arcs, and of these the first.

* `FuzzyRecognizer.IsMatching`: an accepted run matches the words at some positions, and the
  other words can be skipped.
* `FuzzyRecognizer.cost`: what skipping the other words costs.
* `FuzzyRecognizer.Preferred`: the order of preference.
-/

namespace Phrasebook

/-- A run with the positions of the words that it matches. -/
structure Matching where
  /-- The positions of the arcs among those of their states. -/
  run : List Nat
  /-- The arcs. -/
  arcs : List Automaton.Arc
  /-- The positions of the words that are matched, in the order of the arcs that consume them. -/
  used : List Nat

namespace Matching

/-- The choices that make a matching: for each arc its position in its state and, if it consumes
a word, that of the word. -/
def choicesOf : List Nat → List Automaton.Arc → List Nat → List Nat
  | i :: run, arc :: arcs, used =>
    if arc.isSilent then i :: choicesOf run arcs used
    else i :: used.head?.toList ++ choicesOf run arcs used.tail
  | _, _, _ => []

/-- The choices that make the matching. -/
def choices (m : Matching) : List Nat := choicesOf m.run m.arcs m.used

end Matching

namespace FuzzyRecognizer

variable (r : FuzzyRecognizer)

/-- An accepted run over arcs that may be taken matches the words at increasing positions, at
least one, and all other words can be skipped. -/
structure IsMatching (tokens : List String) (m : Matching) : Prop where
  /-- The run is accepted. -/
  accepts : r.automaton.Accepts m.run m.arcs
  /-- Every arc may be taken. -/
  allowed : ∀ arc ∈ m.arcs, arc.isAllowed r.filter = true
  /-- Words are matched in their order. -/
  increasing : m.used.Pairwise (· < ·)
  /-- The words at the positions are those that the arcs consume. -/
  words : m.used.map (fun i => tokens[i]?) = (Utterance.ofArcs m.arcs).words.map some
  /-- Some word is matched. -/
  matched : m.used ≠ []
  /-- The other words can be skipped. -/
  skippable : ∀ i word, tokens[i]? = some word → i ∉ m.used →
    (r.leniency.cost? word).isSome = true

/-- What it costs to skip the words that are not at the given positions. -/
def cost (tokens : List String) (used : List Nat) : Nat :=
  ((tokens.zipIdx.filter fun (_, i) => i ∉ used).map fun (word, _) =>
    (r.leniency.cost? word).getD 0).foldr Nat.add 0

/-- A matching is preferred to another one: it is cheaper, or as cheap with fewer arcs, or as
cheap with as many arcs and comes first in the order of choices. -/
def Preferred (tokens : List String) (m m' : Matching) : Prop :=
  r.cost tokens m.used < r.cost tokens m'.used ∨
    r.cost tokens m.used = r.cost tokens m'.used ∧
      (m.arcs.length < m'.arcs.length ∨
        m.arcs.length = m'.arcs.length ∧ m.choices < m'.choices)

end FuzzyRecognizer

end Phrasebook
