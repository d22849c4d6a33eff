import Phrasebook.Example.Basic

/-!
# All examples

The runs of an automaton without reachable cycles are listed depth first: a run before those
that go on from where it stops, and the arcs of a state in their order. Arcs from which no run
can stop are not taken. No run of such an automaton takes as many arcs as there are states.
-/

namespace Phrasebook

namespace Example

/-- How many runs are listed where no limit is given. -/
def defaultLimit : Nat := 100000

/-- Adds the example of a run to those found so far, unless there are `limit` of them. -/
def found (limit : Nat) (symbols : List Symbol) (examples : Array Example) :
    Except Error (Array Example) := do
  if examples.size = limit then throw (.exhausted (.tooMany limit))
  return examples.push (← ofSymbols symbols)

/-- Adds the examples of the runs that go on from a state for at most `depth` arcs; `output` are
the symbols put out so far, last first. -/
def walk (a : Automaton) (live : Nat → Bool) (limit : Nat) :
    (depth state : Nat) → (output : List Symbol) → Array Example → Except Error (Array Example)
  | 0, _, _, examples => .ok examples
  | depth + 1, state, output, examples =>
    (a.arcs state).foldlM (fun examples arc =>
      if live arc.target then do
        -- A run that stops here comes before those that go on.
        let output := arc.output.toList ++ output
        let examples ←
          if a.isFinal arc.target then found limit output.reverse examples else pure examples
        walk a live limit depth arc.target output examples
      else pure examples) examples

/-- The examples of all runs, of which there may be at most `limit`. The run that stops in the
start state is not counted. -/
def enumerate (a : Automaton) (limit : Nat) : Except Error (List Example) := do
  if !a.isAcyclic then throw (.exhausted .cyclic)
  let coaccessible := a.coaccessible
  if !coaccessible.contains a.start then return []
  let first ← if a.isFinal a.start then do pure #[← ofSymbols []] else pure #[]
  return (← walk a coaccessible.contains limit a.size a.start [] first).toList

end Example

end Phrasebook
