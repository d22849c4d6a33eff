import Phrasebook.Automaton.Basic
import Phrasebook.Graph.Cycle
import Phrasebook.Graph.Order
import Phrasebook.Graph.Worklist

/-!
# What an automaton can reach

The states that a run can come to, those from which it can stop, and whether it can come back
to a state. All of them are searches along the arcs.
-/

namespace Phrasebook

namespace Automaton

/-- The arcs as pairs of states, state by state and in their order. -/
def edges (a : Automaton) : List (Nat × Nat) :=
  (List.range a.size).flatMap fun state => (a.targets state).map (state, ·)

/-- The arcs that consume no word, as pairs of states. -/
def silentEdges (a : Automaton) : List (Nat × Nat) :=
  (List.range a.size).flatMap fun state => (a.silentTargets state).map (state, ·)

/-- The states that can be reached from the start state. -/
def accessible (a : Automaton) : Marks a.size :=
  Graph.explore a.size a.targets [a.start]

/-- For each state, the states that the arcs come from which lead to it, state by state. -/
def incoming (a : Automaton) : Array (List Nat) :=
  Graph.index a.size (a.edges.map Prod.swap)

/-- The states from which a run can stop. -/
def coaccessible (a : Automaton) : Marks a.size :=
  Graph.explore a.size (Graph.lookup a.incoming) a.finals

/-- The states that can be reached from some states without consuming a word. -/
def silentClosure (a : Automaton) (sources : List Nat) : Marks a.size :=
  Graph.explore a.size a.silentTargets sources

/-- Whether no cycle can be reached from the start state. -/
def isAcyclic (a : Automaton) : Bool := Graph.findsNoCycle a.size a.targets a.start

/-- The states in an order in which every arc that consumes no word leads on; or a state that
leads back to itself over such arcs. -/
def silentOrder (a : Automaton) : Except Nat (List Nat) :=
  Graph.orderOfEdges a.size a.silentEdges

/-- The words that arcs consume which can be reached from the start state. -/
def vocabulary (a : Automaton) : WordSet :=
  .ofList (a.accessible.toList.flatMap fun state => (a.arcs state).filterMap Arc.input)

/-- The states that can be reached from some states without consuming a word, all of which have
to be there, in increasing order. -/
def silentClosure? (a : Automaton) (sources : List Nat) : Except Error (List Nat) :=
  let closure := (a.silentClosure sources).toList
  match (sources ++ closure.flatMap a.silentTargets).find? fun state => a.size ≤ state with
  | some state => .error (.noSuchState state)
  | none => .ok closure

/-- What can be said about an automaton as a whole. -/
structure Summary where
  /-- The start state. -/
  start : Nat
  /-- The number of states. -/
  states : Nat
  /-- The number of arcs. -/
  arcs : Nat
  /-- The states in which runs may stop, with the costs of stopping. -/
  finals : List (Nat × Float32)
  /-- No cycle can be reached. -/
  acyclic : Bool
  /-- The words that can be consumed. -/
  vocabulary : WordSet
  /-- For each state, whether it can be reached. -/
  accessible : List Bool
  /-- For each state, whether a run can stop from there on. -/
  coaccessible : List Bool

/-- The summary of an automaton whose arcs all lead to states. -/
def summary? (a : Automaton) : Except Error Summary :=
  match a.fault? with
  | some (.startOutOfRange start _) => .error (.noSuchState start)
  | some (.missingTarget _ target) => .error (.noSuchState target)
  | _ =>
    let accessible := a.accessible
    let coaccessible := a.coaccessible
    .ok {
      start := a.start
      states := a.size
      arcs := a.arcCount
      finals := (List.range a.size).filterMap fun state =>
        (a.finalWeight? state).map (state, ·)
      acyclic := a.isAcyclic
      vocabulary := a.vocabulary
      accessible := (List.range a.size).map accessible.contains
      coaccessible := (List.range a.size).map coaccessible.contains }

end Automaton

end Phrasebook
