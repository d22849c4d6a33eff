import Phrasebook.Automaton.Basic

/-!
# Combining automata

Automata are combined by putting copies of their states side by side, with the numbers of a copy
shifted, and leading on by new arcs where runs of a copy stopped. The cost of stopping becomes
the cost of such an arc, so no cost is lost or counted twice.
-/

namespace Phrasebook

namespace Automaton

/-- The states of a copy whose numbers begin at `offset`. -/
def copyAt (offset : Nat) (a : Automaton) : Array State :=
  a.states.map (State.shift a.size offset)

/-- The states of such a copy, which leads on by an arc where its runs stopped. -/
def joinAt (offset : Nat) (arc : Arc) (a : Automaton) : List State :=
  a.states.toList.map fun s => (s.shift a.size offset).continueBy arc

/-- The automaton with a copy of another one beside it. -/
def append (a b : Automaton) : Automaton := { a with states := a.states ++ b.copyAt a.size }

/-- The number of the other automaton's start state in `a.append b`. -/
def appendedStart (a b : Automaton) : Nat := b.start + a.size

/-- The runs of the first automaton followed by those of the second. -/
def concat (a b : Automaton) : Automaton :=
  -- The start state stays that of the first automaton, whose states keep their numbers.
  { a with
    states := a.states.map (State.continueBy (.silent (b.start + a.size))) ++ b.copyAt a.size }

/-- The start states of the branches of a union, when the copies begin at `offset`. -/
def branchStarts (offset : Nat) : List Automaton → List Nat
  | [] => []
  | b :: bs => (b.start + offset) :: branchStarts (offset + b.size) bs

/-- The states of the branches of a union, when the copies begin at `offset`. Where runs
stopped they lead on to state 1. -/
def branchStates (offset : Nat) : List Automaton → List State
  | [] => []
  | b :: bs => b.joinAt offset (.silent 1) ++ branchStates (offset + b.size) bs

/-- The runs of any one of the branches. State 0 leads to the branches in order and all of them
lead to state 1. -/
def union (branches : List Automaton) : Automaton :=
  -- The copies begin behind the two states of the union's own.
  let first : State := ⟨(branchStarts 2 branches).map Arc.silent, none⟩
  ⟨(first :: .stop :: branchStates 2 branches).toArray, 0⟩

/-- The runs of an automaton, and then the run that consumes nothing. -/
def optional (a : Automaton) : Automaton := union [a, epsilon]

/-- The runs of an automaton, each with `opening` put out before it and `closing` behind it. -/
def wrap (a : Automaton) (opening closing : Symbol) : Automaton :=
  -- As in a union, the copy begins behind the state that opens and the one where runs stop.
  let first : State := ⟨[.emit opening (a.start + 2)], none⟩
  ⟨(first :: .stop :: a.joinAt 2 (.emit closing 1)).toArray, 0⟩

@[simp]
theorem size_concat {a b : Automaton} : (concat a b).size = a.size + b.size := by
  simp [concat, size, copyAt]

@[simp]
theorem size_wrap {a : Automaton} {opening closing : Symbol} :
    (wrap a opening closing).size = a.size + 2 := by
  simp [wrap, size, joinAt]

end Automaton

end Phrasebook
