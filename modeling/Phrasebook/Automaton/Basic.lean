import Phrasebook.Error
import Phrasebook.Text.WordSet

/-!
# Automata

An automaton is a weighted finite-state transducer: numbered states with arcs between them, of
which each may consume a word and may put out a symbol. Arcs keep the order in which they were
added. Weights are costs.

The operations that name a state or an arc refuse one that is not there. Targets of arcs are
not looked at when arcs are added; `Automaton.fault?` finds the first that is missing, and an
automaton without one is `WellFormed`. A number is given in 32 bits, and one that names no state
counts round within them when states are copied (`Automaton.renumber`).
-/

namespace Phrasebook

namespace Automaton

/-- What a number becomes when `size` states are copied to the numbers from `offset` on. A state
keeps its place among them. A number of no state moves as far, and begins again at 0 where 32
bits do not hold it. -/
def renumber (size offset number : Nat) : Nat :=
  if number < size then number + offset else (number + offset) % 4294967296

theorem renumber_of_lt {size offset number : Nat} (h : number < size) :
    renumber size offset number = number + offset := if_pos h

/-- A transition. -/
structure Arc where
  /-- The word that is consumed, if any. -/
  input : Option String
  /-- The symbol that is put out, if any. -/
  output : Option Symbol
  /-- The cost of taking the arc. -/
  weight : Float32
  /-- The state that the arc leads to. -/
  target : Nat
  deriving BEq, Repr

namespace Arc

/-- The arc that only leads to a state. -/
def silent (target : Nat) : Arc := ⟨none, none, 0, target⟩

/-- The arc that puts out a symbol and leads to a state. -/
def emit (symbol : Symbol) (target : Nat) : Arc := ⟨none, some symbol, 0, target⟩

/-- Whether the arc consumes no word. -/
def isSilent (arc : Arc) : Bool := arc.input.isNone

theorem isSilent_of_input_eq_none {arc : Arc} (h : arc.input = none) : arc.isSilent = true := by
  rw [isSilent, h]
  rfl

theorem not_isSilent_of_input_eq_some {arc : Arc} {word : String} (h : arc.input = some word) :
    ¬ arc.isSilent = true := by
  rw [isSilent, h]
  exact Bool.false_ne_true

/-- The arc in a copy of `size` states whose numbers begin at `offset`. -/
def shift (size offset : Nat) (arc : Arc) : Arc :=
  { arc with target := renumber size offset arc.target }

end Arc

/-- A state: the arcs that leave it, and the cost of stopping there if that is allowed. -/
structure State where
  /-- The arcs that leave the state. -/
  arcs : List Arc
  /-- The cost of stopping. -/
  finalWeight : Option Float32
  deriving BEq, Repr

namespace State

/-- The state without arcs at which no run stops. -/
def blank : State := ⟨[], none⟩

/-- The state without arcs at which runs stop. -/
def stop : State := ⟨[], some 0⟩

/-- The state in a copy of `size` states whose numbers begin at `offset`. -/
def shift (size offset : Nat) (s : State) : State :=
  { s with arcs := s.arcs.map (Arc.shift size offset) }

/-- Leads on by an arc where runs stopped; the cost of stopping becomes that of the arc. -/
def continueBy (arc : Arc) (s : State) : State :=
  match s.finalWeight with
  | none => s
  | some weight => ⟨s.arcs ++ [{ arc with weight }], none⟩

end State

end Automaton

/-- A weighted finite-state transducer. -/
structure Automaton where
  /-- The states, by number. -/
  states : Array Automaton.State
  /-- The state in which runs begin. -/
  start : Nat
  deriving BEq, Repr

namespace Automaton

/-- The automaton of a single state; it accepts nothing. -/
def new : Automaton := ⟨#[.blank], 0⟩

instance : Inhabited Automaton := ⟨new⟩

/-- The automaton that accepts the empty input. -/
def epsilon : Automaton := ⟨#[.stop], 0⟩

/-- The automaton of a single arc. -/
def ofArc (input : Option String) (output : Option Symbol) : Automaton :=
  ⟨#[⟨[⟨input, output, 0, 1⟩], none⟩, .stop], 0⟩

/-- The number of states. -/
def size (a : Automaton) : Nat := a.states.size

/-- The number of arcs. -/
def arcCount (a : Automaton) : Nat := a.states.foldl (fun n s => n + s.arcs.length) 0

/-- The arcs that leave a state. -/
def arcs (a : Automaton) (state : Nat) : List Arc :=
  match a.states[state]? with
  | some s => s.arcs
  | none => []

/-- Arcs leave states only. -/
theorem lt_size_of_mem_arcs {a : Automaton} {state : Nat} {arc : Arc}
    (h : arc ∈ a.arcs state) : state < a.size := by
  refine Decidable.byContradiction fun hnot => ?_
  rw [arcs, Array.getElem?_eq_none (Nat.le_of_not_lt hnot)] at h
  cases h

/-- Counting each state and its arcs counts all states and all arcs. -/
theorem foldr_length_arcs (a : Automaton) :
    (List.range a.size).foldr (fun state sum => (a.arcs state).length + 1 + sum) 0 =
      a.size + a.arcCount := by
  have hlengths : a.states.toList.map (fun s => s.arcs.length) =
      (List.range a.size).map fun state => (a.arcs state).length := by
    refine List.ext_getElem (by simp [size]) fun i hi _ => ?_
    have hlt : i < a.states.size := by simpa using hi
    simp [arcs, hlt]
  have hcount : a.arcCount = ((List.range a.size).map fun state => (a.arcs state).length).sum := by
    rw [← hlengths, arcCount, ← Array.foldl_toList, List.sum_eq_foldl, List.foldl_map]
  have hsum : ∀ states : List Nat,
      states.foldr (fun state sum => (a.arcs state).length + 1 + sum) 0 =
        states.length + (states.map fun state => (a.arcs state).length).sum := by
    intro states
    induction states with
    | nil => rfl
    | cons state states ih =>
      simp only [List.foldr_cons, List.length_cons, List.map_cons, List.sum_cons, ih]
      omega
  rw [hsum, hcount, List.length_range]

/-- The cost of stopping in a state, if that is allowed. -/
def finalWeight? (a : Automaton) (state : Nat) : Option Float32 :=
  a.states[state]?.bind State.finalWeight

/-- Whether runs may stop in a state. -/
def isFinal (a : Automaton) (state : Nat) : Bool := (a.finalWeight? state).isSome

/-- The states in which runs may stop. -/
def finals (a : Automaton) : List Nat := (List.range a.size).filter a.isFinal

/-- The states that the arcs of a state lead to. -/
def targets (a : Automaton) (state : Nat) : List Nat := (a.arcs state).map Arc.target

/-- The states that the arcs of a state lead to which consume no word. -/
def silentTargets (a : Automaton) (state : Nat) : List Nat :=
  ((a.arcs state).filter Arc.isSilent).map Arc.target

/-- The start state and every target of an arc are states. -/
structure WellFormed (a : Automaton) : Prop where
  /-- The start state is a state. -/
  start_lt : a.start < a.size
  /-- Arcs lead to states. -/
  target_lt : ∀ state, ∀ arc ∈ a.arcs state, arc.target < a.size

instance (a : Automaton) : Decidable a.WellFormed :=
  decidable_of_iff
    (a.start < a.size ∧ ∀ state < a.size, ∀ arc ∈ a.arcs state, arc.target < a.size)
    ⟨fun h => ⟨h.1, fun state arc harc => h.2 state (lt_size_of_mem_arcs harc) arc harc⟩,
      fun h => ⟨h.start_lt, fun state _ => h.target_lt state⟩⟩

/-- The first target of an arc that is not a state, with the state that the arc leaves, from a
given state on. -/
def missingTarget? (size : Nat) : Nat → List State → Option ArtifactFault
  | _, [] => none
  | number, s :: states =>
    match s.arcs.find? fun arc => size ≤ arc.target with
    | some arc => some (.missingTarget number arc.target)
    | none => missingTarget? size (number + 1) states

/-- The first state that is named but missing: the start state, or else the target of an arc. -/
def fault? (a : Automaton) : Option ArtifactFault :=
  if a.size ≤ a.start then some (.startOutOfRange a.start a.size)
  else missingTarget? a.size 0 a.states.toList

/-- The automaton with one more state, whose number is the size so far. -/
def addState (a : Automaton) : Automaton := { a with states := a.states.push .blank }

/-- Changes a state. -/
def modifyState (a : Automaton) (state : Nat) (f : State → State) : Except Error Automaton :=
  if state < a.size then .ok { a with states := a.states.modify state f }
  else .error (.noSuchState state)

/-- The automaton with one more arc. -/
def addArc (a : Automaton) (state : Nat) (arc : Arc) : Except Error Automaton :=
  a.modifyState state fun s => { s with arcs := s.arcs ++ [arc] }

/-- Changes the cost of an arc, given by its position in its state. -/
def setWeight (a : Automaton) (state arc : Nat) (weight : Float32) : Except Error Automaton :=
  if state < a.size ∧ (a.arcs state).length ≤ arc then .error (.noSuchArc state arc)
  else a.modifyState state fun s => { s with arcs := s.arcs.modify arc ({ · with weight }) }

/-- Lets runs stop in a state. -/
def setFinal (a : Automaton) (state : Nat) (weight : Float32) : Except Error Automaton :=
  a.modifyState state ({ · with finalWeight := some weight })

/-- Lets no run stop in a state. -/
def clearFinal (a : Automaton) (state : Nat) : Except Error Automaton :=
  a.modifyState state ({ · with finalWeight := none })

/-- The arcs that leave a state, which has to be there. -/
def arcs? (a : Automaton) (state : Nat) : Except Error (List Arc) :=
  match a.states[state]? with
  | some s => .ok s.arcs
  | none => .error (.noSuchState state)

/-- Changes every output label. -/
def mapOutputs (f : Option Symbol → Option Symbol) (a : Automaton) : Automaton :=
  { a with
    states := a.states.map fun s =>
      { s with arcs := s.arcs.map fun arc => { arc with output := f arc.output } } }

end Automaton

end Phrasebook
