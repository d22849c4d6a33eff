import Phrasebook.Example.Draws
import Phrasebook.Example.Enumerate

/-!
# Sampled examples

A sample is a walk from the start state. In every state one of the arcs from which a run can
stop is taken, or the walk stops where that is allowed. Each choice takes one random word of 64
bits, so a sequence of such words determines the samples.

* `Sample.Chooser`: a way to choose one of several costs. Walks depend on it alone.
* `Sample.byWeight`: the choice in which a cost weighs the exponential of its negative.
* `Sample.walk`: the walk from a state.
* `Example.sample`: some sampled examples.
-/

namespace Phrasebook

namespace Sample

/-- The weight of a cost. -/
def weightOf (cost : Float32) : Float := (-cost.toFloat).exp

/-- Whether every weight is zero or greater. -/
def areValid (weights : List Float) : Bool := weights.all fun w => 0 ≤ w

/-- The sums of the first weights, of the first two weights, and so on. -/
def partialSums (sum : Float) : List Float → List Float
  | [] => []
  | w :: ws => (sum + w) :: partialSums (sum + w) ws

/-- The sums of the first weights, of the first two weights, and so on up to all. -/
def cumulative : List Float → List Float
  | [] => []
  | w :: ws => w :: partialSums w ws

/-- The greatest number that a random fraction reaches: one less a unit of its last place. -/
def greatestFraction : Float := 1 - 1 / Float.ofNat (.pow 2 52)

/-- The encoding of the greatest number from a given encoding on downwards that stays below
`total` when it is multiplied by any random fraction. -/
def scaleBits (total : Float) : Nat → Nat
  | 0 => 0
  | bits + 1 =>
    if Float.ofBits (bits + 1).toUInt64 * greatestFraction ≥ total then scaleBits total bits
    else bits + 1

/-- The number by which random fractions are multiplied to stay below `total`. -/
def scale (total : Float) : Float := Float.ofBits (scaleBits total total.toBits.toNat).toUInt64

/-- The random fraction of a random word: its 52 high bits behind the point. -/
def fractionOf (word : UInt64) : Float := (word >>> 12).toFloat / Float.ofNat (.pow 2 52)

/-- A way to choose one of the costs in a state by a random word; the choice is a position. -/
abbrev Chooser := (state : Nat) → (costs : List Float32) → (word : UInt64) → Except Error Nat

/-- The position that a random word chooses among some costs: the first whose weight together
with the weights before it is greater than a random part of the total. -/
def byWeight : Chooser := fun state costs word =>
  let weights := costs.map weightOf
  let fault (f : WeightFault) := Error.exhausted (.noChoice state f)
  match (cumulative weights).getLast? with
  | none => .error (fault .noWeights)
  | some total =>
    if !areValid weights then .error (fault .invalidWeight)
    else if total == 0 then .error (fault .allZero)
    else if total.isInf then .error (.infiniteTotal state)
    else
      -- The last position is chosen when no sum before it is greater.
      let x := fractionOf word * scale total
      .ok ((cumulative weights).dropLast.findIdx fun sum => sum > x)

/-- The arcs of a state that lead to live states. -/
def liveArcs (a : Automaton) (live : Nat → Bool) (state : Nat) : List Automaton.Arc :=
  (a.arcs state).filter fun arc => live arc.target

/-- The costs between which a walk chooses in a state: those of its live arcs, and last that of
stopping where it is allowed. -/
def costs (a : Automaton) (live : Nat → Bool) (state : Nat) : List Float32 :=
  (liveArcs a live state).map Automaton.Arc.weight ++ (a.finalWeight? state).toList

/-- The symbols of the walk from a state that may take `budget` more choices, with the number of
the next random word. -/
def walk (choose : Chooser) (a : Automaton) (live : Nat → Bool) (draws : Draws) :
    (budget state time : Nat) → (output : List Symbol) → Except Error (List Symbol × Nat)
  | 0, _, _, _ => .error (.exhausted .tooLong)
  | budget + 1, state, time, output => do
    let i ← choose state (costs a live state) (draws time)
    -- The position behind the arcs is that of stopping.
    match (liveArcs a live state)[i]? with
    | none => return (output.reverse, time + 1)
    | some arc =>
      walk choose a live draws budget arc.target (time + 1) (arc.output.toList ++ output)

/-- The symbols of one sample, with the number of the next random word. -/
def run (choose : Chooser) (a : Automaton) (live : Nat → Bool) (draws : Draws) (time : Nat) :
    Except Error (List Symbol × Nat) :=
  if live a.start then walk choose a live draws maxRunLength a.start time []
  else .error (.exhausted .acceptsNothing)

/-- Adds the examples of some samples to those found so far; `time` is the number of the next
random word. -/
def collect (choose : Chooser) (a : Automaton) (live : Nat → Bool) (draws : Draws) :
    (count time : Nat) → Array Example → Except Error (Array Example)
  | 0, _, found => .ok found
  | count + 1, time, found => do
    let (symbols, time) ← run choose a live draws time
    let e ← Example.ofSymbols symbols
    collect choose a live draws count time (found.push e)

end Sample

namespace Example

/-- Some sampled examples. -/
def sample (a : Automaton) (count : Nat) (draws : Draws) : Except Error (List Example) := do
  let coaccessible := a.coaccessible
  return (← Sample.collect Sample.byWeight a coaccessible.contains draws count 0 #[]).toList

/-- Some sampled examples, or all examples if none are asked for. -/
def generate (a : Automaton) (count : Nat) (draws : Draws) :
    Except Error (List Example) :=
  if count = 0 then enumerate a defaultLimit else sample a count draws

end Example

end Phrasebook
