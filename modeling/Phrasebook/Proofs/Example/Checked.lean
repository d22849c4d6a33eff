import Phrasebook.Example.Sample
import Phrasebook.Proofs.Automaton.Checked
import Phrasebook.Proofs.Outcome

/-!
# Examples that check which states they look up

The walks of this file may fail as those of the library do, and they have no outcome at all when
they look up a number of no state. On a well-formed automaton they have the outcomes of the
others.

* `Example.enumerate?`, `Sample.run?`: the walks that check.
* `Example.enumerate?_eq`, `Sample.run?_eq`: they have outcomes, and those of the others.
-/

namespace Phrasebook

variable {a : Automaton}

/-- A value that is there is an outcome. -/
theorem liftM_some {α : Type} (x : α) : (liftM (some x) : ExceptT Error Option α) = pure x := rfl

namespace Example

variable {live? : Nat → Option Bool} {live : Nat → Bool} {limit depth state : Nat}
  {output : List Symbol} {examples : Array Example}

/-- Adds the examples of the runs that go on from a state for at most `depth` arcs. -/
def walk? (a : Automaton) (live? : Nat → Option Bool) (limit : Nat) :
    (depth state : Nat) → (output : List Symbol) → Array Example →
      ExceptT Error Option (Array Example)
  | 0, _, _, examples => return examples
  | depth + 1, state, output, examples => do
    (← a.arcsAt? state).foldlM (fun examples arc => do
      if ← live? arc.target then
        -- A run that stops here comes before those that go on.
        let output := arc.output.toList ++ output
        let examples ←
          if ← a.isFinalAt? arc.target then settled (found limit output.reverse examples)
          else pure examples
        walk? a live? limit depth arc.target output examples
      else pure examples) examples

/-- The examples of all runs, of which there may be at most `limit`. -/
def enumerate? (a : Automaton) (limit : Nat) : ExceptT Error Option (List Example) := do
  if !(← a.isAcyclic?) then throw (.exhausted .cyclic)
  let coaccessible ← a.coaccessible?
  if !(← coaccessible.contains? a.start) then return []
  let first ← if ← a.isFinalAt? a.start then do pure #[← settled (ofSymbols [])] else pure #[]
  return (← walk? a coaccessible.contains? limit a.size a.start [] first).toList

theorem walk?_eq (ha : a.WellFormed) (hlive : ∀ state < a.size, live? state = some (live state))
    (hstate : state < a.size) : walk? a live? limit depth state output examples =
      settled (walk a live limit depth state output examples) := by
  induction depth generalizing state output examples with
  | zero => rfl
  | succ depth ih =>
    rw [walk?, walk, Automaton.arcsAt?_eq hstate]
    refine foldlM_settled fun examples arc harc => ?_
    have htarget := ha.target_lt state arc harc
    rw [hlive arc.target htarget, Automaton.isFinalAt?_eq htarget]
    simp only [liftM_some, pure_bind]
    cases live arc.target with
    | false => rfl
    | true =>
      cases a.isFinal arc.target with
      | false => exact ih htarget
      | true => exact (bind_congr fun _ => ih htarget).trans (settled_bind _ _).symm

/-- Enumeration looks up nothing but states. -/
theorem enumerate?_eq (ha : a.WellFormed) (limit : Nat) :
    enumerate? a limit = settled (enumerate a limit) := by
  have hlive : ∀ state < a.size, a.coaccessible.contains? state =
      some (a.coaccessible.contains state) := fun _ => Marks.contains?_eq
  have hwalk : ∀ first, walk? a a.coaccessible.contains? limit a.size a.start [] first =
      settled (walk a a.coaccessible.contains limit a.size a.start [] first) :=
    fun first => walk?_eq ha hlive ha.start_lt
  rw [enumerate?, enumerate, ha.isAcyclic?_eq, ha.coaccessible?_eq, liftM_some, liftM_some,
    pure_bind, pure_bind]
  cases a.isAcyclic with
  | false => rfl
  | true =>
    simp only [hlive a.start ha.start_lt, Automaton.isFinalAt?_eq ha.start_lt, liftM_some,
      pure_bind, hwalk]
    cases a.coaccessible.contains a.start with
    | false => rfl
    | true =>
      cases a.isFinal a.start with
      | false => exact (settled_bind _ _).symm
      | true => exact (bind_congr fun _ => (settled_bind _ _).symm).trans (settled_bind _ _).symm

end Example

namespace Sample

variable {choose : Chooser} {draws : Draws} {live? : Nat → Option Bool} {live : Nat → Bool}
  {budget state time : Nat} {output : List Symbol}

/-- The arcs of a state that lead to live states. -/
def liveArcs? (a : Automaton) (live? : Nat → Option Bool) (state : Nat) :
    Option (List Automaton.Arc) := do
  (← a.arcsAt? state).filterMapM fun arc => do
    return if ← live? arc.target then some arc else none

/-- The symbols of the walk from a state that may take `budget` more choices, with the number of
the next random word. -/
def walk? (choose : Chooser) (a : Automaton) (live? : Nat → Option Bool) (draws : Draws) :
    (budget state time : Nat) → (output : List Symbol) →
      ExceptT Error Option (List Symbol × Nat)
  | 0, _, _, _ => throw (.exhausted .tooLong)
  | budget + 1, state, time, output => do
    let arcs ← liveArcs? a live? state
    let costs := arcs.map Automaton.Arc.weight ++ (← a.finalWeightAt? state).toList
    let i ← settled (choose state costs (draws time))
    match arcs[i]? with
    | none => return (output.reverse, time + 1)
    | some arc =>
      walk? choose a live? draws budget arc.target (time + 1) (arc.output.toList ++ output)

/-- The symbols of one sample, with the number of the next random word. -/
def run? (choose : Chooser) (a : Automaton) (draws : Draws) (time : Nat) :
    ExceptT Error Option (List Symbol × Nat) := do
  let coaccessible ← a.coaccessible?
  if ← coaccessible.contains? a.start then
    walk? choose a coaccessible.contains? draws maxRunLength a.start time []
  else throw (.exhausted .acceptsNothing)

theorem liveArcs?_eq (ha : a.WellFormed)
    (hlive : ∀ state < a.size, live? state = some (live state)) (hstate : state < a.size) :
    liveArcs? a live? state = some (liveArcs a live state) := by
  rw [liveArcs?, Automaton.arcsAt?_eq hstate, liveArcs, ← List.filterMap_eq_filter]
  refine filterMapM_eq_some fun arc harc => ?_
  rw [hlive arc.target (ha.target_lt state arc harc)]
  rfl

theorem walk?_eq (ha : a.WellFormed)
    (hlive : ∀ state < a.size, live? state = some (live state)) (hstate : state < a.size) :
    walk? choose a live? draws budget state time output =
      settled (walk choose a live draws budget state time output) := by
  induction budget generalizing state time output with
  | zero => rfl
  | succ budget ih =>
    rw [walk?, walk, liveArcs?_eq ha hlive hstate, Automaton.finalWeightAt?_eq hstate]
    simp only [liftM_some, pure_bind]
    rw [settled_bind]
    refine bind_congr fun i => ?_
    cases hi : (liveArcs a live state)[i]? with
    | none => rfl
    | some arc =>
      have harc := List.mem_of_getElem? hi
      exact ih (ha.target_lt state arc (List.mem_filter.1 harc).1)

/-- Sampling looks up nothing but states. -/
theorem run?_eq (ha : a.WellFormed) (choose : Chooser) (draws : Draws) (time : Nat) :
    run? choose a draws time = settled (run choose a a.coaccessible.contains draws time) := by
  have hlive : ∀ state < a.size, a.coaccessible.contains? state =
      some (a.coaccessible.contains state) := fun _ => Marks.contains?_eq
  rw [run?, run, ha.coaccessible?_eq]
  simp only [hlive a.start ha.start_lt, liftM_some, pure_bind]
  cases a.coaccessible.contains a.start with
  | false => rfl
  | true => exact walk?_eq ha hlive ha.start_lt

end Sample

end Phrasebook
