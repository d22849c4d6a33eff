import Phrasebook.Proofs.Automaton.Reach
import Phrasebook.Proofs.Graph.Checked

/-!
# Operations that check which states they look up

The operations on an automaton take a number of no state for a state without arcs. Those of this
file have no result when they look up a number of no state. On a well-formed automaton they have
the results of the others, whether or not its states can be reached and whatever cycles it has.

* `Automaton.arcsAt?`, `Automaton.isFinalAt?`: a state that has to be there.
* `Automaton.accessible?`, `Automaton.coaccessible?`, `Automaton.isAcyclic?`,
  `Automaton.vocabulary?`: the operations that check.
* `Automaton.WellFormed.accessible?_eq` and those like it: they have results, and those of the
  others.
-/

namespace Phrasebook

namespace Automaton

variable {a : Automaton} {state : Nat}

/-- The arcs that leave a state, which has to be there. -/
def arcsAt? (a : Automaton) (state : Nat) : Option (List Arc) := a.states[state]?.map State.arcs

/-- The cost of stopping in a state, which has to be there, if that is allowed. -/
def finalWeightAt? (a : Automaton) (state : Nat) : Option (Option Float32) :=
  a.states[state]?.map State.finalWeight

/-- Whether runs may stop in a state, which has to be there. -/
def isFinalAt? (a : Automaton) (state : Nat) : Option Bool :=
  (a.finalWeightAt? state).map Option.isSome

theorem arcsAt?_eq (h : state < a.size) : a.arcsAt? state = some (a.arcs state) := by
  rw [arcsAt?, arcs, Array.getElem?_eq_getElem h]
  rfl

theorem finalWeightAt?_eq (h : state < a.size) :
    a.finalWeightAt? state = some (a.finalWeight? state) := by
  rw [finalWeightAt?, finalWeight?, Array.getElem?_eq_getElem h]
  rfl

theorem isFinalAt?_eq (h : state < a.size) : a.isFinalAt? state = some (a.isFinal state) := by
  rw [isFinalAt?, finalWeightAt?_eq h]
  rfl

/-- The states that can be reached from the start state. -/
def accessible? (a : Automaton) : Option (Marks a.size) :=
  Graph.explore? a.size (fun state => do return (← a.arcsAt? state).map Arc.target) [a.start]

/-- The arcs as pairs of states. -/
def edges? (a : Automaton) : Option (List (Nat × Nat)) :=
  (List.range a.size).flatMapM fun state => do
    return (← a.arcsAt? state).map fun arc => (state, arc.target)

/-- The states in which runs may stop. -/
def finals? (a : Automaton) : Option (List Nat) :=
  (List.range a.size).filterMapM fun state => do
    return if ← a.isFinalAt? state then some state else none

/-- The states from which a run can stop. -/
def coaccessible? (a : Automaton) : Option (Marks a.size) := do
  let incoming ← Graph.index? a.size ((← a.edges?).map Prod.swap)
  Graph.explore? a.size (incoming[·]?) (← a.finals?)

/-- Whether no cycle can be reached from the start state. -/
def isAcyclic? (a : Automaton) : Option Bool :=
  Graph.findsNoCycle? a.size (fun state => do return (← a.arcsAt? state).map Arc.target) a.start

/-- The words that arcs consume which can be reached from the start state. -/
def vocabulary? (a : Automaton) : Option WordSet := do
  let seen ← a.accessible?
  return .ofList (← seen.toList.flatMapM fun state => do
    return (← a.arcsAt? state).filterMap Arc.input)

namespace WellFormed

variable (ha : a.WellFormed)
include ha

theorem accessible?_eq : a.accessible? = some a.accessible := by
  refine Graph.explore?_eq (fun v hv => ?_) (fun v _ w => ha.lt_of_mem_targets)
    (List.forall_mem_singleton.2 ha.start_lt)
  rw [arcsAt?_eq hv]
  rfl

omit ha in
theorem edges?_eq : a.edges? = some a.edges := by
  refine flatMapM_eq_some fun state hstate => ?_
  rw [arcsAt?_eq (List.mem_range.1 hstate), targets, List.map_map]
  rfl

omit ha in
theorem finals?_eq : a.finals? = some a.finals := by
  have h : a.finals? = some ((List.range a.size).filterMap (Option.guard a.isFinal)) :=
    filterMapM_eq_some fun state hstate => by
      rw [isFinalAt?_eq (List.mem_range.1 hstate)]
      rfl
  rw [h, List.filterMap_eq_filter, finals]

theorem coaccessible?_eq : a.coaccessible? = some a.coaccessible := by
  have hindex : Graph.index? a.size (a.edges.map Prod.swap) = some a.incoming :=
    Graph.index?_eq (List.forall_mem_map.2 fun edge hedge => (edges_lt ha hedge).2)
  rw [coaccessible?, edges?_eq, finals?_eq]
  simp only [Option.bind_eq_bind, Option.bind_some, hindex]
  exact Graph.explore?_eq (fun v => Graph.index_getElem?)
    (fun v _ w => lt_of_mem_lookup_incoming ha) fun v => lt_of_mem_finals

theorem isAcyclic?_eq : a.isAcyclic? = some a.isAcyclic := by
  refine Graph.findsNoCycle?_eq (fun v hv => ?_) (fun v _ w => ha.lt_of_mem_targets) ha.start_lt
  rw [arcsAt?_eq hv]
  rfl

theorem vocabulary?_eq : a.vocabulary? = some a.vocabulary := by
  have hwords : (a.accessible.toList.flatMapM fun state => do
      return (← a.arcsAt? state).filterMap Arc.input) =
        some (a.accessible.toList.flatMap fun state => (a.arcs state).filterMap Arc.input) :=
    flatMapM_eq_some fun state hstate => by
      rw [arcsAt?_eq (List.mem_range.1 (List.mem_filter.1 hstate).1)]
      rfl
  rw [vocabulary?, ha.accessible?_eq]
  simp only [Option.bind_eq_bind, Option.bind_some] at hwords ⊢
  rw [hwords]
  rfl

end WellFormed

/-- An arc to a number of no state is noticed where it can be reached. -/
example : vocabulary? ⟨#[⟨[.silent 1], none⟩], 0⟩ = none := by cbv

end Automaton

end Phrasebook
