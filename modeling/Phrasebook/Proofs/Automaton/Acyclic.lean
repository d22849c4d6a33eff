import Phrasebook.Automaton.Reach
import Phrasebook.Proofs.Graph.Cycle

/-!
# Cycles that can be reached

The search for a cycle goes along the arcs from the start state. Each of its turns is one for an
arc or for leaving a state, so it ends, and it finds a cycle exactly when a run can come to one.

* `Automaton.isAcyclic_iff`: whether it is found that a cycle can be reached.
* `Automaton.isAcyclic_congr`: only the states count that can be reached.
* `Automaton.exists_ends_isAcyclic`: how long the search takes.
* `Automaton.cycleSearch_exact`: the search ends with the right result.
-/

namespace Phrasebook

namespace Automaton

variable {a b : Automaton}

theorem WellFormed.lt_of_mem_targets (ha : a.WellFormed) {state target : Nat}
    (h : target ∈ a.targets state) : target < a.size := by
  obtain ⟨arc, harc, rfl⟩ := List.mem_map.1 h
  exact ha.target_lt state arc harc

/-- The automaton is found to be acyclic when no cycle can be reached from its start state. -/
theorem isAcyclic_iff (ha : a.WellFormed) :
    a.isAcyclic = true ↔ Graph.AcyclicFrom a.targets a.start :=
  Graph.findsNoCycle_iff (fun _ _ => ha.lt_of_mem_targets) ha.start_lt

/-- What cannot be reached does not count. -/
theorem isAcyclic_congr (ha : a.WellFormed) (hb : b.WellFormed) (hstart : b.start = a.start)
    (htargets : ∀ state, Graph.Reaches a.targets a.start state →
      b.targets state = a.targets state) : b.isAcyclic = a.isAcyclic := by
  apply Bool.eq_iff_iff.2
  rw [isAcyclic_iff ha, isAcyclic_iff hb, hstart]
  exact Graph.acyclicFrom_congr htargets

/-- The search ends, and it takes no more turns than there are states and arcs. -/
theorem exists_ends_isAcyclic (ha : a.WellFormed) :
    ∃ turns ≤ a.size + a.arcCount, Graph.CycleSearch.Ends a.targets turns
      (.begin a.targets a.start : Graph.CycleSearch a.size) a.isAcyclic := by
  have hnew : (Marks.none a.size).isNew a.start = true :=
    Marks.isNew_iff.2 ⟨ha.start_lt, Marks.contains_none⟩
  have hpending : (.begin a.targets a.start : Graph.CycleSearch a.size).pending a.targets =
      a.size + a.arcCount := by
    have hmark := Marks.pending_mark (fun state => (a.targets state).length + 1) hnew
    rw [Marks.pending_none] at hmark
    rw [← a.foldr_length_arcs]
    simpa [Graph.CycleSearch.pending, Graph.CycleSearch.ahead, Graph.CycleSearch.begin, targets]
      using hmark
  rw [← hpending]
  exact Graph.CycleSearch.exists_ends a.targets _

/-- The search for a cycle ends in every well-formed automaton, in one way, after a number of turns
that is bounded by the states and arcs. It says that there is no cycle exactly when no state lies on
one that a run can come to; so a state which no run comes to does not count, with all its arcs. -/
theorem cycleSearch_exact (ha : a.WellFormed) :
    (∃ bound ≤ a.size + a.arcCount, ∀ turns result,
      Graph.CycleSearch.Ends a.targets turns
          (.begin a.targets a.start : Graph.CycleSearch a.size) result ↔
        turns = bound ∧ a.isAcyclic = result) ∧
    (a.isAcyclic = true ↔
      ∀ state, Graph.Reaches a.targets a.start state → ¬ Graph.OnCycle a.targets state) ∧
    ∀ b : Automaton, b.WellFormed → b.start = a.start →
      (∀ state, Graph.Reaches a.targets a.start state → b.arcs state = a.arcs state) →
      b.isAcyclic = a.isAcyclic := by
  refine ⟨?_, isAcyclic_iff ha, fun b hb hstart harcs => ?_⟩
  · obtain ⟨bound, hle, hends⟩ := exists_ends_isAcyclic ha
    refine ⟨bound, hle, fun turns result => ⟨fun h => ?_, ?_⟩⟩
    · exact (h.unique hends).imp_right Eq.symm
    · rintro ⟨rfl, rfl⟩
      exact hends
  · apply isAcyclic_congr ha hb hstart
    intro state hstate
    rw [targets, targets, harcs state hstate]

/-- Two ways lead to where runs stop, and a state that no run comes to leads to itself. -/
def aside : Automaton where
  states := #[⟨[⟨some "a", none, 0, 1⟩, ⟨some "b", none, 0, 2⟩], none⟩,
    ⟨[.silent 2], none⟩, .stop, ⟨[.silent 3, .silent 0], none⟩]
  start := 0

theorem cycleSearch_exact_aside :
    aside.WellFormed ∧ Graph.OnCycle aside.targets 3 ∧ aside.isAcyclic = true ∧
      ¬ Graph.Reaches aside.targets aside.start 3 := by
  have hwell : aside.WellFormed := by decide
  have hloop : Graph.OnCycle aside.targets 3 := ⟨3, by decide, .refl 3⟩
  have hacyclic : aside.isAcyclic = true := by decide +kernel
  exact ⟨hwell, hloop, hacyclic,
    fun path => (cycleSearch_exact hwell).2.1.1 hacyclic 3 path hloop⟩

end Automaton

end Phrasebook
