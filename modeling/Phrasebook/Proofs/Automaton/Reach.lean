import Phrasebook.Proofs.Automaton.Acyclic
import Phrasebook.Proofs.Graph.Worklist

/-!
# What is found to be reached

Three worklists go along the arcs of an automaton: forwards from the start state, backwards from the
states where runs may stop, and forwards along the arcs that consume no word. Each of them marks
exactly the states that paths lead to, whatever cycles the paths may have.

* `Automaton.mem_lookup_incoming`: the states before a state.
* `Automaton.contains_accessible_iff`: what can be reached from the start state.
* `Automaton.CanStop`, `Automaton.contains_coaccessible_iff`: from where a run can stop.
* `Automaton.contains_silentClosure_iff`: what can be reached without consuming a word.
* `Automaton.worklists_exact`: the worklists end, with the states that paths lead to.
-/

namespace Phrasebook

namespace Automaton

variable {a : Automaton} {state target : Nat} {sources : List Nat}

/-! ### Forwards from the start state -/

/-- The states that are found to be accessible are those that paths from the start state lead to. -/
theorem contains_accessible_iff (ha : a.WellFormed) :
    a.accessible.contains state = true ↔ Graph.Reaches a.targets a.start state := by
  rw [accessible, Graph.contains_explore_iff (List.forall_mem_singleton.2 ha.start_lt)
    fun _ _ => ha.lt_of_mem_targets]
  simp

/-! ### Backwards from the final states -/

theorem edges_lt (ha : a.WellFormed) {edge : Nat × Nat} (h : edge ∈ a.edges) :
    edge.1 < a.size ∧ edge.2 < a.size := by
  obtain ⟨state, hstate, h⟩ := List.mem_flatMap.1 h
  obtain ⟨target, htarget, rfl⟩ := List.mem_map.1 h
  exact ⟨List.mem_range.1 hstate, ha.lt_of_mem_targets htarget⟩

theorem mem_edges : (state, target) ∈ a.edges ↔ target ∈ a.targets state := by
  constructor
  · intro h
    obtain ⟨state', _, h⟩ := List.mem_flatMap.1 h
    obtain ⟨target', htarget, heq⟩ := List.mem_map.1 h
    cases heq
    exact htarget
  · intro h
    obtain ⟨arc, harc, rfl⟩ := List.mem_map.1 h
    exact List.mem_flatMap.2 ⟨state, List.mem_range.2 (lt_size_of_mem_arcs harc),
      List.mem_map.2 ⟨_, h, rfl⟩⟩

/-- The states before a state are found over its incoming edges. -/
theorem mem_lookup_incoming (ha : a.WellFormed) :
    state ∈ Graph.lookup a.incoming target ↔ target ∈ a.targets state := by
  have hedges : ∀ edge ∈ a.edges, edge.1 < a.size ∧ edge.2 < a.size := fun _ => edges_lt ha
  rw [incoming, Graph.mem_lookup_swap_iff hedges, Graph.mem_lookup_index_iff hedges, mem_edges]

theorem lt_of_mem_lookup_incoming (ha : a.WellFormed)
    (h : state ∈ Graph.lookup a.incoming target) : state < a.size :=
  (edges_lt ha (mem_edges.2 ((mem_lookup_incoming ha).1 h))).1

theorem mem_finals : state ∈ a.finals ↔ a.isFinal state = true := by
  simp only [finals, List.mem_filter, List.mem_range, and_iff_right_iff_imp]
  intro hfinal
  by_contra hnot
  rw [isFinal, finalWeight?, Array.getElem?_eq_none (Nat.le_of_not_lt hnot)] at hfinal
  cases hfinal

theorem lt_of_mem_finals (h : state ∈ a.finals) : state < a.size :=
  List.mem_range.1 (List.mem_filter.1 h).1

theorem nodup_finals (a : Automaton) : a.finals.Nodup := List.nodup_range.filter _

/-- Some run goes from a state to one where it may stop. -/
def CanStop (a : Automaton) (state : Nat) : Prop :=
  ∃ stop, Graph.Reaches a.targets state stop ∧ a.isFinal stop = true

/-- The states that are found to be coaccessible are those from which a run can stop. -/
theorem contains_coaccessible_iff (ha : a.WellFormed) :
    a.coaccessible.contains state = true ↔ a.CanStop state := by
  rw [coaccessible, Graph.contains_explore_iff (fun _ => lt_of_mem_finals)
    fun _ _ => lt_of_mem_lookup_incoming ha]
  -- The worklist goes along the arcs backwards.
  constructor
  · rintro ⟨stop, hstop, path⟩
    exact ⟨stop, path.reverse fun _ _ edge => (mem_lookup_incoming ha).1 edge,
      mem_finals.1 hstop⟩
  · rintro ⟨stop, path, hfinal⟩
    exact ⟨stop, mem_finals.2 hfinal,
      path.reverse fun _ _ edge => (mem_lookup_incoming ha).2 edge⟩

/-! ### Forwards without a word -/

/-- The closure of some states holds the states that paths lead to which consume no word. -/
theorem contains_silentClosure_iff (ha : a.WellFormed) (hsources : ∀ s ∈ sources, s < a.size) :
    (a.silentClosure sources).contains state = true ↔
      ∃ source ∈ sources, Graph.Reaches a.silentTargets source state :=
  Graph.contains_explore_iff hsources fun _ _ => ha.lt_of_mem_silentTargets

/-- The closure of some states has a result when all of them are there. -/
theorem silentClosure?_eq (ha : a.WellFormed) (hsources : ∀ s ∈ sources, s < a.size) :
    a.silentClosure? sources = .ok (a.silentClosure sources).toList := by
  have hthere : (sources ++ (a.silentClosure sources).toList.flatMap a.silentTargets).find?
      (fun state => a.size ≤ state) = none := by
    refine List.find?_eq_none.2 fun state hstate => ?_
    rw [decide_eq_true_eq, Nat.not_le]
    rcases List.mem_append.1 hstate with hstate | hstate
    · exact hsources state hstate
    · obtain ⟨source, -, htarget⟩ := List.mem_flatMap.1 hstate
      exact ha.lt_of_mem_silentTargets htarget
  simp only [silentClosure?, hthere]

/-! ### All of them -/

/-- In every well-formed automaton the three worklists end, each in one way. What is found to be
accessible are the states that paths from the start state lead to, what is found to be coaccessible
those from which paths lead to a final state, and the closure of some states those that paths lead
to from there along arcs that consume no word. Each accessible state is looked at once, and so is
each coaccessible one. -/
theorem worklists_exact (ha : a.WellFormed) :
    ((∀ turns result, Graph.Worklist.Ends a.targets turns (.begin [a.start]) result ↔
        turns = a.accessible.count ∧ result = a.accessible) ∧
      ∀ state, a.accessible.contains state = true ↔ Graph.Reaches a.targets a.start state) ∧
    ((∀ turns result,
        Graph.Worklist.Ends (Graph.lookup a.incoming) turns (.begin a.finals) result ↔
          turns = a.coaccessible.count ∧ result = a.coaccessible) ∧
      ∀ state, a.coaccessible.contains state = true ↔
        ∃ stop, Graph.Reaches a.targets state stop ∧ a.isFinal stop = true) ∧
    ∀ sources, (∀ source ∈ sources, source < a.size) →
      (∃ bound ≤ sources.length + a.size, ∀ turns result,
        Graph.Worklist.Ends a.silentTargets turns (.begin sources) result ↔
          turns = bound ∧ result = a.silentClosure sources) ∧
      a.silentClosure? sources = .ok (a.silentClosure sources).toList ∧
      ∀ state, state ∈ (a.silentClosure sources).toList ↔
        ∃ source ∈ sources, Graph.Reaches a.silentTargets source state := by
  refine ⟨⟨fun _ _ => ?_, fun _ => contains_accessible_iff ha⟩,
    ⟨fun _ _ => ?_, fun _ => contains_coaccessible_iff ha⟩,
    fun sources hsources => ⟨Graph.exists_ends_explore, silentClosure?_eq ha hsources,
      fun _ => Marks.mem_toList.trans (contains_silentClosure_iff ha hsources)⟩⟩
  · exact Graph.ends_explore_iff (List.nodup_singleton _)
      (List.forall_mem_singleton.2 ha.start_lt)
  · exact Graph.ends_explore_iff a.nodup_finals fun _ => lt_of_mem_finals

/-- Runs can go round between the first three states, and stop in the third. They can be lost in the
fourth, and none of them comes to the fifth, which leads to itself and to the second. -/
def winding : Automaton where
  states := #[⟨[⟨some "a", none, 0, 1⟩, ⟨some "b", none, 0, 3⟩], none⟩,
    ⟨[.silent 2], none⟩, ⟨[.silent 1, ⟨some "a", none, 0, 0⟩], some 0⟩,
    ⟨[.silent 3], none⟩, ⟨[.silent 4, .silent 1], none⟩]
  start := 0

theorem worklists_exact_winding :
    winding.WellFormed ∧ winding.isAcyclic = false ∧
      Graph.Worklist.Ends winding.targets 4 (.begin [0]) winding.accessible ∧
      ¬ Graph.Reaches winding.targets 0 4 ∧
      Graph.Worklist.Ends (Graph.lookup winding.incoming) 4 (.begin winding.finals)
        winding.coaccessible ∧
      (¬ ∃ stop, Graph.Reaches winding.targets 3 stop ∧ winding.isFinal stop = true) ∧
      winding.silentClosure? [4, 4] = .ok [1, 2, 4] ∧
      ∃ source ∈ [4, 4], Graph.Reaches winding.silentTargets source 2 := by
  have hwell : winding.WellFormed := by decide
  have hcyclic : winding.isAcyclic = false := by decide +kernel
  have haccessible : winding.accessible.count = 4 ∧ winding.accessible.contains 4 = false := by
    decide +kernel
  have hcoaccessible : winding.coaccessible.count = 4 ∧
      winding.coaccessible.contains 3 = false := by decide +kernel
  have hclosure : (winding.silentClosure [4, 4]).toList = [1, 2, 4] := by decide +kernel
  obtain ⟨⟨hends, hreached⟩, ⟨hback, hstops⟩, hclosures⟩ := worklists_exact hwell
  obtain ⟨-, hresult, hmem⟩ := hclosures [4, 4] (by decide)
  refine ⟨hwell, hcyclic, (hends 4 _).2 ⟨haccessible.1.symm, rfl⟩, ?_,
    (hback 4 _).2 ⟨hcoaccessible.1.symm, rfl⟩, ?_, ?_, (hmem 2).1 (hclosure ▸ by decide)⟩
  · rw [← show winding.start = 0 from rfl, ← hreached 4, haccessible.2]
    exact Bool.false_ne_true
  · rw [← hstops 3, hcoaccessible.2]
    exact Bool.false_ne_true
  · rw [hresult, hclosure]

end Automaton

end Phrasebook
