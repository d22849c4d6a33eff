import Phrasebook.Proofs.Recognition.StopWords

/-!
# The ranks of states

Within a position, the table of fuzzy recognition is filled against the order of the arcs that
consume nothing: the continuation behind such an arc has to be there before the arc is looked at.
The place of a state in this order is its rank. A recognizer is refused exactly when there is no
such order, and then for a state that leads back to itself. Nothing of this asks whether a state
can be reached.

* `Graph.IsOrder.perm`, `Graph.IsOrder.idxOf_lt`: an order lists the vertices, and edges lead to
  later places.
* `FuzzyRecognizer.rank`: the rank of a state.
* `FuzzyRecognizer.exists_new_iff`, `FuzzyRecognizer.onCycle_of_new`: when there is a recognizer,
  and why it is refused.
* `FuzzyRecognizer.new_exact`: the check for cycles misses none, and reports none that is not
  there.
-/

namespace Phrasebook

namespace Graph

variable {n : Nat} {successors : Nat → List Nat} {order : List Nat}

/-- The vertices are the numbers below the size. -/
theorem IsOrder.perm (h : IsOrder n successors order) : order.Perm (List.range n) :=
  (List.perm_ext_iff_of_nodup h.nodup List.nodup_range).2 fun v => by
    rw [h.mem_iff, List.mem_range]

/-- An edge leads to a later place. -/
theorem IsOrder.idxOf_lt (h : IsOrder n successors order) {u v : Nat} (hu : u < n) (hv : v < n)
    (edge : v ∈ successors u) : order.idxOf u < order.idxOf v := by
  obtain ⟨before, after, rfl⟩ := List.append_of_mem ((h.mem_iff v).2 hv)
  have hbefore : u ∈ before := h.mem_of_edge hu edge
  have hnot : v ∉ before := fun hmem =>
    (List.nodup_append.1 h.nodup).2.2 v hmem v List.mem_cons_self rfl
  rw [List.idxOf_append_of_mem hbefore, List.idxOf_append_of_notMem hnot, List.idxOf_cons_self]
  exact List.idxOf_lt_length_iff.2 hbefore

/-- The places of the members of a list are all of its places. -/
theorem map_idxOf_self (h : order.Nodup) :
    order.map order.idxOf = List.range order.length := by
  refine List.ext_getElem (by simp) fun i hi _ => ?_
  rw [List.getElem_map, List.getElem_range]
  exact List.get_idxOf h ⟨i, by simpa using hi⟩

/-- Every number below the size is the place of one vertex. -/
theorem IsOrder.map_idxOf_perm (h : IsOrder n successors order) :
    ((List.range n).map order.idxOf).Perm (List.range n) := by
  have hplaces := h.perm.symm.map order.idxOf
  rwa [map_idxOf_self h.nodup, h.perm.length_eq, List.length_range] at hplaces

end Graph

namespace FuzzyRecognizer

variable {a : Automaton} {leniency : Leniency} {filter : Option WordSet} {r : FuzzyRecognizer}

/-- The place of a state among those that are looked at, last first, within a position. -/
def rank (r : FuzzyRecognizer) (state : Nat) : Nat := r.order.idxOf state

/-- The states of an automaton are in the order of its recognizer. -/
theorem isOrder_order (ha : a.WellFormed) (h : new a leniency filter = .ok r) :
    Graph.IsOrder a.size a.silentTargets r.order := by
  obtain ⟨rfl, horder⟩ := isOrder_of_new ha h
  exact horder

/-- There is a recognizer exactly when no state leads back to itself over arcs that consume
nothing. -/
theorem exists_new_iff (ha : a.WellFormed) :
    (∃ r, new a leniency filter = .ok r) ↔ ∀ state, ¬ Graph.OnCycle a.silentTargets state := by
  constructor
  · rintro ⟨r, h⟩ state hcycle
    obtain ⟨target, htarget, path⟩ := hcycle
    -- A state on a cycle has an arc, so it is among the states that are put into order.
    obtain ⟨arc, harc, -⟩ := List.mem_map.1 htarget
    have hstate := Automaton.lt_size_of_mem_arcs (List.mem_filter.1 harc).1
    exact (isOrder_order ha h).not_onCycle hstate ⟨target, htarget, path⟩
  · intro hacyclic
    obtain ⟨order, heq, -⟩ := Automaton.silentOrder_of_acyclic ha hacyclic
    exact ⟨_, new_eq_ok_iff.2 ⟨order, heq, rfl⟩⟩

/-- A recognizer is refused for a state that leads back to itself. -/
theorem onCycle_of_new (ha : a.WellFormed) {e : Error} (h : new a leniency filter = .error e) :
    ∃ state, e = .malformedPath (.silentCycle state) ∧
      Graph.OnCycle a.silentTargets state := by
  have horder := Automaton.silentOrder_spec ha
  rw [new] at h
  split at h
  · cases h
  · next state heq =>
    cases h
    rw [heq] at horder
    exact ⟨state, rfl, horder⟩

/-- The rank of a state is its place in the order. -/
theorem order_getElem?_rank (ha : a.WellFormed) (h : new a leniency filter = .ok r)
    {state : Nat} (hstate : state < a.size) : r.order[r.rank state]? = some state :=
  List.getElem?_idxOf (((isOrder_order ha h).mem_iff state).2 hstate)

/-- The ranks are numbers of states. -/
theorem rank_lt (ha : a.WellFormed) (h : new a leniency filter = .ok r) {state : Nat}
    (hstate : state < a.size) : r.rank state < a.size := by
  have horder := isOrder_order ha h
  have hlt := List.idxOf_lt_length_iff.2 ((horder.mem_iff state).2 hstate)
  rwa [horder.perm.length_eq, List.length_range] at hlt

/-- Arcs that consume nothing lead to states of a higher rank. -/
theorem rank_lt_of_mem_arcs (ha : a.WellFormed) (h : new a leniency filter = .ok r) {state : Nat}
    {arc : Automaton.Arc} (harc : arc ∈ a.arcs state) (hsilent : arc.isSilent = true) :
    r.rank state < r.rank arc.target := by
  have hedge : arc.target ∈ a.silentTargets state :=
    List.mem_map_of_mem (List.mem_filter.2 ⟨harc, hsilent⟩)
  exact (isOrder_order ha h).idxOf_lt (Automaton.lt_size_of_mem_arcs harc)
    (ha.target_lt state arc harc) hedge

/-- The check for cycles of arcs that consume nothing is exact, wherever the states of a cycle
are. There is a recognizer when there is no such cycle. Its ranks are then the numbers below the
size, each of one state, and every arc that consumes nothing leads to a higher one. Otherwise the
state that the message names lies on a cycle. -/
theorem new_exact (ha : a.WellFormed) (leniency : Leniency) (filter : Option WordSet) :
    ((∃ r, new a leniency filter = .ok r) ↔
      ∀ state, ¬ Graph.OnCycle a.silentTargets state) ∧
    (∀ r, new a leniency filter = .ok r →
      ((List.range a.size).map r.rank).Perm (List.range a.size) ∧
      (∀ state < a.size, r.order[r.rank state]? = some state) ∧
      ∀ state, ∀ arc ∈ a.arcs state, arc.isSilent = true →
        r.rank state < r.rank arc.target) ∧
    ∀ e, new a leniency filter = .error e → ∃ state,
      e = .malformedPath (.silentCycle state) ∧
      e.message = "malformed path: epsilon cycle through state " ++ Nat.repr state ∧
      Graph.OnCycle a.silentTargets state := by
  refine ⟨exists_new_iff ha, fun r h => ⟨?_, ?_, ?_⟩, fun e h => ?_⟩
  · exact (isOrder_order ha h).map_idxOf_perm
  · exact fun _ => order_getElem?_rank ha h
  · exact fun _ _ => rank_lt_of_mem_arcs ha h
  · obtain ⟨state, rfl, hcycle⟩ := onCycle_of_new ha h
    exact ⟨state, rfl, String.append_assoc.symm, hcycle⟩

/-- Two states that cannot be reached, with two arcs between them that consume nothing, are put
into order; when an arc leads back, then the recognizer is refused. -/
theorem new_exact_unreachable : ∃ a b : Automaton,
    a = ⟨#[.stop, ⟨[.silent 2, .emit .closeEntity 2], none⟩, ⟨[.silent 0], none⟩], 0⟩ ∧
    b = ⟨#[.stop, ⟨[.silent 2, .emit .closeEntity 2], none⟩, ⟨[.silent 1], none⟩], 0⟩ ∧
    (∃ r, new a ⟨∅, none, true⟩ none = .ok r ∧ r.rank 1 < r.rank 2 ∧ r.rank 2 < r.rank 0) ∧
    ∃ state, new b ⟨∅, none, true⟩ none = .error (.malformedPath (.silentCycle state)) ∧
      Graph.OnCycle b.silentTargets state := by
  refine ⟨_, _, rfl, rfl, ?_, ?_⟩
  · generalize hall : Automaton.mk _ _ = a
    obtain ⟨hiff, hranks, -⟩ := @new_exact a (by subst hall; decide) ⟨∅, none, true⟩ none
    have hedges : ∀ u, ∀ v ∈ a.silentTargets u, [2, 0, 1].getD u 3 < [2, 0, 1].getD v 3 := by
      subst hall
      rintro (_ | _ | _ | u)
      iterate 3 decide
      exact fun v hv => absurd hv List.not_mem_nil
    obtain ⟨r, hr⟩ := hiff.2 (Graph.not_onCycle_of_rank _ hedges)
    have hrank := (hranks r hr).2.2
    subst hall
    exact ⟨r, hr, hrank 1 (.silent 2) List.mem_cons_self rfl,
      hrank 2 (.silent 0) List.mem_cons_self rfl⟩
  · generalize hall : Automaton.mk _ _ = b
    obtain ⟨hiff, -, herror⟩ := @new_exact b (by subst hall; decide) ⟨∅, none, true⟩ none
    have hcycle : Graph.OnCycle b.silentTargets 1 := by
      subst hall
      exact ⟨2, by decide, .single (by decide)⟩
    cases hnew : new b ⟨∅, none, true⟩ none with
    | ok r => exact absurd hcycle (hiff.1 ⟨r, hnew⟩ 1)
    | error e =>
      obtain ⟨state, rfl, -, hstate⟩ := herror e hnew
      exact ⟨state, rfl, hstate⟩

end FuzzyRecognizer

end Phrasebook
