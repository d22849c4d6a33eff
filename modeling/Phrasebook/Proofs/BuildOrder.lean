import Mathlib.Data.List.Sort
import Mathlib.Data.String.Basic
import Mathlib.Logic.Relation
import Phrasebook.Proofs.Dependency
import Phrasebook.Proofs.Graph.Order

/-!
# Build orders and cycles of needs

The nodes of a graph of needs are put in an order in which everything comes after what it needs,
unless some node needs itself by way of others. The positions of the nodes make up a graph of
numbers, whose paths are those of the needs, so that this is the statement about numbers said
again about nodes. What is reported of a cycle is the component of a node that lies on it.

* `DependencyGraph.IsBuildOrder`: every node once, and after what it needs.
* `DependencyGraph.NamesCycle`: names are those of the component of a node on a cycle.
* `DependencyGraph.reaches_iff`: paths between positions are paths of needs.
* `DependencyGraph.buildOrder_spec`: a build order, or a report of a cycle.
* `DependencyGraph.buildOrder_correct`: which of them, for the graphs that can be made.
-/

namespace Phrasebook

/-- Different nodes are written differently: the first character tells their kinds apart. -/
theorem Node.text_injective : Function.Injective Node.text := by
  intro a b h
  have hchars := congrArg String.toList h
  cases a <;> cases b <;> simp [Node.text, ← String.toList_inj] at hchars ⊢ <;> exact hchars

namespace DependencyGraph

open Relation (ReflTransGen TransGen)

variable {g : DependencyGraph} {node other : Node} {i j : Nat}

/-- An order in which everything can be built. -/
structure IsBuildOrder (g : DependencyGraph) (order : List Node) : Prop where
  /-- No node is listed twice. -/
  nodup : order.Nodup
  /-- The nodes of the graph are listed. -/
  mem_iff : ∀ node, node ∈ order ↔ node ∈ g.nodes
  /-- What a node needs is listed before it. -/
  precedes : ∀ before node after, order = before ++ node :: after →
    ∀ needed, g.Needs needed node → needed ∈ before

/-- Names are those of all nodes that need each other together with a node on a cycle. -/
def NamesCycle (g : DependencyGraph) (names : List String) : Prop :=
  ∃ node, TransGen g.Needs node node ∧ names.Pairwise (· < ·) ∧
    ∀ name, name ∈ names ↔ ∃ other, other.text = name ∧
      ReflTransGen g.Needs node other ∧ ReflTransGen g.Needs other node

/-! ### Nodes and their positions -/

/-- The successors of a position. -/
def successors (g : DependencyGraph) : Nat → List Nat :=
  Graph.lookup (Graph.index g.nodes.length g.edges)

section WellFormed

variable (hg : g.WellFormed)
include hg

theorem WellFormed.getElem?_eq_some_iff :
    g.nodes[i]? = some node ↔ node ∈ g.nodes ∧ g.nodes.idxOf node = i := by
  constructor
  · intro h
    obtain ⟨hi, rfl⟩ := List.getElem?_eq_some_iff.1 h
    exact ⟨List.getElem_mem hi, hg.nodup.idxOf_getElem i hi⟩
  · rintro ⟨hmem, rfl⟩
    exact List.getElem?_eq_some_iff.2
      ⟨List.idxOf_lt_length_iff.2 hmem, List.getElem_idxOf (List.idxOf_lt_length_iff.2 hmem)⟩

/-- Edges are between positions of nodes. -/
theorem WellFormed.edges_lt :
    ∀ edge ∈ g.edges, edge.1 < g.nodes.length ∧ edge.2 < g.nodes.length := by
  intro edge hedge
  obtain ⟨⟨needed, dependent⟩, hneed, rfl⟩ := List.mem_map.1 hedge
  exact ⟨List.idxOf_lt_length_iff.2 (hg.needed_mem hneed),
    List.idxOf_lt_length_iff.2 (hg.dependent_mem hneed)⟩

/-- A position has those successors whose nodes need its node. -/
theorem WellFormed.mem_successors_iff : j ∈ g.successors i ↔
    ∃ needed dependent, g.Needs needed dependent ∧ g.nodes.idxOf needed = i ∧
      g.nodes.idxOf dependent = j := by
  rw [successors, Graph.mem_lookup_index_iff hg.edges_lt, edges, List.mem_map]
  simp only [Prod.exists, Prod.mk.injEq]
  rfl

theorem WellFormed.mem_successors (h : g.Needs node other) :
    g.nodes.idxOf other ∈ g.successors (g.nodes.idxOf node) :=
  hg.mem_successors_iff.2 ⟨node, other, h, rfl, rfl⟩

/-- Paths between the positions of nodes are paths of needs. -/
theorem WellFormed.reaches_iff (hnode : node ∈ g.nodes) (hother : other ∈ g.nodes) :
    Graph.Reaches g.successors (g.nodes.idxOf node) (g.nodes.idxOf other) ↔
      ReflTransGen g.Needs node other := by
  constructor
  · intro path
    generalize hi : g.nodes.idxOf node = i at path
    generalize hj : g.nodes.idxOf other = j at path
    induction path generalizing node with
    | refl =>
      obtain rfl := (List.idxOf_inj hnode).1 (hi.trans hj.symm)
      exact .refl
    | head edge _ ih =>
      obtain ⟨needed, dependent, hneeds, hneeded, hdependent⟩ := hg.mem_successors_iff.1 edge
      obtain rfl := (List.idxOf_inj hnode).1 (hi.trans hneeded.symm)
      exact .head hneeds (ih (hg.dependent_mem hneeds) hdependent hj)
  · intro path
    induction path using ReflTransGen.head_induction_on with
    | refl => exact .refl _
    | head hneeds _ ih => exact .head (hg.mem_successors hneeds) (ih (hg.dependent_mem hneeds))

/-- A position on a cycle is that of a node on a cycle. -/
theorem WellFormed.onCycle_iff (hnode : node ∈ g.nodes) :
    Graph.OnCycle g.successors (g.nodes.idxOf node) ↔ TransGen g.Needs node node := by
  rw [Graph.OnCycle, Relation.TransGen.head'_iff]
  constructor
  · rintro ⟨k, edge, path⟩
    obtain ⟨needed, dependent, hneeds, hneeded, rfl⟩ := hg.mem_successors_iff.1 edge
    obtain rfl := (List.idxOf_inj (hg.needed_mem hneeds)).1 hneeded
    exact ⟨dependent, hneeds, (hg.reaches_iff (hg.dependent_mem hneeds) hnode).1 path⟩
  · rintro ⟨dependent, hneeds, path⟩
    exact ⟨_, hg.mem_successors hneeds, (hg.reaches_iff (hg.dependent_mem hneeds) hnode).2 path⟩

theorem WellFormed.mem_nodesAt_iff {positions : List Nat} :
    node ∈ g.nodesAt positions ↔ node ∈ g.nodes ∧ g.nodes.idxOf node ∈ positions := by
  rw [nodesAt, List.mem_filterMap]
  constructor
  · rintro ⟨i, hi, hget⟩
    obtain ⟨hnode, rfl⟩ := hg.getElem?_eq_some_iff.1 hget
    exact ⟨hnode, hi⟩
  · rintro ⟨hnode, hi⟩
    exact ⟨_, hi, hg.getElem?_eq_some_iff.2 ⟨hnode, rfl⟩⟩

theorem WellFormed.nodup_nodesAt {positions : List Nat} (h : positions.Nodup) :
    (g.nodesAt positions).Nodup := by
  refine h.filterMap fun i j node hi hj => ?_
  exact (hg.getElem?_eq_some_iff.1 hi).2.symm.trans (hg.getElem?_eq_some_iff.1 hj).2

/-! ### Orders and cycles -/

/-- An order of the positions gives one of the nodes. -/
theorem WellFormed.isBuildOrder {order : List Nat}
    (h : Graph.IsOrder g.nodes.length g.successors order) :
    g.IsBuildOrder (g.nodesAt order) := by
  refine ⟨hg.nodup_nodesAt h.nodup, fun node => ?_, fun before node after heq needed hneeds => ?_⟩
  · rw [hg.mem_nodesAt_iff, h.mem_iff, List.idxOf_lt_length_iff, and_self]
  · -- The node stands at a position of the order, before which there are only those of nodes.
    obtain ⟨front, rest, rfl, rfl, hback⟩ := List.filterMap_eq_append_iff.1 heq
    obtain ⟨gap, j, back, rfl, hgap, hj, rfl⟩ := List.filterMap_eq_cons_iff.1 hback
    obtain ⟨hnode, rfl⟩ := hg.getElem?_eq_some_iff.1 hj
    rw [← List.append_assoc] at h
    have hmem := h.mem_of_edge (List.idxOf_lt_length_iff.2 (hg.needed_mem hneeds))
      (hg.mem_successors hneeds)
    rcases List.mem_append.1 hmem with hmem | hmem
    · exact hg.mem_nodesAt_iff.2 ⟨hg.needed_mem hneeds, hmem⟩
    · have hneeded := hg.getElem?_eq_some_iff.2 ⟨hg.needed_mem hneeds, rfl⟩
      exact absurd ((hgap _ hmem).symm.trans hneeded) (Option.some_ne_none _).symm

omit hg in
/-- Different names that are put in order increase. -/
theorem pairwise_lt_mergeSort {names : List String} (h : names.Nodup) :
    (names.mergeSort fun a b => decide (a ≤ b)).Pairwise (· < ·) := by
  have hle := List.pairwise_mergeSort' (· ≤ ·) names
  have hnodup := (List.mergeSort_perm names fun a b => decide (a ≤ b)).nodup_iff.2 h
  exact (hle.and hnodup).imp fun ⟨hab, hne⟩ => lt_of_le_of_ne hab hne

/-- What a node needs, and what that needs, are nodes. -/
theorem WellFormed.mem_of_reflTransGen (hnode : node ∈ g.nodes)
    (path : ReflTransGen g.Needs node other) : other ∈ g.nodes := by
  cases path with
  | refl => exact hnode
  | tail _ hneeds => exact hg.dependent_mem hneeds

/-- The names of the component of a node on a cycle. -/
theorem WellFormed.namesCycle (hi : i < g.nodes.length)
    (h : Graph.OnCycle g.successors i) : g.NamesCycle (g.cycleThrough i) := by
  obtain ⟨node, rfl⟩ : ∃ node, g.nodes.idxOf node = i :=
    ⟨_, hg.nodup.idxOf_getElem i hi⟩
  have hnode : node ∈ g.nodes := List.idxOf_lt_length_iff.1 hi
  refine ⟨node, (hg.onCycle_iff hnode).1 h, ?_, fun name => ?_⟩
  · have hcomponent := Graph.nodup_component (n := g.nodes.length) g.successors
      (Graph.lookup (Graph.index g.nodes.length (g.edges.map Prod.swap))) (g.nodes.idxOf node)
    exact pairwise_lt_mergeSort
      ((hg.nodup_nodesAt hcomponent).map Node.text_injective)
  · have hother : ∀ other, other ∈ g.nodesAt (Graph.component g.nodes.length g.successors
        (Graph.lookup (Graph.index g.nodes.length (g.edges.map Prod.swap)))
        (g.nodes.idxOf node)) ↔
        ReflTransGen g.Needs node other ∧ ReflTransGen g.Needs other node := by
      intro other
      rw [hg.mem_nodesAt_iff, successors, Graph.mem_component_iff hg.edges_lt hi]
      constructor
      · rintro ⟨hother, forth, back⟩
        exact ⟨(hg.reaches_iff hnode hother).1 forth, (hg.reaches_iff hother hnode).1 back⟩
      · rintro ⟨forth, back⟩
        have hother := hg.mem_of_reflTransGen hnode forth
        exact ⟨hother, (hg.reaches_iff hnode hother).2 forth,
          (hg.reaches_iff hother hnode).2 back⟩
    rw [cycleThrough, List.mem_mergeSort, List.mem_map]
    refine exists_congr fun other => ?_
    rw [and_comm]
    exact and_congr_right fun _ => hother other

/-- The nodes are put in order, or a cycle is reported. -/
theorem WellFormed.buildOrder_spec :
    match g.buildOrder with
    | .ok order => g.IsBuildOrder order
    | .error e => ∃ names, e = .cyclic names ∧ g.NamesCycle names := by
  have h := Graph.orderOfEdges_spec hg.edges_lt
  rw [buildOrder]
  cases heq : Graph.orderOfEdges g.nodes.length g.edges with
  | ok order =>
    rw [heq] at h
    exact hg.isBuildOrder h
  | error i =>
    rw [heq] at h
    refine ⟨_, rfl, hg.namesCycle ?_ h⟩
    obtain ⟨j, edge, _⟩ := h
    exact (Graph.lt_of_mem_lookup hg.edges_lt edge).1

end WellFormed

/-- What leads to a node stands before it in a build order. -/
theorem IsBuildOrder.precedes_of_transGen {order : List Node} (h : g.IsBuildOrder order)
    (path : TransGen g.Needs other node) :
    ∀ before after, order = before ++ node :: after → other ∈ before := by
  induction path with
  | single hneeds => exact fun before after heq => h.precedes before _ after heq _ hneeds
  | tail _ hneeds ih =>
    rintro before after rfl
    obtain ⟨front, back, rfl⟩ := List.append_of_mem (h.precedes before _ after rfl _ hneeds)
    have hfront := ih front (back ++ _ :: after) (by rw [List.append_assoc, List.cons_append])
    exact List.mem_append_left _ hfront

/-- Where there is a build order there is no cycle. -/
theorem IsBuildOrder.acyclic {order : List Node} (hg : g.WellFormed) (h : g.IsBuildOrder order)
    (node : Node) : ¬ TransGen g.Needs node node := by
  intro path
  obtain ⟨last, _, hneeds⟩ := Relation.TransGen.tail'_iff.1 path
  obtain ⟨before, after, rfl⟩ := List.append_of_mem ((h.mem_iff node).2 (hg.dependent_mem hneeds))
  have hmem := h.precedes_of_transGen path before after rfl
  exact (List.nodup_append.1 h.nodup).2.2 node hmem node List.mem_cons_self rfl

/-! ### The graphs that can be made -/

/-- The graphs that are made by any sequence of operations. -/
inductive Built : DependencyGraph → Prop
  /-- The graph without nodes. -/
  | empty : Built .empty
  /-- The graph of a section. -/
  | ofSection (s : Section) : Built (.ofSection s)
  /-- The graph of a grammar all of whose references are defined. -/
  | ofGrammar {grammar : Grammar} {slots : WordSet} {g : DependencyGraph}
    (defined : DependencyGraph.ofGrammar grammar slots = .ok g) : Built g
  /-- A graph to which a need is added, whether or not it has that need already. -/
  | add {g : DependencyGraph} (before : Built g) (needed dependent : Node) :
    Built (g.add needed dependent)

theorem Built.wellFormed (h : g.Built) : g.WellFormed := by
  induction h with
  | empty => exact wellFormed_empty
  | ofSection s => exact (extends_ofSection s).wellFormed wellFormed_empty
  | ofGrammar defined => exact (extends_of_ofGrammar defined).wellFormed wellFormed_empty
  | add _ needed dependent ih => exact (extends_add _ needed dependent).wellFormed ih

/-- A graph has a build order exactly when it has no cycle. The order lists every node once and
after what it needs; and when there is none, then the names of a component that holds a cycle are
reported in order. -/
theorem buildOrder_correct (h : g.Built) :
    ((∃ order, g.buildOrder = .ok order) ↔ ∀ node, ¬ TransGen g.Needs node node) ∧
      (∀ order, g.buildOrder = .ok order → g.IsBuildOrder order) ∧
      ∀ e, g.buildOrder = .error e → ∃ names, e = .cyclic names ∧ g.NamesCycle names := by
  have hspec := h.wellFormed.buildOrder_spec
  split at hspec
  · next order heq =>
    refine ⟨iff_of_true ⟨order, heq⟩ (hspec.acyclic h.wellFormed), ?_, ?_⟩
    · intro order' heq'
      cases heq.symm.trans heq'
      exact hspec
    · intro e he
      cases heq.symm.trans he
  · next e heq =>
    obtain ⟨names, hnames, node, hcycle, hreport⟩ := hspec
    refine ⟨iff_of_false ?_ fun hacyclic => hacyclic node hcycle, ?_, ?_⟩
    · rintro ⟨order, horder⟩
      cases heq.symm.trans horder
    · intro order horder
      cases heq.symm.trans horder
    · intro e' he
      cases heq.symm.trans he
      exact ⟨names, hnames, node, hcycle, hreport⟩

/-- Two rules that need each other, a need that is added twice, and an intent that needs one of
the rules. -/
theorem buildOrder_correct_loop : ∃ g, Built g ∧
    g.buildOrder.isOk = false ∧
    ((∃ order, g.buildOrder = .ok order) ↔ ∀ node, ¬ TransGen g.Needs node node) ∧
      (∀ order, g.buildOrder = .ok order → g.IsBuildOrder order) ∧
      ∀ e, g.buildOrder = .error e → ∃ names, e = .cyclic names ∧ g.NamesCycle names := by
  have hbuilt : Built ((((empty.add (.rule "Loop.b") (.rule "Loop.a")).add (.rule "Loop.a")
      (.rule "Loop.b")).add (.rule "Loop.b") (.rule "Loop.a")).add (.rule "Loop.a")
      (.intent "Loop")) :=
    .add (.add (.add (.add .empty _ _) _ _) _ _) _ _
  exact ⟨_, hbuilt, by decide +kernel, buildOrder_correct hbuilt⟩

end DependencyGraph

end Phrasebook
