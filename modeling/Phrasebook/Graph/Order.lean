import Phrasebook.Graph.Reach

/-!
# Topological order

A topological order lists every vertex after all of its predecessors. It is the reverse of the
order in which a depth-first search leaves the vertices, unless there is a cycle; then some
vertex of a cycle is found instead. Vertices are visited by number, and successors in the order
in which their edges were added, so the result is determined by the graph.
-/

namespace Phrasebook

namespace Graph

variable {n : Nat}

/-- What a depth-first search has still to do. -/
inductive Visit
  /-- Look at a vertex. -/
  | enter (v : Nat)
  /-- Close a vertex whose successors have been visited. -/
  | leave (v : Nat)

/-- Visits the vertices in `todo` and everything behind them, and puts each vertex in front of
`done` when it is left. A vertex that is its own successor is reported at once. -/
def visit (successors : Nat → List Nat) (todo : List Visit) (seen : Marks n)
    (done : List Nat) : Except Nat (List Nat) :=
  match todo with
  | [] => .ok done
  | .leave v :: rest => visit successors rest seen (v :: done)
  | .enter v :: rest =>
    if seen.isNew v then
      if v ∈ successors v then .error v
      -- Everything behind the vertex is visited before the vertex is left.
      else visit successors ((successors v).map .enter ++ .leave v :: rest) (seen.mark v) done
    else visit successors rest seen done
termination_by seen.pending (fun v => (successors v).length + 1) + todo.length
decreasing_by
  · simp
  · have := Marks.pending_mark (fun v => (successors v).length + 1) ‹_›
    simp only [List.length_append, List.length_cons, List.length_map]
    omega
  · simp

/-- The first vertex that an order lists too late: a predecessor of some vertex that has not
been listed when that vertex is. -/
def findLate (predecessors : Nat → List Nat) (listed : Marks n) : List Nat → Option Nat
  | [] => none
  | v :: rest =>
    let listed := listed.mark v
    match (predecessors v).find? fun u => !listed.contains u with
    | some u => some u
    | none => findLate predecessors listed rest

/-- A topological order of a graph, or a vertex on a cycle. -/
def topologicalOrder (n : Nat) (successors predecessors : Nat → List Nat) :
    Except Nat (List Nat) := do
  let order ← visit successors ((List.range n).map .enter) (Marks.none n) []
  -- An edge that leads back in the order of leaving closes a cycle.
  match findLate predecessors (Marks.none n) order with
  | some v => .error v
  | none => .ok order

/-- The vertices that can reach a vertex and be reached from it. -/
def component (n : Nat) (successors predecessors : Nat → List Nat) (v : Nat) : List Nat :=
  let forward := reachable n successors [v]
  let backward := reachable n predecessors [v]
  forward.toList.filter backward.contains

/-- A topological order of the graph that some edges make, or a vertex on a cycle. -/
def orderOfEdges (n : Nat) (edges : List (Nat × Nat)) : Except Nat (List Nat) :=
  let successors := index n edges
  let predecessors := index n (edges.map Prod.swap)
  topologicalOrder n (lookup successors) (lookup predecessors)

end Graph

end Phrasebook
