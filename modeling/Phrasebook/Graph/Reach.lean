import Phrasebook.Graph.Marks

/-!
# Reachable vertices

A search along the edges of a graph marks everything that can be reached from where it starts.
The graph is given by the list of successors of each vertex. A vertex is marked when it is looked
at, so it may be listed more than once before.
-/

namespace Phrasebook

namespace Graph

variable {n : Nat}

/-- Marks what can be reached from the vertices in `todo`, apart from what is marked. -/
def reach (successors : Nat → List Nat) (todo : List Nat) (seen : Marks n) : Marks n :=
  match todo with
  | [] => seen
  | v :: rest =>
    -- Every new vertex takes its successors off what is pending, so the search ends.
    if seen.isNew v then reach successors (successors v ++ rest) (seen.mark v)
    else reach successors rest seen
termination_by seen.pending (fun v => (successors v).length) + todo.length
decreasing_by
  · have := Marks.pending_mark (fun v => (successors v).length) ‹_›
    simp only [List.length_append, List.length_cons]
    omega
  · simp

/-- What can be reached from some vertices of a graph with `n` vertices. -/
def reachable (n : Nat) (successors : Nat → List Nat) (sources : List Nat) : Marks n :=
  reach successors sources (.none n)

/-- For each vertex below `n`, the second members of the pairs that begin with it, in the order
of the pairs. -/
def index (n : Nat) (pairs : List (Nat × Nat)) : Array (List Nat) :=
  pairs.foldr (fun (u, v) lists => lists.modify u (v :: ·)) (Array.replicate n [])

/-- The successors that an index gives to a vertex. -/
def lookup (lists : Array (List Nat)) (v : Nat) : List Nat := lists[v]?.getD []

theorem size_index {n : Nat} {pairs : List (Nat × Nat)} : (index n pairs).size = n := by
  induction pairs with
  | nil => simp [index]
  | cons p ps ih => simpa [index] using ih

/-- An index finds nothing for a number that is no vertex. -/
theorem lookup_index_of_le {n u : Nat} {pairs : List (Nat × Nat)} (hu : n ≤ u) :
    lookup (index n pairs) u = [] := by
  rw [lookup, Array.getElem?_eq_none (by rwa [size_index]), Option.getD_none]

/-- An index finds exactly the pairs that begin with a vertex. -/
theorem lookup_index {n u : Nat} {pairs : List (Nat × Nat)} (hu : u < n) :
    lookup (index n pairs) u = (pairs.filter (·.1 = u)).map Prod.snd := by
  induction pairs with
  | nil => simp [lookup, index, hu]
  | cons p ps ih =>
    obtain ⟨a, b⟩ := p
    have hstep : index n ((a, b) :: ps) = (index n ps).modify a (b :: ·) := rfl
    have hlt : u < (index n ps).size := by rw [size_index]; exact hu
    simp only [lookup, hlt, getElem?_pos, Option.getD_some] at ih
    simp only [lookup, hstep, Array.getElem?_modify, hlt, getElem?_pos, List.filter_cons]
    by_cases hau : a = u
    · simp [hau, ih]
    · simp [hau, ih]

end Graph

end Phrasebook
