import Phrasebook.Graph.Marks

/-!
# Worklists

A worklist marks what can be reached from some vertices. A vertex is marked as soon as it is met,
and with that it is put on the list. Each turn takes the vertex off the list that was put there
last and meets its successors. So a vertex that is marked has been looked at, or it is on the list.

A vertex is put on the list only when one less is left to be marked. So a turn lowers
`Worklist.pending` by the vertex that it takes off, and the work ends on every graph.
-/

namespace Phrasebook

namespace Graph

/-- A search of a graph with `n` vertices for what can be reached. -/
structure Worklist (n : Nat) where
  /-- The vertices to be looked at, with the one that was met last in front. -/
  todo : List Nat
  /-- The vertices that have been met. -/
  seen : Marks n

namespace Worklist

variable {n : Nat}

/-- The search that has met nothing but the vertices in which it begins. -/
def begin (sources : List Nat) : Worklist n :=
  ⟨sources.reverse, sources.foldl Marks.mark (.none n)⟩

/-- Marks a vertex and puts it on the list, unless it has been met before. -/
def meet (s : Worklist n) (v : Nat) : Worklist n :=
  if s.seen.isNew v then ⟨v :: s.todo, s.seen.mark v⟩ else s

/-- Meets the successors of a vertex that has been taken off the list, in their order. -/
def look (successors : Nat → List Nat) (s : Worklist n) (v : Nat) : Worklist n :=
  (successors v).foldl meet s

/-- The number of turns that are left when all vertices will be met. -/
def pending (s : Worklist n) : Nat := s.seen.unmarked + s.todo.length

/-- What is marked goes on the list. -/
theorem pending_meet {s : Worklist n} {v : Nat} : (s.meet v).pending = s.pending := by
  unfold meet
  split
  · have := Marks.unmarked_mark ‹_›
    simp only [pending, List.length_cons]
    omega
  · rfl

theorem pending_foldl_meet {s : Worklist n} {vs : List Nat} :
    (vs.foldl meet s).pending = s.pending := by
  induction vs generalizing s with
  | nil => rfl
  | cons v vs ih => rw [List.foldl_cons, ih, pending_meet]

theorem pending_look {successors : Nat → List Nat} {s : Worklist n} {v : Nat} :
    (s.look successors v).pending = s.pending := pending_foldl_meet

/-- What is marked when the list is empty. -/
def run (successors : Nat → List Nat) (s : Worklist n) : Marks n :=
  match s with
  | ⟨[], seen⟩ => seen
  | ⟨v :: rest, seen⟩ => run successors (look successors ⟨rest, seen⟩ v)
termination_by s.pending
decreasing_by
  rw [pending_look]
  simp [pending]

end Worklist

/-- What a worklist marks that begins with some vertices of a graph with `n` vertices. -/
def explore (n : Nat) (successors : Nat → List Nat) (sources : List Nat) : Marks n :=
  (Worklist.begin sources).run successors

end Graph

end Phrasebook
