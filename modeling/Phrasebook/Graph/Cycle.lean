import Phrasebook.Graph.Marks

/-!
# Looking for a cycle

A depth-first search goes along one path at a time. The vertices that it has not met are *white*,
those of the path are *grey*, and those which it has left, with everything behind them, are *black*.
An edge that leads back to a grey vertex closes a cycle. When the search has left the vertex in
which it began, then no cycle can be reached from there.

Each turn of the search looks at one edge, or it leaves one vertex. What is still to be done is
counted by `CycleSearch.pending`, and every turn lowers it by one.
-/

namespace Phrasebook

namespace Graph

/-- How far a search has come with a vertex. -/
inductive Colour
  /-- The vertex has not been met. -/
  | white
  /-- The vertex is one of the path. -/
  | grey
  /-- The vertex has been left, and everything behind it as well. -/
  | black
  deriving DecidableEq, Repr

/-- A vertex of the path, with those of its successors that have not been looked at. -/
structure Frame where
  /-- The vertex. -/
  vertex : Nat
  /-- The successors that are left over. -/
  rest : List Nat
  deriving DecidableEq, Repr

/-- A search for a cycle in a graph with `n` vertices. -/
structure CycleSearch (n : Nat) where
  /-- The path, with the vertex that was met last in front. -/
  path : List Frame
  /-- The vertices that have been met. -/
  met : Marks n
  /-- The vertices that have been left. -/
  left : Marks n

namespace CycleSearch

variable {n : Nat}

/-- The search that has met nothing but the vertex in which it begins. -/
def begin (successors : Nat → List Nat) (source : Nat) : CycleSearch n :=
  ⟨[⟨source, successors source⟩], (Marks.none n).mark source, .none n⟩

/-- The colour of a vertex. A number of no vertex is black, as nothing is behind it. -/
def colour (s : CycleSearch n) (v : Nat) : Colour :=
  if s.met.isNew v then .white
  else if v < n && !s.left.contains v then .grey
  else .black

/-- One turn of the search: the result, or the search that goes on. -/
def turn (successors : Nat → List Nat) (s : CycleSearch n) : Bool ⊕ CycleSearch n :=
  match s.path with
  | [] => .inl true
  | ⟨v, []⟩ :: path => .inr { s with path, left := s.left.mark v }
  | ⟨v, w :: rest⟩ :: path =>
    match s.colour w with
    | .white =>
      .inr { s with path := ⟨w, successors w⟩ :: ⟨v, rest⟩ :: path, met := s.met.mark w }
    -- The edge leads back to where the path has been.
    | .grey => .inl false
    | .black => .inr { s with path := ⟨v, rest⟩ :: path }

/-- The number of turns that are left for a path: one for each edge that has not been looked at, and
one for each vertex. -/
def ahead (path : List Frame) : Nat := path.foldr (fun f sum => f.rest.length + 1 + sum) 0

/-- The number of turns that are left when all vertices will be met. -/
def pending (successors : Nat → List Nat) (s : CycleSearch n) : Nat :=
  s.met.pending (fun v => (successors v).length + 1) + ahead s.path

section Turns

variable {successors : Nat → List Nat} {s s' : CycleSearch n} {v w : Nat} {rest : List Nat}
  {path : List Frame}

theorem turn_of_nil (h : s.path = []) : s.turn successors = .inl true := by
  rw [turn, h]

theorem turn_of_leave (h : s.path = ⟨v, []⟩ :: path) :
    s.turn successors = .inr { s with path, left := s.left.mark v } := by
  rw [turn, h]

theorem turn_of_white (h : s.path = ⟨v, w :: rest⟩ :: path) (hcolour : s.colour w = .white) :
    s.turn successors =
      .inr { s with path := ⟨w, successors w⟩ :: ⟨v, rest⟩ :: path, met := s.met.mark w } := by
  simp only [turn, h, hcolour]

theorem turn_of_grey (h : s.path = ⟨v, w :: rest⟩ :: path) (hcolour : s.colour w = .grey) :
    s.turn successors = .inl false := by
  simp only [turn, h, hcolour]

theorem turn_of_black (h : s.path = ⟨v, w :: rest⟩ :: path) (hcolour : s.colour w = .black) :
    s.turn successors = .inr { s with path := ⟨v, rest⟩ :: path } := by
  simp only [turn, h, hcolour]

theorem isNew_of_white (h : s.colour w = .white) : s.met.isNew w = true := by
  unfold colour at h
  split at h
  · assumption
  · split at h <;> cases h

/-- Every turn looks at one edge or leaves one vertex. -/
theorem pending_turn (h : s.turn successors = .inr s') :
    s'.pending successors + 1 = s.pending successors := by
  unfold pending
  match hpath : s.path with
  | [] =>
    rw [turn_of_nil hpath] at h
    cases h
  | ⟨v, []⟩ :: path =>
    rw [turn_of_leave hpath] at h
    cases h
    simp only [ahead, List.foldr_cons, List.length_nil]
    omega
  | ⟨v, w :: rest⟩ :: path =>
    cases hcolour : s.colour w with
    | white =>
      rw [turn_of_white hpath hcolour] at h
      cases h
      have := Marks.pending_mark (fun v => (successors v).length + 1) (isNew_of_white hcolour)
      simp only [ahead, List.foldr_cons, List.length_cons]
      omega
    | grey =>
      rw [turn_of_grey hpath hcolour] at h
      cases h
    | black =>
      rw [turn_of_black hpath hcolour] at h
      cases h
      simp only [ahead, List.foldr_cons, List.length_cons]
      omega

end Turns

/-- Whether the search ends without a cycle. -/
def run (successors : Nat → List Nat) (s : CycleSearch n) : Bool :=
  match _h : s.turn successors with
  | .inl result => result
  | .inr s' => run successors s'
termination_by s.pending successors
decreasing_by
  have := pending_turn ‹_›
  omega

end CycleSearch

/-- Whether no cycle can be reached from a vertex of a graph with `n` vertices. -/
def findsNoCycle (n : Nat) (successors : Nat → List Nat) (source : Nat) : Bool :=
  (CycleSearch.begin successors source : CycleSearch n).run successors

end Graph

end Phrasebook
