import Phrasebook.Proofs.Graph.Cycle
import Phrasebook.Proofs.Graph.Worklist

/-!
# Searches that check what they look up

The searches of a graph take a number that is no vertex for a vertex without edges. The searches
of this file look up marks and edges in such a way that there is no result when a number is no
vertex. In a graph in which all edges lead to vertices they have the results of the others, so
that nothing else is ever looked up.

* `Graph.reach?`, `Graph.explore?`, `Graph.index?`, `Graph.orderOfEdges?`, `Graph.findsNoCycle?`:
  the searches that check.
* `Graph.reach?_eq`, `Graph.explore?_eq`, `Graph.index?_eq`, `Graph.orderOfEdges?_eq`,
  `Graph.findsNoCycle?_eq`: they have results, and those of the others.
-/

namespace Phrasebook

/-! ### Lists of computations that succeed -/

section Lists

variable {α β : Type} {l : List α}

theorem filterMapM_eq_some {f : α → Option (Option β)} {g : α → Option β}
    (h : ∀ a ∈ l, f a = some (g a)) : l.filterMapM f = some (l.filterMap g) := by
  induction l with
  | nil => rfl
  | cons a l ih =>
    obtain ⟨ha, hl⟩ := List.forall_mem_cons.1 h
    rw [List.filterMapM_cons, ha, ih hl, List.filterMap_cons]
    cases g a <;> rfl

theorem flatMapM_eq_some {f : α → Option (List β)} {g : α → List β}
    (h : ∀ a ∈ l, f a = some (g a)) : l.flatMapM f = some (l.flatMap g) := by
  induction l with
  | nil => rfl
  | cons a l ih =>
    obtain ⟨ha, hl⟩ := List.forall_mem_cons.1 h
    rw [List.flatMapM_cons, ha, ih hl]
    rfl

theorem mapM_eq_some {f : α → Option β} {g : α → β} (h : ∀ a ∈ l, f a = some (g a)) :
    l.mapM f = some (l.map g) := by
  induction l with
  | nil => rfl
  | cons a l ih =>
    obtain ⟨ha, hl⟩ := List.forall_mem_cons.1 h
    rw [List.mapM_cons, ha, ih hl]
    rfl

theorem findM?_eq_some {f : α → Option Bool} {p : α → Bool} (h : ∀ a ∈ l, f a = some (p a)) :
    l.findM? f = some (l.find? p) := by
  induction l with
  | nil => rfl
  | cons a l ih =>
    obtain ⟨ha, hl⟩ := List.forall_mem_cons.1 h
    rw [List.findM?, ha, List.find?_cons]
    cases p a with
    | true => rfl
    | false => exact ih hl

/-- A fold succeeds when each of its steps does wherever something holds that it keeps. -/
theorem foldlM_eq_some {f : β → α → Option β} {g : β → α → β} {P : β → Prop} {b : β}
    (hstep : ∀ b, P b → ∀ a ∈ l, f b a = some (g b a) ∧ P (g b a)) (hb : P b) :
    l.foldlM f b = some (l.foldl g b) ∧ P (l.foldl g b) := by
  induction l generalizing b with
  | nil => exact ⟨rfl, hb⟩
  | cons a l ih =>
    obtain ⟨hfirst, hkeep⟩ := hstep b hb a List.mem_cons_self
    rw [List.foldlM_cons, hfirst]
    exact ih (fun b hb a ha => hstep b hb a (List.mem_cons_of_mem _ ha)) hkeep

end Lists

namespace Marks

variable {n v : Nat} {m : Marks n}

/-- Whether a vertex is marked; the vertex has to be there. -/
def contains? (m : Marks n) (v : Nat) : Option Bool := m.bits[v]?

theorem contains?_eq (hv : v < n) : m.contains? v = some (m.contains v) := by
  rw [contains?, contains, dif_pos hv, Vector.getElem?_eq_getElem hv]

theorem isNew_eq_not_contains (hv : v < n) : m.isNew v = !m.contains v := by
  simp [isNew, contains, hv]

/-- Only the mark of a vertex is found. -/
theorem lt_of_contains? {marked : Bool} (h : m.contains? v = some marked) : v < n := by
  by_contra hv
  rw [contains?, Vector.getElem?_eq_none (Nat.le_of_not_lt hv)] at h
  cases h

end Marks

namespace Graph

variable {n : Nat} {successors predecessors : Nat → List Nat}
  {successors? predecessors? : Nat → Option (List Nat)}

/-! ### What can be reached -/

/-- Marks what can be reached from the vertices in `todo`, all of which have to be there. -/
def reach? (successors? : Nat → Option (List Nat)) (todo : List Nat) (seen : Marks n) :
    Option (Marks n) :=
  match todo with
  | [] => some seen
  | v :: rest =>
    -- The mark of a vertex is looked up as well, so the vertex has to be there when it is old too.
    if v < n then
      if seen.isNew v then do
        let next ← successors? v
        reach? successors? (next ++ rest) (seen.mark v)
      else reach? successors? rest seen
    else none
termination_by (seen.unmarked, todo.length)
decreasing_by
  · exact Prod.Lex.left _ _ (Marks.unmarked_mark_lt ‹_›)
  · exact Prod.Lex.right _ (Nat.lt_succ_self _)

/-- A search that begins at vertices looks up nothing but vertices, when all edges lead to
vertices. -/
theorem reach?_eq (hlookup : ∀ v < n, successors? v = some (successors v))
    (hlt : ∀ v < n, ∀ w ∈ successors v, w < n) {todo : List Nat} {seen : Marks n}
    (htodo : ∀ v ∈ todo, v < n) :
    reach? successors? todo seen = some (reach successors todo seen) := by
  fun_induction reach successors todo seen with
  | case1 => rw [reach?]
  | case2 seen v rest hnew ih =>
    obtain ⟨hv, hrest⟩ := List.forall_mem_cons.1 htodo
    rw [reach?, if_pos hv, if_pos hnew, hlookup v hv]
    exact ih (List.forall_mem_append.2 ⟨hlt v hv, hrest⟩)
  | case3 seen v rest hold ih =>
    obtain ⟨hv, hrest⟩ := List.forall_mem_cons.1 htodo
    rw [reach?, if_pos hv, if_neg hold]
    exact ih hrest

/-! ### Worklists -/

namespace Worklist

variable {s s' : Worklist n} {v : Nat} {vs : List Nat}

/-- Marks a vertex, which has to be there, and puts it on the list, unless it has been met before. -/
def meet? (s : Worklist n) (v : Nat) : Option (Worklist n) := do
  return if ← s.seen.contains? v then s else ⟨v :: s.todo, s.seen.mark v⟩

theorem meet?_eq (hv : v < n) : s.meet? v = some (s.meet v) := by
  rw [meet?, Marks.contains?_eq hv, meet, Marks.isNew_eq_not_contains hv]
  cases s.seen.contains v <;> rfl

/-- Meets the successors of a vertex; the vertex and all of them have to be there. -/
def look? (successors? : Nat → Option (List Nat)) (s : Worklist n) (v : Nat) :
    Option (Worklist n) := do
  (← successors? v).foldlM meet? s

theorem look?_eq (hlookup : ∀ v < n, successors? v = some (successors v))
    (hlt : ∀ v < n, ∀ w ∈ successors v, w < n) (hv : v < n) :
    s.look? successors? v = some (s.look successors v) := by
  rw [look?, hlookup v hv]
  exact (foldlM_eq_some (P := fun _ => True)
    (fun s _ w hw => ⟨meet?_eq (hlt v hv w hw), trivial⟩) trivial).1

theorem pending_foldlM_meet? (h : vs.foldlM meet? s = some s') : s'.pending = s.pending := by
  induction vs generalizing s with
  | nil =>
    cases h
    rfl
  | cons v vs ih =>
    rw [List.foldlM_cons] at h
    obtain ⟨s₁, hmeet, hrest⟩ := Option.bind_eq_some_iff.1 h
    obtain ⟨marked, hmarked, -⟩ := Option.bind_eq_some_iff.1 hmeet
    rw [meet?_eq (Marks.lt_of_contains? hmarked)] at hmeet
    cases hmeet
    rw [ih hrest, pending_meet]

/-- What is marked goes on the list. -/
theorem pending_look? (h : s.look? successors? v = some s') : s'.pending = s.pending := by
  obtain ⟨next, -, hnext⟩ := Option.bind_eq_some_iff.1 h
  exact pending_foldlM_meet? hnext

/-- What is marked when the list is empty; every vertex that is looked up has to be there. -/
def run? (successors? : Nat → Option (List Nat)) (s : Worklist n) : Option (Marks n) :=
  match s with
  | ⟨[], seen⟩ => some seen
  | ⟨v :: rest, seen⟩ =>
    match _h : look? successors? ⟨rest, seen⟩ v with
    | none => none
    | some s' => run? successors? s'
termination_by s.pending
decreasing_by
  rw [pending_look? _h]
  simp [pending]

/-- A worklist of vertices looks up nothing but vertices, when all edges lead to vertices. -/
theorem run?_eq (hlookup : ∀ v < n, successors? v = some (successors v))
    (hlt : ∀ v < n, ∀ w ∈ successors v, w < n) (htodo : ∀ v ∈ s.todo, v < n) :
    s.run? successors? = some (s.run successors) := by
  fun_induction run successors s with
  | case1 seen => rw [run?]
  | case2 v rest seen ih =>
    obtain ⟨hv, hrest⟩ := List.forall_mem_cons.1 htodo
    have hlook := look?_eq (s := ⟨rest, seen⟩) hlookup hlt hv
    rw [← ih fun w hw => ?_]
    · rw [run?]
      split <;> simp_all
    · rcases mem_todo_look.1 hw with hw | ⟨hw, -⟩
      · exact hrest w hw
      · exact hlt v hv w hw

end Worklist

/-- What a worklist marks that begins with some vertices, all of which have to be there. -/
def explore? (n : Nat) (successors? : Nat → Option (List Nat)) (sources : List Nat) :
    Option (Marks n) :=
  if ∀ v ∈ sources, v < n then (Worklist.begin sources).run? successors? else none

theorem explore?_eq {sources : List Nat} (hlookup : ∀ v < n, successors? v = some (successors v))
    (hlt : ∀ v < n, ∀ w ∈ successors v, w < n) (hsources : ∀ v ∈ sources, v < n) :
    explore? n successors? sources = some (explore n successors sources) := by
  rw [explore?, if_pos hsources]
  exact Worklist.run?_eq hlookup hlt fun v hv => hsources v (List.mem_reverse.1 hv)

/-! ### Topological orders -/

/-- For each vertex below `n`, the second members of the pairs that begin with it; each pair has to
begin with a vertex. -/
def index? (n : Nat) (pairs : List (Nat × Nat)) : Option (Array (List Nat)) :=
  pairs.foldrM (fun (u, v) lists =>
    if u < lists.size then some (lists.modify u (v :: ·)) else none) (Array.replicate n [])

theorem index?_eq {pairs : List (Nat × Nat)} (h : ∀ pair ∈ pairs, pair.1 < n) :
    index? n pairs = some (index n pairs) := by
  induction pairs with
  | nil => rfl
  | cons pair pairs ih =>
    obtain ⟨hpair, hpairs⟩ := List.forall_mem_cons.1 h
    rw [index?, List.foldrM_cons, ← index?, ih hpairs]
    refine (if_pos ?_).trans rfl
    rwa [size_index]

theorem index_getElem? {pairs : List (Nat × Nat)} {v : Nat} (hv : v < n) :
    (index n pairs)[v]? = some (lookup (index n pairs) v) := by
  rw [lookup, Array.getElem?_eq_getElem (by rwa [size_index])]
  rfl

/-- Visits the vertices in `todo` and everything behind them, all of which have to be there. -/
def visit? (successors? : Nat → Option (List Nat)) (todo : List Visit) (seen : Marks n)
    (done : List Nat) : Option (Except Nat (List Nat)) :=
  match todo with
  | [] => some (.ok done)
  | .leave v :: rest => visit? successors? rest seen (v :: done)
  | .enter v :: rest =>
    if v < n then
      if seen.isNew v then do
        let next ← successors? v
        if v ∈ next then some (.error v)
        else visit? successors? (next.map .enter ++ .leave v :: rest) (seen.mark v) done
      else visit? successors? rest seen done
    else none
termination_by (seen.unmarked, todo.length)
decreasing_by
  · exact Prod.Lex.right _ (Nat.lt_succ_self _)
  · exact Prod.Lex.left _ _ (Marks.unmarked_mark_lt ‹_›)
  · exact Prod.Lex.right _ (Nat.lt_succ_self _)

/-- A vertex that is still to be visited is there. -/
def Visit.IsVertex (n : Nat) : Visit → Prop
  | .enter v => v < n
  | .leave _ => True

theorem visit?_eq (hlookup : ∀ v < n, successors? v = some (successors v))
    (hlt : ∀ v, ∀ w ∈ successors v, w < n) {todo : List Visit} {seen : Marks n}
    {done : List Nat} (htodo : ∀ visit ∈ todo, visit.IsVertex n) :
    visit? successors? todo seen done = some (visit successors todo seen done) := by
  fun_induction visit successors todo seen done with
  | case1 => rw [visit?]
  | case2 seen done v rest ih =>
    rw [visit?]
    exact ih (List.forall_mem_cons.1 htodo).2
  | case3 seen done v rest hnew hself =>
    have hv : v < n := (List.forall_mem_cons.1 htodo).1
    rw [visit?, if_pos hv, if_pos hnew, hlookup v hv]
    exact if_pos hself
  | case4 seen done v rest hnew hself ih =>
    have ⟨hvisit, hrest⟩ := List.forall_mem_cons.1 htodo
    have hv : v < n := hvisit
    rw [visit?, if_pos hv, if_pos hnew, hlookup v hv]
    refine (if_neg hself).trans (ih ?_)
    exact List.forall_mem_append.2
      ⟨List.forall_mem_map.2 (hlt v), List.forall_mem_cons.2 ⟨trivial, hrest⟩⟩
  | case5 seen done v rest hold ih =>
    have ⟨hvisit, hrest⟩ := List.forall_mem_cons.1 htodo
    have hv : v < n := hvisit
    rw [visit?, if_pos hv, if_neg hold]
    exact ih hrest

/-- The first vertex that an order lists too late, where the vertices of the order and their
predecessors have to be there. -/
def findLate? (predecessors? : Nat → Option (List Nat)) (listed : Marks n) :
    List Nat → Option (Option Nat)
  | [] => some none
  | v :: rest =>
    if v < n then do
      let listed := listed.mark v
      let late ← (← predecessors? v).findM? fun u => do return !(← listed.contains? u)
      match late with
      | some u => some (some u)
      | none => findLate? predecessors? listed rest
    else none

theorem findLate?_eq (hlookup : ∀ v < n, predecessors? v = some (predecessors v))
    (hlt : ∀ v, ∀ w ∈ predecessors v, w < n) {order : List Nat} {listed : Marks n}
    (horder : ∀ v ∈ order, v < n) :
    findLate? predecessors? listed order = some (findLate predecessors listed order) := by
  induction order generalizing listed with
  | nil => rfl
  | cons v order ih =>
    obtain ⟨hv, horder⟩ := List.forall_mem_cons.1 horder
    have hfind : (predecessors v).findM? (fun u => do return !(← (listed.mark v).contains? u)) =
        some ((predecessors v).find? fun u => !(listed.mark v).contains u) :=
      findM?_eq_some fun u hu => by rw [Marks.contains?_eq (hlt v u hu)]; rfl
    rw [findLate?, if_pos hv, hlookup v hv, findLate]
    simp only [Option.bind_eq_bind, Option.bind_some] at hfind ⊢
    rw [hfind]
    cases (predecessors v).find? fun u => !(listed.mark v).contains u with
    | some u => rfl
    | none => exact ih horder

/-- A topological order of the graph that some edges make, or a vertex on a cycle; the edges have
to come from vertices and to lead to vertices. -/
def orderOfEdges? (n : Nat) (edges : List (Nat × Nat)) : Option (Except Nat (List Nat)) := do
  let successors ← index? n edges
  let predecessors ← index? n (edges.map Prod.swap)
  match ← visit? (successors[·]?) ((List.range n).map .enter) (.none n) [] with
  | .error v => some (.error v)
  | .ok order =>
    match ← findLate? (predecessors[·]?) (.none n) order with
    | some v => some (.error v)
    | none => some (.ok order)

theorem orderOfEdges?_eq {edges : List (Nat × Nat)}
    (hedges : ∀ edge ∈ edges, edge.1 < n ∧ edge.2 < n) :
    orderOfEdges? n edges = some (orderOfEdges n edges) := by
  have hsuccessors : index? n edges = some (index n edges) :=
    index?_eq fun edge hedge => (hedges edge hedge).1
  have hpredecessors : index? n (edges.map Prod.swap) = some (index n (edges.map Prod.swap)) :=
    index?_eq (List.forall_mem_map.2 fun edge hedge => (hedges edge hedge).2)
  have hlt : ∀ v, ∀ w ∈ lookup (index n edges) v, w < n :=
    fun v w hw => (lt_of_mem_lookup hedges hw).2
  have hvisit := @visit?_eq n (lookup (index n edges)) ((index n edges)[·]?)
    (fun v => index_getElem?) hlt ((List.range n).map .enter) (.none n) []
    (List.forall_mem_map.2 fun v => List.mem_range.1)
  have hspec := visit_spec hlt
  rw [orderOfEdges?, hsuccessors, hpredecessors, orderOfEdges, topologicalOrder]
  simp only [Option.bind_eq_bind, Option.bind_some, hvisit]
  cases hresult : visit (lookup (index n edges)) ((List.range n).map .enter) (.none n) [] with
  | error v => rfl
  | ok order =>
    -- Everything that was visited is a vertex, so the marks of the order can be looked up.
    rw [hresult] at hspec
    have hlate := @findLate?_eq n (lookup (index n (edges.map Prod.swap)))
      ((index n (edges.map Prod.swap))[·]?) (fun v => index_getElem?)
      (fun v u hu => (lt_of_mem_lookup hedges ((mem_lookup_swap_iff hedges).1 hu)).1) order
      (.none n) fun v => (hspec.2.1 v).1
    simp only [hlate, Option.bind_some]
    dsimp only [bind, Except.bind]
    cases findLate (lookup (index n (edges.map Prod.swap))) (.none n) order <;> rfl

/-! ### Cycles -/

namespace CycleSearch

variable {s s' : CycleSearch n} {v w : Nat} {rest : List Nat} {path : List Frame}

/-- The colour of a vertex, which has to be there. -/
def colour? (s : CycleSearch n) (v : Nat) : Option Colour := do
  if ← s.met.contains? v then return if ← s.left.contains? v then .black else .grey
  else return .white

theorem colour?_eq (hv : v < n) : s.colour? v = some (s.colour v) := by
  rw [colour?, Marks.contains?_eq hv, Marks.contains?_eq hv, colour,
    Marks.isNew_eq_not_contains hv]
  cases s.met.contains v <;> cases s.left.contains v <;> simp [hv]

/-- One turn of the search, in which every vertex that is looked up has to be there. -/
def turn? (successors? : Nat → Option (List Nat)) (s : CycleSearch n) :
    Option (Bool ⊕ CycleSearch n) :=
  match s.path with
  | [] => some (.inl true)
  | ⟨v, []⟩ :: path => if v < n then some (.inr { s with path, left := s.left.mark v }) else none
  | ⟨v, w :: rest⟩ :: path => do
    match ← s.colour? w with
    | .white =>
      let next ← successors? w
      return .inr { s with path := ⟨w, next⟩ :: ⟨v, rest⟩ :: path, met := s.met.mark w }
    | .grey => return .inl false
    | .black => return .inr { s with path := ⟨v, rest⟩ :: path }

/-- A turn meets a new vertex, or less is left over on the path. -/
theorem turn?_lt (h : s.turn? successors? = some (.inr s')) :
    Prod.Lex (· < ·) (· < ·) (s'.met.unmarked, ahead s'.path) (s.met.unmarked, ahead s.path) := by
  unfold turn? at h
  split at h
  · cases h
  · next hpath =>
    split at h
    · cases h
      exact Prod.Lex.right _ (by simp [hpath, ahead])
    · cases h
  · next v w rest path hpath =>
    obtain ⟨colour, hcolour, h⟩ := Option.bind_eq_some_iff.1 h
    have hw : w < n := by
      obtain ⟨met, hmet, -⟩ := Option.bind_eq_some_iff.1 hcolour
      exact Marks.lt_of_contains? hmet
    rw [colour?_eq hw] at hcolour
    cases colour with
    | white =>
      obtain ⟨next, -, h⟩ := Option.bind_eq_some_iff.1 h
      cases h
      exact Prod.Lex.left _ _ (Marks.unmarked_mark_lt (isNew_of_white (Option.some.inj hcolour)))
    | grey => cases h
    | black =>
      cases h
      exact Prod.Lex.right _ (by simp [hpath, ahead])

/-- Whether the search ends without a cycle; every vertex that is looked up has to be there. -/
def run? (successors? : Nat → Option (List Nat)) (s : CycleSearch n) : Option Bool :=
  match _h : s.turn? successors? with
  | none => none
  | some (.inl result) => some result
  | some (.inr s') => run? successors? s'
termination_by (s.met.unmarked, ahead s.path)
decreasing_by exact turn?_lt ‹_›

/-- Everything on the path is a vertex. -/
def InRange (s : CycleSearch n) : Prop :=
  ∀ f ∈ s.path, f.vertex < n ∧ ∀ w ∈ f.rest, w < n

theorem InRange.turn?_eq (hlookup : ∀ v < n, successors? v = some (successors v))
    (h : s.InRange) : s.turn? successors? = some (s.turn successors) := by
  match hpath : s.path with
  | [] => rw [turn_of_nil hpath, turn?, hpath]
  | ⟨v, []⟩ :: path =>
    have hv : v < n := (h ⟨v, []⟩ (by simp [hpath])).1
    rw [turn_of_leave hpath]
    simp only [turn?, hpath, if_pos hv]
  | ⟨v, w :: rest⟩ :: path =>
    have hw : w < n := (h ⟨v, w :: rest⟩ (by simp [hpath])).2 w List.mem_cons_self
    simp only [turn?, hpath, colour?_eq hw]
    cases hcolour : s.colour w with
    | white =>
      rw [turn_of_white hpath hcolour]
      simp [hlookup w hw]
    | grey =>
      rw [turn_of_grey hpath hcolour]
      rfl
    | black =>
      rw [turn_of_black hpath hcolour]
      rfl

theorem InRange.turn (hlt : ∀ v < n, ∀ w ∈ successors v, w < n) (h : s.InRange)
    (hturn : s.turn successors = .inr s') : s'.InRange := by
  unfold InRange at h
  match hpath : s.path with
  | [] =>
    rw [turn_of_nil hpath] at hturn
    cases hturn
  | ⟨v, []⟩ :: path =>
    rw [turn_of_leave hpath] at hturn
    cases hturn
    rw [hpath] at h
    exact (List.forall_mem_cons.1 h).2
  | ⟨v, w :: rest⟩ :: path =>
    rw [hpath] at h
    obtain ⟨⟨hv, hrest⟩, hpathrange⟩ := List.forall_mem_cons.1 h
    obtain ⟨hw, hrest⟩ := List.forall_mem_cons.1 hrest
    have hbelow : ∀ f ∈ ⟨v, rest⟩ :: path, f.vertex < n ∧ ∀ w ∈ f.rest, w < n :=
      List.forall_mem_cons.2 ⟨⟨hv, hrest⟩, hpathrange⟩
    cases hcolour : s.colour w with
    | white =>
      rw [turn_of_white hpath hcolour] at hturn
      cases hturn
      exact List.forall_mem_cons.2 ⟨⟨hw, hlt w hw⟩, hbelow⟩
    | grey =>
      rw [turn_of_grey hpath hcolour] at hturn
      cases hturn
    | black =>
      rw [turn_of_black hpath hcolour] at hturn
      cases hturn
      exact hbelow

/-- A search looks up nothing but vertices when all edges lead to vertices. -/
theorem run?_eq (hlookup : ∀ v < n, successors? v = some (successors v))
    (hlt : ∀ v < n, ∀ w ∈ successors v, w < n) (h : s.InRange) :
    s.run? successors? = some (s.run successors) := by
  fun_induction run successors s with
  | case1 s result hstop =>
    have hturn := h.turn?_eq hlookup
    rw [hstop] at hturn
    unfold run?
    split <;> simp_all
  | case2 s s' hnext ih =>
    have hturn := h.turn?_eq hlookup
    rw [hnext] at hturn
    rw [← ih (h.turn hlt hnext)]
    conv_lhs => unfold run?
    split <;> simp_all

end CycleSearch

/-- Whether no cycle can be reached from a vertex; every vertex that is looked up has to be
there. -/
def findsNoCycle? (n : Nat) (successors? : Nat → Option (List Nat)) (source : Nat) :
    Option Bool := do
  let next ← successors? source
  (⟨[⟨source, next⟩], (Marks.none n).mark source, .none n⟩ : CycleSearch n).run? successors?

theorem findsNoCycle?_eq {source : Nat} (hlookup : ∀ v < n, successors? v = some (successors v))
    (hlt : ∀ v < n, ∀ w ∈ successors v, w < n) (hsource : source < n) :
    findsNoCycle? n successors? source = some (findsNoCycle n successors source) := by
  rw [findsNoCycle?, hlookup source hsource]
  refine CycleSearch.run?_eq hlookup hlt ?_
  exact List.forall_mem_singleton.2 ⟨hsource, hlt source hsource⟩

end Graph

end Phrasebook
