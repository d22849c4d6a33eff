import Mathlib.Data.List.Nodup
import Phrasebook.Automaton.Reach
import Phrasebook.Graph.Path

/-!
# Topological orders and the cycles that prevent them

A depth-first search leaves every vertex after those of its successors that do not lead back to
it. The search is described by what a stretch of its work does: when the vertices that are open
lead to those that it looks at, then it leaves these and everything behind them, and the open
vertices stay as they are.

An edge that leads back in the order of leaving was met while its target was open, so the target
leads to where the edge begins, and the edge closes a cycle. The check of the order finds such an
edge if there is one; otherwise all edges lead on, and there is no cycle.

* `Graph.Forward`, `Graph.Settled`: the successors of each vertex of a list stand behind it, or
  else lead back to it.
* `Graph.IsOrder`: a list of all vertices in which edges lead on.
* `Graph.visit_enter_append`: what a stretch of the search does.
* `Graph.orderOfEdges_spec`: an order is found, or a vertex on a cycle.
* `Graph.IsOrder.not_onCycle`: where edges lead on there is no cycle.
* `Graph.mem_component_iff`: the component of a vertex.
-/

namespace Phrasebook

namespace Graph

variable {n : Nat} {successors : Nat → List Nat}

/-- The successors of each vertex stand behind it. -/
def Forward (successors : Nat → List Nat) : List Nat → Prop
  | [] => True
  | v :: rest => (∀ w ∈ successors v, w ∈ rest) ∧ Forward successors rest

/-- The vertices in an order in which edges lead on. -/
structure IsOrder (n : Nat) (successors : Nat → List Nat) (order : List Nat) : Prop where
  /-- No vertex is listed twice. -/
  nodup : order.Nodup
  /-- The vertices are listed. -/
  mem_iff : ∀ v, v ∈ order ↔ v < n
  /-- Edges lead to vertices that are listed later. -/
  forward : Forward successors order

/-! ### Depth-first search -/

/-- The successors of each vertex stand behind it, or they are others that lead back to it. -/
def Settled (successors : Nat → List Nat) : List Nat → Prop
  | [] => True
  | v :: rest =>
    (∀ w ∈ successors v, w ∈ rest ∨ w ≠ v ∧ Reaches successors w v) ∧ Settled successors rest

/-- What holds between two stretches of a search: the vertices that have been left are marked,
and each was left after those of its successors that do not lead back to it. -/
structure Searched (successors : Nat → List Nat) (seen : Marks n) (done : List Nat) : Prop where
  /-- No vertex is left twice. -/
  nodup : done.Nodup
  /-- What was left was marked. -/
  contains : ∀ v ∈ done, seen.contains v = true
  /-- What was left later stands in front. -/
  settled : Settled successors done

/-- A vertex is marked but has not been left. -/
def Open (seen : Marks n) (done : List Nat) (v : Nat) : Prop :=
  seen.contains v = true ∧ v ∉ done

/-- A stretch of a search leaves what it looks at unless it is open, and the open vertices stay. -/
structure Stretch (successors : Nat → List Nat) (vs : List Nat) (seen : Marks n)
    (done : List Nat) (seen' : Marks n) (done' : List Nat) : Prop where
  /-- The search is in order behind the stretch. -/
  searched : Searched successors seen' done'
  /-- What was left before has been left. -/
  subset : ∀ v ∈ done, v ∈ done'
  /-- What is looked at has been left, unless it was open. -/
  left : ∀ v ∈ vs, v ∈ done' ∨ Open seen done v
  /-- The open vertices are the same. -/
  open_iff : ∀ v, Open seen' done' v ↔ Open seen done v
  /-- No mark is taken off. -/
  unmarked_le : seen'.unmarked ≤ seen.unmarked

theorem lt_of_contains {seen : Marks n} {v : Nat} (h : seen.contains v = true) : v < n := by
  by_cases hv : v < n
  · exact hv
  · simp [Marks.contains, hv] at h

theorem contains_of_not_isNew {seen : Marks n} {v : Nat} (hv : v < n)
    (h : seen.isNew v = false) : seen.contains v = true := by
  simpa [Marks.isNew, Marks.contains, hv] using h

/-- Marking a vertex opens it. -/
theorem open_mark_iff {seen : Marks n} {done : List Nat} {u v : Nat} (hv : v < n)
    (hdone : v ∉ done) : Open (seen.mark v) done u ↔ u = v ∨ Open seen done u := by
  rw [Open, Open, Marks.contains_mark, Bool.or_eq_true, decide_eq_true_eq]
  constructor
  · rintro ⟨⟨rfl, _⟩ | hseen, hu⟩
    · exact .inl rfl
    · exact .inr ⟨hseen, hu⟩
  · rintro (rfl | ⟨hseen, hu⟩)
    · exact ⟨.inl ⟨rfl, hv⟩, hdone⟩
    · exact ⟨.inr hseen, hu⟩

theorem Searched.mark {seen : Marks n} {done : List Nat} (h : Searched successors seen done)
    (v : Nat) : Searched successors (seen.mark v) done :=
  ⟨h.nodup, fun u hu => by rw [Marks.contains_mark, h.contains u hu, Bool.or_true], h.settled⟩

/-- A vertex is left when all of its successors have been, apart from those that lead back. -/
theorem Searched.leave {seen : Marks n} {done : List Nat} {v : Nat}
    (h : Searched successors seen done) (hv : Open seen done v)
    (hleft : ∀ w ∈ successors v, w ∈ done ∨ w ≠ v ∧ Reaches successors w v) :
    Searched successors seen (v :: done) :=
  ⟨List.nodup_cons.2 ⟨hv.2, h.nodup⟩, List.forall_mem_cons.2 ⟨hv.1, h.contains⟩,
    hleft, h.settled⟩

/-- When a vertex is left after what is behind it, the open vertices are those from before it was
marked. -/
theorem Stretch.open_cons_iff {vs : List Nat} {seen seen' : Marks n} {done done' : List Nat}
    {u v : Nat} (h : Stretch successors vs (seen.mark v) done seen' done') (hv : v < n)
    (hunseen : seen.contains v = false) (hdone : v ∉ done) :
    Open seen' (v :: done') u ↔ Open seen done u := by
  have hsplit : Open seen' (v :: done') u ↔ u ≠ v ∧ Open seen' done' u := by
    rw [Open, Open, List.mem_cons, not_or]
    exact and_left_comm
  rw [hsplit, h.open_iff, open_mark_iff hv hdone]
  constructor
  · rintro ⟨hne, rfl | hu⟩
    · exact absurd rfl hne
    · exact hu
  · refine fun hu => ⟨?_, .inr hu⟩
    rintro rfl
    rw [hu.1] at hunseen
    cases hunseen

/-- A stretch of a search, when every open vertex leads to those that are looked at: the search
meets a vertex that is its own successor, or it comes to the end of the stretch. -/
theorem visit_enter_append (hlt : ∀ v, ∀ w ∈ successors v, w < n) {vs : List Nat}
    {seen : Marks n} {done : List Nat} {rest : List Visit}
    (hsearched : Searched successors seen done) (hvs : ∀ v ∈ vs, v < n)
    (hleads : ∀ u, Open seen done u → ∀ v ∈ vs, Reaches successors u v) :
    (∃ v ∈ successors v, visit successors (vs.map .enter ++ rest) seen done = .error v) ∨
      ∃ seen' done', visit successors (vs.map .enter ++ rest) seen done =
          visit successors rest seen' done' ∧
        Stretch successors vs seen done seen' done' := by
  -- A new vertex lowers the number of unmarked ones; an old one is passed over.
  induction hbound : seen.unmarked using Nat.strongRecOn generalizing vs seen done rest with
  | ind bound ih =>
    subst hbound
    induction vs with
    | nil =>
      exact .inr ⟨seen, done, rfl, hsearched, fun _ h => h, by simp, fun _ => .rfl, .refl⟩
    | cons v vs ihvs =>
      have hv := hvs v List.mem_cons_self
      have hvs' := fun u hu => hvs u (List.mem_cons_of_mem _ hu)
      have hleads' := fun u hu w hw => hleads u hu w (List.mem_cons_of_mem _ hw)
      rw [List.map_cons, List.cons_append, visit]
      cases hnew : seen.isNew v with
      | false =>
        -- A vertex that was marked before has been left, or it is still open.
        have hmarked := contains_of_not_isNew hv hnew
        rw [if_neg Bool.false_ne_true]
        refine (ihvs hvs' hleads').imp_right ?_
        rintro ⟨seen', done', heq, h⟩
        refine ⟨seen', done', heq, h.searched, h.subset,
          List.forall_mem_cons.2 ⟨?_, h.left⟩, h.open_iff, h.unmarked_le⟩
        by_cases hdone : v ∈ done
        · exact .inl (h.subset v hdone)
        · exact .inr ⟨hmarked, hdone⟩
      | true =>
        have hunseen := (Marks.isNew_iff.1 hnew).2
        have hdone : v ∉ done := fun hmem => by
          rw [hsearched.contains v hmem] at hunseen
          cases hunseen
        have hfewer := Marks.unmarked_mark_lt hnew
        rw [if_pos rfl]
        by_cases hself : v ∈ successors v
        · rw [if_pos hself]
          exact .inl ⟨v, hself, rfl⟩
        rw [if_neg hself]
        -- First everything behind the vertex is visited,
        rcases ih _ hfewer (hsearched.mark v) (hlt v)
          (fun u hu w hw => by
            rcases (open_mark_iff hv hdone).1 hu with rfl | hu
            · exact .single hw
            · exact (hleads u hu v List.mem_cons_self).tail hw) rfl with
          hcycle | ⟨seen₁, done₁, heq₁, h₁⟩
        · exact .inl hcycle
        have hopen : Open seen₁ done₁ v :=
          (h₁.open_iff v).2 ((open_mark_iff hv hdone).2 (.inl rfl))
        have hopen_iff := fun u => h₁.open_cons_iff hv hunseen hdone (u := u)
        -- so that a successor has been left, or it was open before and leads to the vertex,
        have hleft : ∀ w ∈ successors v, w ∈ done₁ ∨ w ≠ v ∧ Reaches successors w v := by
          intro w hw
          refine (h₁.left w hw).imp_right fun hwopen => ?_
          have hne : w ≠ v := fun heq => hself (heq ▸ hw)
          rcases (open_mark_iff hv hdone).1 hwopen with heq | hwopen
          · exact absurd heq hne
          · exact ⟨hne, hleads w hwopen v List.mem_cons_self⟩
        -- and then the vertices that were to be looked at beside it.
        rw [heq₁, visit]
        refine (ih seen₁.unmarked (Nat.lt_of_le_of_lt h₁.unmarked_le hfewer)
          (h₁.searched.leave hopen hleft) hvs'
          (fun u hu => hleads' u ((hopen_iff u).1 hu)) rfl).imp_right ?_
        rintro ⟨seen₂, done₂, heq₂, h₂⟩
        refine ⟨seen₂, done₂, heq₂, h₂.searched, fun u hu => ?_,
          List.forall_mem_cons.2 ⟨.inl (h₂.subset v List.mem_cons_self), fun u hu => ?_⟩,
          fun u => ?_, ?_⟩
        · exact h₂.subset u (List.mem_cons_of_mem _ (h₁.subset u hu))
        · exact (h₂.left u hu).imp_right (hopen_iff u).1
        · rw [h₂.open_iff, hopen_iff]
        · have := h₁.unmarked_le
          have := h₂.unmarked_le
          omega

/-- A search meets a vertex that is its own successor, or it lists every vertex after those of its
successors that do not lead back to it. -/
theorem visit_spec (hlt : ∀ v, ∀ w ∈ successors v, w < n) :
    match visit successors ((List.range n).map .enter) (.none n) [] with
    | .error v => v ∈ successors v
    | .ok order => order.Nodup ∧ (∀ v, v ∈ order ↔ v < n) ∧ Settled successors order := by
  have hnone : ∀ v, ¬ Open (.none n) [] v := fun v h => by simp [Open] at h
  have hsearched : Searched successors (.none n) [] := ⟨List.nodup_nil, by simp, trivial⟩
  have h := @visit_enter_append n successors hlt _ _ _ [] hsearched
    (fun v hv => List.mem_range.1 hv) (fun u hu => absurd hu (hnone u))
  rw [List.append_nil] at h
  rcases h with ⟨v, hself, heq⟩ | ⟨seen, order, heq, h⟩
  · rw [heq]
    exact hself
  · rw [heq, visit]
    refine ⟨h.searched.nodup, fun v => ⟨fun hv => ?_, fun hv => ?_⟩, h.searched.settled⟩
    · exact lt_of_contains (h.searched.contains v hv)
    · exact (h.left v (List.mem_range.2 hv)).resolve_right (hnone v)

/-! ### Checking an order -/

/-- The check finds the first edge whose target is listed before its source, or there is none. -/
theorem findLate_spec {predecessors : Nat → List Nat} {order : List Nat} {listed : Marks n}
    (hlt : ∀ v ∈ order, v < n) :
    match findLate predecessors listed order with
    | some u => ∃ pre v post, order = pre ++ v :: post ∧ u ∈ predecessors v ∧
        listed.contains u = false ∧ u ∉ pre ++ [v]
    | none => ∀ pre v post, order = pre ++ v :: post → ∀ u ∈ predecessors v,
        listed.contains u = true ∨ u ∈ pre ++ [v] := by
  induction order generalizing listed with
  | nil =>
    intro pre v post heq
    exact absurd heq.symm (List.append_ne_nil_of_right_ne_nil _ (List.cons_ne_nil _ _))
  | cons first order ih =>
    obtain ⟨hfirst, horder⟩ := List.forall_mem_cons.1 hlt
    have hmark : ∀ u, (listed.mark first).contains u = true ↔
        listed.contains u = true ∨ u = first := by
      intro u
      rw [Marks.contains_mark, Bool.or_eq_true, decide_eq_true_eq, or_comm]
      refine or_congr_right ⟨fun h => h.1.symm, fun h => ⟨h.symm, h ▸ hfirst⟩⟩
    rw [findLate]
    cases hfind : (predecessors first).find? fun u => !(listed.mark first).contains u with
    | some u =>
      have hnot := List.find?_some hfind
      rw [Bool.not_eq_true', ← Bool.not_eq_true, hmark, not_or] at hnot
      refine ⟨[], first, order, rfl, List.mem_of_find?_eq_some hfind, ?_, ?_⟩
      · exact Bool.eq_false_iff.2 hnot.1
      · simpa using hnot.2
    | none =>
      have hall : ∀ u ∈ predecessors first, listed.contains u = true ∨ u = first := by
        intro u hu
        have := List.find?_eq_none.1 hfind u hu
        rw [Bool.not_eq_true', Bool.not_eq_false] at this
        exact (hmark u).1 this
      have hrest := @ih (listed.mark first) horder
      dsimp only
      split at hrest
      · obtain ⟨pre, v, post, rfl, hu, hlisted, hpre⟩ := hrest
        rw [← Bool.not_eq_true, hmark, not_or] at hlisted
        refine ⟨first :: pre, v, post, rfl, hu, ?_, ?_⟩
        · exact Bool.eq_false_iff.2 hlisted.1
        · exact List.not_mem_cons_of_ne_of_not_mem hlisted.2 hpre
      · intro pre v post heq u hu
        cases pre with
        | nil =>
          obtain ⟨rfl, rfl⟩ := List.cons.inj heq
          exact (hall u hu).imp_right List.mem_singleton.2
        | cons x pre =>
          obtain ⟨rfl, rfl⟩ := List.cons.inj heq
          rw [List.cons_append, List.mem_cons, ← or_assoc, ← hmark]
          exact hrest pre v post rfl u hu

theorem Forward.of_append {pre post : List Nat} (h : Forward successors (pre ++ post)) :
    Forward successors post := by
  induction pre with
  | nil => exact h
  | cons v pre ih => exact ih h.2

theorem Settled.of_append {pre post : List Nat} (h : Settled successors (pre ++ post)) :
    Settled successors post := by
  induction pre with
  | nil => exact h
  | cons v pre ih => exact ih h.2

/-- The successors of what is listed are listed. -/
theorem Forward.mem {order : List Nat} (h : Forward successors order) {u v : Nat}
    (hu : u ∈ order) (hv : v ∈ successors u) : v ∈ order := by
  induction order with
  | nil => cases hu
  | cons w order ih =>
    rcases List.mem_cons.1 hu with rfl | hu
    · exact List.mem_cons_of_mem _ (h.1 v hv)
    · exact List.mem_cons_of_mem _ (ih h.2 hu)

/-- What paths lead to from there is listed as well. -/
theorem Forward.mem_of_reaches {order : List Nat} (h : Forward successors order) {u v : Nat}
    (hu : u ∈ order) (path : Reaches successors u v) : v ∈ order := by
  exact path.keeps (fun x hx y edge => h.mem hx edge) hu

/-- Where edges lead on there is no cycle. -/
theorem IsOrder.not_onCycle {order : List Nat} (h : IsOrder n successors order) {v : Nat}
    (hv : v < n) : ¬ OnCycle successors v := by
  rintro ⟨w, hw, path⟩
  obtain ⟨pre, post, rfl⟩ := List.append_of_mem ((h.mem_iff v).2 hv)
  obtain ⟨hbehind, hforward⟩ : Forward successors (v :: post) := h.forward.of_append
  -- The path never leaves what is listed behind the vertex, and the vertex is not listed there.
  have hmem : v ∈ post := hforward.mem_of_reaches (hbehind w hw) path
  exact (List.nodup_cons.1 (List.nodup_append.1 h.nodup).2.1).1 hmem

/-- An edge begins before the vertex that it leads to. -/
theorem IsOrder.mem_of_edge {before after : List Nat} {u v : Nat}
    (h : IsOrder n successors (before ++ v :: after)) (hu : u < n) (edge : v ∈ successors u) :
    u ∈ before := by
  rcases List.mem_append.1 ((h.mem_iff u).2 hu) with hbefore | hafter
  · exact hbefore
  · -- Otherwise the vertex would be listed once more behind where the edge begins.
    obtain ⟨hbehind, hforward⟩ : Forward successors (v :: after) := h.forward.of_append
    have hmem : v ∈ after := by
      rcases List.mem_cons.1 hafter with rfl | hafter
      · exact hbehind u edge
      · exact hforward.mem hafter edge
    exact absurd hmem (List.nodup_cons.1 (List.nodup_append.1 h.nodup).2.1).1

/-- When nothing is listed too late, then edges lead on. -/
theorem forward_of_settled {predecessors : Nat → List Nat} {order : List Nat}
    (hnodup : order.Nodup) (hsettled : Settled successors order)
    (hedges : ∀ u, ∀ v ∈ successors u, v ∈ order ∧ u ∈ predecessors v)
    (hlate : ∀ pre v post, order = pre ++ v :: post → ∀ u ∈ predecessors v, u ∈ pre ++ [v]) :
    Forward successors order := by
  suffices h : ∀ post pre, order = pre ++ post → Forward successors post from h order [] rfl
  intro post
  induction post with
  | nil => exact fun _ _ => trivial
  | cons v post ih =>
    intro pre heq
    have hrest := ih (pre ++ [v]) (by rw [heq, List.append_assoc, List.singleton_append])
    refine ⟨fun w hw => ?_, hrest⟩
    obtain ⟨hmem, hback⟩ := hedges v w hw
    rw [heq] at hnodup hsettled hmem
    have hsettled : Settled successors (v :: post) := hsettled.of_append
    by_contra hnot
    have hne : w ≠ v := ((hsettled.1 w hw).resolve_left hnot).1
    have hpre : w ∈ pre := by
      rcases List.mem_append.1 hmem with hpre | hmem
      · exact hpre
      · exact absurd ((List.mem_cons.1 hmem).resolve_left hne) hnot
    -- When the successor was listed, its predecessor was not.
    obtain ⟨before, after, rfl⟩ := List.append_of_mem hpre
    have hv : v ∈ before ++ [w] := by
      refine hlate before w (after ++ v :: post) ?_ v hback
      rw [heq, List.append_assoc, List.cons_append]
    have hv : v ∈ before ++ w :: after := by
      rw [List.append_cons]
      exact List.mem_append_left _ hv
    exact (List.nodup_append.1 hnodup).2.2 v hv v List.mem_cons_self rfl

/-- The vertices that an edge leads to. -/
theorem mem_lookup_index {edges : List (Nat × Nat)} {u v : Nat} (hu : u < n) :
    v ∈ lookup (index n edges) u ↔ (u, v) ∈ edges := by
  rw [lookup_index hu]
  simp

/-- The vertices that an edge comes from. -/
theorem mem_lookup_swap {edges : List (Nat × Nat)} {u v : Nat} (hv : v < n) :
    u ∈ lookup (index n (edges.map Prod.swap)) v ↔ (u, v) ∈ edges := by
  rw [mem_lookup_index hv]
  constructor
  · intro h
    obtain ⟨⟨u', v'⟩, hedge, hswap⟩ := List.mem_map.1 h
    cases hswap
    exact hedge
  · exact fun h => List.mem_map.2 ⟨(u, v), h, rfl⟩

/-- A component lists no vertex twice. -/
theorem nodup_component (successors predecessors : Nat → List Nat) (v : Nat) :
    (component n successors predecessors v).Nodup :=
  (List.nodup_range.filter _).filter _

section Edges

variable {edges : List (Nat × Nat)} (hedges : ∀ edge ∈ edges, edge.1 < n ∧ edge.2 < n)
include hedges

/-- Edges come from vertices and lead to vertices. -/
theorem mem_lookup_index_iff {u v : Nat} :
    v ∈ lookup (index n edges) u ↔ (u, v) ∈ edges := by
  rcases Nat.lt_or_ge u n with hu | hu
  · exact mem_lookup_index hu
  · rw [lookup_index_of_le hu]
    exact iff_of_false List.not_mem_nil fun h => absurd (hedges _ h).1 (Nat.not_lt.2 hu)

theorem mem_lookup_swap_iff {u v : Nat} :
    u ∈ lookup (index n (edges.map Prod.swap)) v ↔ v ∈ lookup (index n edges) u := by
  rw [mem_lookup_index_iff hedges]
  rcases Nat.lt_or_ge v n with hv | hv
  · exact mem_lookup_swap hv
  · rw [lookup_index_of_le hv]
    exact iff_of_false List.not_mem_nil fun h => absurd (hedges _ h).2 (Nat.not_lt.2 hv)

theorem lt_of_mem_lookup {u v : Nat} (h : v ∈ lookup (index n edges) u) : u < n ∧ v < n :=
  hedges _ ((mem_lookup_index_iff hedges).1 h)

/-- An order is found in which edges lead on, or else a vertex on a cycle. -/
theorem orderOfEdges_spec :
    match orderOfEdges n edges with
    | .ok order => IsOrder n (lookup (index n edges)) order
    | .error v => OnCycle (lookup (index n edges)) v := by
  have hlt : ∀ v, ∀ w ∈ lookup (index n edges) v, w < n :=
    fun v w hw => (lt_of_mem_lookup hedges hw).2
  have hvisit := visit_spec hlt
  rw [orderOfEdges, topologicalOrder]
  split at hvisit
  · next v heq =>
    rw [heq]
    exact ⟨v, hvisit, .refl v⟩
  · next order heq =>
    obtain ⟨hnodup, hmem, hsettled⟩ := hvisit
    have hlate := @findLate_spec n (lookup (index n (edges.map Prod.swap))) order (.none n)
      fun v hv => (hmem v).1 hv
    rw [heq]
    dsimp only [bind, Except.bind]
    cases hfind : findLate (lookup (index n (edges.map Prod.swap))) (.none n) order with
    | some u =>
      -- The edge from a vertex that is listed too late leads back to where it was open.
      rw [hfind] at hlate
      obtain ⟨pre, v, post, rfl, hu, -, hpre⟩ := hlate
      have hedge := (mem_lookup_swap_iff hedges).1 hu
      have hbehind : u ∈ post := by
        have hall := (hmem u).2 (lt_of_mem_lookup hedges hedge).1
        rw [List.append_cons] at hall
        exact (List.mem_append.1 hall).resolve_left hpre
      obtain ⟨before, after, rfl⟩ := List.append_of_mem hbehind
      have hsettled : Settled _ (u :: after) :=
        (hsettled.of_append : Settled _ (v :: (before ++ u :: after))).2.of_append
      have hnot : v ∉ after := fun hafter =>
        (List.nodup_cons.1 (List.nodup_append.1 hnodup).2.1).1
          (List.mem_append_right _ (List.mem_cons_of_mem _ hafter))
      exact ⟨v, hedge, ((hsettled.1 v hedge).resolve_left hnot).2⟩
    | none =>
      rw [hfind] at hlate
      refine ⟨hnodup, hmem, forward_of_settled hnodup hsettled (fun u v hv => ?_)
        fun pre v post heq u hu => (hlate pre v post heq u hu).resolve_left (by simp)⟩
      exact ⟨(hmem v).2 (hlt u v hv), (mem_lookup_swap_iff hedges).2 hv⟩

/-- The component of a vertex: what it leads to and what leads to it. -/
theorem mem_component_iff {u v : Nat} (hv : v < n) :
    u ∈ component n (lookup (index n edges)) (lookup (index n (edges.map Prod.swap))) v ↔
      Reaches (lookup (index n edges)) v u ∧ Reaches (lookup (index n edges)) u v := by
  have hsource : ∀ w ∈ [v], w < n := List.forall_mem_singleton.2 hv
  rw [component, List.mem_filter, Marks.mem_toList,
    contains_reachable_iff hsource fun x w hw => (lt_of_mem_lookup hedges hw).2,
    contains_reachable_iff hsource fun x w hw =>
      (lt_of_mem_lookup hedges ((mem_lookup_swap_iff hedges).1 hw)).1]
  simp only [List.mem_singleton, exists_eq_left]
  refine and_congr_right fun _ => ⟨fun path => ?_, fun path => ?_⟩
  · exact path.reverse fun x w hw => (mem_lookup_swap_iff hedges).1 hw
  · exact path.reverse fun x w hw => (mem_lookup_swap_iff hedges).2 hw

end Edges

/-- Pairs that are made vertex by vertex are found again by their first members. -/
theorem map_snd_filter_flatMap_range {f : Nat → List Nat} {u : Nat} (n : Nat) :
    (((List.range n).flatMap fun v => (f v).map (v, ·)).filter (·.1 = u)).map Prod.snd =
      if u < n then f u else [] := by
  induction n with
  | zero => rfl
  | succ n ih =>
    rw [List.range_succ, List.flatMap_append, List.filter_append, List.map_append, ih,
      List.flatMap_singleton, List.filter_map, List.map_map]
    rcases Nat.lt_trichotomy u n with hlt | rfl | hgt
    · have hne : ¬ n = u := by omega
      simp [Function.comp_def, hlt, hne, Nat.lt_succ_of_lt hlt]
    · simp [Function.comp_def]
    · have hne : ¬ n = u := by omega
      have hnot : ¬ u < n := by omega
      have hnot' : ¬ u < n + 1 := by omega
      simp [Function.comp_def, hne, hnot, hnot']

end Graph

namespace Automaton

variable {a : Automaton}

/-- The edges over which nothing is consumed are those to the states that are reached so. -/
theorem lookup_silentEdges : Graph.lookup (Graph.index a.size a.silentEdges) = a.silentTargets := by
  funext state
  rcases Nat.lt_or_ge state a.size with hstate | hstate
  · rw [Graph.lookup_index hstate, silentEdges, Graph.map_snd_filter_flatMap_range,
      if_pos hstate]
  · rw [Graph.lookup_index_of_le hstate, silentTargets, arcs, Array.getElem?_eq_none hstate]
    rfl

/-- Arcs that consume nothing are arcs. -/
theorem onCycle_of_silent {state : Nat} (h : Graph.OnCycle a.silentTargets state) :
    Graph.OnCycle a.targets state :=
  h.mono fun _ => List.map_subset _ (List.filter_subset_self _)

theorem WellFormed.lt_of_mem_silentTargets (ha : a.WellFormed) {state target : Nat}
    (h : target ∈ a.silentTargets state) : target < a.size := by
  obtain ⟨arc, harc, rfl⟩ := List.mem_map.1 h
  exact ha.target_lt state arc (List.mem_filter.1 harc).1

/-- Arcs that consume nothing come from states and lead to states. -/
theorem silentEdges_lt (ha : a.WellFormed) {edge : Nat × Nat} (h : edge ∈ a.silentEdges) :
    edge.1 < a.size ∧ edge.2 < a.size := by
  obtain ⟨state, hstate, h⟩ := List.mem_flatMap.1 h
  obtain ⟨target, htarget, rfl⟩ := List.mem_map.1 h
  exact ⟨List.mem_range.1 hstate, ha.lt_of_mem_silentTargets htarget⟩

/-- The states are put into an order in which arcs that consume nothing lead on, or else a state
is found that leads back to itself over such arcs. -/
theorem silentOrder_spec (ha : a.WellFormed) :
    match a.silentOrder with
    | .ok order => Graph.IsOrder a.size a.silentTargets order
    | .error state => Graph.OnCycle a.silentTargets state := by
  rw [← lookup_silentEdges]
  exact Graph.orderOfEdges_spec fun _ => silentEdges_lt ha

/-- There is such an order when no state leads back to itself. -/
theorem silentOrder_of_acyclic (ha : a.WellFormed)
    (hacyclic : ∀ state, ¬ Graph.OnCycle a.silentTargets state) :
    ∃ order, a.silentOrder = .ok order ∧ Graph.IsOrder a.size a.silentTargets order := by
  have h := silentOrder_spec ha
  split at h
  · next order heq => exact ⟨order, heq, h⟩
  · next state _ => exact absurd h (hacyclic state)

end Automaton

end Phrasebook
