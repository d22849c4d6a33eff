import Phrasebook.Graph.Reach

/-!
# Paths

A path goes along the edges of a graph, which is given by the list of successors of each vertex.

* `Graph.Reaches`: some path leads from a vertex to another one.
* `Graph.OnCycle`: some path with an edge leads from a vertex back to itself.
* `Graph.contains_reachable_iff`: a search marks exactly what paths lead to.
-/

namespace Phrasebook

namespace Graph

/-- Some path leads from a vertex to another one. -/
inductive Reaches (successors : Nat → List Nat) : Nat → Nat → Prop
  /-- No edge is needed to stay. -/
  | refl (v : Nat) : Reaches successors v v
  /-- A path begins with an edge. -/
  | head {u v w : Nat} (edge : v ∈ successors u) (path : Reaches successors v w) :
    Reaches successors u w

/-- Some path with at least one edge leads from a vertex back to itself. -/
def OnCycle (successors : Nat → List Nat) (v : Nat) : Prop :=
  ∃ w ∈ successors v, Reaches successors w v

/-- No vertex that can be reached from a given one lies on a cycle. -/
def AcyclicFrom (successors : Nat → List Nat) (u : Nat) : Prop :=
  ∀ v, Reaches successors u v → ¬ OnCycle successors v

namespace Reaches

variable {successors : Nat → List Nat}

theorem single {u v : Nat} (edge : v ∈ successors u) : Reaches successors u v :=
  .head edge (.refl v)

theorem trans {u v w : Nat} (first : Reaches successors u v) (second : Reaches successors v w) :
    Reaches successors u w := by
  induction first with
  | refl => exact second
  | head edge _ ih => exact .head edge (ih second)

theorem tail {u v w : Nat} (path : Reaches successors u v) (edge : w ∈ successors v) :
    Reaches successors u w :=
  path.trans (single edge)

/-- What every edge keeps holds along a path. -/
theorem keeps {P : Nat → Prop} {u v : Nat} (path : Reaches successors u v)
    (h : ∀ x, P x → ∀ y ∈ successors x, P y) (hu : P u) : P v := by
  induction path with
  | refl => exact hu
  | head edge _ ih => exact ih (h _ hu _ edge)

/-- A path is walked backwards in a graph with the edges the other way round. -/
theorem reverse {predecessors : Nat → List Nat} {u v : Nat} (path : Reaches successors u v)
    (h : ∀ u, ∀ v ∈ successors u, u ∈ predecessors v) : Reaches predecessors v u := by
  induction path with
  | refl v => exact .refl v
  | head edge _ ih => exact ih.tail (h _ _ edge)

/-- A path is one of every graph that has the edges of the vertices it can come to. -/
theorem within {others : Nat → List Nat} {u v : Nat} (path : Reaches successors u v)
    (h : ∀ w, Reaches successors u w → successors w ⊆ others w) : Reaches others u v := by
  induction path with
  | refl v => exact .refl v
  | head edge _ ih => exact .head (h _ (.refl _) edge) (ih fun w path => h w (.head edge path))

/-- A path of a graph is one of every graph with more edges. -/
theorem mono {others : Nat → List Nat} {u v : Nat} (path : Reaches successors u v)
    (h : ∀ u, successors u ⊆ others u) : Reaches others u v :=
  path.within fun w _ => h w

end Reaches

/-- Two graphs with the same edges where one of them can come to have the same paths. -/
theorem reaches_congr {successors others : Nat → List Nat} {u v : Nat}
    (h : ∀ w, Reaches successors u w → others w = successors w) :
    Reaches others u v ↔ Reaches successors u v := by
  constructor
  · intro path
    induction path with
    | refl => exact .refl _
    | @head u x _ edge _ ih =>
      rw [h u (.refl u)] at edge
      exact .head edge (ih fun w path => h w (.head edge path))
  · exact fun path => path.within fun w hw => by simp [h w hw]

/-- Two graphs with the same edges where one of them can come to have the same cycles there. -/
theorem acyclicFrom_congr {successors others : Nat → List Nat} {u : Nat}
    (h : ∀ w, Reaches successors u w → others w = successors w) :
    AcyclicFrom others u ↔ AcyclicFrom successors u := by
  refine forall_congr' fun v => ?_
  rw [reaches_congr h]
  refine imp_congr_right fun hv => not_congr (exists_congr fun w => ?_)
  rw [h v hv]
  exact and_congr_right fun hw => reaches_congr fun x path => h x ((hv.tail hw).trans path)

/-- A cycle of a graph is one of every graph with more edges. -/
theorem OnCycle.mono {successors others : Nat → List Nat} {v : Nat} (h : OnCycle successors v)
    (hsubset : ∀ u, successors u ⊆ others u) : OnCycle others v := by
  obtain ⟨w, hw, path⟩ := h
  exact ⟨w, hsubset v hw, path.mono hsubset⟩

variable {n : Nat} {successors : Nat → List Nat}

/-- No vertex lies on a cycle where every edge leads to a vertex of higher rank. -/
theorem not_onCycle_of_rank (rank : Nat → Nat)
    (h : ∀ u, ∀ v ∈ successors u, rank u < rank v) (v : Nat) : ¬ OnCycle successors v := by
  rintro ⟨w, hw, path⟩
  have hle : rank w ≤ rank v := path.keeps (P := fun x => rank w ≤ rank x)
    (fun x hx y edge => Nat.le_trans hx (Nat.le_of_lt (h x y edge))) (Nat.le_refl _)
  exact Nat.lt_irrefl _ (Nat.lt_of_lt_of_le (h v w hw) hle)

/-- A search marks nothing but what was marked before and what paths lead to. -/
theorem contains_of_contains_reach {todo : List Nat} {seen : Marks n} {v : Nat}
    (h : (reach successors todo seen).contains v = true) :
    seen.contains v = true ∨ ∃ u ∈ todo, Reaches successors u v := by
  fun_induction reach successors todo seen with
  | case1 => exact .inl h
  | case2 seen u rest hnew ih =>
    rcases ih h with hseen | ⟨w, hw, path⟩
    · simp only [Marks.contains_mark, Bool.or_eq_true, decide_eq_true_eq] at hseen
      rcases hseen with ⟨rfl, _⟩ | hseen
      · exact .inr ⟨u, List.mem_cons_self, .refl u⟩
      · exact .inl hseen
    · rcases List.mem_append.1 hw with hw | hw
      · exact .inr ⟨u, List.mem_cons_self, .head hw path⟩
      · exact .inr ⟨w, List.mem_cons_of_mem _ hw, path⟩
  | case3 seen u rest _ ih =>
    rcases ih h with hseen | ⟨w, hw, path⟩
    · exact .inl hseen
    · exact .inr ⟨w, List.mem_cons_of_mem _ hw, path⟩

/-- When the successors of every marked vertex are marked or to be looked at, then a search
keeps the marks, marks the vertices to be looked at, and marks with a vertex all of its
successors. -/
theorem contains_reach {todo : List Nat} {seen : Marks n}
    (h : ∀ u, seen.contains u = true → ∀ v ∈ successors u, v < n →
      seen.contains v = true ∨ v ∈ todo) :
    (∀ u, seen.contains u = true → (reach successors todo seen).contains u = true) ∧
    (∀ u ∈ todo, u < n → (reach successors todo seen).contains u = true) ∧
    ∀ u, (reach successors todo seen).contains u = true → ∀ v ∈ successors u, v < n →
      (reach successors todo seen).contains v = true := by
  fun_induction reach successors todo seen with
  | case1 seen =>
    refine ⟨fun _ hu => hu, by simp, fun u hu v hv hlt => ?_⟩
    simpa using h u hu v hv hlt
  | case2 seen u rest hnew ih =>
    have ⟨hu, _⟩ := Marks.isNew_iff.1 hnew
    -- The new mark is one whose successors have just been put in front of the rest.
    have ⟨keeps, looks, closed⟩ := ih fun w hw v hv hlt => by
      simp only [Marks.contains_mark, Bool.or_eq_true, decide_eq_true_eq] at hw ⊢
      rcases hw with ⟨rfl, _⟩ | hw
      · exact .inr (List.mem_append_left _ hv)
      · rcases h w hw v hv hlt with hseen | hmem
        · exact .inl (.inr hseen)
        · rcases List.mem_cons.1 hmem with rfl | hmem
          · exact .inl (.inl ⟨rfl, hlt⟩)
          · exact .inr (List.mem_append_right _ hmem)
    have hmarked : (seen.mark u).contains u = true := by simp [hu]
    refine ⟨fun w hw => keeps w (by simp [hw]), fun w hw hlt => ?_, closed⟩
    rcases List.mem_cons.1 hw with rfl | hw
    · exact keeps w hmarked
    · exact looks w (List.mem_append_right _ hw) hlt
  | case3 seen u rest hold ih =>
    have hmarked : u < n → seen.contains u = true := fun hu => by
      simpa [Marks.isNew_iff, hu] using hold
    have ⟨keeps, looks, closed⟩ := ih fun w hw v hv hlt => by
      rcases h w hw v hv hlt with hseen | hmem
      · exact .inl hseen
      · rcases List.mem_cons.1 hmem with rfl | hmem
        · exact .inl (hmarked hlt)
        · exact .inr hmem
    refine ⟨keeps, fun w hw hlt => ?_, closed⟩
    rcases List.mem_cons.1 hw with rfl | hw
    · exact keeps w (hmarked hlt)
    · exact looks w hw hlt

/-- A search marks exactly what paths lead to, when edges lead to vertices only. -/
theorem contains_reachable_iff {sources : List Nat} {v : Nat}
    (hsources : ∀ u ∈ sources, u < n) (hsuccessors : ∀ u, ∀ w ∈ successors u, w < n) :
    (reachable n successors sources).contains v = true ↔
      ∃ u ∈ sources, Reaches successors u v := by
  constructor
  · intro h
    rcases contains_of_contains_reach h with hseen | hpath
    · simp at hseen
    · exact hpath
  · rintro ⟨u, hu, path⟩
    have ⟨_, looks, closed⟩ :=
      @contains_reach n successors sources (.none n) (by simp)
    exact path.keeps (fun x hx y edge => closed x hx y edge (hsuccessors x y edge))
      (looks u hu (hsources u hu))

end Graph

end Phrasebook
