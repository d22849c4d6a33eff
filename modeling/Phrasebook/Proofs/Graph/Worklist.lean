import Phrasebook.Graph.Path
import Phrasebook.Graph.Worklist

/-!
# Worklists are exact

Whatever is on the list has been marked, and a marked vertex that is not on the list has been
looked at, so its successors are marked as well. When the list is empty, then what is marked leads
to nothing else; and nothing was ever marked that cannot be reached.

A vertex is put on the list when it is marked, and only then, so a worklist takes one turn for each
vertex that it marks.

* `Worklist.seen_meet`: meeting a vertex marks it.
* `Worklist.mem_todo_look`: what a turn puts on the list.
* `Worklist.Invariant`: what holds before every turn.
* `Worklist.Invariant.look`: a turn keeps it.
* `Worklist.Ends`, `Worklist.ends_iff`: a worklist ends after some turns, and with what.
* `contains_explore_iff`: a worklist marks exactly what can be reached.
* `ends_explore_iff`: it takes one turn for each vertex that it marks.
-/

namespace Phrasebook

namespace Marks

variable {n u v : Nat} {m : Marks n} {vs : List Nat}

/-- Nothing changes when a vertex is marked that is marked already. -/
theorem mark_of_isNew_eq_false (h : m.isNew v = false) : m.mark v = m := by
  unfold mark
  split
  · next hv =>
    have hbit : m.bits[v] = true := by simpa [isNew, hv] using h
    rw [← hbit, Vector.set_getElem_self]
  · rfl

theorem contains_foldl_mark :
    (vs.foldl mark m).contains v = true ↔ m.contains v = true ∨ v ∈ vs ∧ v < n := by
  induction vs generalizing m with
  | nil => simp
  | cons u vs ih =>
    rw [List.foldl_cons, ih, contains_mark, Bool.or_eq_true, decide_eq_true_eq, List.mem_cons]
    constructor
    · rintro ((⟨rfl, hv⟩ | hm) | ⟨hmem, hv⟩)
      · exact .inr ⟨.inl rfl, hv⟩
      · exact .inl hm
      · exact .inr ⟨.inr hmem, hv⟩
    · rintro (hm | ⟨rfl | hmem, hv⟩)
      · exact .inl (.inr hm)
      · exact .inl (.inl ⟨rfl, hv⟩)
      · exact .inr ⟨hmem, hv⟩

theorem isNew_mark (hv : v ≠ u) : (m.mark u).isNew v = m.isNew v := by
  rw [Bool.eq_iff_iff, isNew_iff, isNew_iff, contains_mark]
  simp [Ne.symm hv]

theorem isNew_mark_self : (m.mark v).isNew v = false := by
  rw [← Bool.not_eq_true, isNew_iff, contains_mark]
  rintro ⟨hv, hunmarked⟩
  simp [hv] at hunmarked

theorem unmarked_none : (none n).unmarked = n := by
  simp [unmarked, none]

/-- Marking new vertices, each of them once, leaves as many less unmarked. -/
theorem unmarked_foldl_mark (hnodup : vs.Nodup) (hnew : ∀ v ∈ vs, m.isNew v = true) :
    (vs.foldl mark m).unmarked + vs.length = m.unmarked := by
  induction vs generalizing m with
  | nil => rfl
  | cons v vs ih =>
    obtain ⟨hv, hvs⟩ := List.nodup_cons.1 hnodup
    obtain ⟨hnewv, hnew⟩ := List.forall_mem_cons.1 hnew
    have hmark := unmarked_mark hnewv
    have hrest := ih (m := m.mark v) hvs fun w hw => by
      rw [isNew_mark (ne_of_mem_of_not_mem hw hv)]
      exact hnew w hw
    rw [List.foldl_cons, List.length_cons]
    omega

end Marks

namespace Graph

namespace Worklist

variable {n turns u v w : Nat} {successors : Nat → List Nat} {sources rest vs : List Nat}
  {s : Worklist n} {seen result : Marks n}

/-! ### What a turn does -/

/-- Meeting a vertex marks it. -/
theorem seen_meet : (s.meet v).seen = s.seen.mark v := by
  unfold meet
  split
  · rfl
  · next hold => rw [Marks.mark_of_isNew_eq_false (Bool.eq_false_iff.2 hold)]

theorem seen_foldl_meet : (vs.foldl meet s).seen = vs.foldl Marks.mark s.seen := by
  induction vs generalizing s with
  | nil => rfl
  | cons v vs ih => rw [List.foldl_cons, List.foldl_cons, ih, seen_meet]

/-- A turn marks the successors of the vertex. -/
theorem contains_look : (s.look successors u).seen.contains v = true ↔
    s.seen.contains v = true ∨ v ∈ successors u ∧ v < n := by
  rw [look, seen_foldl_meet, Marks.contains_foldl_mark]

theorem mem_todo_meet :
    v ∈ (s.meet u).todo ↔ v ∈ s.todo ∨ v = u ∧ s.seen.isNew u = true := by
  unfold meet
  split
  · next hnew => simp [hnew, or_comm]
  · next hold => simp [hold]

theorem mem_todo_foldl_meet :
    v ∈ (vs.foldl meet s).todo ↔ v ∈ s.todo ∨ v ∈ vs ∧ s.seen.isNew v = true := by
  induction vs generalizing s with
  | nil => simp
  | cons u vs ih =>
    rw [List.foldl_cons, ih, mem_todo_meet, seen_meet, List.mem_cons]
    -- Once the first vertex has been met, it is not put on the list again.
    by_cases hu : v = u
    · subst hu
      simp [Marks.isNew_mark_self]
    · rw [Marks.isNew_mark hu]
      simp [hu]

/-- A turn puts those successors on the list that have not been met. -/
theorem mem_todo_look : v ∈ (s.look successors u).todo ↔
    v ∈ s.todo ∨ v ∈ successors u ∧ s.seen.isNew v = true := mem_todo_foldl_meet

/-! ### What is marked -/

/-- What holds before every turn of a worklist that began with some vertices. -/
structure Invariant (successors : Nat → List Nat) (sources : List Nat) (s : Worklist n) :
    Prop where
  /-- The worklist has begun. -/
  met_source : ∀ v ∈ sources, s.seen.contains v = true
  /-- What has been met can be reached. -/
  reached : ∀ v, s.seen.contains v = true → ∃ u ∈ sources, Reaches successors u v
  /-- What is on the list has been met. -/
  met_of_todo : ∀ v ∈ s.todo, s.seen.contains v = true
  /-- What has been met and is not on the list has been looked at. -/
  looked : ∀ v, s.seen.contains v = true →
    v ∈ s.todo ∨ ∀ w ∈ successors v, s.seen.contains w = true

theorem contains_begin :
    (begin sources : Worklist n).seen.contains v = true ↔ v ∈ sources ∧ v < n := by
  rw [begin, Marks.contains_foldl_mark]
  simp

theorem invariant_begin (hsources : ∀ v ∈ sources, v < n) :
    Invariant successors sources (begin sources : Worklist n) where
  met_source v hv := contains_begin.2 ⟨hv, hsources v hv⟩
  reached v hv := ⟨v, (contains_begin.1 hv).1, .refl v⟩
  met_of_todo v hv :=
    have hmem := List.mem_reverse.1 hv
    contains_begin.2 ⟨hmem, hsources v hmem⟩
  looked _ hv := .inl (List.mem_reverse.2 (contains_begin.1 hv).1)

/-- A turn keeps the invariant. -/
theorem Invariant.look (hlt : ∀ v, ∀ w ∈ successors v, w < n)
    (h : Invariant successors sources ⟨v :: rest, seen⟩) :
    Invariant successors sources (look successors ⟨rest, seen⟩ v) where
  met_source w hw := contains_look.2 (.inl (h.met_source w hw))
  reached w hw := by
    rcases contains_look.1 hw with hw | ⟨hedge, -⟩
    · exact h.reached w hw
    · obtain ⟨u, hu, path⟩ := h.reached v (h.met_of_todo v List.mem_cons_self)
      exact ⟨u, hu, path.tail hedge⟩
  met_of_todo w hw := by
    rcases mem_todo_look.1 hw with hw | ⟨hedge, -⟩
    · exact contains_look.2 (.inl (h.met_of_todo w (List.mem_cons_of_mem v hw)))
    · exact contains_look.2 (.inr ⟨hedge, hlt v w hedge⟩)
  looked w hw := by
    by_cases hold : seen.contains w = true
    · rcases h.looked w hold with hmem | hclosed
      · rcases List.mem_cons.1 hmem with rfl | hmem
        · -- The vertex itself is off the list, but it has been looked at.
          exact .inr fun x hx => contains_look.2 (.inr ⟨hx, hlt w x hx⟩)
        · exact .inl (mem_todo_look.2 (.inl hmem))
      · exact .inr fun x hx => contains_look.2 (.inl (hclosed x hx))
    · -- The vertex was met in this turn.
      rcases contains_look.1 hw with hw | ⟨hedge, hwn⟩
      · exact absurd hw hold
      · exact .inl (mem_todo_look.2
          (.inr ⟨hedge, Marks.isNew_iff.2 ⟨hwn, Bool.eq_false_iff.2 hold⟩⟩))

/-- When nothing is on the list, then exactly that is marked which can be reached. -/
theorem Invariant.contains_iff (h : Invariant successors sources ⟨[], seen⟩) :
    seen.contains v = true ↔ ∃ u ∈ sources, Reaches successors u v := by
  refine ⟨h.reached v, ?_⟩
  rintro ⟨u, hu, path⟩
  exact path.keeps (fun x hx => (h.looked x hx).resolve_left List.not_mem_nil)
    (h.met_source u hu)

/-- So is what a worklist comes to that goes on correctly. -/
theorem Invariant.contains_run_iff (hlt : ∀ v, ∀ w ∈ successors v, w < n)
    (h : Invariant successors sources s) :
    (s.run successors).contains v = true ↔ ∃ u ∈ sources, Reaches successors u v := by
  fun_induction run successors s with
  | case1 seen => exact h.contains_iff
  | case2 u rest seen ih => exact ih (h.look hlt)

/-! ### Turns -/

/-- A worklist ends with some marks when it has gone on for some turns. -/
inductive Ends (successors : Nat → List Nat) : Nat → Worklist n → Marks n → Prop
  /-- Nothing is on the list. -/
  | done (seen : Marks n) : Ends successors 0 ⟨[], seen⟩ seen
  /-- The vertex in front is looked at. -/
  | turn {turns v : Nat} {rest : List Nat} {seen result : Marks n}
    (next : Ends successors turns (look successors ⟨rest, seen⟩ v) result) :
    Ends successors (turns + 1) ⟨v :: rest, seen⟩ result

/-- Every worklist ends. -/
theorem exists_ends (successors : Nat → List Nat) (s : Worklist n) :
    ∃ turns, Ends successors turns s (s.run successors) := by
  fun_induction run successors s with
  | case1 seen => exact ⟨0, .done seen⟩
  | case2 v rest seen ih =>
    obtain ⟨turns, hends⟩ := ih
    exact ⟨turns + 1, .turn hends⟩

/-- A worklist ends with what it marks, and a turn that was pending has been taken unless a vertex
is left unmarked. -/
theorem Ends.eq_run (h : Ends successors turns s result) :
    result = s.run successors ∧ turns + result.unmarked = s.pending := by
  induction h with
  | done seen => exact ⟨by rw [run], by simp [pending]⟩
  | @turn turns v rest seen result next ih =>
    obtain ⟨hresult, hturns⟩ := ih
    rw [pending_look] at hturns
    refine ⟨by rw [run, hresult], ?_⟩
    simp only [pending, List.length_cons] at hturns ⊢
    omega

/-- A worklist ends in one way only. -/
theorem ends_iff : Ends successors turns s result ↔
    turns + (s.run successors).unmarked = s.pending ∧ result = s.run successors := by
  constructor
  · intro h
    obtain ⟨rfl, hturns⟩ := h.eq_run
    exact ⟨hturns, rfl⟩
  · rintro ⟨hturns, rfl⟩
    obtain ⟨turns', hends⟩ := exists_ends successors s
    have hturns' := hends.eq_run.2
    have heq : turns = turns' := by omega
    exact heq ▸ hends

theorem pending_begin_le : (begin sources : Worklist n).pending ≤ sources.length + n := by
  have := Marks.count_add_unmarked (begin sources : Worklist n).seen
  simp only [pending, begin, List.length_reverse] at this ⊢
  omega

/-- At first all vertices are pending, those that are on the list and those that are not marked. -/
theorem pending_begin (hnodup : sources.Nodup) (hsources : ∀ v ∈ sources, v < n) :
    (begin sources : Worklist n).pending = n := by
  have hnew : ∀ v ∈ sources, (Marks.none n).isNew v = true := fun v hv =>
    Marks.isNew_iff.2 ⟨hsources v hv, Marks.contains_none⟩
  have := Marks.unmarked_foldl_mark hnodup hnew
  rw [Marks.unmarked_none] at this
  simpa [pending, begin] using this

end Worklist

variable {n turns v : Nat} {successors : Nat → List Nat} {sources : List Nat} {result : Marks n}

/-- A worklist marks exactly what paths lead to, when edges lead to vertices only. -/
theorem contains_explore_iff (hsources : ∀ u ∈ sources, u < n)
    (hsuccessors : ∀ u, ∀ w ∈ successors u, w < n) :
    (explore n successors sources).contains v = true ↔ ∃ u ∈ sources, Reaches successors u v :=
  (Worklist.invariant_begin hsources).contains_run_iff hsuccessors

/-- A worklist that begins with distinct vertices looks at each vertex once that it marks. -/
theorem ends_explore_iff (hnodup : sources.Nodup) (hsources : ∀ u ∈ sources, u < n) :
    Worklist.Ends successors turns (.begin sources) result ↔
      turns = (explore n successors sources).count ∧ result = explore n successors sources := by
  rw [Worklist.ends_iff, Worklist.pending_begin hnodup hsources, ← explore]
  have := Marks.count_add_unmarked (explore n successors sources)
  exact and_congr_left fun _ => by omega

/-- A worklist ends, also when it begins with a vertex twice. -/
theorem exists_ends_explore : ∃ bound ≤ sources.length + n, ∀ turns result,
    Worklist.Ends successors turns (.begin sources) result ↔
      turns = bound ∧ result = explore n successors sources := by
  obtain ⟨bound, hends⟩ := Worklist.exists_ends successors (.begin sources : Worklist n)
  have hbound := hends.eq_run.2
  have hle : (Worklist.begin sources : Worklist n).pending ≤ sources.length + n :=
    Worklist.pending_begin_le
  refine ⟨bound, by omega, fun turns result => ?_⟩
  rw [Worklist.ends_iff, ← explore]
  rw [← explore] at hbound
  exact and_congr_left fun _ => by omega

end Graph

end Phrasebook
