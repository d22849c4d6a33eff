/-!
# Marked vertices

The vertices of a graph are the numbers below its size. A search marks the vertices that it has
met; as every step that marks a new vertex lowers the number of unmarked ones, searches end.
-/

namespace Phrasebook

/-- A set of vertices of a graph with `n` vertices. -/
structure Marks (n : Nat) where
  /-- For each vertex, whether it is marked. -/
  bits : Vector Bool n

namespace Marks

variable {n : Nat}

/-- No vertex is marked. -/
def none (n : Nat) : Marks n := ⟨Vector.replicate n false⟩

/-- Whether a vertex is marked. -/
def contains (m : Marks n) (v : Nat) : Bool :=
  if h : v < n then m.bits[v] else false

/-- Whether a number is a vertex that is not marked. -/
def isNew (m : Marks n) (v : Nat) : Bool :=
  if h : v < n then !m.bits[v] else false

/-- Marks a vertex. -/
def mark (m : Marks n) (v : Nat) : Marks n :=
  if h : v < n then ⟨m.bits.set v true⟩ else m

/-- The number of vertices that are not marked. -/
def unmarked (m : Marks n) : Nat := m.bits.count false

/-- What the vertices that are not marked weigh together. -/
def pending (m : Marks n) (weight : Nat → Nat) : Nat :=
  (List.range n).foldr (fun v sum => (if m.contains v then 0 else weight v) + sum) 0

/-- The marked vertices in increasing order. -/
def toList (m : Marks n) : List Nat := (List.range n).filter m.contains

/-- The number of marked vertices. -/
def count (m : Marks n) : Nat := m.bits.count true

@[simp]
theorem contains_none {v : Nat} : (none n).contains v = false := by
  simp [contains, none]

@[simp]
theorem contains_mark {m : Marks n} {u v : Nat} :
    (m.mark u).contains v = (decide (u = v ∧ v < n) || m.contains v) := by
  unfold contains mark
  by_cases hv : v < n
  · by_cases hu : u < n
    · by_cases huv : u = v
      · subst huv; simp [hu]
      · simp [hu, hv, huv]
    · have : u ≠ v := by omega
      simp [hu, hv, this]
  · simp [hv]

theorem isNew_iff {m : Marks n} {v : Nat} :
    m.isNew v = true ↔ v < n ∧ m.contains v = false := by
  unfold isNew contains
  by_cases hv : v < n <;> simp [hv]

theorem mem_toList {m : Marks n} {v : Nat} : v ∈ m.toList ↔ m.contains v = true := by
  simp only [toList, List.mem_filter, List.mem_range, and_iff_right_iff_imp]
  intro h
  unfold contains at h
  by_cases hv : v < n
  · exact hv
  · simp [hv] at h

/-- Marking a new vertex leaves one vertex less unmarked. -/
theorem unmarked_mark {m : Marks n} {v : Nat} (h : m.isNew v = true) :
    (m.mark v).unmarked + 1 = m.unmarked := by
  have ⟨hv, hnot⟩ := isNew_iff.1 h
  have hbit : m.bits[v] = false := by simpa [contains, hv] using hnot
  have hpos : 0 < m.bits.count false := by
    rw [Vector.count_pos_iff]
    exact hbit ▸ m.bits.getElem_mem hv
  simp only [unmarked, mark, hv, ↓reduceDIte, Vector.count_set, hbit]
  simp only [BEq.rfl, ↓reduceIte, Bool.true_beq, Bool.false_eq_true]
  omega

/-- Marking a new vertex leaves fewer unmarked. -/
theorem unmarked_mark_lt {m : Marks n} {v : Nat} (h : m.isNew v = true) :
    (m.mark v).unmarked < m.unmarked := by
  have := unmarked_mark h
  omega

/-- A vertex is marked or not. -/
theorem count_add_unmarked (m : Marks n) : m.count + m.unmarked = n := by
  have hunmarked : m.unmarked = m.bits.countP fun bit => decide ¬(bit == true) = true := by
    rw [unmarked, Vector.count_eq_countP]
    exact congrFun (congrArg _ (funext fun bit => by cases bit <;> rfl)) _
  rw [hunmarked, count, Vector.count_eq_countP]
  exact Vector.size_eq_countP_add_countP.symm

/-- When no vertex is marked, then all of them weigh. -/
theorem pending_none (weight : Nat → Nat) :
    (none n).pending weight = (List.range n).foldr (fun v sum => weight v + sum) 0 := by
  simp [pending]

/-- Marking a new vertex takes off its weight. -/
theorem pending_mark {m : Marks n} {v : Nat} (weight : Nat → Nat) (h : m.isNew v = true) :
    (m.mark v).pending weight + weight v = m.pending weight := by
  have ⟨hv, hnot⟩ := isNew_iff.1 h
  -- Only the summand of the vertex changes, and it occurs once.
  have hsum : ∀ vs : List Nat, vs.Nodup → (∀ u ∈ vs, u < n) →
      vs.foldr (fun u sum => (if (m.mark v).contains u then 0 else weight u) + sum) 0 +
          (if v ∈ vs then weight v else 0) =
        vs.foldr (fun u sum => (if m.contains u then 0 else weight u) + sum) 0 := by
    intro vs
    induction vs with
    | nil => simp
    | cons u us ih =>
      intro hnodup hlt
      have ⟨hu, hus⟩ := List.nodup_cons.1 hnodup
      have ih := ih hus fun w hw => hlt w (List.mem_cons_of_mem _ hw)
      have hun : u < n := hlt u List.mem_cons_self
      simp only [List.foldr_cons, List.mem_cons, contains_mark] at ih ⊢
      by_cases huv : v = u
      · subst huv
        simp only [hv, hnot, hu, if_false] at ih ⊢
        simp only [and_self, decide_true, Bool.true_or, if_true, true_or, Bool.false_eq_true,
          if_false]
        omega
      · simp only [huv, false_and, decide_false, Bool.false_or, false_or] at ih ⊢
        omega
  have hrange := hsum (List.range n) List.nodup_range fun u hu => List.mem_range.1 hu
  rwa [if_pos (List.mem_range.2 hv)] at hrange

end Marks

end Phrasebook
