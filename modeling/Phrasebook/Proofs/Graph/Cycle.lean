import Phrasebook.Graph.Cycle
import Phrasebook.Proofs.Graph.Order

/-!
# The search for a cycle is exact

The grey vertices are those of the path, and each of them leads to the one that was met last. So an
edge from there to a grey vertex closes a cycle. The black vertices lead to black vertices only, and
a vertex becomes black when all of its successors are, while it is not; so it lies on no cycle. When
the path is empty, then the vertex in which the search began is black, and so is everything that it
leads to.

* `CycleSearch.Trail`: the vertices of the path, and which of their successors have been left.
* `CycleSearch.Invariant`: what holds before every turn.
* `CycleSearch.Invariant.turn`: a turn keeps it, or it comes to the right result.
* `CycleSearch.Ends`: a search comes to a result after some turns.
* `CycleSearch.exists_ends`: every search ends, after no more turns than are pending.
* `findsNoCycle_iff`: no cycle is found exactly when none can be reached.
-/

namespace Phrasebook

namespace Graph

namespace CycleSearch

variable {n : Nat} {successors : Nat → List Nat} {source v w : Nat} {rest : List Nat}
  {path : List Frame} {s s' : CycleSearch n}

/-! ### Colours -/

theorem colour_eq_white_iff : s.colour v = .white ↔ v < n ∧ s.met.contains v = false := by
  unfold colour
  rw [← Marks.isNew_iff]
  split
  · simp [*]
  · split <;> simp [*]

theorem colour_eq_grey_iff :
    s.colour v = .grey ↔ s.met.contains v = true ∧ s.left.contains v = false := by
  unfold colour
  by_cases hv : v < n
  · by_cases hmet : s.met.contains v = true
    · have hold : s.met.isNew v = false := by simp [← Bool.not_eq_true, Marks.isNew_iff, hmet]
      simp [hold, hv, hmet]
    · have hnew : s.met.isNew v = true := Marks.isNew_iff.2 ⟨hv, by simpa using hmet⟩
      simp [hnew, hmet]
  · simp [Marks.isNew, Marks.contains, hv]

theorem left_of_black (hv : v < n) (h : s.colour v = .black) : s.left.contains v = true := by
  unfold colour at h
  split at h
  · cases h
  · split at h
    · cases h
    · next hnot => simpa [hv] using hnot

/-! ### Paths -/

/-- The vertices of the path lead to each other, the first of them to the vertex that follows it, if
there is one. Every successor of a vertex is left over, unless it has been left or follows. -/
def Trail (successors : Nat → List Nat) (left : Marks n) : Option Nat → List Frame → Prop
  | _, [] => True
  | next, f :: path =>
    f.rest ⊆ successors f.vertex ∧ (∀ w ∈ next, w ∈ successors f.vertex) ∧
      (∀ w ∈ successors f.vertex, w ∈ f.rest ∨ left.contains w = true ∨ next = some w) ∧
      Trail successors left (some f.vertex) path

/-- Every vertex of the path leads to the vertex that follows. -/
theorem Trail.reaches {left : Marks n} (h : Trail successors left (some w) path) :
    ∀ f ∈ path, Reaches successors f.vertex w := by
  induction path generalizing w with
  | nil => simp
  | cons f path ih =>
    obtain ⟨-, hnext, -, hpath⟩ := h
    have hedge : w ∈ successors f.vertex := hnext w rfl
    exact List.forall_mem_cons.2 ⟨.single hedge, fun g hg => (ih hpath g hg).tail hedge⟩

/-- More vertices may have been left. -/
theorem Trail.mono {left left' : Marks n} {next : Option Nat}
    (h : Trail successors left next path)
    (hleft : ∀ v, left.contains v = true → left'.contains v = true) :
    Trail successors left' next path := by
  induction path generalizing next with
  | nil => trivial
  | cons f path ih =>
    obtain ⟨hrest, hnext, hlooked, hpath⟩ := h
    exact ⟨hrest, hnext, fun w hw => (hlooked w hw).imp_right (.imp_left (hleft w)), ih hpath⟩

/-- When the vertex that follows has been left, then nothing has to follow. -/
theorem Trail.of_left {left : Marks n} (h : Trail successors left (some w) path)
    (hw : left.contains w = true) : Trail successors left none path := by
  cases path with
  | nil => trivial
  | cons f path =>
    obtain ⟨hrest, -, hlooked, hpath⟩ := h
    refine ⟨hrest, by simp, fun x hx => ?_, hpath⟩
    rcases hlooked x hx with hx | hx | hx
    · exact .inl hx
    · exact .inr (.inl hx)
    · cases hx
      exact .inr (.inl hw)

/-! ### Turns -/

/-- What holds before every turn of a search that began in `source`. -/
structure Invariant (successors : Nat → List Nat) (source : Nat) (s : CycleSearch n) : Prop where
  /-- The path is one, and nothing follows it. -/
  trail : Trail successors s.left none s.path
  /-- No vertex is met twice. -/
  nodup : (s.path.map Frame.vertex).Nodup
  /-- The grey vertices are those of the path. -/
  grey_iff : ∀ v, s.colour v = .grey ↔ v ∈ s.path.map Frame.vertex
  /-- The path can be reached. -/
  reached : ∀ f ∈ s.path, Reaches successors source f.vertex
  /-- What has been left was met. -/
  met_of_left : ∀ v, s.left.contains v = true → s.met.contains v = true
  /-- What has been left leads to nothing else. -/
  closed : ∀ v, s.left.contains v = true → ∀ w ∈ successors v, s.left.contains w = true
  /-- What has been left lies on no cycle. -/
  not_onCycle : ∀ v, s.left.contains v = true → ¬ OnCycle successors v
  /-- The search has begun. -/
  met_source : s.met.contains source = true

/-- The vertices that have been left lead to no cycle. -/
theorem Invariant.acyclicFrom (h : Invariant successors source s)
    (hv : s.left.contains v = true) : AcyclicFrom successors v := by
  intro w hw
  exact h.not_onCycle w (hw.keeps h.closed hv)

theorem invariant_begin (hsource : source < n) :
    Invariant successors source (begin successors source : CycleSearch n) where
  trail := ⟨List.Subset.refl _, by simp, fun w hw => .inl hw, trivial⟩
  nodup := by simp [begin]
  grey_iff v := by
    rw [colour_eq_grey_iff]
    simp only [begin, Marks.contains_mark, Marks.contains_none, Bool.or_false, decide_eq_true_eq,
      and_true, List.map_cons, List.map_nil, List.mem_singleton]
    exact ⟨fun h => h.1.symm, fun h => ⟨h.symm, h ▸ hsource⟩⟩
  reached := by simpa [begin] using Reaches.refl source
  met_of_left v hv := by simp [begin] at hv
  closed v hv := by simp [begin] at hv
  not_onCycle v hv := by simp [begin] at hv
  met_source := by simp [begin, hsource]

/-- A search whose path is empty has left everything that can be reached. -/
theorem Invariant.acyclicFrom_source (h : Invariant successors source s) (hpath : s.path = []) :
    AcyclicFrom successors source := by
  apply h.acyclicFrom
  by_contra hleft
  -- Otherwise the vertex in which the search began would be on the path.
  have hgrey := (h.grey_iff source).1
    (colour_eq_grey_iff.2 ⟨h.met_source, Bool.eq_false_iff.2 hleft⟩)
  rw [hpath] at hgrey
  cases hgrey

/-- An edge to a vertex of the path closes a cycle. -/
theorem Invariant.not_acyclicFrom (h : Invariant successors source s)
    (hpath : s.path = ⟨v, w :: rest⟩ :: path) (hgrey : s.colour w = .grey) :
    ¬ AcyclicFrom successors source := by
  intro hacyclic
  have htrail := h.trail
  have hmem := (h.grey_iff w).1 hgrey
  rw [hpath] at htrail hmem
  obtain ⟨hrest, -, -, hbelow⟩ := htrail
  have hedge : w ∈ successors v := hrest List.mem_cons_self
  have hback : Reaches successors w v := by
    rcases List.mem_cons.1 hmem with rfl | hmem
    · exact .refl _
    · obtain ⟨f, hf, rfl⟩ := List.mem_map.1 hmem
      exact hbelow.reaches f hf
  have hv : Reaches successors source v := h.reached ⟨v, w :: rest⟩ (by simp [hpath])
  exact hacyclic v hv ⟨w, hedge, hback⟩

/-- A vertex is left when all of its successors have been. -/
theorem Invariant.leave (h : Invariant successors source s) (hpath : s.path = ⟨v, []⟩ :: path) :
    Invariant successors source { s with path, left := s.left.mark v } := by
  have htrail := h.trail
  have hnodup := h.nodup
  have hreached := h.reached
  have hgrey_iff := h.grey_iff
  rw [hpath] at htrail hnodup hreached
  simp only [hpath, List.map_cons, List.mem_cons] at hgrey_iff
  obtain ⟨-, -, hlooked, hbelow⟩ := htrail
  obtain ⟨hmet, hnot⟩ := colour_eq_grey_iff.1 ((hgrey_iff v).2 (.inl rfl))
  have hv : v < n := lt_of_contains hmet
  have hmark : ∀ u, (s.left.mark v).contains u = true ↔ u = v ∨ s.left.contains u = true := by
    intro u
    rw [Marks.contains_mark, Bool.or_eq_true, decide_eq_true_eq]
    exact or_congr_left ⟨fun h => h.1.symm, fun h => ⟨h.symm, h ▸ hv⟩⟩
  have hsuccessors : ∀ w ∈ successors v, s.left.contains w = true := by
    intro w hw
    simpa using hlooked w hw
  exact {
    trail := (hbelow.mono fun u hu => (hmark u).2 (.inr hu)).of_left ((hmark v).2 (.inl rfl))
    nodup := (List.nodup_cons.1 hnodup).2
    grey_iff := fun u => by
      have hu := hgrey_iff u
      rw [colour_eq_grey_iff] at hu ⊢
      rw [← Bool.not_eq_true, hmark, not_or, and_left_comm, Bool.not_eq_true, hu]
      constructor
      · rintro ⟨hne, heq | hmem⟩
        · exact absurd heq hne
        · exact hmem
      · exact fun hmem => ⟨fun heq => (List.nodup_cons.1 hnodup).1 (heq ▸ hmem), .inr hmem⟩
    reached := (List.forall_mem_cons.1 hreached).2
    met_of_left := fun u hu => by
      rcases (hmark u).1 hu with rfl | hu
      · exact hmet
      · exact h.met_of_left u hu
    closed := fun u hu w hw => by
      rcases (hmark u).1 hu with rfl | hu
      · exact (hmark w).2 (.inr (hsuccessors w hw))
      · exact (hmark w).2 (.inr (h.closed u hu w hw))
    not_onCycle := fun u hu => by
      rcases (hmark u).1 hu with rfl | hu
      · -- A way back would never come out of what has been left before.
        rintro ⟨w, hw, hback⟩
        rw [hback.keeps h.closed (hsuccessors w hw)] at hnot
        cases hnot
      · exact h.not_onCycle u hu
    met_source := h.met_source }

/-- A vertex that has not been met becomes the first one of the path. -/
theorem Invariant.enter (h : Invariant successors source s)
    (hpath : s.path = ⟨v, w :: rest⟩ :: path) (hwhite : s.colour w = .white) :
    Invariant successors source
      { s with path := ⟨w, successors w⟩ :: ⟨v, rest⟩ :: path, met := s.met.mark w } := by
  have htrail := h.trail
  have hnodup := h.nodup
  have hreached := h.reached
  have hgrey_iff := h.grey_iff
  rw [hpath] at htrail hnodup hreached
  simp only [hpath, List.map_cons] at hgrey_iff
  obtain ⟨hrest, -, hlooked, hbelow⟩ := htrail
  obtain ⟨hw, hunmet⟩ := colour_eq_white_iff.1 hwhite
  have hedge : w ∈ successors v := hrest List.mem_cons_self
  have hnotleft : s.left.contains w = false := by
    by_contra hleft
    rw [h.met_of_left w (by simpa using hleft)] at hunmet
    cases hunmet
  have hfresh : w ∉ v :: path.map Frame.vertex := by
    intro hmem
    rw [(colour_eq_grey_iff.1 ((hgrey_iff w).2 hmem)).1] at hunmet
    cases hunmet
  have hmark : ∀ u, (s.met.mark w).contains u = true ↔ u = w ∨ s.met.contains u = true := by
    intro u
    rw [Marks.contains_mark, Bool.or_eq_true, decide_eq_true_eq]
    exact or_congr_left ⟨fun h => h.1.symm, fun h => ⟨h.symm, h ▸ hw⟩⟩
  obtain ⟨hv, hpathreached⟩ := List.forall_mem_cons.1 hreached
  exact {
    trail := by
      refine ⟨List.Subset.refl _, by simp, fun x hx => .inl hx, ?_, ?_, fun x hx => ?_, hbelow⟩
      · exact List.Subset.trans (List.subset_cons_self w rest) hrest
      · simpa using hedge
      · rcases hlooked x hx with hx | hx | hx
        · rcases List.mem_cons.1 hx with rfl | hx
          · exact .inr (.inr rfl)
          · exact .inl hx
        · exact .inr (.inl hx)
        · cases hx
    nodup := List.nodup_cons.2 ⟨hfresh, hnodup⟩
    grey_iff := fun u => by
      have hu := hgrey_iff u
      rw [colour_eq_grey_iff] at hu ⊢
      simp only [List.map_cons, hmark]
      rw [List.mem_cons (a := u) (b := w), ← hu, or_and_right]
      exact or_congr_left ⟨fun h => h.1, fun h => ⟨h, h ▸ hnotleft⟩⟩
    reached := List.forall_mem_cons.2
      ⟨hv.tail hedge, List.forall_mem_cons.2 ⟨hv, hpathreached⟩⟩
    met_of_left := fun u hu => (hmark u).2 (.inr (h.met_of_left u hu))
    closed := h.closed
    not_onCycle := h.not_onCycle
    met_source := (hmark source).2 (.inr h.met_source) }

/-- A successor that has been left is passed over. -/
theorem Invariant.pass (h : Invariant successors source s)
    (hpath : s.path = ⟨v, w :: rest⟩ :: path) (hleft : s.left.contains w = true) :
    Invariant successors source { s with path := ⟨v, rest⟩ :: path } := by
  obtain ⟨htrail, hnodup, hgrey_iff, hreached, hmet, hclosed, hcycle, hsource⟩ := h
  rw [hpath] at htrail hnodup hreached
  obtain ⟨hrest, -, hlooked, hbelow⟩ := htrail
  refine ⟨⟨List.Subset.trans (List.subset_cons_self w rest) hrest, by simp, fun x hx => ?_,
    hbelow⟩, hnodup, fun u => ?_, ?_, hmet, hclosed, hcycle, hsource⟩
  · rcases hlooked x hx with hx | hx
    · rcases List.mem_cons.1 hx with rfl | hx
      · exact .inr (.inl hleft)
      · exact .inl hx
    · exact .inr hx
  · have hu := hgrey_iff u
    rw [hpath] at hu
    exact hu
  · obtain ⟨hv, hpathreached⟩ := List.forall_mem_cons.1 hreached
    exact List.forall_mem_cons.2 ⟨hv, hpathreached⟩

/-- A turn keeps the invariant, or it comes to the right result. -/
theorem Invariant.turn (hlt : ∀ v, ∀ w ∈ successors v, w < n)
    (h : Invariant successors source s) :
    match s.turn successors with
    | .inl result => result = true ↔ AcyclicFrom successors source
    | .inr s' => Invariant successors source s' := by
  match hpath : s.path with
  | [] =>
    rw [turn_of_nil hpath]
    exact iff_of_true rfl (h.acyclicFrom_source hpath)
  | ⟨v, []⟩ :: path =>
    rw [turn_of_leave hpath]
    exact h.leave hpath
  | ⟨v, w :: rest⟩ :: path =>
    cases hcolour : s.colour w with
    | white =>
      rw [turn_of_white hpath hcolour]
      exact h.enter hpath hcolour
    | grey =>
      rw [turn_of_grey hpath hcolour]
      exact iff_of_false Bool.false_ne_true (h.not_acyclicFrom hpath hcolour)
    | black =>
      rw [turn_of_black hpath hcolour]
      have hedge : w ∈ successors v := by
        have htrail := h.trail
        rw [hpath] at htrail
        exact htrail.1 List.mem_cons_self
      exact h.pass hpath (left_of_black (hlt v w hedge) hcolour)

/-! ### Runs -/

/-- A search comes to a result when it has gone on for some turns. -/
inductive Ends (successors : Nat → List Nat) : Nat → CycleSearch n → Bool → Prop
  /-- The next turn comes to the result. -/
  | last {s : CycleSearch n} {result : Bool} (stop : s.turn successors = .inl result) :
    Ends successors 0 s result
  /-- The search goes on after the next turn. -/
  | turn {s s' : CycleSearch n} {turns : Nat} {result : Bool}
    (next : s.turn successors = .inr s') (rest : Ends successors turns s' result) :
    Ends successors (turns + 1) s result

/-- Every search comes to its result, and the turns that it takes were pending. -/
theorem exists_ends (successors : Nat → List Nat) (s : CycleSearch n) :
    ∃ turns ≤ s.pending successors, Ends successors turns s (s.run successors) := by
  fun_induction run successors s with
  | case1 s result hstop => exact ⟨0, Nat.zero_le _, .last hstop⟩
  | case2 s s' hnext ih =>
    obtain ⟨turns, hle, hends⟩ := ih
    exact ⟨turns + 1, (pending_turn hnext) ▸ Nat.succ_le_succ hle, .turn hnext hends⟩

/-- A search comes to one result only. -/
theorem Ends.unique {turns turns' : Nat} {result result' : Bool}
    (h : Ends successors turns s result) (h' : Ends successors turns' s result') :
    turns = turns' ∧ result = result' := by
  induction h generalizing turns' with
  | last stop =>
    cases h' with
    | last stop' => exact ⟨rfl, Sum.inl.inj (stop.symm.trans stop')⟩
    | turn next' _ => cases stop.symm.trans next'
  | turn next _ ih =>
    cases h' with
    | last stop' => cases next.symm.trans stop'
    | turn next' rest' =>
      cases next.symm.trans next'
      obtain ⟨rfl, rfl⟩ := ih rest'
      exact ⟨rfl, rfl⟩

/-- The result of a search that goes on correctly is right. -/
theorem Invariant.run_iff (hlt : ∀ v, ∀ w ∈ successors v, w < n)
    (h : Invariant successors source s) :
    s.run successors = true ↔ AcyclicFrom successors source := by
  fun_induction run successors s with
  | case1 s result hstop =>
    have hturn := h.turn hlt
    rwa [hstop] at hturn
  | case2 s s' hnext ih =>
    have hturn := h.turn hlt
    rw [hnext] at hturn
    exact ih hturn

end CycleSearch

/-- No cycle is found exactly when none can be reached, where edges lead to vertices only. -/
theorem findsNoCycle_iff {n : Nat} {successors : Nat → List Nat} {source : Nat}
    (hlt : ∀ v, ∀ w ∈ successors v, w < n) (hsource : source < n) :
    findsNoCycle n successors source = true ↔ AcyclicFrom successors source :=
  (CycleSearch.invariant_begin hsource).run_iff hlt

end Graph

end Phrasebook
