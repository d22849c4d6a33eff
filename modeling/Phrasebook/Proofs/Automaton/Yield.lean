import Mathlib.Data.List.Perm.Subperm
import Phrasebook.Automaton.Run

/-!
# What the runs from a state yield

Where no run can come back to a state, the runs from a state that stop in final states are
finitely many, and they are built up along the arcs: a run is the one that stops at once, or it
begins with an arc and goes on from the arc's target. `Automaton.Yields` says this as a
derivation, so that a fact about all runs is proved by induction on the derivation and no run
has to be taken apart.

* `Automaton.Yields`: the runs from a state have the given utterances, in their order.
* `Automaton.Lists`: the accepted runs have them, as a list of runs shows that is complete and
  in order.
* `Automaton.Follows.mem_of_yields`: every run has one of the utterances.
* `Automaton.Yields.acyclicFrom`, `Automaton.Follows.length_lt_size`: no run comes back, so every
  run takes fewer arcs than there are states.
* `Automaton.Yields.lists`: what the start state yields is what the accepted runs have.
-/

namespace Phrasebook

namespace Utterance

/-- What is consumed and put out along an arc. -/
def ofArc (arc : Automaton.Arc) : Utterance := ⟨arc.input.toList, arc.output.toList⟩

@[simp]
theorem empty_append (u : Utterance) : empty ++ u = u := rfl

@[simp]
theorem append_empty (u : Utterance) : u ++ empty = u := by
  cases u
  change mk _ _ = mk _ _
  simp only [empty, List.append_nil]

theorem append_assoc (u v w : Utterance) : u ++ v ++ w = u ++ (v ++ w) := by
  change mk _ _ = mk _ _
  simp only [words_append, output_append, List.append_assoc]

theorem ofArcs_cons (arc : Automaton.Arc) (arcs : List Automaton.Arc) :
    ofArcs (arc :: arcs) = ofArc arc ++ ofArcs arcs := by
  change mk _ _ = mk _ _
  cases hinput : arc.input <;> cases houtput : arc.output <;>
    simp [ofArcs, ofArc, hinput, houtput]

end Utterance

namespace Graph

variable {successors : Nat → List Nat}

/-- A vertex reaches no cycle when none of its successors does. -/
theorem acyclicFrom_of_successors {u : Nat} (h : ∀ v ∈ successors u, AcyclicFrom successors v) :
    AcyclicFrom successors u := by
  intro v path
  cases path with
  | refl =>
    -- A cycle through the vertex is also one that its successor reaches.
    rintro ⟨w, hw, back⟩
    exact h w hw u back ⟨w, hw, back⟩
  | head edge path => exact h _ edge _ path

end Graph

namespace Automaton

variable {a : Automaton}

mutual

/-- The runs from a state that stop in final states have the given utterances, in their order. -/
inductive Yields (a : Automaton) : Nat → List Utterance → Prop
  /-- A run stops at once, or it begins with an arc of the state. -/
  | state {state : Nat} {us : List Utterance} (each : YieldEach a (a.arcs state) us) :
    Yields a state ((if a.isFinal state then [.empty] else []) ++ us)

/-- The runs that begin with one of some arcs have the given utterances, in their order. -/
inductive YieldEach (a : Automaton) : List Arc → List Utterance → Prop
  /-- There is no arc. -/
  | nil : YieldEach a [] []
  /-- The runs with the first arc come before those with a later one. -/
  | cons {arc : Arc} {arcs : List Arc} {us vs : List Utterance} (first : Yields a arc.target us)
    (rest : YieldEach a arcs vs) :
    YieldEach a (arc :: arcs) (us.map (.ofArc arc ++ ·) ++ vs)

end

/-- The accepted runs have the given utterances: a list of runs that is complete and in order
shows them. -/
structure Lists (a : Automaton) (us : List Utterance) : Prop where
  /-- The listed runs are the accepted ones. -/
  complete : ∀ run arcs, (run, arcs) ∈ a.runsFrom a.size a.start ↔ a.Accepts run arcs
  /-- They are listed in their order, each once. -/
  increasing : ((a.runsFrom a.size a.start).map Prod.fst).Pairwise (· < ·)
  /-- They consume and put out what is given. -/
  utterances_eq : a.utterances = us

/-! ### What a run has -/

/-- Each of some arcs leads to a state that yields the rest of what is listed. -/
theorem YieldEach.exists_yields {arcs : List Arc} {us : List Utterance} (h : a.YieldEach arcs us)
    {i : Nat} {arc : Arc} (hi : arcs[i]? = some arc) :
    ∃ vs, a.Yields arc.target vs ∧ ∀ v ∈ vs, .ofArc arc ++ v ∈ us := by
  induction i generalizing arcs us with
  | zero =>
    cases h with
    | nil => cases hi
    | @cons _ _ vs _ first rest =>
      cases hi
      exact ⟨vs, first, fun v hv => List.mem_append_left _ (List.mem_map_of_mem hv)⟩
  | succ i ih =>
    cases h with
    | nil => cases hi
    | cons first rest =>
      obtain ⟨vs, hvs, hmem⟩ := ih rest hi
      exact ⟨vs, hvs, fun v hv => List.mem_append_right _ (hmem v hv)⟩

/-- A run that stops in a final state has one of the utterances that are listed. -/
theorem Follows.mem_of_yields {state stop : Nat} {run : List Nat} {arcs : List Arc}
    {us : List Utterance} (h : a.Follows state run arcs stop) (hfinal : a.isFinal stop = true)
    (hus : a.Yields state us) : Utterance.ofArcs arcs ∈ us := by
  induction h generalizing us with
  | nil =>
    cases hus with
    | state each =>
      rw [if_pos hfinal]
      exact List.mem_append_left _ List.mem_cons_self
  | @cons state i stop arc run arcs first rest ih =>
    cases hus with
    | state each =>
      obtain ⟨vs, hvs, hmem⟩ := each.exists_yields first
      rw [Utterance.ofArcs_cons]
      exact List.mem_append_right _ (hmem _ (ih hfinal hvs))

/-- A word that is consumed along a run is consumed by an arc that can be reached. -/
theorem Follows.exists_arc_of_mem {state stop : Nat} {run : List Nat} {arcs : List Arc}
    (h : a.Follows state run arcs stop) {word : String}
    (hword : word ∈ (Utterance.ofArcs arcs).words) :
    ∃ middle, Graph.Reaches a.targets state middle ∧
      ∃ arc ∈ a.arcs middle, arc.input = some word := by
  induction h with
  | nil => cases hword
  | @cons state i stop arc run arcs first rest ih =>
    rw [Utterance.ofArcs_cons, Utterance.words_append, List.mem_append] at hword
    rcases hword with hword | hword
    · exact ⟨state, .refl state, arc, List.mem_of_getElem? first, Option.mem_toList.1 hword⟩
    · obtain ⟨middle, hpath, harc⟩ := ih hword
      exact ⟨middle, .head (List.mem_map_of_mem (List.mem_of_getElem? first)) hpath, harc⟩

/-! ### No run comes back -/

mutual

/-- A state whose runs are listed reaches no cycle. -/
theorem Yields.acyclicFrom {state : Nat} {us : List Utterance} (h : a.Yields state us) :
    Graph.AcyclicFrom a.targets state := by
  match h with
  | .state each =>
    refine Graph.acyclicFrom_of_successors fun v hv => ?_
    obtain ⟨arc, harc, rfl⟩ := List.mem_map.1 hv
    exact each.acyclicFrom arc harc

theorem YieldEach.acyclicFrom {arcs : List Arc} {us : List Utterance} (h : a.YieldEach arcs us) :
    ∀ arc ∈ arcs, Graph.AcyclicFrom a.targets arc.target := by
  match h with
  | .nil => simp
  | .cons first rest =>
    have hfirst := first.acyclicFrom
    have hrest := rest.acyclicFrom
    exact List.forall_mem_cons.2 ⟨hfirst, hrest⟩

end

/-- From a state that a run comes to by some arc, an edge and a path lead there. -/
theorem Follows.exists_edge {state stop v : Nat} {run : List Nat} {arcs : List Arc}
    (h : a.Follows state run arcs stop) (hv : v ∈ arcs.map Arc.target) :
    ∃ w ∈ a.targets state, Graph.Reaches a.targets w v := by
  induction h with
  | nil => simp at hv
  | @cons state i stop arc run arcs first rest ih =>
    have hedge : arc.target ∈ a.targets state :=
      List.mem_map.2 ⟨arc, List.mem_of_getElem? first, rfl⟩
    rcases List.mem_cons.1 hv with rfl | hv
    · exact ⟨arc.target, hedge, .refl _⟩
    · obtain ⟨w, hw, path⟩ := ih hv
      exact ⟨arc.target, hedge, .head hw path⟩

/-- A run that reaches no cycle comes to no state twice. -/
theorem Follows.nodup {state stop : Nat} {run : List Nat} {arcs : List Arc}
    (h : a.Follows state run arcs stop) (hacyclic : Graph.AcyclicFrom a.targets state) :
    (state :: arcs.map Arc.target).Nodup := by
  induction h with
  | nil => simp
  | @cons state i stop arc run arcs first rest ih =>
    have hedge : arc.target ∈ a.targets state :=
      List.mem_map.2 ⟨arc, List.mem_of_getElem? first, rfl⟩
    refine List.nodup_cons.2 ⟨fun hmem => ?_, ih fun v path => hacyclic v (.head hedge path)⟩
    exact hacyclic state (.refl _) ((Follows.cons first rest).exists_edge hmem)

/-- A run goes through states that are there. -/
theorem Follows.mem_lt {state stop : Nat} {run : List Nat} {arcs : List Arc}
    (ha : a.WellFormed) (h : a.Follows state run arcs stop) :
    ∀ v ∈ arcs.map Arc.target, v < a.size := by
  induction h with
  | nil => simp
  | @cons state i stop arc run arcs first rest ih =>
    intro v hv
    rcases List.mem_cons.1 hv with rfl | hv
    · exact ha.target_lt state arc (List.mem_of_getElem? first)
    · exact ih v hv

/-- A run that reaches no cycle takes fewer arcs than there are states. -/
theorem Follows.length_lt_size {state stop : Nat} {run : List Nat} {arcs : List Arc}
    (h : a.Follows state run arcs stop) (ha : a.WellFormed) (hstate : state < a.size)
    (hacyclic : Graph.AcyclicFrom a.targets state) : run.length < a.size := by
  have hsubset : state :: arcs.map Arc.target ⊆ List.range a.size := by
    intro v hv
    rcases List.mem_cons.1 hv with rfl | hv
    · exact List.mem_range.2 hstate
    · exact List.mem_range.2 (h.mem_lt ha v hv)
  have hlength := ((h.nodup hacyclic).subperm hsubset).length_le
  rw [List.length_cons, List.length_map, List.length_range, h.length_eq] at hlength
  exact hlength

/-! ### The listed runs -/

mutual

/-- When no run from a state is longer than asked for, the runs that are listed have the
utterances that the state yields. -/
theorem Yields.map_runsFrom {state length : Nat} {us : List Utterance} (h : a.Yields state us)
    (hlength : ∀ run arcs stop, a.Follows state run arcs stop → run.length ≤ length) :
    ((a.runsFrom length state).map fun (_, arcs) => Utterance.ofArcs arcs) = us := by
  cases h with
  | @state _ vs each =>
    have hstop : ∀ b : Bool, ((if b then [([], [])] else []).map
        fun ((_, arcs) : List Nat × List Arc) => Utterance.ofArcs arcs) =
          if b then [.empty] else [] := by
      rintro (_ | _) <;> rfl
    cases length with
    | zero =>
      -- An arc would make a run that is too long.
      have harcs : a.arcs state = [] := by
        cases hfirst : a.arcs state with
        | nil => rfl
        | cons arc arcs =>
          have hone := hlength [0] [arc] arc.target (.cons (by simp [hfirst]) (.nil _))
          simp at hone
      rw [harcs] at each
      cases each
      simp only [runsFrom, hstop, List.append_nil]
    | succ length =>
      have hrest : ∀ arc ∈ a.arcs state, ∀ run arcs stop, a.Follows arc.target run arcs stop →
          run.length ≤ length := by
        intro arc harc run arcs stop hrun
        obtain ⟨i, hi⟩ := List.mem_iff_getElem?.1 harc
        simpa using hlength _ _ _ (.cons hi hrun)
      simp only [runsFrom, List.map_append, hstop, each.map_runsFrom 0 hrest]

theorem YieldEach.map_runsFrom {arcs : List Arc} {length : Nat} {us : List Utterance}
    (h : a.YieldEach arcs us) (k : Nat)
    (hlength : ∀ arc ∈ arcs, ∀ run arcs stop, a.Follows arc.target run arcs stop →
      run.length ≤ length) :
    (((arcs.zipIdx k).flatMap fun (arc, i) =>
      (a.runsFrom length arc.target).map fun (run, arcs) => (i :: run, arc :: arcs)).map
        fun (_, arcs) => Utterance.ofArcs arcs) = us := by
  cases h with
  | nil => rfl
  | @cons arc arcs us vs first rest =>
    have hfirst := first.map_runsFrom (hlength arc List.mem_cons_self)
    have hrest := rest.map_runsFrom (k + 1) fun arc harc =>
      hlength arc (List.mem_cons_of_mem _ harc)
    simp only [List.zipIdx_cons, List.flatMap_cons, List.map_append, List.map_map, hrest]
    simp only [← hfirst, List.map_map, Function.comp_def, Utterance.ofArcs_cons]

end

/-- What the start state yields is what the accepted runs have. -/
theorem Yields.lists {us : List Utterance} (h : a.Yields a.start us) (ha : a.WellFormed) :
    a.Lists us := by
  have hlength : ∀ run arcs stop, a.Follows a.start run arcs stop → run.length ≤ a.size :=
    fun run arcs stop hrun => Nat.le_of_lt (hrun.length_lt_size ha ha.start_lt h.acyclicFrom)
  refine ⟨fun run arcs => ?_, pairwise_runsFrom, h.map_runsFrom hlength⟩
  rw [mem_runsFrom, Accepts]
  exact and_iff_right_of_imp fun ⟨stop, hrun, _⟩ => hlength run arcs stop hrun

end Automaton

end Phrasebook
