import Phrasebook.Automaton.Reach
import Phrasebook.Graph.Path

/-!
# Runs

A run goes from state to state along arcs. It is given by the position that each arc has among
the arcs of its state, so that two arcs with the same labels make two runs. Runs compare
lexicographically: a run comes before those that extend it, and otherwise the first arcs in
which two runs differ decide.

* `Automaton.Follows`: from a state a run goes along some arcs and stops in a state.
* `Automaton.Accepts`: a run goes along some arcs from the start state to a final state.
* `Automaton.runsFrom`: the runs of a bounded length that stop in final states, in their order.
* `Automaton.utterances`: what the accepted runs of an automaton without cycles consume and
  put out.
-/

namespace Phrasebook

/-- The words that a run consumes, with the symbols that it puts out. -/
structure Utterance where
  /-- The words that are consumed. -/
  words : List String
  /-- The symbols that are put out. -/
  output : List Symbol
  deriving DecidableEq, Repr, Inhabited

namespace Utterance

/-- Nothing is consumed and nothing is put out. -/
def empty : Utterance := ⟨[], []⟩

/-- One utterance followed by another one. -/
def append (u v : Utterance) : Utterance := ⟨u.words ++ v.words, u.output ++ v.output⟩

instance : Append Utterance := ⟨append⟩

/-- What is consumed and put out along some arcs. -/
def ofArcs (arcs : List Automaton.Arc) : Utterance :=
  ⟨arcs.filterMap Automaton.Arc.input, arcs.filterMap Automaton.Arc.output⟩

@[simp]
theorem words_append {u v : Utterance} : (u ++ v).words = u.words ++ v.words := rfl

@[simp]
theorem output_append {u v : Utterance} : (u ++ v).output = u.output ++ v.output := rfl

@[simp]
theorem ofArcs_nil : ofArcs [] = empty := rfl

@[simp]
theorem ofArcs_append {first second : List Automaton.Arc} :
    ofArcs (first ++ second) = ofArcs first ++ ofArcs second := by
  simp only [ofArcs, List.filterMap_append]
  rfl

end Utterance

namespace Automaton

/-- From a state, a run goes along some arcs and stops in a state. -/
inductive Follows (a : Automaton) : Nat → List Nat → List Arc → Nat → Prop
  /-- The run without arcs stops where it is. -/
  | nil (state : Nat) : Follows a state [] [] state
  /-- A run begins with an arc of its state. -/
  | cons {state i stop : Nat} {arc : Arc} {run : List Nat} {arcs : List Arc}
    (first : (a.arcs state)[i]? = some arc) (rest : Follows a arc.target run arcs stop) :
    Follows a state (i :: run) (arc :: arcs) stop

/-- A run goes along some arcs from the start state to a final state. -/
def Accepts (a : Automaton) (run : List Nat) (arcs : List Arc) : Prop :=
  ∃ stop, a.Follows a.start run arcs stop ∧ a.isFinal stop = true

/-- The states of a run with the number of words that are consumed before each. -/
def points (state consumed : Nat) : List Arc → List (Nat × Nat)
  | [] => [(state, consumed)]
  | arc :: arcs =>
    (state, consumed) :: points arc.target (consumed + arc.input.toList.length) arcs

/-- The runs from a state which take at most `length` arcs and stop in a final state, in their
order, each with its arcs. -/
def runsFrom (a : Automaton) : (length state : Nat) → List (List Nat × List Arc)
  | 0, state => if a.isFinal state then [([], [])] else []
  | length + 1, state =>
    (if a.isFinal state then [([], [])] else []) ++
      (a.arcs state).zipIdx.flatMap fun (arc, i) =>
        (runsFrom a length arc.target).map fun (run, arcs) => (i :: run, arc :: arcs)

/-- What the accepted runs of an automaton consume and put out, in the order of the runs. In an
automaton without cycles no run takes as many arcs as there are states. -/
def utterances (a : Automaton) : List Utterance :=
  (a.runsFrom a.size a.start).map fun (_, arcs) => .ofArcs arcs

namespace Follows

variable {a : Automaton}

theorem length_eq {state stop : Nat} {run : List Nat} {arcs : List Arc}
    (h : a.Follows state run arcs stop) : arcs.length = run.length := by
  induction h with
  | nil => rfl
  | cons _ _ ih => simp [ih]

/-- A run determines its arcs and where it stops. -/
theorem unique {state stop stop' : Nat} {run : List Nat} {arcs arcs' : List Arc}
    (h : a.Follows state run arcs stop) (h' : a.Follows state run arcs' stop') :
    arcs = arcs' ∧ stop = stop' := by
  induction h generalizing arcs' with
  | nil => cases h'; exact ⟨rfl, rfl⟩
  | cons first _ ih =>
    cases h' with
    | cons first' rest' =>
      cases Option.some.inj (first.symm.trans first')
      obtain ⟨rfl, rfl⟩ := ih rest'
      exact ⟨rfl, rfl⟩

theorem append {state middle stop : Nat} {run run' : List Nat} {arcs arcs' : List Arc}
    (h : a.Follows state run arcs middle) (h' : a.Follows middle run' arcs' stop) :
    a.Follows state (run ++ run') (arcs ++ arcs') stop := by
  induction h with
  | nil => exact h'
  | cons first _ ih => exact .cons first (ih h')

/-- A run goes along edges of the automaton's graph. -/
theorem reaches {state stop : Nat} {run : List Nat} {arcs : List Arc}
    (h : a.Follows state run arcs stop) : Graph.Reaches a.targets state stop := by
  induction h with
  | nil => exact .refl _
  | cons first _ ih =>
    exact .head (List.mem_map.2 ⟨_, List.mem_of_getElem? first, rfl⟩) ih

end Follows

/-- Every path in an automaton's graph is that of a run. -/
theorem exists_follows_of_reaches {a : Automaton} {state stop : Nat}
    (h : Graph.Reaches a.targets state stop) : ∃ run arcs, a.Follows state run arcs stop := by
  induction h with
  | refl v => exact ⟨[], [], .nil v⟩
  | head edge _ ih =>
    obtain ⟨run, arcs, hrest⟩ := ih
    obtain ⟨arc, harc, rfl⟩ := List.mem_map.1 edge
    obtain ⟨i, hi⟩ := List.mem_iff_getElem?.1 harc
    exact ⟨i :: run, arc :: arcs, .cons hi hrest⟩

/-- The listed runs are those which stop in final states and are no longer than asked for. -/
theorem mem_runsFrom {a : Automaton} {length state : Nat} {run : List Nat} {arcs : List Arc} :
    (run, arcs) ∈ a.runsFrom length state ↔
      run.length ≤ length ∧ ∃ stop, a.Follows state run arcs stop ∧ a.isFinal stop = true := by
  induction length generalizing state run arcs with
  | zero =>
    constructor
    · intro h
      by_cases hfinal : a.isFinal state = true
      · simp only [runsFrom, hfinal, ↓reduceIte, List.mem_singleton, Prod.mk.injEq] at h
        obtain ⟨rfl, rfl⟩ := h
        exact ⟨Nat.le_refl _, state, .nil state, hfinal⟩
      · simp [runsFrom, hfinal] at h
    · rintro ⟨hlength, stop, hfollows, hfinal⟩
      cases hfollows with
      | nil => simp [runsFrom, hfinal]
      | cons _ _ => simp at hlength
  | succ length ih =>
    constructor
    · -- A run stops at once, or its first arc is followed by a run with one arc less.
      intro h
      rcases List.mem_append.1 h with h | h
      · by_cases hfinal : a.isFinal state = true
        · simp only [hfinal, ↓reduceIte, List.mem_singleton, Prod.mk.injEq] at h
          obtain ⟨rfl, rfl⟩ := h
          exact ⟨Nat.zero_le _, state, .nil state, hfinal⟩
        · simp [hfinal] at h
      · simp only [List.mem_flatMap, List.mem_map, Prod.exists, Prod.mk.injEq] at h
        obtain ⟨arc, i, hi, run', arcs', hmem, rfl, rfl⟩ := h
        obtain ⟨hlength, stop, hfollows, hfinal⟩ := ih.1 hmem
        have hi : (a.arcs state)[i]? = some arc := List.mem_zipIdx_iff_getElem?.1 hi
        exact ⟨by simpa using hlength, stop, .cons hi hfollows, hfinal⟩
    · rintro ⟨hlength, stop, hfollows, hfinal⟩
      cases hfollows with
      | nil => exact List.mem_append_left _ (by simp [hfinal])
      | @cons _ i _ arc run arcs first rest =>
        refine List.mem_append_right _ (List.mem_flatMap.2 ⟨(arc, i), ?_, ?_⟩)
        · exact List.mem_zipIdx_iff_getElem?.2 first
        · have hlength : run.length ≤ length := by simpa using hlength
          exact List.mem_map.2 ⟨(run, arcs), ih.2 ⟨hlength, stop, rest, hfinal⟩, rfl⟩

/-- The listed runs increase strictly, so no run is listed twice. -/
theorem pairwise_runsFrom {a : Automaton} {length state : Nat} :
    ((a.runsFrom length state).map Prod.fst).Pairwise (· < ·) := by
  induction length generalizing state with
  | zero => simp only [runsFrom]; split <;> simp
  | succ length ih =>
    simp only [runsFrom, List.map_append, List.map_flatMap, List.map_map, Function.comp_def]
    refine List.pairwise_append.2 ⟨by split <;> simp, ?_, ?_⟩
    · refine List.pairwise_flatMap.2 ⟨fun (arc, i) _ => ?_, ?_⟩
      · -- Runs with the same first arc compare as what follows it.
        have hrest := @ih arc.target
        rw [List.pairwise_map] at hrest ⊢
        exact hrest.imp fun h => List.cons_lt_cons_iff.2 (.inr ⟨rfl, h⟩)
      · have hpositions : ((a.arcs state).zipIdx.map Prod.snd).Pairwise (· < ·) := by
          rw [List.zipIdx_map_snd]
          exact List.pairwise_lt_range'
        rw [List.pairwise_map] at hpositions
        refine hpositions.imp fun h x hx y hy => ?_
        obtain ⟨_, _, rfl⟩ := List.mem_map.1 hx
        obtain ⟨_, _, rfl⟩ := List.mem_map.1 hy
        exact List.cons_lt_cons_iff.2 (.inl h)
    · -- The run that stops at once comes before all others.
      intro x hx y hy
      obtain ⟨_, _, hy⟩ := List.mem_flatMap.1 hy
      obtain ⟨_, _, rfl⟩ := List.mem_map.1 hy
      split at hx
      · obtain rfl : x = [] := by simpa using hx
        exact List.nil_lt_cons _ _
      · simp at hx

end Automaton

end Phrasebook
