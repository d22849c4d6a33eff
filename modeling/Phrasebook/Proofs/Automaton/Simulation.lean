import Phrasebook.Proofs.Automaton.Combine

/-!
# Automata that follow one another

Copies of an automaton in different places have states of different numbers, but their runs make
the same choices along arcs with the same labels. So a union goes through one of its branches as
any other union does that has this branch, wherever it stands there.

* `Automaton.Simulation`: related states have arcs with the same labels to related states.
* `Automaton.Follows.simulate`: a run is followed by one that makes the same choices.
* `Automaton.BranchAt`: a branch of a union stands in an automaton from some number on.
* `Automaton.exists_follows_union`, `Automaton.exists_accepts_union`: a branch in its place in two
  unions.
-/

namespace Phrasebook

namespace Automaton

/-- What an arc consumes and puts out. -/
def Arc.label (arc : Arc) : Option String × Option Symbol := (arc.input, arc.output)

/-- Arcs with the same labels consume and put out the same. -/
theorem ofArcs_eq_of_map_label_eq {arcs arcs' : List Arc}
    (h : arcs.map Arc.label = arcs'.map Arc.label) :
    Utterance.ofArcs arcs = Utterance.ofArcs arcs' := by
  have hinput : ∀ arcs : List Arc,
      arcs.filterMap Arc.input = (arcs.map Arc.label).filterMap Prod.fst := by
    intro arcs
    rw [List.filterMap_map]
    rfl
  have houtput : ∀ arcs : List Arc,
      arcs.filterMap Arc.output = (arcs.map Arc.label).filterMap Prod.snd := by
    intro arcs
    rw [List.filterMap_map]
    rfl
  rw [Utterance.ofArcs, Utterance.ofArcs, hinput, houtput, h, ← hinput, ← houtput]

/-! ### Simulations -/

/-- Two arcs have the same label and lead to related states. -/
structure Arc.Matches (R : Nat → Nat → Prop) (arc arc' : Arc) : Prop where
  /-- They consume and put out the same. -/
  label_eq : arc.label = arc'.label
  /-- They lead to related states. -/
  target : R arc.target arc'.target

/-- Related states are both final or both not, and their arcs match one by one. -/
structure Simulation (a b : Automaton) (R : Nat → Nat → Prop) : Prop where
  /-- The arcs match one by one. -/
  arcs : ∀ state state', R state state' →
    List.Forall₂ (Arc.Matches R) (a.arcs state) (b.arcs state')
  /-- Runs stop in both or in none. -/
  isFinal_eq : ∀ state state', R state state' → a.isFinal state = b.isFinal state'

variable {a b c d : Automaton} {R : Nat → Nat → Prop}

/-- A run is followed from a related state by a run that makes the same choices, along arcs with
the same labels. -/
theorem Follows.simulate {state state' stop : Nat} {run : List Nat} {arcs : List Arc}
    (h : a.Follows state run arcs stop) (hsim : Simulation a b R) (hstate : R state state') :
    ∃ arcs' stop', b.Follows state' run arcs' stop' ∧ R stop stop' ∧
      arcs.map Arc.label = arcs'.map Arc.label := by
  induction h generalizing state' with
  | nil state => exact ⟨[], state', .nil state', hstate, rfl⟩
  | @cons state i stop arc run arcs first _ ih =>
    have heach := hsim.arcs state state' hstate
    obtain ⟨hi, rfl⟩ := List.getElem?_eq_some_iff.1 first
    have hi' : i < (b.arcs state').length := heach.length_eq ▸ hi
    have hmatches := heach.get hi hi'
    obtain ⟨arcs', stop', hrun, hstop, hlabels⟩ := ih hmatches.target
    refine ⟨(b.arcs state')[i] :: arcs', stop', .cons (List.getElem?_eq_getElem hi') hrun, hstop,
      ?_⟩
    rw [List.map_cons, List.map_cons, hlabels]
    exact congrArg (· :: _) hmatches.label_eq

/-! ### Branches -/

/-- The states of a branch of a union stand in an automaton from some number on. -/
def BranchAt (c b : Automaton) (place : Nat) : Prop :=
  ∀ state < b.size, ∃ s, b.states[state]? = some s ∧
    c.states[state + place]? = some ((s.shift b.size place).continueBy (.silent 1))

/-- States with the same number in a branch, which stands in two places, or the last states of two
unions. -/
def SamePoint (size place place' state state' : Nat) : Prop :=
  state = 1 ∧ state' = 1 ∨ ∃ k < size, state = k + place ∧ state' = k + place'

/-- The arcs of a branch in two places have the same labels and lead to the same points. -/
theorem forall₂_map_shift {size : Nat} {arcs : List Arc} (place place' : Nat)
    (h : ∀ arc ∈ arcs, arc.target < size) :
    List.Forall₂ (Arc.Matches (SamePoint size place place'))
      (arcs.map (.shift size place)) (arcs.map (.shift size place')) := by
  rw [List.forall₂_map_left_iff, List.forall₂_map_right_iff, List.forall₂_same]
  intro arc harc
  exact ⟨rfl, .inr ⟨arc.target, h arc harc, renumber_of_lt (h arc harc),
    renumber_of_lt (h arc harc)⟩⟩

/-- A branch in two places, where runs go on to a last state. -/
theorem simulation_of_branchAt {place place' : Nat} (hb : b.WellFormed) (hc : c.BranchAt b place)
    (hd : d.BranchAt b place') (hcstop : c.states[1]? = some .stop)
    (hdstop : d.states[1]? = some .stop) :
    Simulation c d (SamePoint b.size place place') := by
  constructor
  · rintro _ _ (⟨rfl, rfl⟩ | ⟨k, hk, rfl, rfl⟩)
    · rw [arcs_of_getElem? hcstop, arcs_of_getElem? hdstop]
      exact .nil
    · obtain ⟨s, hs, hplace⟩ := hc k hk
      obtain ⟨s', hs', hplace'⟩ := hd k hk
      obtain rfl := Option.some.inj (hs.symm.trans hs')
      have htargets : ∀ arc ∈ s.arcs, arc.target < b.size := fun arc harc =>
        hb.target_lt k arc (by rwa [arcs_of_getElem? hs])
      rw [arcs_of_getElem? hplace, arcs_of_getElem? hplace']
      cases hweight : s.finalWeight with
      | none =>
        simp only [State.continueBy, State.shift, hweight]
        exact forall₂_map_shift place place' htargets
      | some weight =>
        -- Where runs stopped, both copies have one more arc, to the last state.
        simp only [State.continueBy, State.shift, hweight]
        exact List.rel_append (forall₂_map_shift place place' htargets)
          (.cons ⟨rfl, .inl ⟨rfl, rfl⟩⟩ .nil)
  · rintro _ _ (⟨rfl, rfl⟩ | ⟨k, hk, rfl, rfl⟩)
    · rw [isFinal_of_getElem? hcstop, isFinal_of_getElem? hdstop]
    · obtain ⟨s, hs, hplace⟩ := hc k hk
      obtain ⟨s', hs', hplace'⟩ := hd k hk
      obtain rfl := Option.some.inj (hs.symm.trans hs')
      rw [isFinal_of_getElem? hplace, isFinal_of_getElem? hplace']
      cases hweight : s.finalWeight <;> simp only [State.continueBy, State.shift, hweight]

/-- Where the states of a branch are among those of all branches. -/
theorem exists_branchStates_eq {branches : List Automaton} {i : Nat}
    (h : branches[i]? = some b) (offset : Nat) :
    ∃ place pre post, (branchStarts offset branches)[i]? = some (b.start + place) ∧
      branchStates offset branches = pre ++ (b.joinAt place (.silent 1) ++ post) ∧
      offset + pre.length = place := by
  induction branches generalizing i offset with
  | nil => cases h
  | cons first branches ih =>
    cases i with
    | zero =>
      cases h
      exact ⟨offset, [], branchStates (offset + b.size) branches, rfl, rfl, rfl⟩
    | succ i =>
      obtain ⟨place, pre, post, hstart, hstates, hplace⟩ := ih h (offset + first.size)
      refine ⟨place, first.joinAt offset (.silent 1) ++ pre, post, hstart, ?_, ?_⟩
      · rw [branchStates, hstates, List.append_assoc]
      · rw [List.length_append, length_joinAt, ← Nat.add_assoc, hplace]

/-- A branch of a union stands in the union, where one of the first arcs leads to its start. -/
theorem exists_branchAt_union {branches : List Automaton} {i : Nat}
    (h : branches[i]? = some b) :
    ∃ place, (union branches).BranchAt b place ∧
      ((union branches).arcs 0)[i]? = some (.silent (b.start + place)) := by
  obtain ⟨place, pre, post, hstart, hstates, hplace⟩ := exists_branchStates_eq h 2
  refine ⟨place, fun state hstate => ?_, ?_⟩
  · have hall : (union branches).states.toList =
        (⟨(branchStarts 2 branches).map .silent, none⟩ :: .stop :: pre) ++
          (b.joinAt place (.silent 1) ++ post) :=
      congrArg (fun states => _ :: _ :: states) hstates
    have hlength : (⟨(branchStarts 2 branches).map .silent, none⟩ :: .stop :: pre).length =
        place := by
      rw [List.length_cons, List.length_cons, ← hplace]
      omega
    obtain ⟨s, -, hs, hcopy⟩ := getElem?_of_toList_eq hlength hall hstate
    exact ⟨s, hs, hcopy⟩
  · change ((branchStarts 2 branches).map Arc.silent)[i]? = _
    rw [List.getElem?_map, hstart, Option.map_some]

theorem length_branchStarts {offset : Nat} {branches : List Automaton} :
    (branchStarts offset branches).length = branches.length := by
  induction branches generalizing offset with
  | nil => rfl
  | cons b branches ih => rw [branchStarts, List.length_cons, List.length_cons, ih]

/-- A union has one first arc for each branch. -/
theorem length_arcs_union {branches : List Automaton} :
    ((union branches).arcs 0).length = branches.length := by
  change ((branchStarts 2 branches).map Arc.silent).length = _
  rw [List.length_map, length_branchStarts]

/-- A run through a branch of a union is followed in every other union that has this branch. -/
theorem exists_follows_union {branches branches' : List Automaton} {i j stop : Nat}
    (hb : b.WellFormed) (hi : branches[i]? = some b) (hj : branches'[j]? = some b)
    {run : List Nat} {arcs : List Arc} (h : (union branches).Follows 0 (i :: run) arcs stop) :
    ∃ arcs' stop', (union branches').Follows 0 (j :: run) arcs' stop' ∧
      (union branches).isFinal stop = (union branches').isFinal stop' ∧
      arcs.map Arc.label = arcs'.map Arc.label := by
  obtain ⟨place, hplace, hfirst⟩ := exists_branchAt_union hi
  obtain ⟨place', hplace', hfirst'⟩ := exists_branchAt_union hj
  have hsim := simulation_of_branchAt hb hplace hplace' rfl rfl
  cases h with
  | cons first rest =>
    obtain rfl := Option.some.inj (hfirst.symm.trans first)
    obtain ⟨arcs', stop', hrun', hstop, hlabels⟩ :=
      rest.simulate hsim (.inr ⟨b.start, hb.start_lt, rfl, rfl⟩)
    refine ⟨_, stop', .cons hfirst' hrun', hsim.isFinal_eq stop stop' hstop, ?_⟩
    rw [List.map_cons, List.map_cons, hlabels]
    rfl

/-- A union goes through a branch as every other union does that has this branch. -/
theorem exists_accepts_union {branches branches' : List Automaton} {i j : Nat}
    (hb : b.WellFormed) (hi : branches[i]? = some b) (hj : branches'[j]? = some b)
    {run : List Nat} {arcs : List Arc} (h : (union branches).Accepts (i :: run) arcs) :
    ∃ arcs', (union branches').Accepts (j :: run) arcs' ∧
      arcs.map Arc.label = arcs'.map Arc.label := by
  obtain ⟨stop, hrun, hfinal⟩ := h
  obtain ⟨arcs', stop', hrun', hsame, hlabels⟩ := exists_follows_union hb hi hj hrun
  exact ⟨arcs', ⟨stop', hrun', hsame ▸ hfinal⟩, hlabels⟩

end Automaton

end Phrasebook
