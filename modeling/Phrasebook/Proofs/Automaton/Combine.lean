import Phrasebook.Automaton.Combine
import Phrasebook.Proofs.Automaton.Yield

/-!
# What combined automata yield

Automata are combined from copies, which keep the arcs between their own states and lead on
where runs of the original stopped. A run of a copy is a run of the original that goes on as its
last state does; the combinations differ only in how that is. In the automata of templates no
arc leaves a state in which runs stop, so nothing comes between the two parts of a run.

* `Automaton.Tidy`: arcs lead to states, and none leaves a state in which runs stop.
* `Automaton.Spells`: a tidy automaton and what its start state yields, where the other states
  yield something as well.
* `Automaton.Yields.of_copy`: what a copy yields that goes on.
* `Automaton.Spells.concat`, `Automaton.spells_union`, `Automaton.Spells.wrap`,
  `Automaton.Spells.mapOutputs`: what the combinations spell.
* `Automaton.exists_branch_of_accepts`: which branch a run of a union goes through.
-/

namespace Phrasebook

namespace Utterance

variable {u v : Utterance} {us vs ws : List Utterance}

/-- The utterances of one list followed by those of another one, where the choice from the first
list weighs more in the order. -/
def product (us vs : List Utterance) : List Utterance := us.flatMap fun u => vs.map (u ++ ·)

@[simp]
theorem append_product : product (us ++ vs) ws = product us ws ++ product vs ws :=
  List.flatMap_append

@[simp]
theorem empty_product : product [empty] vs = vs := by
  simp only [product, List.flatMap_cons, List.flatMap_nil, empty_append, List.map_id_fun', id_eq,
    List.append_nil]

theorem product_singleton : product us [v] = us.map (· ++ v) := by
  induction us with
  | nil => rfl
  | cons u us ih => exact congrArg ((u ++ v) :: ·) ih

@[simp]
theorem product_empty : product us [empty] = us := by
  simp only [product_singleton, append_empty, List.map_id_fun', id_eq]

theorem product_map_append : product (us.map (u ++ ·)) vs = (product us vs).map (u ++ ·) := by
  simp only [product, List.flatMap_map, List.map_flatMap, List.map_map, Function.comp_def,
    append_assoc]

theorem product_assoc : product (product us vs) ws = product us (product vs ws) := by
  induction us with
  | nil => rfl
  | cons u us ih =>
    have hcons : ∀ vs, product (u :: us) vs = vs.map (u ++ ·) ++ product us vs := fun _ => rfl
    rw [hcons, append_product, product_map_append, ih, hcons]

end Utterance

namespace Automaton

variable {a b c : Automaton} {us vs : List Utterance}

/-- The arcs of a state lead to some of `size` states, and none leaves it when runs may stop. -/
structure State.Tidy (size : Nat) (s : State) : Prop where
  /-- Arcs lead to states. -/
  target_lt : ∀ arc ∈ s.arcs, arc.target < size
  /-- Runs stop only where no arc leads on. -/
  arcs_eq_nil : s.finalWeight.isSome = true → s.arcs = []

/-- The start state and the targets of arcs are states, and runs stop only where no arc leads
on. -/
structure Tidy (a : Automaton) : Prop where
  /-- The start state is a state. -/
  start_lt : a.start < a.size
  /-- Every state is tidy. -/
  states : ∀ s ∈ a.states.toList, s.Tidy a.size

/-- A tidy automaton has the given utterances in the order of its runs. -/
structure Spells (a : Automaton) (us : List Utterance) : Prop where
  /-- The automaton is tidy. -/
  tidy : a.Tidy
  /-- The runs from the start state have the utterances. -/
  yields : a.Yields a.start us
  /-- The runs from every other state have some utterances as well. -/
  total : ∀ state < a.size, ∃ vs, a.Yields state vs

/-! ### States by number -/

theorem getElem?_eq_none_or_mem (a : Automaton) (state : Nat) :
    a.states[state]? = none ∨ ∃ s ∈ a.states.toList, a.states[state]? = some s := by
  cases h : a.states[state]? with
  | none => exact .inl rfl
  | some s => exact .inr ⟨s, by simpa using Array.mem_of_getElem? h, rfl⟩

theorem arcs_of_getElem? {state : Nat} {s : State} (h : a.states[state]? = some s) :
    a.arcs state = s.arcs := by
  simp only [arcs, h]

theorem isFinal_of_getElem? {state : Nat} {s : State} (h : a.states[state]? = some s) :
    a.isFinal state = s.finalWeight.isSome := by
  simp only [isFinal, finalWeight?, h, Option.bind_some]

/-- The arcs of every state of a well-formed automaton lead to states. -/
theorem WellFormed.target_lt_of_mem (h : a.WellFormed) {s : State} {arc : Arc}
    (hs : s ∈ a.states.toList) (harc : arc ∈ s.arcs) : arc.target < a.size := by
  obtain ⟨state, hstate, rfl⟩ := List.mem_iff_getElem.1 hs
  refine h.target_lt state arc ?_
  rwa [arcs_of_getElem? (s := a.states.toList[state]) (by simp)]

/-- An automaton is well-formed when its start state and the targets in its list of states are
states. -/
theorem wellFormed_of_states {states : List State} (ha : a.states.toList = states)
    (hstart : a.start < a.size) (h : ∀ s ∈ states, ∀ arc ∈ s.arcs, arc.target < a.size) :
    a.WellFormed := by
  refine ⟨hstart, fun state arc harc => ?_⟩
  rcases a.getElem?_eq_none_or_mem state with hnone | ⟨s, hmem, hs⟩
  · simp [arcs, hnone] at harc
  · rw [arcs_of_getElem? hs] at harc
    exact h s (ha ▸ hmem) arc harc

/-- Changing the states keeps an automaton well-formed when it adds no targets. -/
theorem WellFormed.mapStates {f : State → State} (h : a.WellFormed)
    (hf : ∀ s, ∀ arc ∈ (f s).arcs, ∃ arc' ∈ s.arcs, arc'.target = arc.target) :
    WellFormed { a with states := a.states.map f } := by
  have hsize : size { a with states := a.states.map f } = a.size := Array.size_map
  refine wellFormed_of_states Array.toList_map (hsize.symm ▸ h.start_lt) fun s hs arc harc => ?_
  obtain ⟨s', hs', rfl⟩ := List.mem_map.1 hs
  obtain ⟨arc', harc', htarget⟩ := hf s' arc harc
  rw [hsize, ← htarget]
  exact h.target_lt_of_mem hs' harc'

/-- A tidy automaton is well-formed. -/
theorem Tidy.wellFormed (ha : a.Tidy) : a.WellFormed :=
  wellFormed_of_states rfl ha.start_lt fun s hs => (ha.states s hs).target_lt

/-- What an automaton spells is what its accepted runs have. -/
theorem Spells.lists (h : a.Spells us) : a.Lists us :=
  h.yields.lists h.tidy.wellFormed

/-- No state leads back to itself. -/
theorem Spells.not_onCycle (h : a.Spells us) (state : Nat) :
    ¬ Graph.OnCycle a.targets state := by
  rintro ⟨target, htarget, path⟩
  obtain ⟨arc, harc, rfl⟩ := List.mem_map.1 htarget
  obtain ⟨vs, hvs⟩ := h.total state (lt_size_of_mem_arcs harc)
  exact hvs.acyclicFrom state (.refl _) ⟨arc.target, htarget, path⟩

/-- An accepted run has one of the utterances that are spelt. -/
theorem Spells.mem_of_accepts (h : a.Spells us) {run : List Nat} {arcs : List Arc}
    (hrun : a.Accepts run arcs) : Utterance.ofArcs arcs ∈ us := by
  obtain ⟨stop, hfollows, hfinal⟩ := hrun
  exact hfollows.mem_of_yields hfinal h.yields

/-- Each of them is that of an accepted run. -/
theorem Spells.exists_accepts (h : a.Spells us) {u : Utterance} (hu : u ∈ us) :
    ∃ run arcs, a.Accepts run arcs ∧ Utterance.ofArcs arcs = u := by
  rw [← h.lists.utterances_eq] at hu
  obtain ⟨⟨run, arcs⟩, hrun, rfl⟩ := List.mem_map.1 hu
  exact ⟨run, arcs, (h.lists.complete run arcs).1 hrun, rfl⟩

/-- A state in which runs stop and which no arc leaves yields the empty utterance. -/
theorem yields_of_stop {state : Nat} (harcs : a.arcs state = [])
    (hfinal : a.isFinal state = true) : a.Yields state [.empty] := by
  have each : a.YieldEach (a.arcs state) [] := by rw [harcs]; exact .nil
  have h := Yields.state each
  rwa [if_pos hfinal, List.append_nil] at h

/-- A state in which no run stops yields what its arcs do. -/
theorem yields_of_arcs {state : Nat} (hfinal : a.isFinal state = false)
    (each : a.YieldEach (a.arcs state) us) : a.Yields state us := by
  have h := Yields.state each
  rwa [hfinal, if_neg Bool.false_ne_true, List.nil_append] at h

/-- A state in which no run stops and which a single arc leaves yields what the arc leads to. -/
theorem yields_of_arc {state : Nat} {arc : Arc} (hfinal : a.isFinal state = false)
    (harcs : a.arcs state = [arc]) (h : a.Yields arc.target us) :
    a.Yields state (us.map (.ofArc arc ++ ·)) := by
  refine yields_of_arcs hfinal ?_
  rw [harcs]
  simpa using YieldEach.cons h .nil

/-! ### Copies -/

/-- A copy of `a` stands in `c` from the number `offset` on, and goes on with `vs` where runs of
`a` stop. -/
structure CopiedAt (c a : Automaton) (offset : Nat) (vs : List Utterance) : Prop where
  /-- The copy has the arcs of the original where no run stops. -/
  arcs_eq : ∀ state < a.size, a.isFinal state = false →
    c.arcs (state + offset) = (a.arcs state).map (.shift a.size offset) ∧
      c.isFinal (state + offset) = false
  /-- Where runs stop the copy goes on. -/
  yields : ∀ state < a.size, a.isFinal state = true → c.Yields (state + offset) vs

mutual

/-- A copy that goes on yields what the original does, followed by what it goes on with. -/
theorem Yields.of_copy {state offset : Nat} {us : List Utterance} (h : a.Yields state us)
    (ha : a.Tidy) (hstate : state < a.size) (hc : c.CopiedAt a offset vs) :
    c.Yields (state + offset) (Utterance.product us vs) := by
  match h with
  | .state each =>
    cases hfinal : a.isFinal state with
    | false =>
      obtain ⟨harcs, hnot⟩ := hc.arcs_eq state hstate hfinal
      refine yields_of_arcs hnot ?_
      rw [harcs, if_neg Bool.false_ne_true, List.nil_append]
      exact each.of_copy ha (ha.wellFormed.target_lt state) hc
    | true =>
      -- No arc leaves the state, so only the run that stops here is continued.
      have harcs : a.arcs state = [] := by
        rcases a.getElem?_eq_none_or_mem state with hnone | ⟨s, hmem, hs⟩
        · simp only [arcs, hnone]
        · rw [isFinal_of_getElem? hs] at hfinal
          rw [arcs_of_getElem? hs, (ha.states s hmem).arcs_eq_nil hfinal]
      rw [harcs] at each
      cases each
      rw [if_pos rfl, List.append_nil, Utterance.empty_product]
      exact hc.yields state hstate hfinal

theorem YieldEach.of_copy {arcs : List Arc} {offset : Nat} {us : List Utterance}
    (h : a.YieldEach arcs us) (ha : a.Tidy) (harcs : ∀ arc ∈ arcs, arc.target < a.size)
    (hc : c.CopiedAt a offset vs) :
    c.YieldEach (arcs.map (.shift a.size offset)) (Utterance.product us vs) := by
  match h with
  | .nil => exact .nil
  | @YieldEach.cons _ arc _ _ _ first rest =>
    have htarget : (arc.shift a.size offset).target = arc.target + offset :=
      renumber_of_lt (harcs arc List.mem_cons_self)
    have hfirst := first.of_copy ha (harcs arc List.mem_cons_self) hc
    have hrest := rest.of_copy ha (fun arc harc => harcs arc (List.mem_cons_of_mem _ harc)) hc
    rw [← htarget] at hfirst
    -- What the copy goes on with follows each run, whatever its first arc is.
    rw [Utterance.append_product, Utterance.product_map_append, List.map_cons]
    exact .cons hfirst hrest

end

/-- The runs from the states of a copy are listed when those of the original are. -/
theorem Spells.total_of_copy (ha : a.Spells us) {offset : Nat} (hc : c.CopiedAt a offset vs)
    {state : Nat} (hle : offset ≤ state) (hlt : state < offset + a.size) :
    ∃ ws, c.Yields state ws := by
  have hstate : state - offset < a.size := by omega
  obtain ⟨ws, hws⟩ := ha.total (state - offset) hstate
  have h := hws.of_copy ha.tidy hstate hc
  rw [Nat.sub_add_cancel hle] at h
  exact ⟨_, h⟩

/-- The states of a copy are found from its offset on. -/
theorem getElem?_of_toList_eq {pre post : List State} {f : State → State} {offset : Nat}
    (hpre : pre.length = offset) (hc : c.states.toList = pre ++ (a.states.toList.map f ++ post))
    {state : Nat} (hstate : state < a.size) :
    ∃ s ∈ a.states.toList, a.states[state]? = some s ∧
      c.states[state + offset]? = some (f s) := by
  subst hpre
  have hlt : state < a.states.toList.length := hstate
  refine ⟨a.states.toList[state], List.getElem_mem hlt, ?_, ?_⟩
  · rw [← Array.getElem?_toList, List.getElem?_eq_getElem hlt]
  · rw [← Array.getElem?_toList, hc, List.getElem?_append_right (Nat.le_add_left _ _),
      Nat.add_sub_cancel, List.getElem?_append_left (by rwa [List.length_map]),
      List.getElem?_map, List.getElem?_eq_getElem hlt, Option.map_some]

/-- Copies that lead on by an arc go on with what follows the arc. -/
theorem CopiedAt.of_joinAt (pre : List State) {post : List State} {offset : Nat} (arc : Arc)
    (ha : a.Tidy) (hpre : pre.length = offset)
    (hc : c.states.toList = pre ++ (a.joinAt offset arc ++ post))
    (h : c.Yields arc.target vs) :
    c.CopiedAt a offset (vs.map (.ofArc arc ++ ·)) := by
  constructor
  · intro state hstate hfinal
    obtain ⟨s, hmem, hold, hnew⟩ := getElem?_of_toList_eq hpre hc hstate
    rw [isFinal_of_getElem? hold] at hfinal
    have hnone : s.finalWeight = none := by simpa using hfinal
    rw [arcs_of_getElem? hnew, arcs_of_getElem? hold, isFinal_of_getElem? hnew]
    simp only [State.continueBy, State.shift, hnone, Option.isSome_none, and_self]
  · intro state hstate hfinal
    obtain ⟨s, hmem, hold, hnew⟩ := getElem?_of_toList_eq hpre hc hstate
    rw [isFinal_of_getElem? hold] at hfinal
    obtain ⟨weight, hweight⟩ := Option.isSome_iff_exists.1 hfinal
    -- No arc of the original leaves the state, so the new arc is its only one.
    have harcs := (ha.states s hmem).arcs_eq_nil hfinal
    have hone : c.arcs (state + offset) = [{ arc with weight }] := by
      rw [arcs_of_getElem? hnew]
      simp only [State.continueBy, State.shift, hweight, harcs, List.map_nil, List.nil_append]
    have hnot : c.isFinal (state + offset) = false := by
      rw [isFinal_of_getElem? hnew]
      simp only [State.continueBy, State.shift, hweight, Option.isSome_none]
    have hyields := yields_of_arc hnot hone h
    exact hyields

/-- A copy without new arcs stops where the original does. -/
theorem CopiedAt.of_copyAt {pre post : List State} {offset : Nat} (ha : a.Tidy)
    (hpre : pre.length = offset)
    (hc : c.states.toList = pre ++ ((a.copyAt offset).toList ++ post)) :
    c.CopiedAt a offset [.empty] := by
  rw [copyAt, Array.toList_map] at hc
  constructor
  · intro state hstate hfinal
    obtain ⟨s, hmem, hold, hnew⟩ := getElem?_of_toList_eq hpre hc hstate
    rw [isFinal_of_getElem? hold] at hfinal
    rw [arcs_of_getElem? hnew, arcs_of_getElem? hold, isFinal_of_getElem? hnew]
    exact ⟨rfl, hfinal⟩
  · intro state hstate hfinal
    obtain ⟨s, hmem, hold, hnew⟩ := getElem?_of_toList_eq hpre hc hstate
    rw [isFinal_of_getElem? hold] at hfinal
    refine yields_of_stop ?_ ?_
    · rw [arcs_of_getElem? hnew]
      simp only [State.shift, (ha.states s hmem).arcs_eq_nil hfinal, List.map_nil]
    · rw [isFinal_of_getElem? hnew]
      exact hfinal

/-! ### Tidy combinations -/

namespace State

variable {size size' offset : Nat} {s : State} {arc : Arc}

theorem Tidy.shift (hs : s.Tidy size) (h : size + offset ≤ size') :
    (s.shift size offset).Tidy size' := by
  constructor
  · intro arc harc
    obtain ⟨old, hold, rfl⟩ := List.mem_map.1 harc
    have hlt := hs.target_lt old hold
    rw [Arc.shift, renumber_of_lt hlt]
    change old.target + offset < size'
    omega
  · intro hfinal
    simp only [State.shift, hs.arcs_eq_nil hfinal, List.map_nil]

theorem Tidy.continueBy (hs : s.Tidy size) (h : arc.target < size) :
    (s.continueBy arc).Tidy size := by
  cases hweight : s.finalWeight with
  | none => simpa only [State.continueBy, hweight] using hs
  | some weight =>
    simp only [State.continueBy, hweight]
    refine ⟨fun new hnew => ?_, by simp⟩
    rcases List.mem_append.1 hnew with hnew | hnew
    · exact hs.target_lt new hnew
    · obtain rfl := List.mem_singleton.1 hnew
      exact h

theorem tidy_stop : State.stop.Tidy size := ⟨by simp [State.stop], fun _ => rfl⟩

/-- Copying to the numbers from 0 on changes nothing when all arcs lead to states. -/
theorem shift_zero (h : ∀ arc ∈ s.arcs, arc.target < size) : s.shift size 0 = s := by
  have harcs : s.arcs.map (Arc.shift size 0) = s.arcs := by
    rw [List.map_congr_left (g := id) fun arc harc => ?_, List.map_id]
    rw [Arc.shift, renumber_of_lt (h arc harc), Nat.add_zero]
    rfl
  rw [State.shift, harcs]

end State

theorem length_joinAt {offset : Nat} {arc : Arc} : (a.joinAt offset arc).length = a.size := by
  rw [joinAt, List.length_map, Array.length_toList, size]

/-- The states of a tidy copy that leads on to a state. -/
theorem Tidy.of_mem_joinAt (ha : a.Tidy) {offset size : Nat} {arc : Arc} {s : State}
    (hsize : a.size + offset ≤ size) (harc : arc.target < size)
    (hs : s ∈ a.joinAt offset arc) : s.Tidy size := by
  obtain ⟨old, hold, rfl⟩ := List.mem_map.1 hs
  exact ((ha.states old hold).shift hsize).continueBy harc

/-- The states of a tidy copy. -/
theorem Tidy.of_mem_copyAt (ha : a.Tidy) {offset size : Nat} {s : State}
    (hsize : a.size + offset ≤ size) (hs : s ∈ (a.copyAt offset).toList) : s.Tidy size := by
  rw [copyAt, Array.toList_map] at hs
  obtain ⟨old, hold, rfl⟩ := List.mem_map.1 hs
  exact (ha.states old hold).shift hsize

/-! ### What combinations spell -/

@[simp]
theorem ofArc_silent {target : Nat} : Utterance.ofArc (.silent target) = .empty := rfl

theorem map_silent_append {target : Nat} :
    us.map (Utterance.ofArc (.silent target) ++ ·) = us := by
  simp only [ofArc_silent, Utterance.empty_append, List.map_id_fun', id_eq]

theorem spells_epsilon : epsilon.Spells [.empty] := by
  have hstop : epsilon.Yields 0 [.empty] := yields_of_stop rfl rfl
  refine ⟨⟨Nat.zero_lt_one, fun s hs => ?_⟩, hstop, fun state hstate => ?_⟩
  · obtain rfl := List.mem_singleton.1 hs
    exact State.tidy_stop
  · obtain rfl : state = 0 := Nat.lt_one_iff.1 hstate
    exact ⟨_, hstop⟩

theorem spells_ofArc (input : Option String) (output : Option Symbol) :
    (ofArc input output).Spells [⟨input.toList, output.toList⟩] := by
  have hstop : (ofArc input output).Yields 1 [.empty] := yields_of_stop rfl rfl
  have harc : (ofArc input output).Yields 0 _ := yields_of_arc rfl rfl hstop
  refine ⟨⟨Nat.zero_lt_two, fun s hs => ?_⟩, ?_, fun state hstate => ?_⟩
  · rcases List.mem_cons.1 hs with rfl | hs
    · exact ⟨by simp [size, ofArc], by simp⟩
    · obtain rfl := List.mem_singleton.1 hs
      exact State.tidy_stop
  · rwa [List.map_singleton, Utterance.append_empty] at harc
  · obtain rfl | rfl : state = 0 ∨ state = 1 := Nat.le_one_iff_eq_zero_or_eq_one.1
      (Nat.le_of_lt_succ hstate)
    · exact ⟨_, harc⟩
    · exact ⟨_, hstop⟩

/-- The states of a concatenation are those of its two copies. -/
theorem WellFormed.toList_concat (ha : a.WellFormed) :
    (concat a b).states.toList =
      a.joinAt 0 (.silent (b.start + a.size)) ++ (b.copyAt a.size).toList := by
  rw [concat, Array.toList_append, Array.toList_map, joinAt]
  congr 1
  exact List.map_congr_left fun s hs => by rw [State.shift_zero fun _ => ha.target_lt_of_mem hs]

/-- Automata one after another spell the utterances of one after those of the other. -/
theorem Spells.concat (ha : a.Spells us) (hb : b.Spells vs) :
    (concat a b).Spells (Utterance.product us vs) := by
  have hstates := ha.tidy.wellFormed.toList_concat (b := b)
  have hlt := hb.tidy.start_lt
  -- What the first copy goes on with is what the second one yields, which comes first.
  have hsecondCopy : (Automaton.concat a b).CopiedAt b a.size [.empty] :=
    .of_copyAt hb.tidy length_joinAt (hstates.trans (by rw [List.append_nil]))
  have hsecond := hb.yields.of_copy hb.tidy hlt hsecondCopy
  rw [Utterance.product_empty] at hsecond
  have hfirstCopy := CopiedAt.of_joinAt [] _ ha.tidy rfl hstates hsecond
  rw [map_silent_append] at hfirstCopy
  constructor
  · refine ⟨?_, fun s hs => ?_⟩
    · have := ha.tidy.start_lt
      change a.start < _
      rw [size_concat]
      omega
    · rw [size_concat]
      rw [hstates] at hs
      rcases List.mem_append.1 hs with hs | hs
      · refine ha.tidy.of_mem_joinAt (by omega) ?_ hs
        change b.start + a.size < _
        omega
      · exact hb.tidy.of_mem_copyAt (by omega) hs
  · exact ha.yields.of_copy ha.tidy ha.tidy.start_lt hfirstCopy
  · intro state hstate
    rw [size_concat] at hstate
    rcases Nat.lt_or_ge state a.size with hfirst | hsecond
    · exact ha.total_of_copy hfirstCopy (Nat.zero_le _) (by omega)
    · exact hb.total_of_copy hsecondCopy hsecond hstate

/-- The branches of a union, which all lead on to state 1: the runs from the start of each, and
that the runs from every other state of them are listed as well. -/
theorem yields_branches {branches : List Automaton} {lists : List (List Utterance)}
    (pre : List State) {offset : Nat} (h : List.Forall₂ Spells branches lists)
    (hpre : pre.length = offset) (hc : c.states.toList = pre ++ branchStates offset branches)
    (hstop : c.Yields 1 [.empty]) :
    List.Forall₂ c.Yields (branchStarts offset branches) lists ∧
      ∀ state, offset ≤ state → state < offset + (branchStates offset branches).length →
        ∃ vs, c.Yields state vs := by
  induction h generalizing pre offset with
  | nil =>
    refine ⟨.nil, fun state hle hlt => ?_⟩
    rw [branchStates, List.length_nil, Nat.add_zero] at hlt
    exact absurd hlt (Nat.not_lt.2 hle)
  | @cons b us branches lists hb _ ih =>
    have hcopy := CopiedAt.of_joinAt _ _ hb.tidy hpre hc hstop
    rw [map_silent_append] at hcopy
    have hfirst := hb.yields.of_copy hb.tidy hb.tidy.start_lt hcopy
    rw [Utterance.product_empty] at hfirst
    obtain ⟨hrest, htotal⟩ := ih (pre ++ b.joinAt offset (.silent 1))
      (by rw [List.length_append, hpre, length_joinAt])
      (by rw [hc, branchStates, List.append_assoc])
    refine ⟨.cons hfirst hrest, fun state hle hlt => ?_⟩
    rw [branchStates, List.length_append, length_joinAt, ← Nat.add_assoc] at hlt
    rcases Nat.lt_or_ge state (offset + b.size) with hinside | hbehind
    · exact hb.total_of_copy hcopy hle hinside
    · exact htotal state hbehind hlt

/-- Arcs that consume and put out nothing lead to what their targets yield. -/
theorem yieldEach_silent {starts : List Nat} {lists : List (List Utterance)}
    (h : List.Forall₂ c.Yields starts lists) : c.YieldEach (starts.map .silent) lists.flatten := by
  induction h with
  | nil => exact .nil
  | @cons start us _ _ hfirst _ ih =>
    have hcons : c.YieldEach (.silent start :: _) _ := .cons hfirst ih
    rwa [map_silent_append] at hcons

/-- The states of the branches of a union are those of copies, which follow one another. -/
theorem exists_joinAt_of_mem {branches : List Automaton} {offset : Nat} {s : State}
    (h : s ∈ branchStates offset branches) :
    ∃ b ∈ branches, ∃ place, offset ≤ place ∧
      place + b.size ≤ offset + (branchStates offset branches).length ∧
        s ∈ b.joinAt place (.silent 1) := by
  induction branches generalizing offset with
  | nil => cases h
  | cons first branches ih =>
    have hlength : (branchStates offset (first :: branches)).length =
        first.size + (branchStates (offset + first.size) branches).length := by
      rw [branchStates, List.length_append, length_joinAt]
    rcases List.mem_append.1 h with h | h
    · exact ⟨first, List.mem_cons_self, offset, Nat.le_refl _, by omega, h⟩
    · obtain ⟨b, hb, place, hle, hend, hs⟩ := ih h
      exact ⟨b, List.mem_cons_of_mem _ hb, place, by omega, by omega, hs⟩

/-- The first arcs of a union lead to the starts of these copies. -/
theorem exists_start_of_mem {branches : List Automaton} {offset start : Nat}
    (h : start ∈ branchStarts offset branches) :
    ∃ b ∈ branches, ∃ place, offset ≤ place ∧
      place + b.size ≤ offset + (branchStates offset branches).length ∧
        start = b.start + place := by
  induction branches generalizing offset with
  | nil => cases h
  | cons first branches ih =>
    have hlength : (branchStates offset (first :: branches)).length =
        first.size + (branchStates (offset + first.size) branches).length := by
      rw [branchStates, List.length_append, length_joinAt]
    rcases List.mem_cons.1 h with rfl | h
    · exact ⟨first, List.mem_cons_self, offset, Nat.le_refl _, by omega, rfl⟩
    · obtain ⟨b, hb, place, hle, hend, rfl⟩ := ih h
      exact ⟨b, List.mem_cons_of_mem _ hb, place, by omega, by omega, rfl⟩

/-- The states of tidy branches that lead on to state 1, and where their starts are. -/
theorem tidy_branches {branches : List Automaton} {offset : Nat} (h : ∀ b ∈ branches, b.Tidy)
    (hoffset : 1 < offset) :
    (∀ s ∈ branchStates offset branches,
        s.Tidy (offset + (branchStates offset branches).length)) ∧
      ∀ start ∈ branchStarts offset branches,
        start < offset + (branchStates offset branches).length := by
  constructor
  · intro s hs
    obtain ⟨b, hb, place, hle, hend, hs⟩ := exists_joinAt_of_mem hs
    refine (h b hb).of_mem_joinAt (by omega) ?_ hs
    change 1 < _
    omega
  · intro start hstart
    obtain ⟨b, hb, place, hle, hend, rfl⟩ := exists_start_of_mem hstart
    have := (h b hb).start_lt
    omega

theorem size_union {branches : List Automaton} :
    (union branches).size = 2 + (branchStates 2 branches).length := by
  rw [size, union, List.size_toArray, List.length_cons, List.length_cons]
  omega

/-- The states behind the first two of a union are those of its branches. -/
theorem yields_union {branches : List Automaton} {lists : List (List Utterance)}
    (h : List.Forall₂ Spells branches lists) :
    List.Forall₂ (union branches).Yields (branchStarts 2 branches) lists ∧
      ∀ state, 2 ≤ state → state < 2 + (branchStates 2 branches).length →
        ∃ vs, (union branches).Yields state vs :=
  yields_branches [⟨(branchStarts 2 branches).map .silent, none⟩, .stop] h rfl rfl
    (yields_of_stop rfl rfl)

/-- A run of a union first chooses a branch, and then it has an utterance of that branch. -/
theorem exists_branch_of_accepts {branches : List Automaton} {lists : List (List Utterance)}
    (h : List.Forall₂ Spells branches lists) {run : List Nat} {arcs : List Arc}
    (hrun : (union branches).Accepts run arcs) :
    ∃ i rest us, run = i :: rest ∧ lists[i]? = some us ∧ Utterance.ofArcs arcs ∈ us := by
  obtain ⟨stop, hfollows, hfinal⟩ := hrun
  cases hfollows with
  | nil => cases hfinal
  | @cons _ i _ arc rest arcs first hrest =>
    have hbranches := (yields_union h).1
    -- The arcs of the first state lead to the starts of the branches, in their order.
    have hfirst : ((branchStarts 2 branches).map Arc.silent)[i]? = some arc := first
    rw [List.getElem?_map, Option.map_eq_some_iff] at hfirst
    obtain ⟨start, hstart, rfl⟩ := hfirst
    obtain ⟨hi, rfl⟩ := List.getElem?_eq_some_iff.1 hstart
    have hilists : i < lists.length := by rwa [← hbranches.length_eq]
    refine ⟨i, rest, lists[i], rfl, List.getElem?_eq_getElem hilists, ?_⟩
    rw [Utterance.ofArcs_cons, ofArc_silent, Utterance.empty_append]
    exact hrest.mem_of_yields hfinal (hbranches.get hi hilists)

/-- A union spells what its branches do, one branch after another. -/
theorem spells_union {branches : List Automaton} {lists : List (List Utterance)}
    (h : List.Forall₂ Spells branches lists) : (union branches).Spells lists.flatten := by
  have htidy : ∀ b ∈ branches, b.Tidy := by
    induction h with
    | nil => simp
    | cons hb _ ih => exact List.forall_mem_cons.2 ⟨hb.tidy, ih⟩
  obtain ⟨hstates, hstarts⟩ := tidy_branches htidy Nat.one_lt_two
  obtain ⟨hbranches, htotal⟩ := yields_union h
  have hyields : (union branches).Yields 0 lists.flatten :=
    yields_of_arcs rfl (yieldEach_silent hbranches)
  constructor
  · rw [← size_union] at hstates hstarts
    refine ⟨?_, fun s hs => ?_⟩
    · rw [size_union]
      change 0 < _
      omega
    · rcases List.mem_cons.1 hs with rfl | hs
      · refine ⟨fun arc harc => ?_, by simp⟩
        obtain ⟨start, hstart, rfl⟩ := List.mem_map.1 harc
        exact hstarts start hstart
      · rcases List.mem_cons.1 hs with rfl | hs
        · exact State.tidy_stop
        · exact hstates s hs
  · exact hyields
  · -- State 0 leads to all branches, and all branches lead to state 1.
    intro state hstate
    rw [size_union] at hstate
    match state with
    | 0 => exact ⟨_, hyields⟩
    | 1 => exact ⟨_, yields_of_stop rfl rfl⟩
    | state + 2 => exact htotal (state + 2) (Nat.le_add_left _ _) hstate

/-- An optional automaton spells its utterances and then the empty one. -/
theorem Spells.optional (h : a.Spells us) : a.optional.Spells (us ++ [.empty]) :=
  spells_union (.cons h (.cons spells_epsilon .nil))

/-- A wrapped automaton puts out a symbol before each utterance and one behind it. -/
theorem Spells.wrap (h : a.Spells us) (opening closing : Symbol) :
    (a.wrap opening closing).Spells
      (us.map fun u => ⟨u.words, opening :: u.output ++ [closing]⟩) := by
  have hlt := h.tidy.start_lt
  -- The copy is entered with the opening symbol and left with the closing one.
  have hstop : (a.wrap opening closing).Yields 1 [.empty] := yields_of_stop rfl rfl
  have hcopy : (a.wrap opening closing).CopiedAt a 2 _ :=
    .of_joinAt [⟨[.emit opening (a.start + 2)], none⟩, .stop]
      (.emit closing 1) h.tidy rfl (by rw [List.append_nil]; rfl) hstop
  have hall : (a.wrap opening closing).Yields 0 _ :=
    yields_of_arc rfl rfl (h.yields.of_copy h.tidy hlt hcopy)
  constructor
  · refine ⟨?_, fun s hs => ?_⟩
    · rw [size_wrap]
      exact Nat.succ_pos _
    · rw [size_wrap]
      rcases List.mem_cons.1 hs with rfl | hs
      · refine ⟨fun arc harc => ?_, by simp⟩
        obtain rfl := List.mem_singleton.1 harc
        change a.start + 2 < _
        omega
      · rcases List.mem_cons.1 hs with rfl | hs
        · exact State.tidy_stop
        · refine h.tidy.of_mem_joinAt (Nat.le_refl _) ?_ hs
          change 1 < _
          omega
  · have heq : ∀ u ∈ us, .ofArc (.emit opening (a.start + 2)) ++ (u ++ .ofArc (.emit closing 1)) =
        Utterance.mk u.words (opening :: u.output ++ [closing]) := by
      intro u _
      change Utterance.mk (u.words ++ []) _ = _
      rw [List.append_nil]
      rfl
    rw [List.map_singleton, Utterance.append_empty, Utterance.product_singleton,
      List.map_map] at hall
    rwa [← List.map_congr_left heq]
  · intro state hstate
    rw [size_wrap] at hstate
    match state with
    | 0 => exact ⟨_, hall⟩
    | 1 => exact ⟨_, hstop⟩
    | state + 2 => exact h.total_of_copy hcopy (Nat.le_add_left _ _) (by omega)

end Automaton

namespace Utterance

/-- The utterance with every symbol changed by `g`. -/
def mapOutput (g : Symbol → Symbol) (u : Utterance) : Utterance := ⟨u.words, u.output.map g⟩

theorem mapOutput_append {g : Symbol → Symbol} {u v : Utterance} :
    (u ++ v).mapOutput g = u.mapOutput g ++ v.mapOutput g := by
  change mk _ _ = mk _ _
  rw [output_append, List.map_append]
  rfl

end Utterance

namespace Automaton

variable {a : Automaton} {f : Option Symbol → Option Symbol} {g : Symbol → Symbol}

theorem arcs_mapOutputs {state : Nat} :
    (a.mapOutputs f).arcs state =
      (a.arcs state).map fun arc => { arc with output := f arc.output } := by
  simp only [arcs, mapOutputs, Array.getElem?_map]
  cases a.states[state]? <;> rfl

theorem isFinal_mapOutputs {state : Nat} :
    (a.mapOutputs f).isFinal state = a.isFinal state := by
  simp only [isFinal, finalWeight?, mapOutputs, Array.getElem?_map]
  cases a.states[state]? <;> rfl

theorem size_mapOutputs : (a.mapOutputs f).size = a.size := by
  simp [Automaton.mapOutputs, size]

theorem Tidy.mapOutputs (ha : a.Tidy) : (a.mapOutputs f).Tidy := by
  refine ⟨by rw [size_mapOutputs]; exact ha.start_lt, fun s hs => ?_⟩
  rw [size_mapOutputs]
  rw [Automaton.mapOutputs, Array.toList_map] at hs
  obtain ⟨old, hold, rfl⟩ := List.mem_map.1 hs
  constructor
  · intro arc harc
    obtain ⟨before, hbefore, rfl⟩ := List.mem_map.1 harc
    exact (ha.states old hold).target_lt before hbefore
  · intro hfinal
    rw [(ha.states old hold).arcs_eq_nil hfinal, List.map_nil]

mutual

/-- Changing the symbols of the arcs changes those of the utterances. -/
theorem Yields.mapOutputs {state : Nat} {us : List Utterance} (h : a.Yields state us)
    (hf : ∀ label, f label = label.map g) :
    (a.mapOutputs f).Yields state (us.map (Utterance.mapOutput g)) := by
  match h with
  | .state each =>
    have heach := each.mapOutputs hf
    rw [← arcs_mapOutputs] at heach
    have hstop : (if a.isFinal state then [Utterance.empty] else []).map (Utterance.mapOutput g) =
        if (a.mapOutputs f).isFinal state then [Utterance.empty] else [] := by
      rw [isFinal_mapOutputs]
      split <;> rfl
    rw [List.map_append, hstop]
    exact .state heach

theorem YieldEach.mapOutputs {arcs : List Arc} {us : List Utterance} (h : a.YieldEach arcs us)
    (hf : ∀ label, f label = label.map g) :
    (a.mapOutputs f).YieldEach (arcs.map fun arc => { arc with output := f arc.output })
      (us.map (Utterance.mapOutput g)) := by
  match h with
  | .nil => exact .nil
  | @YieldEach.cons _ arc _ us _ first rest =>
    have hfirst := first.mapOutputs hf
    have hrest := rest.mapOutputs hf
    have harc : Utterance.ofArc { arc with output := f arc.output } =
        (Utterance.ofArc arc).mapOutput g := by
      rw [Utterance.ofArc, hf]
      cases houtput : arc.output <;> simp [Utterance.ofArc, Utterance.mapOutput, houtput]
    have heq : (us.map (Utterance.ofArc arc ++ ·)).map (Utterance.mapOutput g) =
        (us.map (Utterance.mapOutput g)).map
          (Utterance.ofArc { arc with output := f arc.output } ++ ·) := by
      rw [List.map_map, List.map_map, harc]
      exact List.map_congr_left fun u _ => Utterance.mapOutput_append
    rw [List.map_append, heq]
    exact .cons hfirst hrest

end

/-- An automaton with changed symbols spells the changed utterances. -/
theorem Spells.mapOutputs {us : List Utterance} (h : a.Spells us)
    (hf : ∀ label, f label = label.map g) :
    (a.mapOutputs f).Spells (us.map (Utterance.mapOutput g)) := by
  refine ⟨h.tidy.mapOutputs, h.yields.mapOutputs hf, fun state hstate => ?_⟩
  rw [size_mapOutputs] at hstate
  obtain ⟨vs, hvs⟩ := h.total state hstate
  exact ⟨_, hvs.mapOutputs hf⟩

end Automaton

end Phrasebook
