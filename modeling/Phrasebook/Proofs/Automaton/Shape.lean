import Phrasebook.Proofs.Automaton.Language

/-!
# The shape of combined automata

The automata of templates all begin in a state that no arc leads to and stop in a single state,
which no arc leaves. A concatenation keeps the beginning of its first part and the end of its
second one; a union and a wrapped automaton have two states of their own for that. The labels of
the arcs are those of the parts and those of the new arcs.

* `Automaton.Shaped`: an automaton of this shape, with labels of a certain kind.
* `Automaton.shaped_of_ends`: an automaton with two states of its own for its beginning and end.
* `Automaton.Shaped.concat`, `Automaton.shaped_union`, `Automaton.Shaped.wrap`,
  `Automaton.Shaped.mapOutputs`: combinations keep the shape.
-/

namespace Phrasebook

namespace Automaton

/-- Runs stop in a single state, which no arc leaves, no arc leads to the start state, and the arcs
are labelled as `P` says. -/
structure Shaped (P : Option String → Option Symbol → Prop) (a : Automaton) : Prop where
  /-- Arcs lead to states. -/
  wellFormed : a.WellFormed
  /-- There is one state in which runs stop, and no arc leaves it. -/
  stop : ∃ stop, (∀ state, a.isFinal state = true ↔ state = stop) ∧ a.arcs stop = []
  /-- No arc leads to the start state. -/
  start : ∀ state, ∀ arc ∈ a.arcs state, arc.target ≠ a.start
  /-- It holds of the labels of every arc. -/
  labels : ∀ state, ∀ arc ∈ a.arcs state, P arc.input arc.output

variable {P : Option String → Option Symbol → Prop} {a b c : Automaton}

/-- An arc that leads from one state of its own to another one, with a label of the kind. -/
structure Arc.Inner (P : Option String → Option Symbol → Prop) (start size : Nat) (arc : Arc) :
    Prop where
  /-- The arc leads to a state. -/
  target_lt : arc.target < size
  /-- The arc does not lead to the start. -/
  target_ne : arc.target ≠ start
  /-- It holds of the label. -/
  label : P arc.input arc.output

theorem Shaped.inner (ha : a.Shaped P) {s : State} (hs : s ∈ a.states.toList) {arc : Arc}
    (harc : arc ∈ s.arcs) : arc.Inner P a.start a.size := by
  obtain ⟨state, hstate, rfl⟩ := List.mem_iff_getElem.1 hs
  have hmem : arc ∈ a.arcs state := by
    rwa [arcs_of_getElem? (s := a.states.toList[state]) (by simp)]
  exact ⟨ha.wellFormed.target_lt state arc hmem, ha.start state arc hmem, ha.labels state arc hmem⟩

/-- The arcs of a copy lead to no state before the copy, nor to its beginning. -/
theorem Arc.Inner.shift {arc : Arc} {start size : Nat} (h : arc.Inner P start size)
    {offset start' size' : Nat} (hsize : size + offset ≤ size')
    (hstart : start' < offset ∨ start' = start + offset) :
    (arc.shift size offset).Inner P start' size' := by
  have htarget : (arc.shift size offset).target = arc.target + offset :=
    renumber_of_lt h.target_lt
  have hlt := h.target_lt
  have hne := h.target_ne
  exact ⟨by omega, by omega, h.label⟩

/-- What has to be known about the states in the list of an automaton. -/
theorem shaped_of_states {states : List State} (hc : c.states.toList = states)
    (hstart : c.start < c.size) (harcs : ∀ s ∈ states, ∀ arc ∈ s.arcs, arc.Inner P c.start c.size)
    (hstop : ∃ stop, (∀ state, c.isFinal state = true ↔ state = stop) ∧ c.arcs stop = []) :
    c.Shaped P := by
  have hinner : ∀ state, ∀ arc ∈ c.arcs state, arc.Inner P c.start c.size := by
    intro state arc harc
    rcases c.getElem?_eq_none_or_mem state with hnone | ⟨s, hmem, hs⟩
    · simp [arcs, hnone] at harc
    · rw [arcs_of_getElem? hs] at harc
      exact harcs s (hc ▸ hmem) arc harc
  exact ⟨⟨hstart, fun state arc harc => (hinner state arc harc).target_lt⟩, hstop,
    fun state arc harc => (hinner state arc harc).target_ne,
    fun state arc harc => (hinner state arc harc).label⟩

/-- An automaton with two states of its own, one to begin and one to stop in. -/
theorem shaped_of_ends {first : List Arc} (inner : List State)
    (hc : c.states.toList = ⟨first, none⟩ :: .stop :: inner) (hstart : c.start = 0)
    (hfirst : ∀ arc ∈ first, arc.Inner P 0 c.size)
    (harcs : ∀ s ∈ inner, ∀ arc ∈ s.arcs, arc.Inner P 0 c.size)
    (hfinal : ∀ s ∈ inner, s.finalWeight = none) : c.Shaped P := by
  have hstates : ∀ state, c.states[state]? =
      (⟨first, none⟩ :: State.stop :: inner)[state]? := fun state => by
    rw [← Array.getElem?_toList, hc]
  have hsize : 0 < c.size := by
    have := congrArg List.length hc
    rw [Array.length_toList, List.length_cons] at this
    change 0 < c.states.size
    omega
  refine shaped_of_states hc (hstart ▸ hsize) ?_ ⟨1, fun state => ?_, arcs_of_getElem? (hstates 1)⟩
  · rw [hstart]
    exact List.forall_mem_cons.2
      ⟨hfirst, List.forall_mem_cons.2 ⟨fun _ harc => absurd harc List.not_mem_nil, harcs⟩⟩
  · -- Runs stop in none of the other states.
    rw [isFinal, finalWeight?, hstates]
    rcases state with _ | _ | state
    · exact iff_of_false Bool.false_ne_true Nat.zero_ne_one
    · exact iff_of_true rfl rfl
    · refine iff_of_false (fun h => ?_) (by omega)
      rw [List.getElem?_cons_succ, List.getElem?_cons_succ] at h
      obtain ⟨weight, hweight⟩ := Option.isSome_iff_exists.1 h
      obtain ⟨s, hs, hweight⟩ := Option.bind_eq_some_iff.1 hweight
      rw [hfinal s (List.mem_of_getElem? hs)] at hweight
      cases hweight

/-- No run stops in a copy that leads on. -/
theorem finalWeight_of_mem_joinAt {offset : Nat} {exit : Arc} {s : State}
    (hs : s ∈ a.joinAt offset exit) : s.finalWeight = none := by
  obtain ⟨old, -, rfl⟩ := List.mem_map.1 hs
  cases hweight : old.finalWeight <;> simp [State.continueBy, State.shift, hweight]

/-- The arcs of a copy that leads on are those of the copy and the new one. -/
theorem Shaped.inner_of_mem_joinAt (ha : a.Shaped P) {offset start size : Nat} {exit arc : Arc}
    {s : State} (hs : s ∈ a.joinAt offset exit) (harc : arc ∈ s.arcs)
    (hsize : a.size + offset ≤ size) (hstart : start < offset ∨ start = a.start + offset)
    (hexit : exit.Inner P start size) : arc.Inner P start size := by
  obtain ⟨old, hold, rfl⟩ := List.mem_map.1 hs
  rcases mem_arcs_continueBy harc with harc | ⟨weight, -, rfl⟩
  · obtain ⟨before, hbefore, rfl⟩ := List.mem_map.1 harc
    exact (ha.inner hold hbefore).shift hsize hstart
  · exact ⟨hexit.target_lt, hexit.target_ne, hexit.label⟩

/-! ### Combinations -/

theorem shaped_epsilon : epsilon.Shaped P := by
  refine shaped_of_states rfl Nat.zero_lt_one
    (List.forall_mem_singleton.2 fun _ harc => absurd harc List.not_mem_nil)
    ⟨0, fun state => ?_, rfl⟩
  rcases state with _ | state
  · exact iff_of_true rfl rfl
  · exact iff_of_false Bool.false_ne_true (Nat.succ_ne_zero state)

theorem shaped_ofArc {input : Option String} {output : Option Symbol} (h : P input output) :
    (ofArc input output).Shaped P :=
  shaped_of_ends [] rfl rfl
    (List.forall_mem_singleton.2 ⟨Nat.one_lt_two, Nat.one_ne_zero, h⟩)
    (fun _ hs => absurd hs List.not_mem_nil) fun _ hs => absurd hs List.not_mem_nil

/-- A concatenation begins as its first part and stops as its second one. -/
theorem Shaped.concat (hP : P none none) (ha : a.Shaped P) (hb : b.Shaped P) :
    (Automaton.concat a b).Shaped P := by
  have hstates := ha.wellFormed.toList_concat (b := b)
  have hstart := ha.wellFormed.start_lt
  have hlt := hb.wellFormed.start_lt
  refine shaped_of_states hstates ?_ (fun s hs arc harc => ?_) ?_
  · change a.start < _
    rw [size_concat]
    omega
  · rw [size_concat]
    rcases List.mem_append.1 hs with hs | hs
    · refine ha.inner_of_mem_joinAt hs harc (by omega) (.inr rfl) ⟨?_, ?_, hP⟩
      · change b.start + a.size < _
        omega
      · change b.start + a.size ≠ a.start
        omega
    · rw [copyAt, Array.toList_map] at hs
      obtain ⟨old, hold, rfl⟩ := List.mem_map.1 hs
      obtain ⟨before, hbefore, rfl⟩ := List.mem_map.1 harc
      exact (hb.inner hold hbefore).shift (by omega) (.inl hstart)
  · obtain ⟨stop, hstop, hnone⟩ := hb.stop
    have hfirst := ha.wellFormed.standsAt_concat (b := b)
    have hsecond := ha.wellFormed.standsAt_concat_second (b := b)
    have hstopLt : stop < b.size := by
      obtain ⟨weight, hweight⟩ := Option.isSome_iff_exists.1 ((hstop stop).2 rfl)
      exact lt_size_of_finalWeight hweight
    refine ⟨stop + a.size, fun state => ?_, ?_⟩
    · -- Runs stop neither in the first part nor behind the second one.
      rcases Nat.lt_or_ge state a.size with hlt | hge
      · refine iff_of_false (fun hfinal => ?_) (by omega)
        rw [isFinal, ← Nat.add_zero state, hfirst.finalWeight_continueBy hlt] at hfinal
        cases hfinal
      · obtain ⟨k, rfl⟩ := Nat.exists_eq_add_of_le' hge
        rcases Nat.lt_or_ge k b.size with hk | hk
        · rw [isFinal, hsecond.finalWeight_shift hk, Nat.add_right_cancel_iff]
          exact hstop k
        · refine iff_of_false (fun hfinal => ?_) (by omega)
          obtain ⟨weight, hweight⟩ := Option.isSome_iff_exists.1 hfinal
          have hsize := lt_size_of_finalWeight hweight
          rw [size_concat] at hsize
          omega
    · rw [hsecond.hostedAt_shift stop hstopLt, hnone]
      rfl

theorem shaped_foldl_concat (hP : P none none) {bs : List Automaton} (ha : a.Shaped P)
    (hbs : ∀ b ∈ bs, b.Shaped P) : (bs.foldl .concat a).Shaped P := by
  induction bs generalizing a with
  | nil => exact ha
  | cons b bs ih =>
    obtain ⟨hb, hbs⟩ := List.forall_mem_cons.1 hbs
    exact ih (ha.concat hP hb) hbs

/-- A union has two states of its own, and the copies of its branches stand behind them. -/
theorem shaped_union (hP : P none none) {branches : List Automaton}
    (h : ∀ b ∈ branches, b.Shaped P) : (union branches).Shaped P := by
  have hsilent : ∀ {target : Nat}, target ≠ 0 → target < (union branches).size →
      (Arc.silent target).Inner P 0 (union branches).size := fun hne hlt => ⟨hlt, hne, hP⟩
  refine shaped_of_ends _ rfl rfl (List.forall_mem_map.2 fun start hstart => ?_)
    (fun s hs arc harc => ?_) fun s hs => ?_
  · obtain ⟨b, hb, place, hplace, hend, rfl⟩ := exists_start_of_mem hstart
    have hlt := (h b hb).wellFormed.start_lt
    exact hsilent (by omega) (by rw [size_union]; omega)
  · obtain ⟨b, hb, place, hplace, hend, hs⟩ := exists_joinAt_of_mem hs
    refine (h b hb).inner_of_mem_joinAt hs harc (by rw [size_union]; omega) (.inl (by omega)) ?_
    exact hsilent Nat.one_ne_zero (by rw [size_union]; omega)
  · obtain ⟨b, hb, place, -, -, hs⟩ := exists_joinAt_of_mem hs
    exact finalWeight_of_mem_joinAt hs

/-- So has a wrapped automaton, whose new arcs put out the two symbols. -/
theorem Shaped.wrap (ha : a.Shaped P) {opening closing : Symbol} (hopening : P none (some opening))
    (hclosing : P none (some closing)) : (a.wrap opening closing).Shaped P := by
  have hstart := ha.wellFormed.start_lt
  have hsize := @size_wrap a opening closing
  refine shaped_of_ends _ rfl rfl (List.forall_mem_singleton.2 ⟨?_, Nat.succ_ne_zero _, hopening⟩)
    (fun s hs arc harc => ?_) fun s hs => finalWeight_of_mem_joinAt hs
  · change a.start + 2 < _
    omega
  · refine ha.inner_of_mem_joinAt hs harc (Nat.le_of_eq hsize.symm) (.inl Nat.zero_lt_two) ?_
    refine ⟨?_, Nat.one_ne_zero, hclosing⟩
    change 1 < _
    omega

/-- A change of the labels keeps the shape, if the new labels are of the kind as well. -/
theorem Shaped.mapOutputs (ha : a.Shaped P) {f : Option Symbol → Option Symbol}
    (hf : ∀ input output, P input output → P input (f output)) : (a.mapOutputs f).Shaped P := by
  have hfrom : ∀ {state : Nat} {arc : Arc}, arc ∈ (a.mapOutputs f).arcs state →
      ∃ old ∈ a.arcs state, { old with output := f old.output } = arc := by
    intro state arc harc
    rw [arcs_mapOutputs] at harc
    exact List.mem_map.1 harc
  obtain ⟨stop, hstop, hnone⟩ := ha.stop
  refine ⟨⟨?_, fun state arc harc => ?_⟩, ⟨stop, fun state => ?_, ?_⟩, fun state arc harc => ?_,
    fun state arc harc => ?_⟩
  · rw [size_mapOutputs]
    exact ha.wellFormed.start_lt
  · obtain ⟨old, hold, rfl⟩ := hfrom harc
    rw [size_mapOutputs]
    exact ha.wellFormed.target_lt state old hold
  · rw [isFinal_mapOutputs]
    exact hstop state
  · rw [arcs_mapOutputs, hnone, List.map_nil]
  · obtain ⟨old, hold, rfl⟩ := hfrom harc
    exact ha.start state old hold
  · obtain ⟨old, hold, rfl⟩ := hfrom harc
    exact hf _ _ (ha.labels state old hold)

end Automaton

end Phrasebook
