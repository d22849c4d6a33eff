import Phrasebook.Automaton.Combine
import Phrasebook.Automaton.Run

/-!
# What is written on the arcs of combined automata

Combining automata costs nothing and puts out nothing but what the parts and the new arcs do, and
nothing that a part puts out is lost.

* `Automaton.Stores`: all costs are zero, and something holds of every symbol.
* `Automaton.Emits`: an arc of an automaton puts out a symbol.
-/

namespace Phrasebook

namespace Automaton

variable {P : Symbol → Prop} {a b : Automaton}

/-! ### Everything that is stored -/

/-- The arc costs nothing, and something holds of the symbol that it puts out. -/
structure Arc.Stores (P : Symbol → Prop) (arc : Arc) : Prop where
  /-- The arc costs nothing. -/
  weight_eq : arc.weight = 0
  /-- It holds of the symbol. -/
  output : ∀ x ∈ arc.output, P x

/-- Taking an arc or stopping costs nothing, and something holds of every symbol. -/
structure State.Stores (P : Symbol → Prop) (s : State) : Prop where
  /-- It holds of the arcs. -/
  arcs : ∀ arc ∈ s.arcs, arc.Stores P
  /-- Stopping costs nothing. -/
  weight_eq : ∀ weight ∈ s.finalWeight, weight = 0

/-- Nothing costs anything, and something holds of every symbol. -/
def Stores (P : Symbol → Prop) (a : Automaton) : Prop := ∀ s ∈ a.states.toList, s.Stores P

theorem Arc.stores_silent (target : Nat) : (silent target).Stores P :=
  ⟨rfl, fun _ hx => by cases hx⟩

theorem Arc.stores_emit {x : Symbol} (hx : P x) (target : Nat) : (emit x target).Stores P :=
  ⟨rfl, fun _ h => by cases h; exact hx⟩

namespace State

theorem stores_of_arcs {arcs : List Arc} (h : ∀ arc ∈ arcs, arc.Stores P) :
    (⟨arcs, none⟩ : State).Stores P :=
  ⟨h, fun _ hweight => by cases hweight⟩

theorem stores_stop : stop.Stores P :=
  ⟨fun _ harc => absurd harc List.not_mem_nil, fun _ hweight => by cases hweight; rfl⟩

variable {s : State}

theorem Stores.shift (h : s.Stores P) (size offset : Nat) : (s.shift size offset).Stores P :=
  ⟨List.forall_mem_map.2 fun arc harc => ⟨(h.arcs arc harc).weight_eq, (h.arcs arc harc).output⟩,
    h.weight_eq⟩

theorem Stores.continueBy (h : s.Stores P) {arc : Arc} (harc : arc.Stores P) :
    (s.continueBy arc).Stores P := by
  rw [State.continueBy]
  split
  · exact h
  · next weight hweight =>
    refine stores_of_arcs (List.forall_mem_append.2 ⟨h.arcs, List.forall_mem_singleton.2 ?_⟩)
    exact ⟨h.weight_eq weight hweight, harc.output⟩

end State

theorem Stores.copyAt (h : a.Stores P) (offset : Nat) :
    ∀ s ∈ (a.copyAt offset).toList, s.Stores P := by
  rw [Automaton.copyAt, Array.toList_map]
  exact List.forall_mem_map.2 fun s hs => (h s hs).shift _ _

theorem Stores.joinAt (h : a.Stores P) (offset : Nat) {arc : Arc} (harc : arc.Stores P) :
    ∀ s ∈ a.joinAt offset arc, s.Stores P :=
  List.forall_mem_map.2 fun s hs => ((h s hs).shift _ _).continueBy harc

theorem stores_epsilon : epsilon.Stores P :=
  List.forall_mem_singleton.2 State.stores_stop

theorem stores_ofArc {input : Option String} {output : Option Symbol} (h : ∀ x ∈ output, P x) :
    (ofArc input output).Stores P :=
  List.forall_mem_cons.2 ⟨State.stores_of_arcs (List.forall_mem_singleton.2 ⟨rfl, h⟩),
    List.forall_mem_singleton.2 State.stores_stop⟩

theorem Stores.concat (ha : a.Stores P) (hb : b.Stores P) : (concat a b).Stores P := by
  intro s hs
  rw [Automaton.concat, Array.toList_append, Array.toList_map] at hs
  rcases List.mem_append.1 hs with hs | hs
  · obtain ⟨old, hold, rfl⟩ := List.mem_map.1 hs
    exact (ha old hold).continueBy (Arc.stores_silent _)
  · exact hb.copyAt _ s hs

theorem stores_foldl_concat {bs : List Automaton} (ha : a.Stores P)
    (hbs : ∀ b ∈ bs, b.Stores P) : (bs.foldl .concat a).Stores P := by
  induction bs generalizing a with
  | nil => exact ha
  | cons b bs ih =>
    obtain ⟨hb, hbs⟩ := List.forall_mem_cons.1 hbs
    exact ih (ha.concat hb) hbs

theorem stores_union {branches : List Automaton} (h : ∀ b ∈ branches, b.Stores P) :
    (union branches).Stores P := by
  have hbranches : ∀ offset, ∀ s ∈ branchStates offset branches, s.Stores P := by
    induction branches with
    | nil => exact fun _ _ hs => by cases hs
    | cons b branches ih =>
      obtain ⟨hb, hrest⟩ := List.forall_mem_cons.1 h
      exact fun offset => List.forall_mem_append.2
        ⟨hb.joinAt offset (Arc.stores_silent 1), ih hrest (offset + b.size)⟩
  refine List.forall_mem_cons.2 ⟨State.stores_of_arcs (List.forall_mem_map.2 fun start _ => ?_),
    List.forall_mem_cons.2 ⟨State.stores_stop, hbranches 2⟩⟩
  exact Arc.stores_silent start

theorem Stores.wrap (h : a.Stores P) {opening closing : Symbol} (hopening : P opening)
    (hclosing : P closing) : (a.wrap opening closing).Stores P :=
  List.forall_mem_cons.2
    ⟨State.stores_of_arcs (List.forall_mem_singleton.2 (Arc.stores_emit hopening _)),
      List.forall_mem_cons.2 ⟨State.stores_stop, h.joinAt 2 (Arc.stores_emit hclosing 1)⟩⟩

theorem Stores.mapOutputs (h : a.Stores P) {f : Option Symbol → Option Symbol}
    (hf : ∀ label, (∀ x ∈ label, P x) → ∀ x ∈ f label, P x) : (a.mapOutputs f).Stores P := by
  intro s hs
  rw [Automaton.mapOutputs, Array.toList_map] at hs
  obtain ⟨old, hold, rfl⟩ := List.mem_map.1 hs
  refine ⟨List.forall_mem_map.2 fun arc harc => ?_, (h old hold).weight_eq⟩
  obtain ⟨hweight, houtput⟩ := (h old hold).arcs arc harc
  exact ⟨hweight, hf _ houtput⟩

/-- What holds of every symbol holds of those that are put out along a run. -/
theorem Stores.of_follows (h : a.Stores P) {state stop : Nat} {run : List Nat} {arcs : List Arc}
    (hrun : a.Follows state run arcs stop) : ∀ arc ∈ arcs, arc.Stores P := by
  induction hrun with
  | nil => exact fun _ harc => absurd harc List.not_mem_nil
  | @cons state i stop arc run arcs first _ ih =>
    refine List.forall_mem_cons.2 ⟨?_, ih⟩
    rw [Automaton.arcs] at first
    split at first
    · next s hs =>
      have hs := h s (Array.mem_toList_iff.2 (Array.mem_of_getElem? hs))
      exact hs.arcs arc (List.mem_of_getElem? first)
    · cases first

/-! ### Symbols that are put out -/

/-- An arc of the state puts out a symbol. -/
def State.Emits (s : State) (x : Symbol) : Prop := ∃ arc ∈ s.arcs, arc.output = some x

/-- An arc of the automaton puts out a symbol. -/
def Emits (a : Automaton) (x : Symbol) : Prop := ∃ s ∈ a.states.toList, s.Emits x

theorem Stores.of_emits (h : a.Stores P) {x : Symbol} (hx : a.Emits x) : P x := by
  obtain ⟨s, hs, arc, harc, houtput⟩ := hx
  exact ((h s hs).arcs arc harc).output x houtput

namespace State.Emits

variable {s : State} {x : Symbol}

theorem shift (h : s.Emits x) (size offset : Nat) : (s.shift size offset).Emits x := by
  obtain ⟨arc, harc, houtput⟩ := h
  exact ⟨_, List.mem_map_of_mem harc, houtput⟩

theorem continueBy (h : s.Emits x) (arc : Arc) : (s.continueBy arc).Emits x := by
  obtain ⟨old, hold, houtput⟩ := h
  rw [State.continueBy]
  split
  · exact ⟨old, hold, houtput⟩
  · exact ⟨old, List.mem_append_left _ hold, houtput⟩

end State.Emits

namespace Emits

variable {x : Symbol}

theorem joinAt (h : a.Emits x) (offset : Nat) (arc : Arc) :
    ∃ s ∈ a.joinAt offset arc, s.Emits x := by
  obtain ⟨s, hs, hx⟩ := h
  exact ⟨_, List.mem_map_of_mem hs, (hx.shift _ _).continueBy arc⟩

theorem concat_left (h : a.Emits x) (b : Automaton) : (concat a b).Emits x := by
  obtain ⟨s, hs, hx⟩ := h
  refine ⟨_, ?_, hx.continueBy (.silent (b.start + a.size))⟩
  rw [Automaton.concat, Array.toList_append, Array.toList_map]
  exact List.mem_append_left _ (List.mem_map_of_mem hs)

theorem concat_right (h : b.Emits x) (a : Automaton) : (concat a b).Emits x := by
  obtain ⟨s, hs, hx⟩ := h
  refine ⟨_, ?_, hx.shift b.size a.size⟩
  rw [Automaton.concat, Array.toList_append, copyAt, Array.toList_map, Array.toList_map]
  exact List.mem_append_right _ (List.mem_map_of_mem hs)

/-- No automaton of a sequence is lost. -/
theorem foldl_concat {bs : List Automaton} (h : a.Emits x ∨ ∃ b ∈ bs, b.Emits x) :
    (bs.foldl .concat a).Emits x := by
  induction bs generalizing a with
  | nil => exact h.resolve_right (by simp)
  | cons b bs ih =>
    refine ih ?_
    rcases h with h | ⟨c, hc, h⟩
    · exact .inl (h.concat_left b)
    · rcases List.mem_cons.1 hc with rfl | hc
      · exact .inl (h.concat_right a)
      · exact .inr ⟨c, hc, h⟩

theorem union (h : b.Emits x) {branches : List Automaton} (hb : b ∈ branches) :
    (union branches).Emits x := by
  have hbranches : ∀ offset, ∃ s ∈ branchStates offset branches, s.Emits x := by
    induction branches with
    | nil => cases hb
    | cons c branches ih =>
      intro offset
      rcases List.mem_cons.1 hb with rfl | hb
      · obtain ⟨s, hs, hx⟩ := h.joinAt offset (.silent 1)
        exact ⟨s, List.mem_append_left _ hs, hx⟩
      · obtain ⟨s, hs, hx⟩ := ih hb (offset + c.size)
        exact ⟨s, List.mem_append_right _ hs, hx⟩
  obtain ⟨s, hs, hx⟩ := hbranches 2
  exact ⟨s, List.mem_cons_of_mem _ (List.mem_cons_of_mem _ hs), hx⟩

theorem optional (h : a.Emits x) : a.optional.Emits x := h.union List.mem_cons_self

theorem wrap (h : a.Emits x) (opening closing : Symbol) : (a.wrap opening closing).Emits x := by
  obtain ⟨s, hs, hx⟩ := h.joinAt 2 (.emit closing 1)
  exact ⟨s, List.mem_cons_of_mem _ (List.mem_cons_of_mem _ hs), hx⟩

/-- The symbol before every utterance is put out. -/
theorem wrap_opening (a : Automaton) (opening closing : Symbol) :
    (a.wrap opening closing).Emits opening :=
  ⟨_, List.mem_cons_self, _, List.mem_cons_self, rfl⟩

theorem mapOutputs (h : a.Emits x) {f : Option Symbol → Option Symbol} {y : Symbol}
    (hf : f (some x) = some y) : (a.mapOutputs f).Emits y := by
  obtain ⟨s, hs, arc, harc, houtput⟩ := h
  have hmem : { s with arcs := s.arcs.map fun arc => { arc with output := f arc.output } } ∈
      (a.mapOutputs f).states.toList := by
    rw [Automaton.mapOutputs, Array.toList_map]
    exact List.mem_map_of_mem hs
  refine ⟨_, hmem, { arc with output := f arc.output }, ?_, (congrArg f houtput).trans hf⟩
  exact List.mem_map_of_mem harc

end Emits

end Automaton

end Phrasebook
