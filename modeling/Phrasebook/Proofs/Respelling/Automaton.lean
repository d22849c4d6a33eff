import Phrasebook.Automaton.Run
import Phrasebook.Template.Build

/-!
# Automata whose words are spelled anew

A new spelling of words changes what the arcs of an automaton consume. What is reported stays: a
word that is spelled anew is reported in its old spelling. The states, the order of the arcs, and
what they cost and lead to stay as well, so the runs of the two automata are the same.

* `Symbol.respell`, `Automaton.respell`: a symbol and an automaton in the new spelling.
* `Automaton.respell_concat`, `Automaton.respell_union`, `Automaton.respell_wrap`: automata are
  combined in the new spelling as in the old one.
* `Automaton.accepts_respell_iff`: the accepted runs are the same.
-/

namespace Phrasebook

variable {f : String → String}

namespace Symbol

/-- The symbol with a new spelling of the matched words; it reports the same. -/
def respell (f : String → String) : Symbol → Symbol
  | word text => if f text = text then word text else substitution (f text) text
  | substitution raw value => substitution (f raw) value
  | openIntent name => openIntent name
  | closeIntent => closeIntent
  | openEntity slot value => openEntity slot value
  | closeEntity => closeEntity

/-- It makes no difference whether words are spelled anew before or after they go unreported. -/
theorem map_respell_silence (label : Option Symbol) :
    (silence label).map (respell f) = silence (label.map (respell f)) := by
  rcases label with _ | (text | _ | _ | _ | _ | _)
  case some.word =>
    -- A word that keeps its spelling stays a word, and goes unreported like any other.
    change some (substitution (f text) "") =
      silence (some (if f text = text then word text else substitution (f text) text))
    split
    · next hsame => rw [hsame]; rfl
    · rfl
  all_goals rfl

end Symbol

namespace Automaton

/-- The arc in the new spelling. -/
def Arc.respell (f : String → String) (arc : Arc) : Arc :=
  { arc with input := arc.input.map f, output := arc.output.map (Symbol.respell f) }

/-- The state with arcs in the new spelling. -/
def State.respell (f : String → String) (s : State) : State :=
  { s with arcs := s.arcs.map (Arc.respell f) }

/-- The automaton in the new spelling. -/
def respell (f : String → String) (a : Automaton) : Automaton :=
  { a with states := a.states.map (State.respell f) }

variable {a b : Automaton}

@[simp]
theorem start_respell : (a.respell f).start = a.start := rfl

@[simp]
theorem size_respell : (a.respell f).size = a.size := Array.size_map

@[simp]
theorem arcs_respell (state : Nat) :
    (a.respell f).arcs state = (a.arcs state).map (.respell f) := by
  rw [arcs, arcs, respell, Array.getElem?_map]
  cases a.states[state]? <;> rfl

@[simp]
theorem isFinal_respell (state : Nat) : (a.respell f).isFinal state = a.isFinal state := by
  rw [isFinal, isFinal, finalWeight?, finalWeight?, respell, Array.getElem?_map]
  cases a.states[state]? <;> rfl

/-! ### Combining automata -/

theorem State.respell_shift (s : State) (size offset : Nat) :
    (s.shift size offset).respell f = (s.respell f).shift size offset := by
  simp only [respell, shift, List.map_map]
  rfl

theorem State.respell_continueBy (s : State) (arc : Arc) :
    (s.continueBy arc).respell f = (s.respell f).continueBy (arc.respell f) := by
  obtain ⟨arcs, finalWeight⟩ := s
  cases finalWeight with
  | none => rfl
  | some weight =>
    rw [continueBy, respell, List.map_append]
    rfl

theorem respell_copyAt (offset : Nat) :
    (a.copyAt offset).map (State.respell f) = (a.respell f).copyAt offset := by
  rw [copyAt, copyAt, size_respell, respell, Array.map_map, Array.map_map]
  exact Array.map_congr_left fun s _ => s.respell_shift a.size offset

theorem respell_joinAt (offset : Nat) (arc : Arc) :
    (a.joinAt offset arc).map (State.respell f) = (a.respell f).joinAt offset (arc.respell f) := by
  rw [joinAt, joinAt, size_respell, respell, Array.toList_map, List.map_map, List.map_map]
  refine List.map_congr_left fun s _ => ?_
  rw [Function.comp_apply, State.respell_continueBy, State.respell_shift]
  rfl

theorem respell_epsilon : epsilon.respell f = epsilon := by
  simp [epsilon, respell, State.respell, State.stop]

theorem respell_ofArc (input : Option String) (output : Option Symbol) :
    (ofArc input output).respell f = ofArc (input.map f) (output.map (.respell f)) := by
  simp [ofArc, respell, State.respell, Arc.respell, State.stop]

theorem respell_concat (a b : Automaton) :
    (concat a b).respell f = concat (a.respell f) (b.respell f) := by
  rw [concat, respell, Array.map_append, respell_copyAt, Array.map_map, concat, size_respell,
    start_respell]
  simp only [respell, Array.map_map, mk.injEq, and_true]
  refine congrArg (· ++ _) (Array.map_congr_left fun s _ => ?_)
  exact s.respell_continueBy (.silent (b.start + a.size))

theorem respell_foldl_concat (as : List Automaton) :
    (as.foldl concat a).respell f = (as.map (respell f)).foldl concat (a.respell f) := by
  induction as generalizing a with
  | nil => rfl
  | cons b as ih => rw [List.foldl_cons, ih, respell_concat, List.map_cons, List.foldl_cons]

theorem branchStarts_respell (offset : Nat) (branches : List Automaton) :
    branchStarts offset (branches.map (respell f)) = branchStarts offset branches := by
  induction branches generalizing offset with
  | nil => rfl
  | cons b branches ih =>
    rw [List.map_cons, branchStarts, branchStarts, start_respell, size_respell, ih]

theorem branchStates_respell (offset : Nat) (branches : List Automaton) :
    branchStates offset (branches.map (respell f)) =
      (branchStates offset branches).map (State.respell f) := by
  induction branches generalizing offset with
  | nil => rfl
  | cons b branches ih =>
    rw [List.map_cons, branchStates, branchStates, List.map_append, respell_joinAt, size_respell,
      ih]
    rfl

theorem respell_union (branches : List Automaton) :
    (union branches).respell f = union (branches.map (respell f)) := by
  rw [union, union, branchStarts_respell, branchStates_respell, respell]
  simp only [List.map_toArray, List.map_cons, State.respell, List.map_map]
  rfl

theorem respell_optional : a.optional.respell f = (a.respell f).optional := by
  rw [optional, respell_union, List.map_cons, List.map_singleton, respell_epsilon, optional]

/-- The symbols around an automaton are markers, which stay as they are. -/
theorem respell_wrap {opening closing : Symbol} (hopening : opening.respell f = opening)
    (hclosing : closing.respell f = closing) :
    (a.wrap opening closing).respell f = (a.respell f).wrap opening closing := by
  have hfirst : (Arc.emit opening (a.start + 2)).respell f = .emit opening (a.start + 2) :=
    congrArg (fun x => Arc.emit x (a.start + 2)) hopening
  have hlast : (Arc.emit closing 1).respell f = .emit closing 1 :=
    congrArg (fun x => Arc.emit x 1) hclosing
  rw [wrap, wrap, start_respell, respell]
  simp only [List.map_toArray, List.map_cons, respell_joinAt, hlast, State.respell, List.map_nil,
    hfirst]
  rfl

theorem respell_mapOutputs {g : Option Symbol → Option Symbol}
    (hg : ∀ label, (g label).map (Symbol.respell f) = g (label.map (Symbol.respell f))) :
    (a.mapOutputs g).respell f = (a.respell f).mapOutputs g := by
  simp only [mapOutputs, respell, Array.map_map, mk.injEq, and_true]
  refine Array.map_congr_left fun s _ => ?_
  simp only [Function.comp_apply, State.respell, List.map_map, State.mk.injEq, and_true]
  refine List.map_congr_left fun arc _ => ?_
  simp only [Function.comp_apply, Arc.respell, hg]

/-! ### Runs -/

/-- A run goes along the same arcs in the new spelling. -/
theorem Follows.respell {state stop : Nat} {run : List Nat} {arcs : List Arc}
    (h : a.Follows state run arcs stop) :
    (a.respell f).Follows state run (arcs.map (.respell f)) stop := by
  induction h with
  | nil state => exact .nil state
  | cons first _ ih =>
    refine .cons ?_ ih
    rw [arcs_respell, List.getElem?_map, first]
    rfl

/-- No run is new. -/
theorem Follows.exists_of_respell {state stop : Nat} {run : List Nat} {arcs : List Arc}
    (h : (a.respell f).Follows state run arcs stop) :
    ∃ before, a.Follows state run before stop ∧ arcs = before.map (.respell f) := by
  induction h with
  | nil state => exact ⟨[], .nil state, rfl⟩
  | cons first _ ih =>
    rw [arcs_respell, List.getElem?_map, Option.map_eq_some_iff] at first
    obtain ⟨arc, hget, rfl⟩ := first
    obtain ⟨before, hrest, rfl⟩ := ih
    exact ⟨arc :: before, .cons hget hrest, rfl⟩

/-- The accepted runs of an automaton are those in the new spelling. -/
theorem accepts_respell_iff {run : List Nat} {arcs : List Arc} :
    (a.respell f).Accepts run arcs ↔
      ∃ before, a.Accepts run before ∧ arcs = before.map (.respell f) := by
  constructor
  · rintro ⟨stop, hfollows, hfinal⟩
    obtain ⟨before, hbefore, rfl⟩ := hfollows.exists_of_respell
    exact ⟨before, ⟨stop, hbefore, by rwa [isFinal_respell] at hfinal⟩, rfl⟩
  · rintro ⟨before, ⟨stop, hfollows, hfinal⟩, rfl⟩
    exact ⟨stop, hfollows.respell, by rwa [isFinal_respell]⟩

end Automaton

/-- The utterance in the new spelling. -/
def Utterance.respell (f : String → String) (u : Utterance) : Utterance :=
  ⟨u.words.map f, u.output.map (.respell f)⟩

theorem Utterance.ofArcs_map_respell (arcs : List Automaton.Arc) :
    ofArcs (arcs.map (.respell f)) = (ofArcs arcs).respell f := by
  simp only [ofArcs, respell, List.filterMap_map, List.map_filterMap]
  rfl

/-- Some accepted run consumes the words. -/
def Automaton.AcceptsWords (a : Automaton) (words : List String) : Prop :=
  ∃ run arcs, a.Accepts run arcs ∧ (Utterance.ofArcs arcs).words = words

/-- Words are accepted in the new spelling when they are accepted in the old one. -/
theorem Automaton.AcceptsWords.respell {a : Automaton} {words : List String}
    (h : a.AcceptsWords words) : (a.respell f).AcceptsWords (words.map f) := by
  obtain ⟨run, arcs, haccepts, rfl⟩ := h
  refine ⟨run, arcs.map (.respell f), accepts_respell_iff.2 ⟨arcs, haccepts, rfl⟩, ?_⟩
  rw [Utterance.ofArcs_map_respell]
  rfl

end Phrasebook
