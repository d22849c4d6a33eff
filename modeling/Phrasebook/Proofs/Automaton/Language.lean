import Mathlib.Logic.Function.Basic
import Phrasebook.Proofs.Automaton.Simulation

/-!
# The runs of combined automata

An accepted run of a combination is made of accepted runs of its parts in exactly one way. This
holds for all well-formed parts: they may have cycles, runs may stop in several states and at
several costs, arcs may leave these states, and not every state needs to be reached. The cost of
stopping in a part becomes that of the arc which leads on, so along a run no cost is lost or
counted twice.

The states of a part are hosted by the combination: each keeps its arcs and gets further ones
behind them. A run from a hosted state stays inside up to the first of the further arcs.

* `Automaton.RunFrom`: the runs from a state that stop in final states, with their costs.
* `Automaton.RunsAre`: the runs from a state correspond one to one to something else.
* `Automaton.HostedAt`: where a part stands in an automaton, and what its states get.
* `Automaton.HostedAt.split`: a run from a hosted state stays inside or leaves once for the first
  time.
* `Automaton.runs_of_combine`: the accepted runs of each combination.
-/

namespace Phrasebook

namespace Automaton

/-! ### Runs that stop -/

/-- What is consumed and put out along a run, and what its arcs and its stop cost. -/
structure Trace where
  /-- What is consumed and put out. -/
  utterance : Utterance
  /-- The costs, in order. -/
  costs : List Float32

namespace Trace

/-- One trace followed by another one. -/
def append (s t : Trace) : Trace := ⟨s.utterance ++ t.utterance, s.costs ++ t.costs⟩

instance : Append Trace := ⟨append⟩

/-- Nothing happens. -/
def empty : Trace := ⟨.empty, []⟩

/-- The trace without what costs nothing. -/
def paid (t : Trace) : Trace := ⟨t.utterance, t.costs.filter fun cost => !(cost == 0)⟩

/-- The trace between two symbols that are put out. -/
def between (opening closing : Symbol) (t : Trace) : Trace :=
  ⟨⟨t.utterance.words, opening :: t.utterance.output ++ [closing]⟩, t.costs⟩

@[simp]
theorem utterance_append {s t : Trace} : (s ++ t).utterance = s.utterance ++ t.utterance := rfl

@[simp]
theorem costs_append {s t : Trace} : (s ++ t).costs = s.costs ++ t.costs := rfl

theorem ext {s t : Trace} (hutterance : s.utterance = t.utterance) (hcosts : s.costs = t.costs) :
    s = t := by
  obtain ⟨u, costs⟩ := s
  obtain rfl : u = t.utterance := hutterance
  obtain rfl : costs = t.costs := hcosts
  rfl

@[simp]
theorem empty_append {t : Trace} : empty ++ t = t := ext (Utterance.empty_append _) rfl

@[simp]
theorem append_empty {t : Trace} : t ++ empty = t :=
  ext (Utterance.append_empty _) (List.append_nil _)

@[simp]
theorem paid_append {s t : Trace} : (s ++ t).paid = s.paid ++ t.paid :=
  ext rfl (List.filter_append ..)

end Trace

/-- A run from a state that stops in a final state. -/
structure RunFrom (a : Automaton) (state : Nat) where
  /-- The positions of the arcs among those of their states. -/
  run : List Nat
  /-- The arcs. -/
  arcs : List Arc
  /-- Where the run stops. -/
  stop : Nat
  /-- What it costs to stop there. -/
  weight : Float32
  /-- The run goes along the arcs. -/
  follows : a.Follows state run arcs stop
  /-- The run may stop. -/
  finalWeight_eq : a.finalWeight? stop = some weight

/-- An accepted run. -/
abbrev AcceptedRun (a : Automaton) := a.RunFrom a.start

variable {a b c : Automaton} {state offset : Nat}

namespace RunFrom

/-- A run is known by the positions of its arcs. -/
theorem ext {p q : a.RunFrom state} (h : p.run = q.run) : p = q := by
  obtain ⟨run, arcs, stop, weight, hfollows, hweight⟩ := p
  obtain ⟨run', arcs', stop', weight', hfollows', hweight'⟩ := q
  obtain rfl : run = run' := h
  obtain ⟨rfl, rfl⟩ := hfollows.unique hfollows'
  obtain rfl := Option.some.inj (hweight.symm.trans hweight')
  rfl

/-- What happens along the run. -/
def trace (r : a.RunFrom state) : Trace := ⟨.ofArcs r.arcs, r.arcs.map Arc.weight ++ [r.weight]⟩

/-- What happens along the run, without what costs nothing. -/
def paid (r : a.RunFrom state) : Trace := r.trace.paid

/-- These are the runs that are accepted. -/
theorem accepts_iff {run : List Nat} {arcs : List Arc} :
    a.Accepts run arcs ↔ ∃ r : a.AcceptedRun, r.run = run ∧ r.arcs = arcs := by
  constructor
  · rintro ⟨stop, hfollows, hfinal⟩
    obtain ⟨weight, hweight⟩ := Option.isSome_iff_exists.1 hfinal
    exact ⟨⟨run, arcs, stop, weight, hfollows, hweight⟩, rfl, rfl⟩
  · rintro ⟨r, rfl, rfl⟩
    exact ⟨r.stop, r.follows, by rw [isFinal, r.finalWeight_eq, Option.isSome_some]⟩

end RunFrom

/-- The runs from a state correspond one to one to the elements of a type, each of which gives the
trace of its run. -/
def RunsAre {ι : Type} (a : Automaton) (state : Nat) (trace : ι → Trace) : Prop :=
  ∃ join : ι → a.RunFrom state, Function.Bijective join ∧ ∀ i, (join i).trace = trace i

/-- A correspondence may be followed by another one. -/
theorem RunsAre.comp {ι κ : Type} {trace : ι → Trace} (h : a.RunsAre state trace) {f : κ → ι}
    (hf : Function.Bijective f) {trace' : κ → Trace} (heq : ∀ k, trace (f k) = trace' k) :
    a.RunsAre state trace' := by
  obtain ⟨join, hjoin, htrace⟩ := h
  exact ⟨join ∘ f, hjoin.comp hf, fun k => (htrace (f k)).trans (heq k)⟩

/-! ### States of a combination's own -/

/-- From a state in which runs stop and which no arc leaves there is one run. -/
theorem runsAre_of_stop (weight : Float32) (harcs : a.arcs state = [])
    (hweight : a.finalWeight? state = some weight) :
    a.RunsAre state fun _ : Unit => ⟨.empty, [weight]⟩ := by
  refine ⟨fun _ => ⟨[], [], state, weight, .nil state, hweight⟩, ⟨fun _ _ _ => rfl, fun r => ?_⟩,
    fun _ => rfl⟩
  refine ⟨(), RunFrom.ext ?_⟩
  obtain ⟨run, arcs, stop, _, hfollows, -⟩ := r
  cases hfollows with
  | nil => rfl
  | cons first _ =>
    rw [harcs] at first
    cases first

/-- From a state in which no run stops, the runs are those behind each of its arcs. -/
theorem runsAre_of_arcs {n : Nat} {arc : Fin n → Arc} {ι : Fin n → Type}
    {trace : ∀ i, ι i → Trace} (harcs : a.arcs state = List.ofFn arc)
    (hweight : a.finalWeight? state = none) (h : ∀ i, a.RunsAre (arc i).target (trace i)) :
    a.RunsAre state fun p : (i : Fin n) × ι i =>
      ⟨.ofArc (arc p.1), [(arc p.1).weight]⟩ ++ trace p.1 p.2 := by
  have hfirst : ∀ i : Fin n, (a.arcs state)[i.1]? = some (arc i) := fun i => by
    rw [harcs, List.getElem?_ofFn, dif_pos i.2]
  choose join hjoin htrace using h
  refine ⟨fun p => ⟨p.1 :: (join p.1 p.2).run, arc p.1 :: (join p.1 p.2).arcs, (join p.1 p.2).stop,
    (join p.1 p.2).weight, .cons (hfirst p.1) (join p.1 p.2).follows,
    (join p.1 p.2).finalWeight_eq⟩, ⟨?_, ?_⟩, ?_⟩
  · rintro ⟨i, x⟩ ⟨j, y⟩ heq
    obtain ⟨hij, hrun⟩ := List.cons.inj (congrArg RunFrom.run heq)
    obtain rfl := Fin.ext hij
    obtain rfl := (hjoin i).1 (RunFrom.ext hrun)
    rfl
  · rintro ⟨run, arcs, stop, weight, hfollows, hfinal⟩
    cases hfollows with
    | nil => simp [hweight] at hfinal
    | @cons _ i _ first run arcs hi hrest =>
      have hlt : i < n := by
        have hlt := (List.getElem?_eq_some_iff.1 hi).1
        rwa [harcs, List.length_ofFn] at hlt
      obtain rfl := Option.some.inj ((hfirst ⟨i, hlt⟩).symm.trans hi)
      obtain ⟨x, hx⟩ := (hjoin ⟨i, hlt⟩).2 ⟨run, arcs, stop, weight, hrest, hfinal⟩
      refine ⟨⟨⟨i, hlt⟩, x⟩, RunFrom.ext ?_⟩
      change i :: (join ⟨i, hlt⟩ x).run = i :: run
      rw [hx]
  · rintro ⟨i, x⟩
    change _ = ⟨.ofArc (arc i), [(arc i).weight]⟩ ++ trace i x
    rw [← htrace i x]
    exact Trace.ext (Utterance.ofArcs_cons ..) rfl

/-- From a state in which no run stops and which one arc leaves, the runs are those behind it. -/
theorem runsAre_of_arc (state : Nat) {arc : Arc} {ι : Type} {trace : ι → Trace}
    (harcs : a.arcs state = [arc])
    (hweight : a.finalWeight? state = none) (h : a.RunsAre arc.target trace) :
    a.RunsAre state fun x => ⟨.ofArc arc, [arc.weight]⟩ ++ trace x := by
  have hone : a.arcs state = List.ofFn fun _ : Fin 1 => arc := harcs
  have hall := runsAre_of_arcs hone hweight fun _ => h
  refine hall.comp (f := fun x => ⟨0, x⟩) ⟨fun x y heq => ?_, fun ⟨i, x⟩ => ⟨x, ?_⟩⟩ fun _ => rfl
  · cases heq
    rfl
  · obtain rfl := Subsingleton.elim i 0
    rfl

/-! ### Parts -/

/-- A part stands in an automaton from the number `offset` on: every state has the arcs of the
copy, and then further ones. -/
def HostedAt (c a : Automaton) (offset : Nat) (further : Nat → List Arc) : Prop :=
  ∀ state < a.size,
    c.arcs (state + offset) = (a.arcs state).map (.shift a.size offset) ++ further state

variable {further : Nat → List Arc} {run : List Nat} {arcs : List Arc} {stop : Nat}

/-- A run of a part is a run of its host. -/
theorem HostedAt.follows (hc : c.HostedAt a offset further) (ha : a.WellFormed)
    (h : a.Follows state run arcs stop) (hstate : state < a.size) :
    c.Follows (state + offset) run (arcs.map (.shift a.size offset)) (stop + offset) ∧
      stop < a.size := by
  induction h with
  | nil state => exact ⟨.nil _, hstate⟩
  | @cons state i stop arc run arcs first _ ih =>
    have htarget := ha.target_lt state arc (List.mem_of_getElem? first)
    obtain ⟨hrest, hstop⟩ := ih htarget
    have hfirst : (c.arcs (state + offset))[i]? = some (arc.shift a.size offset) := by
      rw [hc state hstate, List.getElem?_append_left, List.getElem?_map, first, Option.map_some]
      rw [List.length_map]
      exact (List.getElem?_eq_some_iff.1 first).1
    refine ⟨.cons hfirst ?_, hstop⟩
    change c.Follows (renumber a.size offset arc.target) _ _ _
    rwa [renumber_of_lt htarget]

/-- A run from a state of a part stays inside, or there is a first time that it leaves the part,
by one of the further arcs. -/
theorem HostedAt.split (hc : c.HostedAt a offset further) (ha : a.WellFormed)
    (h : c.Follows (state + offset) run arcs stop) (hstate : state < a.size) :
    ∃ inner path mid, a.Follows state inner path mid ∧ mid < a.size ∧
      ((run = inner ∧ arcs = path.map (.shift a.size offset) ∧ stop = mid + offset) ∨
        ∃ k arc outer rest, (further mid)[k]? = some arc ∧ c.Follows arc.target outer rest stop ∧
          run = inner ++ ((a.arcs mid).length + k) :: outer ∧
          arcs = path.map (.shift a.size offset) ++ arc :: rest) := by
  generalize hplace : state + offset = place at h
  induction h generalizing state with
  | nil place => exact ⟨[], [], state, .nil state, hstate, .inl ⟨rfl, rfl, hplace.symm⟩⟩
  | @cons place i stop arc run arcs first hrest ih =>
    subst hplace
    rw [hc state hstate, List.getElem?_append, List.length_map] at first
    split at first
    · -- The first arc is one of the part's own, so the rest begins inside as well.
      rw [List.getElem?_map, Option.map_eq_some_iff] at first
      obtain ⟨arc, hi, rfl⟩ := first
      have htarget := ha.target_lt state arc (List.mem_of_getElem? hi)
      obtain ⟨inner, path, mid, hpath, hmid, hcases⟩ := ih htarget (renumber_of_lt htarget).symm
      refine ⟨i :: inner, arc :: path, mid, .cons hi hpath, hmid, ?_⟩
      rcases hcases with ⟨rfl, rfl, rfl⟩ | ⟨k, exit, outer, rest, hk, houter, rfl, rfl⟩
      · exact .inl ⟨rfl, rfl, rfl⟩
      · exact .inr ⟨k, exit, outer, rest, hk, houter, rfl, rfl⟩
    · next hlength =>
      refine ⟨[], [], state, .nil state, hstate,
        .inr ⟨i - (a.arcs state).length, arc, run, arcs, first, hrest, ?_, rfl⟩⟩
      rw [List.nil_append, Nat.add_sub_cancel' (Nat.le_of_not_lt hlength)]

/-- Where a run leaves a part for the first time is known from the positions of its arcs. -/
theorem Follows.eq_of_append_eq {run' outer outer' : List Nat} {arcs' : List Arc} {stop' : Nat}
    (h : a.Follows state run arcs stop) (h' : a.Follows state run' arcs' stop')
    (heq : run ++ (a.arcs stop).length :: outer = run' ++ (a.arcs stop').length :: outer') :
    run = run' ∧ outer = outer' := by
  -- An arc of the part stands before the position at which the part is left.
  have hbefore : ∀ {state i : Nat} {arc : Arc}, (a.arcs state)[i]? = some arc →
      i ≠ (a.arcs state).length := fun hi heq => by
    have := (List.getElem?_eq_some_iff.1 hi).1
    omega
  induction h generalizing run' arcs' with
  | nil state =>
    cases h' with
    | nil => exact ⟨rfl, (List.cons.inj heq).2⟩
    | cons first _ => exact absurd (List.cons.inj heq).1.symm (hbefore first)
  | @cons state i stop arc run arcs first _ ih =>
    cases h' with
    | nil => exact absurd (List.cons.inj heq).1 (hbefore first)
    | cons first' rest' =>
      obtain ⟨rfl, hbehind⟩ := List.cons.inj heq
      cases Option.some.inj (first.symm.trans first')
      obtain ⟨rfl, rfl⟩ := ih rest' hbehind
      exact ⟨rfl, rfl⟩

/-- A state that has a cost of stopping is there. -/
theorem lt_size_of_finalWeight {weight : Float32} (h : a.finalWeight? state = some weight) :
    state < a.size := by
  by_contra hlt
  rw [finalWeight?, Array.getElem?_eq_none (Nat.le_of_not_lt hlt)] at h
  cases h

theorem finalWeight_of_getElem? {s : State} (h : a.states[state]? = some s) :
    a.finalWeight? state = s.finalWeight := by
  rw [finalWeight?, h, Option.bind_some]

/-- The states of a part stand in an automaton from the number `offset` on, each changed by `f`. -/
def StandsAt (c a : Automaton) (offset : Nat) (f : State → State) : Prop :=
  ∀ state < a.size, ∃ s, a.states[state]? = some s ∧ c.states[state + offset]? = some (f s)

theorem standsAt_of_toList_eq (pre post : List State) {f : State → State}
    (hpre : pre.length = offset) (hc : c.states.toList = pre ++ (a.states.toList.map f ++ post)) :
    c.StandsAt a offset f := fun _ hstate => by
  obtain ⟨s, -, hs, hcopy⟩ := getElem?_of_toList_eq hpre hc hstate
  exact ⟨s, hs, hcopy⟩

/-- A copy has no further arcs. -/
theorem StandsAt.hostedAt_shift (hc : c.StandsAt a offset (.shift a.size offset)) :
    c.HostedAt a offset fun _ => [] := fun state hstate => by
  obtain ⟨s, hs, hcopy⟩ := hc state hstate
  rw [arcs_of_getElem? hcopy, arcs_of_getElem? hs, List.append_nil]
  rfl

/-- The arc by which a part is left, at the cost of stopping in a state, if runs stop there. -/
def exits (a : Automaton) (arc : Arc) (state : Nat) : List Arc :=
  ((a.finalWeight? state).map fun weight => { arc with weight }).toList

theorem exits_of_finalWeight {arc : Arc} {weight : Float32}
    (h : a.finalWeight? state = some weight) : a.exits arc state = [{ arc with weight }] := by
  rw [exits, h, Option.map_some, Option.toList_some]

/-- A copy that leads on has a further arc where runs of the part stop. -/
theorem StandsAt.hostedAt_continueBy {arc : Arc}
    (hc : c.StandsAt a offset fun s => (s.shift a.size offset).continueBy arc) :
    c.HostedAt a offset (a.exits arc) := by
  intro state hstate
  obtain ⟨s, hs, hcopy⟩ := hc state hstate
  rw [arcs_of_getElem? hcopy, arcs_of_getElem? hs, exits, finalWeight_of_getElem? hs]
  cases hweight : s.finalWeight <;> simp [State.continueBy, State.shift, hweight]

/-- Runs stop in a copy where they stop in the part. -/
theorem StandsAt.finalWeight_shift (hc : c.StandsAt a offset (.shift a.size offset))
    (hstate : state < a.size) : c.finalWeight? (state + offset) = a.finalWeight? state := by
  obtain ⟨s, hs, hcopy⟩ := hc state hstate
  rw [finalWeight_of_getElem? hcopy, finalWeight_of_getElem? hs]
  rfl

/-- No run stops in a copy that leads on. -/
theorem StandsAt.finalWeight_continueBy {arc : Arc}
    (hc : c.StandsAt a offset fun s => (s.shift a.size offset).continueBy arc)
    (hstate : state < a.size) : c.finalWeight? (state + offset) = none := by
  obtain ⟨s, -, hcopy⟩ := hc state hstate
  rw [finalWeight_of_getElem? hcopy]
  cases hs : s.finalWeight <;> simp [State.continueBy, State.shift, hs]

theorem weights_map_shift {size : Nat} :
    (arcs.map (Arc.shift size offset)).map Arc.weight = arcs.map Arc.weight := by
  rw [List.map_map]
  rfl

theorem ofArcs_map_shift {size : Nat} :
    Utterance.ofArcs (arcs.map (Arc.shift size offset)) = .ofArcs arcs := by
  refine ofArcs_eq_of_map_label_eq ?_
  rw [List.map_map]
  rfl

/-- The runs from the states of a copy are those of the part. -/
theorem StandsAt.runsAre_shift (hc : c.StandsAt a offset (.shift a.size offset))
    (ha : a.WellFormed) (hstate : state < a.size) :
    c.RunsAre (state + offset) fun r : a.RunFrom state => r.trace := by
  have hhost := hc.hostedAt_shift
  let join (r : a.RunFrom state) : c.RunFrom (state + offset) :=
    ⟨r.run, r.arcs.map (.shift a.size offset), r.stop + offset, r.weight,
      (hhost.follows ha r.follows hstate).1,
      (hc.finalWeight_shift (lt_size_of_finalWeight r.finalWeight_eq)).trans r.finalWeight_eq⟩
  refine ⟨join, ⟨fun r r' heq => ?_, fun r => ?_⟩, fun r => ?_⟩
  · exact RunFrom.ext (congrArg RunFrom.run heq :)
  · obtain ⟨inner, path, mid, hpath, hmid, ⟨hrun, -, hstop⟩ | ⟨k, arc, _, _, hk, -⟩⟩ :=
      hhost.split ha r.follows hstate
    · refine ⟨⟨inner, path, mid, r.weight, hpath, ?_⟩, RunFrom.ext hrun.symm⟩
      rw [← hc.finalWeight_shift hmid, ← hstop, r.finalWeight_eq]
    · cases hk
  · refine Trace.ext ofArcs_map_shift ?_
    change (r.arcs.map (.shift a.size offset)).map Arc.weight ++ [r.weight] = _
    rw [weights_map_shift]
    rfl

/-- The runs from the states of a copy that leads on are those of the part, each followed by the
new arc, at the cost of stopping, and by a run from where it leads. -/
theorem StandsAt.runsAre_continueBy {arc : Arc}
    (hc : c.StandsAt a offset fun s => (s.shift a.size offset).continueBy arc)
    (ha : a.WellFormed) (hstate : state < a.size) {ι : Type} {trace : ι → Trace}
    (h : c.RunsAre arc.target trace) :
    c.RunsAre (state + offset) fun p : a.RunFrom state × ι =>
      p.1.trace ++ ⟨.ofArc arc, []⟩ ++ trace p.2 := by
  have hhost := hc.hostedAt_continueBy
  obtain ⟨behind, hbehind, htrace⟩ := h
  have hexit : ∀ r : a.RunFrom state,
      (c.arcs (r.stop + offset))[(a.arcs r.stop).length]? =
        some { arc with weight := r.weight } := by
    intro r
    have hstop := lt_size_of_finalWeight r.finalWeight_eq
    rw [hhost r.stop hstop, exits_of_finalWeight r.finalWeight_eq,
      List.getElem?_append_right (Nat.le_of_eq (List.length_map _)), List.length_map, Nat.sub_self]
    rfl
  let join (p : a.RunFrom state × ι) : c.RunFrom (state + offset) :=
    ⟨p.1.run ++ (a.arcs p.1.stop).length :: (behind p.2).run,
      p.1.arcs.map (.shift a.size offset) ++ { arc with weight := p.1.weight } :: (behind p.2).arcs,
      (behind p.2).stop, (behind p.2).weight,
      (hhost.follows ha p.1.follows hstate).1.append (.cons (hexit p.1) (behind p.2).follows),
      (behind p.2).finalWeight_eq⟩
  refine ⟨join, ⟨?_, fun r => ?_⟩, ?_⟩
  · rintro ⟨r, x⟩ ⟨r', x'⟩ heq
    obtain ⟨hrun, houter⟩ := r.follows.eq_of_append_eq r'.follows (congrArg RunFrom.run heq :)
    obtain rfl := RunFrom.ext hrun
    obtain rfl := hbehind.1 (RunFrom.ext houter)
    rfl
  · obtain ⟨inner, path, mid, hpath, hmid, hcases⟩ := hhost.split ha r.follows hstate
    rcases hcases with ⟨-, -, hstop⟩ | ⟨k, exit, outer, rest, hk, houter, hrun, -⟩
    · -- No run stops inside of the copy.
      have hweight := r.finalWeight_eq
      rw [hstop, hc.finalWeight_continueBy hmid] at hweight
      cases hweight
    · cases hmidWeight : a.finalWeight? mid with
      | none => simp [exits, hmidWeight] at hk
      | some weight =>
        rw [exits_of_finalWeight hmidWeight] at hk
        obtain ⟨rfl, rfl⟩ : k = 0 ∧ exit = { arc with weight } := by
          rcases k with _ | k
          · exact ⟨rfl, (Option.some.inj hk).symm⟩
          · cases hk
        obtain ⟨x, hx⟩ := hbehind.2 ⟨outer, rest, r.stop, r.weight, houter, r.finalWeight_eq⟩
        refine ⟨(⟨inner, path, mid, weight, hpath, hmidWeight⟩, x), RunFrom.ext ?_⟩
        change inner ++ (a.arcs mid).length :: (behind x).run = r.run
        rw [hx, hrun, Nat.add_zero]
  · rintro ⟨r, x⟩
    change _ = r.trace ++ ⟨.ofArc arc, []⟩ ++ trace x
    rw [← htrace x]
    refine Trace.ext ?_ ?_
    · have hexitLabel : Utterance.ofArc { arc with weight := r.weight } = .ofArc arc := rfl
      change Utterance.ofArcs (r.arcs.map (Arc.shift a.size offset) ++ _ :: (behind x).arcs) = _
      rw [Utterance.ofArcs_append, ofArcs_map_shift, Utterance.ofArcs_cons, hexitLabel,
        ← Utterance.append_assoc]
      rfl
    · -- The cost of stopping in the part stands where the new arc is taken.
      change (r.arcs.map (Arc.shift a.size offset) ++ _ :: (behind x).arcs).map Arc.weight ++ _ = _
      rw [List.map_append, weights_map_shift, List.map_cons]
      simp [RunFrom.trace, join]

/-- When the new arc leads to where runs stop, the runs from the states of a copy are those of the
part. -/
theorem StandsAt.runsAre_stop (weight : Float32) {arc : Arc}
    (hc : c.StandsAt a offset fun s => (s.shift a.size offset).continueBy arc)
    (ha : a.WellFormed) (hstate : state < a.size) (harcs : c.arcs arc.target = [])
    (hweight : c.finalWeight? arc.target = some weight) :
    c.RunsAre (state + offset) fun r : a.RunFrom state =>
      r.trace ++ ⟨.ofArc arc, []⟩ ++ ⟨.empty, [weight]⟩ := by
  have hruns := hc.runsAre_continueBy ha hstate (runsAre_of_stop weight harcs hweight)
  refine hruns.comp (f := fun r => (r, ())) ⟨fun r s heq => ?_, fun ⟨r, _⟩ => ⟨r, rfl⟩⟩
    fun _ => rfl
  exact (Prod.mk.inj heq).1

/-! ### Combinations -/

/-- The accepted runs of an automaton correspond one to one to the elements of a type, each of
which gives what is consumed and put out along its run and what that costs. -/
def AcceptedRunsAre {ι : Type} (a : Automaton) (trace : ι → Trace) : Prop :=
  ∃ join : ι → a.AcceptedRun, Function.Bijective join ∧ ∀ i, (join i).paid = trace i

/-- Arcs and stops without costs make no difference. -/
theorem RunsAre.accepted {ι : Type} {trace paid : ι → Trace} (h : a.RunsAre a.start trace)
    (hpaid : ∀ i, (trace i).paid = paid i) : a.AcceptedRunsAre paid := by
  obtain ⟨join, hjoin, htrace⟩ := h
  exact ⟨join, hjoin, fun i => by rw [RunFrom.paid, htrace, hpaid]⟩

/-- An arc or a stop without costs. -/
@[simp]
theorem paid_zero {u : Utterance} : Trace.paid ⟨u, [0]⟩ = ⟨u, []⟩ := by
  have hzero : ((0 : Float32) == 0) = true := by decide +kernel
  simp [Trace.paid, hzero]

/-- An arc that only leads on leaves no trace but its cost. -/
@[simp]
theorem paid_silent {target : Nat} : Trace.paid ⟨.ofArc (.silent target), []⟩ = .empty := rfl

/-- The first part of a concatenation leads on to the start of the second one. -/
theorem WellFormed.standsAt_concat (ha : a.WellFormed) :
    (concat a b).StandsAt a 0 fun s =>
      (s.shift a.size 0).continueBy (.silent (b.start + a.size)) :=
  standsAt_of_toList_eq [] _ rfl ha.toList_concat

/-- The second part of a concatenation is a copy. -/
theorem WellFormed.standsAt_concat_second (ha : a.WellFormed) :
    (concat a b).StandsAt b a.size (.shift b.size a.size) := by
  have hlength : (a.joinAt 0 (.silent (b.start + a.size))).length = a.size := length_joinAt
  refine standsAt_of_toList_eq _ [] hlength ?_
  rw [ha.toList_concat, List.append_nil, copyAt, Array.toList_map]

/-- The accepted runs of a concatenation are pairs of accepted runs. -/
theorem acceptedRuns_concat (ha : a.WellFormed) (hb : b.WellFormed) :
    (concat a b).AcceptedRunsAre fun p : a.AcceptedRun × b.AcceptedRun => p.1.paid ++ p.2.paid := by
  have hbehind := ha.standsAt_concat_second.runsAre_shift hb hb.start_lt
  have hruns := ha.standsAt_concat.runsAre_continueBy ha ha.start_lt hbehind
  refine RunsAre.accepted hruns fun p => ?_
  rw [Trace.paid_append, Trace.paid_append, paid_silent, Trace.append_empty]
  rfl

/-- The accepted runs of a union are those of its branches. -/
theorem acceptedRuns_union (branches : List Automaton) (h : ∀ b ∈ branches, b.WellFormed) :
    (union branches).AcceptedRunsAre
      fun p : (i : Fin branches.length) × branches[i].AcceptedRun => p.2.paid := by
  have hbranch : ∀ i : Fin branches.length, ∃ place,
      (union branches).BranchAt branches[i] place ∧
        ((union branches).arcs 0)[i.1]? = some (.silent (branches[i].start + place)) := fun i =>
    exists_branchAt_union (List.getElem?_eq_getElem i.2)
  choose place hstands hfirst using hbranch
  have harcs : (union branches).arcs 0 =
      List.ofFn fun i : Fin branches.length => .silent (branches[i].start + place i) := by
    refine List.ext_getElem? fun i => ?_
    rw [List.getElem?_ofFn]
    split
    · next hi => exact hfirst ⟨i, hi⟩
    · next hi => rw [List.getElem?_eq_none (by rw [length_arcs_union]; omega)]
  -- Behind its first arc a run goes through a branch, and then to state 1 where it stops.
  have hbehind := fun i : Fin branches.length =>
    have hb := h branches[i] (List.getElem_mem i.2)
    StandsAt.runsAre_stop 0 (hstands i) hb hb.start_lt rfl rfl
  refine RunsAre.accepted (runsAre_of_arcs harcs rfl hbehind) fun p => ?_
  rw [Trace.paid_append, Trace.paid_append, Trace.paid_append]
  change Trace.paid ⟨.empty, [0]⟩ ++ (p.2.paid ++ .empty ++ Trace.paid ⟨.empty, [0]⟩) = p.2.paid
  rw [paid_zero]
  change Trace.empty ++ (p.2.paid ++ .empty ++ .empty) = p.2.paid
  rw [Trace.empty_append, Trace.append_empty, Trace.append_empty]

/-- The automaton that accepts the empty input has one run, which does nothing. -/
theorem acceptedRuns_epsilon : epsilon.AcceptedRunsAre fun _ : Unit => .empty :=
  RunsAre.accepted (runsAre_of_stop 0 rfl rfl) fun _ => paid_zero

/-- The accepted runs of an optional automaton are its own and one that does nothing. -/
theorem acceptedRuns_optional (ha : a.WellFormed) :
    a.optional.AcceptedRunsAre fun r : Option a.AcceptedRun => r.elim .empty RunFrom.paid := by
  obtain ⟨skip, hskip, hnothing⟩ := acceptedRuns_epsilon
  obtain ⟨join, hjoin, hpaid⟩ := acceptedRuns_union [a, epsilon]
    (List.forall_mem_cons.2 ⟨ha, List.forall_mem_singleton.2 spells_epsilon.tidy.wellFormed⟩)
  -- The first branch is the automaton, and the second one has a single run.
  let choose : Option a.AcceptedRun →
      (i : Fin [a, epsilon].length) × [a, epsilon][i].AcceptedRun
    | some r => ⟨0, r⟩
    | none => ⟨1, skip ()⟩
  have hchoose : Function.Bijective choose := by
    constructor
    · rintro (_ | r) (_ | s) heq
      · rfl
      · cases heq
      · cases heq
      · cases heq
        rfl
    · rintro ⟨⟨_ | _ | i, hi⟩, r⟩
      · exact ⟨some r, rfl⟩
      · obtain ⟨_, rfl⟩ := hskip.2 r
        exact ⟨none, rfl⟩
      · exact absurd hi (by simp)
  refine ⟨join ∘ choose, hjoin.comp hchoose, ?_⟩
  rintro (_ | r)
  · exact (hpaid ⟨1, skip ()⟩).trans (hnothing ())
  · exact hpaid ⟨0, r⟩

/-- The accepted runs of a wrapped automaton are its own between the two symbols. -/
theorem acceptedRuns_wrap (ha : a.WellFormed) (opening closing : Symbol) :
    (a.wrap opening closing).AcceptedRunsAre
      fun r : a.AcceptedRun => r.paid.between opening closing := by
  have hstands : (a.wrap opening closing).StandsAt a 2 _ :=
    standsAt_of_toList_eq [⟨[.emit opening (a.start + 2)], none⟩, .stop] []
      (f := fun s => (s.shift a.size 2).continueBy (.emit closing 1)) rfl
      (by rw [List.append_nil]; rfl)
  have hbehind := hstands.runsAre_stop 0 ha ha.start_lt rfl rfl
  refine RunsAre.accepted (runsAre_of_arc 0 rfl rfl hbehind) fun r => ?_
  rw [Trace.paid_append, Trace.paid_append, Trace.paid_append]
  change Trace.paid ⟨⟨[], [opening]⟩, [0]⟩ ++
    (r.paid ++ ⟨⟨[], [closing]⟩, []⟩ ++ Trace.paid ⟨.empty, [0]⟩) = r.paid.between opening closing
  rw [paid_zero, paid_zero]
  refine Trace.ext ?_ ?_
  · change Utterance.mk (r.paid.utterance.words ++ [] ++ [])
      (opening :: (r.paid.utterance.output ++ [closing] ++ [])) = _
    rw [List.append_nil, List.append_nil, List.append_nil]
    rfl
  · change r.paid.costs ++ [] ++ [] = _
    rw [List.append_nil, List.append_nil]
    rfl

/-! ### Combinations are well-formed -/

/-- The arcs of a well-formed part lead to states of its host. -/
theorem WellFormed.target_lt_shift (ha : a.WellFormed) {s : State} (hs : s ∈ a.states.toList)
    {arc : Arc} {size : Nat} (harc : arc ∈ (s.shift a.size offset).arcs)
    (hsize : a.size + offset ≤ size) : arc.target < size := by
  obtain ⟨old, hold, rfl⟩ := List.mem_map.1 harc
  have hlt := ha.target_lt_of_mem hs hold
  change renumber a.size offset old.target < size
  rw [renumber_of_lt hlt]
  omega

theorem WellFormed.target_lt_copyAt (ha : a.WellFormed) {s : State} {arc : Arc} {size : Nat}
    (hs : s ∈ (a.copyAt offset).toList) (harc : arc ∈ s.arcs) (hsize : a.size + offset ≤ size) :
    arc.target < size := by
  rw [copyAt, Array.toList_map] at hs
  obtain ⟨old, hold, rfl⟩ := List.mem_map.1 hs
  exact ha.target_lt_shift hold harc hsize

theorem mem_arcs_continueBy {s : State} {arc exit : Arc} (h : arc ∈ (s.continueBy exit).arcs) :
    arc ∈ s.arcs ∨ ∃ weight, s.finalWeight = some weight ∧ arc = { exit with weight } := by
  cases hweight : s.finalWeight with
  | none => exact .inl (by simpa [State.continueBy, hweight] using h)
  | some weight =>
    simp only [State.continueBy, hweight] at h
    rcases List.mem_append.1 h with h | h
    · exact .inl h
    · exact .inr ⟨weight, rfl, List.mem_singleton.1 h⟩

/-- So do those of a part that leads on to a state of the host. -/
theorem WellFormed.target_lt_joinAt (ha : a.WellFormed) {s : State} {exit arc : Arc} {size : Nat}
    (hs : s ∈ a.joinAt offset exit) (harc : arc ∈ s.arcs) (hsize : a.size + offset ≤ size)
    (hexit : exit.target < size) : arc.target < size := by
  obtain ⟨old, hold, rfl⟩ := List.mem_map.1 hs
  rcases mem_arcs_continueBy harc with harc | ⟨weight, -, rfl⟩
  · exact ha.target_lt_shift hold harc hsize
  · exact hexit

theorem WellFormed.concat (ha : a.WellFormed) (hb : b.WellFormed) :
    (Automaton.concat a b).WellFormed := by
  have hstart := ha.start_lt
  have hlt := hb.start_lt
  refine wellFormed_of_states ha.toList_concat ?_ fun s hs arc harc => ?_
  · change a.start < _
    rw [size_concat]
    omega
  · rw [size_concat]
    rcases List.mem_append.1 hs with hs | hs
    · refine ha.target_lt_joinAt hs harc (by omega) ?_
      change b.start + a.size < _
      omega
    · exact hb.target_lt_copyAt hs harc (by omega)

theorem wellFormed_union {branches : List Automaton} (h : ∀ b ∈ branches, b.WellFormed) :
    (union branches).WellFormed := by
  refine wellFormed_of_states rfl ?_ fun s hs arc harc => ?_
  · rw [size_union]
    exact Nat.lt_of_lt_of_le Nat.zero_lt_two (Nat.le_add_right _ _)
  · rw [size_union]
    rcases List.mem_cons.1 hs with rfl | hs
    · obtain ⟨start, hstart, rfl⟩ := List.mem_map.1 harc
      obtain ⟨b, hb, place, -, hend, rfl⟩ := exists_start_of_mem hstart
      have := (h b hb).start_lt
      change b.start + place < _
      omega
    · rcases List.mem_cons.1 hs with rfl | hs
      · cases harc
      · obtain ⟨b, hb, place, hplace, hend, hs⟩ := exists_joinAt_of_mem hs
        refine (h b hb).target_lt_joinAt hs harc (by omega) ?_
        change 1 < _
        omega

theorem WellFormed.optional (ha : a.WellFormed) : a.optional.WellFormed :=
  wellFormed_union <|
    List.forall_mem_cons.2 ⟨ha, List.forall_mem_singleton.2 spells_epsilon.tidy.wellFormed⟩

theorem WellFormed.wrap (ha : a.WellFormed) (opening closing : Symbol) :
    (a.wrap opening closing).WellFormed := by
  have hlt := ha.start_lt
  refine wellFormed_of_states rfl ?_ fun s hs arc harc => ?_
  · rw [size_wrap]
    exact Nat.succ_pos _
  · rw [size_wrap]
    rcases List.mem_cons.1 hs with rfl | hs
    · obtain rfl := List.mem_singleton.1 harc
      change a.start + 2 < _
      omega
    · rcases List.mem_cons.1 hs with rfl | hs
      · cases harc
      · refine ha.target_lt_joinAt hs harc (Nat.le_refl _) ?_
        change 1 < _
        omega

/-- The accepted runs of combined automata. Those of a concatenation are the pairs of a run of one
part and a run of the other, one behind the other; those of a union are the runs of each of its
branches; those of an optional automaton are its own and one run that does nothing; those of a
wrapped automaton are its own between the two symbols. Each of them stands for exactly one run, and
along it what costs something is what costs something in the parts, in the same order. -/
theorem runs_of_combine (ha : a.WellFormed) (hb : b.WellFormed) {branches : List Automaton}
    (hbranches : ∀ branch ∈ branches, branch.WellFormed) (opening closing : Symbol) :
    ((Automaton.concat a b).WellFormed ∧ (Automaton.concat a b).AcceptedRunsAre
        fun p : a.AcceptedRun × b.AcceptedRun => p.1.paid ++ p.2.paid) ∧
      ((union branches).WellFormed ∧ (union branches).AcceptedRunsAre
        fun p : (i : Fin branches.length) × branches[i].AcceptedRun => p.2.paid) ∧
      (a.optional.WellFormed ∧ a.optional.AcceptedRunsAre
        fun r : Option a.AcceptedRun => r.elim .empty RunFrom.paid) ∧
      ((a.wrap opening closing).WellFormed ∧ (a.wrap opening closing).AcceptedRunsAre
        fun r : a.AcceptedRun => r.paid.between opening closing) :=
  ⟨⟨ha.concat hb, acceptedRuns_concat ha hb⟩,
    ⟨wellFormed_union hbranches, acceptedRuns_union branches hbranches⟩,
    ⟨ha.optional, acceptedRuns_optional ha⟩,
    ⟨ha.wrap opening closing, acceptedRuns_wrap ha opening closing⟩⟩

/-- A cycle through a state in which runs stop at a cost, another such state, from which an arc
leads back, and a state that is not reached. -/
theorem runs_of_combine_cycle : ∃ a : Automaton,
    a = ⟨#[⟨[⟨some "again", some (.word "again"), 2, 0⟩, ⟨none, none, 0, 1⟩], some 3⟩,
      ⟨[⟨some "back", none, 0, 0⟩], some 5⟩, ⟨[⟨none, none, 7, 1⟩], none⟩], 0⟩ ∧ a.WellFormed ∧
    ((Automaton.concat a a).WellFormed ∧ (Automaton.concat a a).AcceptedRunsAre
        fun p : a.AcceptedRun × a.AcceptedRun => p.1.paid ++ p.2.paid) ∧
      ((union [a, a]).WellFormed ∧ (union [a, a]).AcceptedRunsAre
        fun p : (i : Fin [a, a].length) × [a, a][i].AcceptedRun => p.2.paid) ∧
      (a.optional.WellFormed ∧ a.optional.AcceptedRunsAre
        fun r : Option a.AcceptedRun => r.elim .empty RunFrom.paid) ∧
      ((a.wrap (.openIntent "A") .closeIntent).WellFormed ∧
        (a.wrap (.openIntent "A") .closeIntent).AcceptedRunsAre
          fun r : a.AcceptedRun => r.paid.between (.openIntent "A") .closeIntent) := by
  refine ⟨_, rfl, ?_⟩
  generalize hall : Automaton.mk _ _ = a
  have ha : a.WellFormed := by
    subst hall
    exact wellFormed_of_states rfl (by decide) (by decide)
  exact ⟨ha, runs_of_combine ha ha
    (List.forall_mem_cons.2 ⟨ha, List.forall_mem_singleton.2 ha⟩) _ _⟩

end Automaton

end Phrasebook
