import Mathlib.Data.Set.Card
import Phrasebook.Proofs.Example.Sample
import Phrasebook.Proofs.Example.Search

/-!
# The limits of examples

A sample makes one choice in every state that its walk comes to, and may make as many choices as
the limit says. To stop is one of them. So the walk is given up once it has taken as many arcs as
the limit, also where it would stop next, and the longest sample has one arc less.

Enumeration looks at its limit before it adds an example, and finds it only where there are
exactly as many examples as that. The run that stops in the start state is added without a look.
So the limit is kept, except that under the limit 0 everything is listed where that run is
accepted.

* `Sample.Stops`: the walk that the choices make stops behind some arcs.
* `Sample.run_of_visits`: a sample is what becomes of its walk from any state on its way.
* `Sample.run_limit`: which walks are samples, and which are given up.
* `Example.Fills`: a computation adds some examples as far as the limit allows.
* `Example.fills_walk`: a walk adds an example for each run that goes on.
* `Example.enumerate_limit`: under which limits enumeration succeeds, and with how many examples.
-/

namespace Phrasebook

namespace Sample

variable {choose : Chooser} {a : Automaton} {live : Nat → Bool} {draws : Draws} {time : Nat}
  {arcs : List Automaton.Arc} {state : Nat}

/-- A way to choose says nothing about the length of a walk. -/
def IgnoresLength (choose : Chooser) : Prop :=
  ∀ state costs word, choose state costs word ≠ .error (.exhausted .tooLong)

theorem ignoresLength_byWeight : IgnoresLength byWeight := by
  intro state costs word h
  unfold byWeight at h
  dsimp only at h
  -- Every failure is about the weights.
  repeat' split at h
  all_goals cases h

theorem ignoresLength_byRemainder : IgnoresLength byRemainder := by
  intro state costs word h
  unfold byRemainder at h
  split at h <;> cases h

/-- The walk that the choices make stops in a state behind some arcs. -/
structure Stops (choose : Chooser) (a : Automaton) (live : Nat → Bool) (draws : Draws)
    (time : Nat) (arcs : List Automaton.Arc) (state : Nat) : Prop where
  /-- The walk comes to the state along the arcs. -/
  visited : Visits choose a live draws time arcs state
  /-- There the position behind the arcs is chosen. -/
  chosen : ∃ i, choose state (costs a live state) (draws (time + arcs.length)) = .ok i ∧
    (liveArcs a live state)[i]? = none

/-- A walk stops only where that is allowed. -/
theorem Stops.isFinal (hchoose : IsProper choose) (h : Stops choose a live draws time arcs state) :
    a.isFinal state = true := by
  obtain ⟨i, hi, hbehind⟩ := h.chosen
  exact isFinal_of_chosen (hchoose.lt_length _ _ _ _ hi) hbehind

/-- A walk comes to where it is through states behind fewer arcs. -/
theorem Visits.exists_take (h : Visits choose a live draws time arcs state) {n : Nat}
    (hn : n ≤ arcs.length) : ∃ state', Visits choose a live draws time (arcs.take n) state' := by
  induction h with
  | start alive =>
    rw [List.take_nil]
    exact ⟨_, .start alive⟩
  | @step arcs state i arc before chosen found ih =>
    rcases Nat.lt_or_ge arcs.length n with hlt | hge
    · rw [List.take_of_length_le (by simpa using hlt)]
      exact ⟨_, .step before chosen found⟩
    · rw [List.take_append_of_le_length hge]
      exact ih hge

/-- The sample is what becomes of its walk from any state that it comes to, with the choices that
are left there. -/
theorem run_of_visits (h : Visits choose a live draws time arcs state)
    (hlength : arcs.length ≤ maxRunLength) :
    run choose a live draws time =
      walk choose a live draws (maxRunLength - arcs.length) state (time + arcs.length)
        (Utterance.ofArcs arcs).output.reverse := by
  induction h with
  | start alive => rw [run, if_pos alive]; rfl
  | @step arcs state i arc before chosen found ih =>
    rw [List.length_append, List.length_singleton] at hlength ⊢
    -- The choice that leads on is one of those that were left before it.
    obtain ⟨budget, hbudget⟩ : ∃ budget, maxRunLength - arcs.length = budget + 1 :=
      ⟨maxRunLength - (arcs.length + 1), by omega⟩
    rw [ih (by omega), hbudget, walk, chosen, reverse_output_concat]
    simp only [bind, Except.bind, found]
    rw [show maxRunLength - (arcs.length + 1) = budget by omega, Nat.add_assoc]

/-- A walk that stops behind fewer arcs than the limit is a sample. -/
theorem Stops.run_eq (h : Stops choose a live draws time arcs state)
    (hlength : arcs.length < maxRunLength) :
    run choose a live draws time =
      .ok ((Utterance.ofArcs arcs).output, time + arcs.length + 1) := by
  obtain ⟨i, hi, hbehind⟩ := h.chosen
  obtain ⟨budget, hbudget⟩ : ∃ budget, maxRunLength - arcs.length = budget + 1 :=
    ⟨maxRunLength - arcs.length - 1, by omega⟩
  rw [run_of_visits h.visited hlength.le, hbudget, walk, hi]
  simp only [bind, Except.bind, hbehind, List.reverse_reverse]
  rfl

/-- A walk that takes as many arcs as the limit is given up, even where it would stop next. -/
theorem Visits.run_eq (h : Visits choose a live draws time arcs state)
    (hlength : maxRunLength ≤ arcs.length) :
    run choose a live draws time = .error (.exhausted .tooLong) := by
  obtain ⟨state', hvisit⟩ := h.exists_take hlength
  have hlength' : (arcs.take maxRunLength).length = maxRunLength := List.length_take_of_le hlength
  rw [run_of_visits hvisit hlength'.le, hlength', Nat.sub_self, walk]

/-- A walk is given up only where it has taken as many arcs as the limit. -/
theorem exists_visits_of_run (hchoose : IgnoresLength choose)
    (h : run choose a live draws time = .error (.exhausted .tooLong)) :
    ∃ arcs state, Visits choose a live draws time arcs state ∧ arcs.length = maxRunLength := by
  rcases ends_of_run h with hnothing | hends
  · cases hnothing
  · cases hends with
    | failed _ refused => exact absurd refused (hchoose _ _ _)
    | tooLong visited length => exact ⟨_, _, visited, length⟩

/-- A sample is what its walk puts out that stops before the limit. -/
theorem exists_stops_of_run {symbols : List Symbol} {time' : Nat}
    (h : run choose a live draws time = .ok (symbols, time')) :
    ∃ arcs state, Stops choose a live draws time arcs state ∧ arcs.length < maxRunLength ∧
      symbols = (Utterance.ofArcs arcs).output := by
  rcases ends_of_run h with hnothing | hends
  · cases hnothing
  · cases hends with
    | @stopped arcs state i visited chosen behind =>
      refine ⟨arcs, state, ⟨visited, i, chosen, behind⟩, ?_, rfl⟩
      -- Behind as many arcs as the limit the walk would have been given up.
      by_contra hlength
      rw [visited.run_eq (Nat.le_of_not_lt hlength)] at h
      cases h

/-- A walk that stops behind fewer arcs than the limit is a sample, with what it has put out. One
that stops later is given up, and so is every walk that takes as many arcs as the limit, whether
it would stop there or go on. -/
theorem run_limit (hchoose : IsProper choose) (hlength : IgnoresLength choose) :
    (∀ arcs state, Stops choose a live draws time arcs state → a.isFinal state = true ∧
      run choose a live draws time =
        if arcs.length < maxRunLength then
          .ok ((Utterance.ofArcs arcs).output, time + arcs.length + 1)
        else .error (.exhausted .tooLong)) ∧
    (∀ symbols time', run choose a live draws time = .ok (symbols, time') →
      ∃ arcs state, Stops choose a live draws time arcs state ∧ arcs.length < maxRunLength ∧
        symbols = (Utterance.ofArcs arcs).output) ∧
    (run choose a live draws time = .error (.exhausted .tooLong) ↔
      ∃ arcs state, Visits choose a live draws time arcs state ∧ arcs.length = maxRunLength) := by
  refine ⟨fun arcs state h => ⟨h.isFinal hchoose, ?_⟩, fun _ _ => exists_stops_of_run,
    exists_visits_of_run hlength, ?_⟩
  · split
    · next hlt => exact h.run_eq hlt
    · next hge => exact h.visited.run_eq (Nat.le_of_not_lt hge)
  · rintro ⟨arcs, state, hvisit, hmax⟩
    exact hvisit.run_eq hmax.ge

/-- The loop of `looping`. -/
def loop : Automaton.Arc := ⟨some "a", some (.word "a"), 0, 0⟩

/-- Random words of which the first ones are even. -/
def evenUntil (count : Nat) : Draws := fun number => if number < count then 0 else 1

theorem liveArcs_looping : liveArcs looping looping.coaccessible.contains 0 = [loop] := by
  have hlive : looping.coaccessible.contains 0 = true := by decide +kernel
  have hdead : looping.coaccessible.contains 1 = false := by decide +kernel
  show List.filter _ [loop, ⟨some "b", some (.word "b"), 0, 1⟩] = _
  simp [loop, hlive, hdead]

theorem costs_looping : costs looping looping.coaccessible.contains 0 = [0, 0] := by
  rw [costs, liveArcs_looping]
  rfl

theorem visits_looping (count : Nat) : ∀ taken ≤ count,
    Visits byRemainder looping looping.coaccessible.contains (evenUntil count) 0
      (List.replicate taken loop) 0 := by
  intro taken
  induction taken with
  | zero =>
    intro _
    exact .start (by decide +kernel)
  | succ taken ih =>
    intro hlt
    rw [List.replicate_succ']
    refine .step (i := 0) (ih (Nat.le_of_lt hlt)) ?_ (by rw [liveArcs_looping]; rfl)
    rw [costs_looping, List.length_replicate, evenUntil, if_pos (by omega)]
    rfl

theorem stops_looping (count : Nat) :
    Stops byRemainder looping looping.coaccessible.contains (evenUntil count) 0
      (List.replicate count loop) 0 where
  visited := visits_looping count count le_rfl
  chosen := by
    refine ⟨1, ?_, by rw [liveArcs_looping]; rfl⟩
    rw [costs_looping, List.length_replicate, evenUntil, if_neg (by omega)]
    rfl

/-- The walk that stops behind as many arcs as the limit is given up. With one arc less it is a
sample. The choice by weight is one of those that this is about. -/
theorem run_limit_looping : IsProper byWeight ∧ IgnoresLength byWeight ∧
    IsProper byRemainder ∧ IgnoresLength byRemainder ∧
    Stops byRemainder looping looping.coaccessible.contains (evenUntil maxRunLength) 0
      (List.replicate maxRunLength loop) 0 ∧
    run byRemainder looping looping.coaccessible.contains (evenUntil maxRunLength) 0 =
      .error (.exhausted .tooLong) ∧
    run byRemainder looping looping.coaccessible.contains (evenUntil (maxRunLength - 1)) 0 =
      .ok (List.replicate (maxRunLength - 1) (.word "a"), maxRunLength) := by
  have hrun : ∀ count, run byRemainder looping looping.coaccessible.contains (evenUntil count) 0 =
      if count < maxRunLength then .ok (List.replicate count (.word "a"), count + 1)
      else .error (.exhausted .tooLong) := by
    intro count
    have h := ((run_limit isProper_byRemainder ignoresLength_byRemainder).1 _ _
      (stops_looping count)).2
    rwa [List.length_replicate, Nat.zero_add, Utterance.ofArcs,
      List.filterMap_replicate_of_some (show loop.output = some (.word "a") from rfl)] at h
  refine ⟨isProper_byWeight, ignoresLength_byWeight, isProper_byRemainder,
    ignoresLength_byRemainder, stops_looping maxRunLength, ?_, ?_⟩
  · rw [hrun, if_neg (Nat.lt_irrefl _)]
  · rw [hrun, if_pos (Nat.sub_lt (by decide) Nat.one_pos)]
    rfl

end Sample

namespace Automaton

/-- The accepted runs. -/
def acceptedRuns (a : Automaton) : Set (List Nat) := {run | ∃ arcs, a.Accepts run arcs}

/-- Where no cycle can be reached, the accepted runs are as many as those that are listed. -/
theorem encard_acceptedRuns {a : Automaton} (ha : a.WellFormed)
    (hacyclic : Graph.AcyclicFrom a.targets a.start) :
    a.acceptedRuns.encard = (a.runsFrom a.size a.start).length := by
  have hset : a.acceptedRuns = (((a.runsFrom a.size a.start).map Prod.fst).toFinset : Set _) := by
    ext run
    simp only [acceptedRuns, Set.mem_ofPred_eq, List.coe_toFinset, List.mem_map, Prod.exists,
      exists_and_right, exists_eq_right, mem_runsFrom]
    constructor
    · rintro ⟨arcs, stop, hrun, hfinal⟩
      -- A run that comes to no state twice is short enough to be listed.
      exact ⟨arcs, (hrun.length_lt_size ha ha.start_lt hacyclic).le, stop, hrun, hfinal⟩
    · rintro ⟨arcs, -, haccepts⟩
      exact ⟨arcs, haccepts⟩
  have hnodup : ((a.runsFrom a.size a.start).map Prod.fst).Nodup :=
    pairwise_runsFrom.imp fun h => (ne_of_lt h)
  rw [hset, Set.encard_coe_eq_coe_finsetCard, List.toFinset_card_of_nodup hnodup, List.length_map]

end Automaton

namespace Example

variable {a : Automaton} {limit : Nat}

/-- A computation adds some examples as far as the limit allows. The limit is looked at before
each one and is only met where it is reached exactly, so beyond it nothing is refused. -/
structure Fills (limit count : Nat) (f : Array Example → Except Error (Array Example)) : Prop where
  /-- The examples are added where the limit is kept, and where there are too many already. -/
  adds : ∀ examples, examples.size + count ≤ limit ∨ limit < examples.size →
    ∃ result, f examples = .ok result ∧ result.size = examples.size + count
  /-- They are refused where they would exceed it. -/
  refuses : ∀ examples, examples.size ≤ limit → limit < examples.size + count →
    f examples = .error (.exhausted (.tooMany limit))

theorem fills_ok : Fills limit 0 .ok where
  adds examples _ := ⟨examples, rfl, rfl⟩
  refuses examples hle hlt := by omega

/-- What is added by two computations, one after the other. -/
theorem Fills.bind {m n : Nat} {f g : Array Example → Except Error (Array Example)}
    (hf : Fills limit m f) (hg : Fills limit n g) :
    Fills limit (m + n) fun examples => f examples >>= g where
  adds examples h := by
    obtain ⟨middle, hmiddle, hsize⟩ := hf.adds examples (by omega)
    obtain ⟨result, hresult, hsize'⟩ := hg.adds middle (by omega)
    exact ⟨result, bind_eq_ok_iff.2 ⟨middle, hmiddle, hresult⟩, by omega⟩
  refuses examples hle hlt := by
    by_cases hfirst : limit < examples.size + m
    · exact bind_eq_error_iff.2 (.inl (hf.refuses examples hle hfirst))
    · obtain ⟨middle, hmiddle, hsize⟩ := hf.adds examples (by omega)
      exact bind_eq_error_iff.2
        (.inr ⟨middle, hmiddle, hg.refuses middle (by omega) (by omega)⟩)

/-- What is added for the members of a list. -/
theorem Fills.foldlM {α : Type} {count : α → Nat} {l : List α}
    {f : Array Example → α → Except Error (Array Example)}
    (h : ∀ x ∈ l, Fills limit (count x) (f · x)) :
    Fills limit (l.map count).sum fun examples => l.foldlM f examples := by
  induction l with
  | nil => exact fills_ok
  | cons x l ih =>
    obtain ⟨hx, hl⟩ := List.forall_mem_cons.1 h
    exact hx.bind (ih hl)

/-- The example of a run whose output decodes. -/
theorem fills_found {symbols : List Symbol} {e : Example} (he : ofSymbols symbols = .ok e) :
    Fills limit 1 (found limit symbols) where
  adds examples h := by
    refine ⟨examples.push e, ?_, Array.size_push e⟩
    rw [found, if_neg (by omega), he]
    rfl
  refuses examples hle hlt := by
    rw [found, if_pos (by omega)]
    rfl

/-- Each of some runs behind some output decodes. -/
def Decode (output : List Symbol) (runs : List (List Automaton.Arc)) : Prop :=
  ∀ arcs ∈ runs, ∃ e, ofSymbols (output.reverse ++ (Utterance.ofArcs arcs).output) = .ok e

/-- Where an arc is dead, no run goes on along it. -/
theorem tails_of_dead (ha : a.WellFormed) (depth : Nat) {arc : Automaton.Arc}
    (hdead : a.coaccessible.contains arc.target = false) :
    a.isFinal arc.target = false ∧ tails a depth arc.target = [] := by
  have hnil := map_snd_runsFrom (a := a) depth arc.target
  rw [runsFrom_eq_nil ha hdead, List.map_nil, eq_comm, List.append_eq_nil_iff] at hnil
  refine ⟨?_, hnil.2⟩
  by_contra hfinal
  rw [if_pos (by simpa using hfinal)] at hnil
  cases hnil.1

/-- The runs that begin with an arc decode as those behind it do. -/
theorem Decode.tail {depth state : Nat} {output : List Symbol}
    (h : Decode output (tails a (depth + 1) state)) {arc : Automaton.Arc}
    (harc : arc ∈ a.arcs state) :
    (a.isFinal arc.target = true → ∃ e, ofSymbols (arc.output.toList ++ output).reverse = .ok e) ∧
      Decode (arc.output.toList ++ output) (tails a depth arc.target) := by
  have hmem : ∀ arcs ∈ (if a.isFinal arc.target then [[arc]] else []) ++
      (tails a depth arc.target).map (arc :: ·), arcs ∈ tails a (depth + 1) state := by
    intro arcs harcs
    exact List.mem_flatMap.2 ⟨arc, harc, harcs⟩
  constructor
  · intro hfinal
    have hdecode := h [arc] (hmem _ (by simp [hfinal]))
    rw [output_cons, Utterance.ofArcs_nil] at hdecode
    simpa [Utterance.empty] using hdecode
  · intro arcs harcs
    rw [← output_cons]
    exact h _ (hmem _ (List.mem_append_right _ (List.mem_map_of_mem harcs)))

/-- Where a run may stop, arriving adds its example. -/
theorem fills_arrive {output : List Symbol} {state : Nat}
    (h : a.isFinal state = true → ∃ e, ofSymbols output.reverse = .ok e) :
    Fills limit (if a.isFinal state then 1 else 0) (Search.arrive a limit output state) := by
  unfold Search.arrive
  split
  · next hfinal =>
    obtain ⟨e, he⟩ := h hfinal
    exact fills_found he
  · exact fills_ok

/-- A walk adds an example for each run that goes on. -/
theorem fills_walk (ha : a.WellFormed) {depth state : Nat} {output : List Symbol}
    (hdecode : Decode output (tails a depth state)) :
    Fills limit (tails a depth state).length
      (walk a a.coaccessible.contains limit depth state output) := by
  induction depth generalizing state output with
  | zero => exact fills_ok
  | succ depth ih =>
    rw [tails, List.length_flatMap, show walk a a.coaccessible.contains limit (depth + 1) state
      output = _ from funext fun _ => Search.walk_succ]
    refine Fills.foldlM fun arc harc => ?_
    obtain ⟨hstop, hrest⟩ := hdecode.tail harc
    rw [List.length_append, List.length_map, apply_ite List.length]
    unfold Search.branch
    cases hlive : a.coaccessible.contains arc.target with
    | true => exact (fills_arrive hstop).bind (ih hrest)
    | false =>
      -- Behind a dead arc there is nothing to add.
      obtain ⟨hfinal, hnil⟩ := tails_of_dead ha depth hlive
      rw [hfinal, hnil]
      exact fills_ok

/-- Where every accepted run decodes, so do the runs that are listed from the start state. -/
theorem decode_tails (hdecode : ∀ run arcs, a.Accepts run arcs →
    ∃ intent, Intent.ofSymbols (Utterance.ofArcs arcs).output = .ok intent) :
    (a.isFinal a.start = true → ∃ e, ofSymbols [] = .ok e) ∧
      Decode [] (tails a a.size a.start) := by
  have hlisted : ∀ arcs ∈ (a.runsFrom a.size a.start).map Prod.snd,
      ∃ e, ofSymbols (Utterance.ofArcs arcs).output = .ok e := by
    intro arcs harcs
    obtain ⟨⟨run, _⟩, hmem, rfl⟩ := List.mem_map.1 harcs
    obtain ⟨intent, hintent⟩ := hdecode run _ (Automaton.mem_runsFrom.1 hmem).2
    exact ⟨⟨_, intent⟩, ofSymbols_eq_ok_iff.2 ⟨rfl, hintent⟩⟩
  rw [map_snd_runsFrom] at hlisted
  constructor
  · intro hfinal
    exact hlisted [] (by simp [hfinal])
  · intro arcs harcs
    exact hlisted arcs (List.mem_append_right _ harcs)

/-- Where a run can stop at all, enumeration is a walk from the start state that has found the run
which stops there already. -/
theorem enumerate_eq_walk (h : a.isAcyclic = true) (hlive : a.coaccessible.contains a.start = true)
    (hstart : a.isFinal a.start = true → ∃ e, ofSymbols [] = .ok e) (limit : Nat) :
    ∃ first : Array Example, first.size = (if a.isFinal a.start then 1 else 0) ∧
      enumerate a limit =
        Array.toList <$> walk a a.coaccessible.contains limit a.size a.start [] first := by
  unfold enumerate
  rw [h]
  dsimp only
  rw [hlive]
  cases hfinal : a.isFinal a.start with
  | false => exact ⟨#[], rfl, rfl⟩
  | true =>
    obtain ⟨e, he⟩ := hstart hfinal
    refine ⟨#[e], rfl, ?_⟩
    rw [he]
    rfl

/-- The listed runs are counted, but for the one that stops in the start state: it is there before
the walk begins. -/
theorem enumerate_cases (ha : a.WellFormed) (hacyclic : Graph.AcyclicFrom a.targets a.start)
    (hdecode : ∀ run arcs, a.Accepts run arcs →
      ∃ intent, Intent.ofSymbols (Utterance.ofArcs arcs).output = .ok intent) (limit : Nat) :
    if (a.runsFrom a.size a.start).length ≤ limit ∨ limit = 0 ∧ a.isFinal a.start = true then
      ∃ examples, enumerate a limit = .ok examples
    else enumerate a limit = .error (.exhausted (.tooMany limit)) := by
  have hacyclic' := (Automaton.isAcyclic_iff ha).2 hacyclic
  cases hlive : a.coaccessible.contains a.start with
  | false =>
    -- There is no run at all.
    rw [runsFrom_eq_nil ha hlive, if_pos (.inl (Nat.zero_le _))]
    refine ⟨[], ?_⟩
    unfold enumerate
    rw [hacyclic']
    dsimp only
    rw [hlive]
    rfl
  | true =>
    obtain ⟨hstart, htails⟩ := decode_tails hdecode
    obtain ⟨first, hsize, henumerate⟩ := enumerate_eq_walk hacyclic' hlive hstart limit
    have hcount := congrArg List.length (map_snd_runsFrom (a := a) a.size a.start)
    rw [List.length_map, List.length_append, apply_ite List.length] at hcount
    change _ = (if a.isFinal a.start then 1 else 0) + _ at hcount
    rw [← hsize] at hcount
    have hfills : Fills limit _ _ := fills_walk ha htails
    rw [henumerate, hcount]
    -- The limit is exceeded at the beginning only if it is 0 and a run may stop at once.
    have hexceeded : limit < first.size ↔ limit = 0 ∧ a.isFinal a.start = true := by
      rw [hsize]
      split <;> simp_all
    simp only [← hexceeded]
    split
    · next h =>
      obtain ⟨result, hresult, -⟩ := hfills.adds first h
      exact ⟨result.toList, by rw [hresult]; rfl⟩
    · next h =>
      rw [hfills.refuses first (by omega) (by omega)]
      rfl

/-- Enumeration succeeds where there are no more accepted runs than the limit, and then gives as
many examples as there are runs. It succeeds also under the limit 0 where a run may stop in the
start state, as that run is not counted: from then on there are more examples than the limit,
which is only looked for where it is reached. In every other case there are too many runs. -/
theorem enumerate_limit (ha : a.WellFormed) (hacyclic : Graph.AcyclicFrom a.targets a.start)
    (hdecode : ∀ run arcs, a.Accepts run arcs →
      ∃ intent, Intent.ofSymbols (Utterance.ofArcs arcs).output = .ok intent) (limit : Nat) :
    ((∃ examples, enumerate a limit = .ok examples) ↔
      a.acceptedRuns.encard ≤ limit ∨ limit = 0 ∧ a.isFinal a.start = true) ∧
    (∀ examples, enumerate a limit = .ok examples →
      (examples.length : ℕ∞) = a.acceptedRuns.encard) ∧
    ∀ e, enumerate a limit = .error e → e = .exhausted (.tooMany limit) := by
  rw [Automaton.encard_acceptedRuns ha hacyclic, Nat.cast_le]
  simp only [Nat.cast_inj]
  have hcases := enumerate_cases ha hacyclic hdecode limit
  refine ⟨?_, ?_, ?_⟩
  · constructor
    · rintro ⟨examples, hexamples⟩
      by_contra hmany
      rw [if_neg hmany, hexamples] at hcases
      cases hcases
    · intro hfew
      rwa [if_pos hfew] at hcases
  · intro examples hexamples
    exact (forall₂_of_enumerate ha hexamples).length_eq.symm
  · intro e he
    split at hcases
    · obtain ⟨examples, hexamples⟩ := hcases
      rw [he] at hexamples
      cases hexamples
    · rw [he] at hcases
      exact Except.error.inj hcases

/-- A word that may be left out. -/
def optionalWord : Automaton where
  states := #[⟨[⟨some "a", some (.word "a"), 0, 1⟩], some 0⟩, ⟨[], some 0⟩]
  start := 0

/-- Under the limit 0 there are two examples, which are more than the limit 1 allows. -/
theorem enumerate_limit_optionalWord : optionalWord.WellFormed ∧
    Graph.AcyclicFrom optionalWord.targets optionalWord.start ∧
    (∀ run arcs, optionalWord.Accepts run arcs →
      ∃ intent, Intent.ofSymbols (Utterance.ofArcs arcs).output = .ok intent) ∧
    optionalWord.acceptedRuns.encard = 2 ∧
    (∃ examples, enumerate optionalWord 0 = .ok examples ∧ examples.length = 2) ∧
    enumerate optionalWord 1 = .error (.exhausted (.tooMany 1)) := by
  have hwell : optionalWord.WellFormed := by decide
  have hacyclic : Graph.AcyclicFrom optionalWord.targets optionalWord.start :=
    (Automaton.isAcyclic_iff hwell).1 (by decide +kernel)
  have hdecode : ∀ run arcs, optionalWord.Accepts run arcs →
      ∃ intent, Intent.ofSymbols (Utterance.ofArcs arcs).output = .ok intent := by
    intro run arcs haccepts
    obtain ⟨stop, hrun, hfinal⟩ := haccepts
    have hmem := Automaton.mem_runsFrom.2
      ⟨(hrun.length_lt_size hwell hwell.start_lt hacyclic).le, stop, hrun, hfinal⟩
    have hall : ∀ output ∈ optionalWord.utterances.map Utterance.output,
        ∃ intent, Intent.ofSymbols output = .ok intent := by
      intro output houtput
      rw [show optionalWord.utterances.map Utterance.output = [[], [.word "a"]] from rfl] at houtput
      rcases List.mem_pair.1 houtput with rfl | rfl <;> exact ⟨_, rfl⟩
    refine hall _ ?_
    rw [Automaton.utterances, List.map_map]
    exact List.mem_map_of_mem hmem
  have hcount : optionalWord.acceptedRuns.encard = 2 := by
    rw [Automaton.encard_acceptedRuns hwell hacyclic]
    rfl
  refine ⟨hwell, hacyclic, hdecode, hcount, ?_, ?_⟩
  · obtain ⟨hok, hlength, -⟩ := enumerate_limit hwell hacyclic hdecode 0
    obtain ⟨examples, hexamples⟩ := hok.2 (.inr ⟨rfl, by decide⟩)
    refine ⟨examples, hexamples, ?_⟩
    have h := hlength examples hexamples
    rw [hcount] at h
    exact_mod_cast h
  · obtain ⟨hok, -, herror⟩ := enumerate_limit hwell hacyclic hdecode 1
    cases hresult : enumerate optionalWord 1 with
    | ok examples =>
      rw [hcount] at hok
      rcases hok.1 ⟨examples, hresult⟩ with hle | ⟨hzero, -⟩
      · exact absurd hle (by decide)
      · cases hzero
    | error e => rw [herror e hresult]

end Example

end Phrasebook
