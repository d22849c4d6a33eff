import Phrasebook.Example.Sample
import Phrasebook.Proofs.Example.Enumerate

/-!
# Samples come from accepted runs

A walk takes arcs to coaccessible states only, and these are the states from which a run can
stop. So wherever the walk is, there is something to choose: an arc on which it may go on, or to
stop. This holds for every way to choose a position among the costs and for all random words.

* `Sample.IsProper`: what a way to choose has to do, and `Sample.isProper_byWeight`.
* `Sample.Visits`: a walk comes to a state along some arcs.
* `Sample.Visits.canStop`: from every such state a run can stop.
* `Sample.Ends`, `Sample.ends_run`: how a walk ends.
* `Sample.run_spec`: a sample is what an accepted run puts out, and no walk is left without a
  choice.
* `Example.IsGenerated.isOfRun`: so every example that is listed or sampled is that of an accepted
  run.
-/

namespace Phrasebook

namespace Automaton

variable {a : Automaton} {state : Nat}

/-- A run can stop at once, or it can stop behind some arc. -/
theorem CanStop.isFinal_or_exists (h : a.CanStop state) :
    a.isFinal state = true ∨ ∃ arc ∈ a.arcs state, a.CanStop arc.target := by
  obtain ⟨stop, path, hfinal⟩ := h
  cases path with
  | refl => exact .inl hfinal
  | head edge path =>
    obtain ⟨arc, harc, rfl⟩ := List.mem_map.1 edge
    exact .inr ⟨arc, harc, stop, path, hfinal⟩

/-- A run goes on by an arc of the state where it stops. -/
theorem Follows.concat {stop i : Nat} {run : List Nat} {arcs : List Arc} {arc : Arc}
    (h : a.Follows state run arcs stop) (last : (a.arcs stop)[i]? = some arc) :
    a.Follows state (run ++ [i]) (arcs ++ [arc]) arc.target :=
  h.append (.cons last (.nil _))

end Automaton

namespace Sample

/-! ### Ways to choose -/

/-- A way to choose gives one of the positions, and says that there is nothing to choose from only
where this is so. -/
structure IsProper (choose : Chooser) : Prop where
  /-- The position is one of those of the costs. -/
  lt_length : ∀ state costs word i, choose state costs word = .ok i → i < costs.length
  /-- There is something to choose from unless there are no costs. -/
  eq_nil : ∀ state costs word state',
    choose state costs word = .error (.exhausted (.noChoice state' .noWeights)) → costs = []

theorem length_partialSums (sum : Float) (weights : List Float) :
    (partialSums sum weights).length = weights.length := by
  induction weights generalizing sum with
  | nil => rfl
  | cons w ws ih => rw [partialSums, List.length_cons, ih, List.length_cons]

theorem length_cumulative (weights : List Float) :
    (cumulative weights).length = weights.length := by
  cases weights with
  | nil => rfl
  | cons w ws => rw [cumulative, List.length_cons, length_partialSums, List.length_cons]

/-- The choice by weight is one of the positions, whatever the weights are. -/
theorem isProper_byWeight : IsProper byWeight where
  lt_length state costs word i h := by
    have hlength : (cumulative (costs.map weightOf)).length = costs.length := by
      rw [length_cumulative, List.length_map]
    unfold byWeight at h
    dsimp only at h
    split at h
    · cases h
    next total hlast =>
    have hpos : 0 < costs.length := by
      rw [← hlength, List.length_pos_iff]
      rintro hnil
      rw [hnil] at hlast
      cases hlast
    -- Only the sums before the last one are looked at.
    repeat' split at h
    all_goals cases h
    refine Nat.lt_of_le_of_lt List.findIdx_le_length ?_
    rw [List.length_dropLast, hlength]
    omega
  eq_nil state costs word state' h := by
    unfold byWeight at h
    dsimp only at h
    split at h
    · next hlast =>
      rw [List.getLast?_eq_none_iff] at hlast
      have hlength := length_cumulative (costs.map weightOf)
      rw [hlast, List.length_map] at hlength
      exact List.eq_nil_of_length_eq_zero hlength.symm
    · repeat' split at h
      all_goals cases h

/-! ### What can be chosen -/

variable {choose : Chooser} {a : Automaton} {live : Nat → Bool} {draws : Draws} {time : Nat}

theorem mem_liveArcs {state : Nat} {arc : Automaton.Arc} :
    arc ∈ liveArcs a live state ↔ arc ∈ a.arcs state ∧ live arc.target = true :=
  List.mem_filter

/-- There is nothing to choose from where no arc leads to a live state and no run may stop. -/
theorem costs_eq_nil_iff {state : Nat} :
    costs a live state = [] ↔ liveArcs a live state = [] ∧ a.isFinal state = false := by
  rw [costs, List.append_eq_nil_iff, List.map_eq_nil_iff, Option.toList_eq_nil_iff,
    Automaton.isFinal, Option.isSome_eq_false_iff, Option.isNone_iff_eq_none]

/-- The position behind the arcs is one of those of the costs only where a run may stop. -/
theorem isFinal_of_chosen {state i : Nat} (hlt : i < (costs a live state).length)
    (hbehind : (liveArcs a live state)[i]? = none) : a.isFinal state = true := by
  rw [List.getElem?_eq_none_iff] at hbehind
  rw [costs, List.length_append, List.length_map] at hlt
  cases hweight : a.finalWeight? state with
  | none =>
    rw [hweight, Option.toList_none, List.length_nil] at hlt
    omega
  | some weight => rw [Automaton.isFinal, hweight, Option.isSome_some]

/-! ### The states of a walk -/

/-- The walk from the start state comes to a state along some arcs. Its first choice takes the
random word numbered `time`. -/
inductive Visits (choose : Chooser) (a : Automaton) (live : Nat → Bool) (draws : Draws)
    (time : Nat) : List Automaton.Arc → Nat → Prop
  /-- The walk begins in the start state if that is live. -/
  | start (alive : live a.start = true) : Visits choose a live draws time [] a.start
  /-- It goes on along the arc that is chosen. -/
  | step {arcs : List Automaton.Arc} {state i : Nat} {arc : Automaton.Arc}
    (before : Visits choose a live draws time arcs state)
    (chosen : choose state (costs a live state) (draws (time + arcs.length)) = .ok i)
    (found : (liveArcs a live state)[i]? = some arc) :
    Visits choose a live draws time (arcs ++ [arc]) arc.target

namespace Visits

variable {arcs : List Automaton.Arc} {state : Nat}

/-- The arcs of a walk are those of a run. -/
theorem exists_follows (h : Visits choose a live draws time arcs state) :
    ∃ run, a.Follows a.start run arcs state := by
  induction h with
  | start => exact ⟨[], .nil _⟩
  | step _ _ found ih =>
    obtain ⟨run, hrun⟩ := ih
    have harc := (mem_liveArcs.1 (List.mem_of_getElem? found)).1
    obtain ⟨j, hj⟩ := List.mem_iff_getElem?.1 harc
    exact ⟨run ++ [j], hrun.concat hj⟩

/-- A walk comes to live states only. -/
theorem isLive (h : Visits choose a live draws time arcs state) : live state = true := by
  cases h with
  | start alive => exact alive
  | step _ _ found => exact (mem_liveArcs.1 (List.mem_of_getElem? found)).2

/-- From every state of a walk a run can stop. -/
theorem canStop (ha : a.WellFormed)
    (h : Visits choose a a.coaccessible.contains draws time arcs state) : a.CanStop state :=
  (Automaton.contains_coaccessible_iff ha).1 h.isLive

/-- So there is something to choose from. -/
theorem costs_ne_nil (ha : a.WellFormed)
    (h : Visits choose a a.coaccessible.contains draws time arcs state) :
    costs a a.coaccessible.contains state ≠ [] := by
  rw [Ne, costs_eq_nil_iff]
  rintro ⟨hlive, hfinal⟩
  -- Where no run may stop at once, an arc leads on, and the walk may take it.
  rcases (h.canStop ha).isFinal_or_exists with hstop | ⟨arc, harc, hstop⟩
  · rw [hstop] at hfinal
    cases hfinal
  · have hmem : arc ∈ liveArcs a a.coaccessible.contains state :=
      mem_liveArcs.2 ⟨harc, (Automaton.contains_coaccessible_iff ha).2 hstop⟩
    rw [hlive] at hmem
    cases hmem

end Visits

/-! ### How a walk ends -/

/-- How a walk ends, with what comes out of it. -/
inductive Ends (choose : Chooser) (a : Automaton) (live : Nat → Bool) (draws : Draws)
    (time : Nat) : Except Error (List Symbol × Nat) → Prop
  /-- The position behind the arcs is chosen. -/
  | stopped {arcs : List Automaton.Arc} {state i : Nat}
    (visited : Visits choose a live draws time arcs state)
    (chosen : choose state (costs a live state) (draws (time + arcs.length)) = .ok i)
    (behind : (liveArcs a live state)[i]? = none) :
    Ends choose a live draws time (.ok ((Utterance.ofArcs arcs).output, time + arcs.length + 1))
  /-- The choice fails. -/
  | failed {arcs : List Automaton.Arc} {state : Nat} {e : Error}
    (visited : Visits choose a live draws time arcs state)
    (refused : choose state (costs a live state) (draws (time + arcs.length)) = .error e) :
    Ends choose a live draws time (.error e)
  /-- As many arcs have been taken as a sample may take, and the walk has not stopped. -/
  | tooLong {arcs : List Automaton.Arc} {state : Nat}
    (visited : Visits choose a live draws time arcs state) (length : arcs.length = maxRunLength) :
    Ends choose a live draws time (.error (.exhausted .tooLong))

/-- The symbols that were put out before an arc and by it. -/
theorem reverse_output_concat {arcs : List Automaton.Arc} {arc : Automaton.Arc} :
    (Utterance.ofArcs (arcs ++ [arc])).output.reverse =
      arc.output.toList ++ (Utterance.ofArcs arcs).output.reverse := by
  rw [Utterance.ofArcs_append, Utterance.output_append, List.reverse_append]
  congr 1
  cases h : arc.output <;> simp [Utterance.ofArcs, h]

/-- A walk that may take the remaining choices ends. -/
theorem ends_walk {budget state : Nat} {arcs : List Automaton.Arc}
    (hvisit : Visits choose a live draws time arcs state)
    (hlength : arcs.length + budget = maxRunLength) :
    Ends choose a live draws time (walk choose a live draws budget state (time + arcs.length)
      (Utterance.ofArcs arcs).output.reverse) := by
  -- The choices that remain and the arcs that are taken make up the limit throughout.
  induction budget generalizing state arcs with
  | zero => exact .tooLong hvisit hlength
  | succ budget ih =>
    rw [walk]
    cases hchoice : choose state (costs a live state) (draws (time + arcs.length)) with
    | error e => exact .failed hvisit hchoice
    | ok i =>
      simp only [bind, Except.bind]
      cases hfound : (liveArcs a live state)[i]? with
      | none =>
        dsimp only
        rw [List.reverse_reverse]
        exact .stopped hvisit hchoice hfound
      | some arc =>
        have hrest := ih (.step hvisit hchoice hfound)
          (by rw [List.length_append, List.length_singleton]; omega)
        rw [reverse_output_concat, List.length_append, List.length_singleton,
          ← Nat.add_assoc] at hrest
        exact hrest

/-- The walk of a sample begins in a live start state and comes to an end. -/
theorem ends_run (hlive : live a.start = true) :
    Ends choose a live draws time (run choose a live draws time) := by
  rw [run, if_pos hlive]
  exact ends_walk (.start hlive) (Nat.zero_add maxRunLength)

/-- What comes out of a sample is what its walk ends with, unless no run can stop. -/
theorem ends_of_run {result : Except Error (List Symbol × Nat)}
    (h : run choose a live draws time = result) :
    result = .error (.exhausted .acceptsNothing) ∨ Ends choose a live draws time result := by
  subst h
  cases hlive : live a.start with
  | false => exact .inl (by rw [run, hlive]; rfl)
  | true => exact .inr (ends_run hlive)

/-- A walk that stops does so at the end of an accepted run. -/
theorem Ends.exists_accepts (hchoose : IsProper choose) {symbols : List Symbol} {time' : Nat}
    (h : Ends choose a live draws time (.ok (symbols, time'))) :
    ∃ run arcs, a.Accepts run arcs ∧ symbols = (Utterance.ofArcs arcs).output := by
  cases h with
  | @stopped arcs state _ visited chosen behind =>
    obtain ⟨run, hrun⟩ := visited.exists_follows
    -- The position is one of those of the costs, so it is that of stopping here.
    have hfinal := isFinal_of_chosen (hchoose.lt_length _ _ _ _ chosen) behind
    exact ⟨run, arcs, ⟨state, hrun, hfinal⟩, rfl⟩

/-- No walk comes to an end because there is nothing to choose from. -/
theorem Ends.ne_noWeights (ha : a.WellFormed) (hchoose : IsProper choose) {e : Error}
    (h : Ends choose a a.coaccessible.contains draws time (.error e)) (state : Nat) :
    e ≠ .exhausted (.noChoice state .noWeights) := by
  rintro rfl
  cases h with
  | failed visited refused =>
    exact visited.costs_ne_nil ha (hchoose.eq_nil _ _ _ _ refused)

/-- What is put out by a sample is the output of an accepted run. No walk is left without a
choice: in every state that it comes to it may stop, or go on to a state from which a run can
stop. Where a run can stop at all, a sample is what its walk ends with. -/
theorem run_spec (ha : a.WellFormed) (hchoose : IsProper choose) (draws : Draws) (time : Nat) :
    (∀ symbols time', run choose a a.coaccessible.contains draws time = .ok (symbols, time') →
      ∃ run arcs, a.Accepts run arcs ∧ symbols = (Utterance.ofArcs arcs).output) ∧
    (∀ state, run choose a a.coaccessible.contains draws time ≠
      .error (.exhausted (.noChoice state .noWeights))) ∧
    (∀ arcs state, Visits choose a a.coaccessible.contains draws time arcs state →
      a.isFinal state = true ∨ ∃ arc ∈ a.arcs state, a.CanStop arc.target) ∧
    (a.CanStop a.start → Ends choose a a.coaccessible.contains draws time
      (run choose a a.coaccessible.contains draws time)) := by
  refine ⟨fun symbols time' hrun => ?_, fun state hrun => ?_,
    fun arcs state h => (h.canStop ha).isFinal_or_exists,
    fun hstart => ends_run ((Automaton.contains_coaccessible_iff ha).2 hstart)⟩
  · rcases ends_of_run hrun with hnothing | hends
    · cases hnothing
    · exact hends.exists_accepts hchoose
  · rcases ends_of_run hrun with hnothing | hends
    · cases hnothing
    · exact hends.ne_noWeights ha hchoose state rfl

/-- The choice of a position by the remainder of the random word. -/
def byRemainder : Chooser := fun state costs word =>
  if costs.isEmpty then .error (.exhausted (.noChoice state .noWeights))
  else .ok (word.toNat % costs.length)

theorem isProper_byRemainder : IsProper byRemainder where
  lt_length state costs word i h := by
    unfold byRemainder at h
    split at h
    · cases h
    · next hne =>
      cases h
      exact Nat.mod_lt _ (List.length_pos_iff.2 fun hnil => hne (by rw [hnil]; rfl))
  eq_nil state costs word state' h := by
    unfold byRemainder at h
    split at h
    · next hempty => exact List.isEmpty_iff.1 hempty
    · cases h

/-- A state with a loop in which runs may stop, and a way out of it that leads nowhere. -/
def looping : Automaton where
  states := #[⟨[⟨some "a", some (.word "a"), 0, 0⟩, ⟨some "b", some (.word "b"), 0, 1⟩], some 0⟩,
    ⟨[], none⟩]
  start := 0

/-- The way out is never taken. By weight the same holds for all random words. -/
theorem run_spec_looping : looping.WellFormed ∧ IsProper byRemainder ∧ IsProper byWeight ∧
    run byRemainder looping looping.coaccessible.contains (Draws.cycle #[0, 2, 1]) 0 =
      .ok ([.word "a", .word "a"], 3) ∧
    (∃ run arcs, looping.Accepts run arcs ∧
      [.word "a", .word "a"] = (Utterance.ofArcs arcs).output) ∧
    ∀ draws time state, run byWeight looping looping.coaccessible.contains draws time ≠
      .error (.exhausted (.noChoice state .noWeights)) := by
  have hwell : looping.WellFormed := by decide
  have hrun : run byRemainder looping looping.coaccessible.contains (Draws.cycle #[0, 2, 1]) 0 =
      .ok ([.word "a", .word "a"], 3) := by decide +kernel
  exact ⟨hwell, isProper_byRemainder, isProper_byWeight, hrun,
    (run_spec hwell isProper_byRemainder _ 0).1 _ _ hrun,
    fun draws time => (run_spec hwell isProper_byWeight draws time).2.1⟩

end Sample

/-! ### Generated examples -/

namespace Example

variable {a : Automaton} {e : Example}

theorem ofSymbols_eq_ok_iff {symbols : List Symbol} :
    ofSymbols symbols = .ok e ↔
      e.symbols = symbols ∧ Intent.ofSymbols symbols = .ok e.intent := by
  rw [ofSymbols, bind_eq_ok_iff]
  constructor
  · rintro ⟨intent, hintent, h⟩
    cases h
    exact ⟨rfl, hintent⟩
  · rintro ⟨rfl, hintent⟩
    exact ⟨e.intent, hintent, rfl⟩

/-- The example is that of an accepted run. -/
def IsOfRun (a : Automaton) (e : Example) : Prop :=
  ∃ run arcs, a.Accepts run arcs ∧ ofSymbols (Utterance.ofArcs arcs).output = .ok e

/-- Samples add examples of accepted runs. -/
theorem isOfRun_of_collect {choose : Sample.Chooser} (hchoose : Sample.IsProper choose)
    {live : Nat → Bool} {draws : Draws} {count time : Nat} {found result : Array Example}
    (hfound : ∀ e ∈ found.toList, IsOfRun a e)
    (h : Sample.collect choose a live draws count time found = .ok result) :
    ∀ e ∈ result.toList, IsOfRun a e := by
  induction count generalizing time found with
  | zero =>
    cases h
    exact hfound
  | succ count ih =>
    -- One more sample, its example, and the samples behind it.
    obtain ⟨⟨symbols, time'⟩, hrun, h⟩ := bind_eq_ok_iff.1 h
    obtain ⟨e, he, hrest⟩ := bind_eq_ok_iff.1 h
    rcases Sample.ends_of_run hrun with hnothing | hends
    · cases hnothing
    obtain ⟨run, arcs, haccepts, rfl⟩ := hends.exists_accepts hchoose
    refine ih (fun e' he' => ?_) hrest
    rw [Array.toList_push] at he'
    rcases List.mem_append.1 he' with hold | hnew
    · exact hfound e' hold
    · obtain rfl := List.mem_singleton.1 hnew
      exact ⟨run, arcs, haccepts, he⟩

/-- The example is one of those that are listed under some limit, or one of those that are sampled
with some random words. -/
inductive IsGenerated (a : Automaton) (e : Example) : Prop
  /-- It is listed. -/
  | enumerated {limit : Nat} {examples : List Example}
    (listed : enumerate a limit = .ok examples) (mem : e ∈ examples)
  /-- It is sampled. -/
  | sampled {count : Nat} {draws : Draws} {examples : List Example}
    (drawn : sample a count draws = .ok examples) (mem : e ∈ examples)

/-- Every generated example is that of an accepted run. -/
theorem IsGenerated.isOfRun (ha : a.WellFormed) (h : IsGenerated a e) : IsOfRun a e := by
  cases h with
  | enumerated listed mem =>
    have hshows := forall₂_of_enumerate ha listed
    obtain ⟨i, hi, rfl⟩ := List.mem_iff_getElem.1 mem
    have hi' := hshows.length_eq ▸ hi
    obtain ⟨hsymbols, hintent⟩ := hshows.get hi' hi
    obtain ⟨_, haccepts⟩ := Automaton.mem_runsFrom.1 (List.getElem_mem hi')
    rw [List.reverse_nil, List.nil_append] at hsymbols
    exact ⟨_, _, haccepts, ofSymbols_eq_ok_iff.2 ⟨hsymbols, hsymbols ▸ hintent⟩⟩
  | sampled drawn mem =>
    obtain ⟨result, hcollect, h⟩ := bind_eq_ok_iff.1 drawn
    cases h
    exact isOfRun_of_collect Sample.isProper_byWeight
      (fun _ h => absurd h List.not_mem_nil) hcollect _ mem

end Example

end Phrasebook
