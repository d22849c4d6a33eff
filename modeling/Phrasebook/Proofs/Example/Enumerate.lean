import Mathlib.Data.List.Forall2
import Phrasebook.Example.Enumerate
import Phrasebook.Proofs.Automaton.Reach
import Phrasebook.Proofs.Automaton.Yield
import Phrasebook.Proofs.Outcome

/-!
# The examples are those of the listed runs

Enumeration walks the runs in their order and leaves out the states from which no run can stop.
Nothing is lost by that, so when it succeeds its examples are those of the listed runs, one after
another.

* `Example.tails`: the runs with at least one arc, in their order.
* `Example.adds_walk`: what a walk adds to the examples.
* `Example.forall₂_of_enumerate`: the examples of an automaton.
-/

namespace Phrasebook

namespace Example

variable {a : Automaton}

/-- The arcs of the runs from a state that take at least one arc and at most `length`. -/
def tails (a : Automaton) : (length state : Nat) → List (List Automaton.Arc)
  | 0, _ => []
  | length + 1, state => (a.arcs state).flatMap fun arc =>
      (if a.isFinal arc.target then [[arc]] else []) ++
        (tails a length arc.target).map (arc :: ·)

/-- The listed runs are the one that stops at once and those with at least one arc. -/
theorem map_snd_runsFrom (length state : Nat) :
    (a.runsFrom length state).map Prod.snd =
      (if a.isFinal state then [[]] else []) ++ tails a length state := by
  induction length generalizing state with
  | zero =>
    rw [Automaton.runsFrom, tails, List.append_nil]
    split <;> rfl
  | succ length ih =>
    have hstop : (if a.isFinal state then [([], [])] else []).map
        (Prod.snd : List Nat × List Automaton.Arc → _) = if a.isFinal state then [[]] else [] := by
      split <;> rfl
    -- The positions of arcs do not matter for the arcs.
    have harcs : a.arcs state = (a.arcs state).zipIdx.map Prod.fst := by
      rw [List.zipIdx_map_fst]
    rw [Automaton.runsFrom, List.map_append, hstop, tails, harcs, List.flatMap_map,
      ← harcs, List.map_flatMap]
    congr 2
    funext ⟨arc, i⟩
    have hmap := congrArg (List.map (arc :: ·)) (ih arc.target)
    rw [List.map_map, List.map_append] at hmap
    rw [List.map_map]
    refine Eq.trans ?_ (hmap.trans ?_)
    · rfl
    · split <;> rfl

/-- From a state that is not coaccessible no run is listed. -/
theorem runsFrom_eq_nil (ha : a.WellFormed) {length state : Nat}
    (h : a.coaccessible.contains state = false) : a.runsFrom length state = [] := by
  refine List.eq_nil_iff_forall_not_mem.2 fun ⟨run, arcs⟩ hmem => ?_
  obtain ⟨_, stop, hrun, hfinal⟩ := Automaton.mem_runsFrom.1 hmem
  rw [(Automaton.contains_coaccessible_iff ha).2 ⟨_, hrun.reaches, hfinal⟩] at h
  cases h

/-- An example is that of a run which follows some output. -/
structure Shows (output : List Symbol) (arcs : List Automaton.Arc) (e : Example) : Prop where
  /-- The symbols are those that were put out. -/
  symbols_eq : e.symbols = output.reverse ++ (Utterance.ofArcs arcs).output
  /-- The intent is what they decode to. -/
  ofSymbols_eq : Intent.ofSymbols e.symbols = .ok e.intent

/-- The examples of some runs are added, in their order. -/
def Adds (output : List Symbol) (runs : List (List Automaton.Arc))
    (examples result : Array Example) : Prop :=
  ∃ new, result.toList = examples.toList ++ new ∧ List.Forall₂ (Shows output) runs new

theorem adds_nil {output : List Symbol} {examples : Array Example} :
    Adds output [] examples examples := ⟨[], (List.append_nil _).symm, .nil⟩

theorem Adds.trans {output : List Symbol} {runs runs' : List (List Automaton.Arc)}
    {x y z : Array Example} (h : Adds output runs x y) (h' : Adds output runs' y z) :
    Adds output (runs ++ runs') x z := by
  obtain ⟨new, hy, hnew⟩ := h
  obtain ⟨new', hz, hnew'⟩ := h'
  exact ⟨new ++ new', by rw [hz, hy, List.append_assoc], List.rel_append hnew hnew'⟩

/-- What a run puts out that begins with an arc, behind some output. -/
theorem output_cons {output : List Symbol} {arc : Automaton.Arc} {arcs : List Automaton.Arc} :
    output.reverse ++ (Utterance.ofArcs (arc :: arcs)).output =
      (arc.output.toList ++ output).reverse ++ (Utterance.ofArcs arcs).output := by
  rw [Utterance.ofArcs_cons, Utterance.output_append, Utterance.ofArc, List.reverse_append,
    List.append_assoc]
  cases arc.output <;> rfl

/-- Runs that begin with an arc follow what the arc puts out. -/
theorem Adds.cons {output : List Symbol} {arc : Automaton.Arc}
    {runs : List (List Automaton.Arc)} {x y : Array Example}
    (h : Adds (arc.output.toList ++ output) runs x y) : Adds output (runs.map (arc :: ·)) x y := by
  obtain ⟨new, hy, hnew⟩ := h
  refine ⟨new, hy, List.forall₂_map_left_iff.2 (hnew.imp fun arcs e he => ⟨?_, he.ofSymbols_eq⟩)⟩
  rw [he.symbols_eq, output_cons]

/-- The example of a run that stops. -/
theorem adds_found {limit : Nat} {output : List Symbol} {examples result : Array Example}
    (h : found limit output.reverse examples = .ok result) :
    Adds output [[]] examples result := by
  rw [found] at h
  split at h
  · cases h
  · obtain ⟨e, he, h⟩ := bind_eq_ok_iff.1 h
    cases h
    obtain ⟨intent, hintent, he⟩ := bind_eq_ok_iff.1 he
    cases he
    refine ⟨[⟨output.reverse, intent⟩], Array.toList_push, .cons ⟨?_, hintent⟩ .nil⟩
    rw [Utterance.ofArcs_nil]
    exact (List.append_nil _).symm

/-- What each arc adds is added in the order of the arcs. -/
theorem adds_foldlM {output : List Symbol} {arcs : List Automaton.Arc}
    {runs : Automaton.Arc → List (List Automaton.Arc)}
    {step : Array Example → Automaton.Arc → Except Error (Array Example)} {x y : Array Example}
    (hstep : ∀ arc ∈ arcs, ∀ x y, step x arc = .ok y → Adds output (runs arc) x y)
    (h : arcs.foldlM step x = .ok y) : Adds output (arcs.flatMap runs) x y := by
  induction arcs generalizing x with
  | nil =>
    rw [List.foldlM_nil, pure_eq_ok_iff] at h
    subst h
    exact adds_nil
  | cons arc arcs ih =>
    rw [List.foldlM_cons] at h
    obtain ⟨middle, hfirst, hrest⟩ := bind_eq_ok_iff.1 h
    exact (hstep arc List.mem_cons_self x middle hfirst).trans
      (ih (fun arc harc => hstep arc (List.mem_cons_of_mem _ harc)) hrest)

/-- A walk adds the examples of the runs that go on. -/
theorem adds_walk (ha : a.WellFormed) {limit depth state : Nat} {output : List Symbol}
    {examples result : Array Example}
    (h : walk a a.coaccessible.contains limit depth state output examples = .ok result) :
    Adds output (tails a depth state) examples result := by
  induction depth generalizing state output examples result with
  | zero =>
    cases h
    exact adds_nil
  | succ depth ih =>
    refine adds_foldlM (fun arc _ x y hstep => ?_) h
    split at hstep
    · -- The run that stops behind the arc comes before those that go on.
      have hstops : ∃ middle, Adds (arc.output.toList ++ output)
          (if a.isFinal arc.target then [[]] else []) x middle ∧
          walk a a.coaccessible.contains limit depth arc.target (arc.output.toList ++ output)
            middle = .ok y := by
        dsimp only at hstep
        split at hstep
        · next hfinal =>
          obtain ⟨middle, hmiddle, hrest⟩ := bind_eq_ok_iff.1 hstep
          rw [if_pos hfinal]
          exact ⟨middle, adds_found hmiddle, hrest⟩
        · next hfinal =>
          rw [if_neg hfinal]
          exact ⟨x, adds_nil, hstep⟩
      obtain ⟨middle, hstop, hrest⟩ := hstops
      have hboth := (hstop.trans (ih hrest)).cons
      rw [List.map_append] at hboth
      convert hboth using 2
      split <;> rfl
    · next hdead =>
      -- No run goes on from a state that is not coaccessible.
      cases hstep
      have hnil := map_snd_runsFrom (a := a) depth arc.target
      rw [runsFrom_eq_nil ha (by simpa using hdead), List.map_nil, eq_comm,
        List.append_eq_nil_iff] at hnil
      have hfinal : ¬ a.isFinal arc.target = true := fun hfinal => by
        rw [if_pos hfinal] at hnil
        cases hnil.1
      rw [if_neg hfinal, hnil.2]
      exact adds_nil

/-- When enumeration succeeds, its examples are those of the listed runs. -/
theorem forall₂_of_enumerate (ha : a.WellFormed) {limit : Nat} {examples : List Example}
    (h : enumerate a limit = .ok examples) :
    List.Forall₂ (fun run e => Shows [] run.2 e) (a.runsFrom a.size a.start) examples := by
  rw [enumerate] at h
  split at h
  · cases h
  dsimp only at h
  split at h
  · next hdead =>
    cases h
    rw [runsFrom_eq_nil ha (by simpa using hdead)]
    exact .nil
  -- The run that stops at once has an example before the walk begins.
  have hstops : ∃ first, Adds [] (if a.isFinal a.start then [[]] else []) #[] first ∧
      ∃ result, walk a a.coaccessible.contains limit a.size a.start [] first = .ok result ∧
        result.toList = examples := by
    split at h
    · next hfinal =>
      obtain ⟨e, he, h⟩ := bind_eq_ok_iff.1 h
      obtain ⟨intent, hintent, he⟩ := bind_eq_ok_iff.1 he
      cases he
      obtain ⟨first, hfirst, h⟩ := bind_eq_ok_iff.1 h
      cases hfirst
      obtain ⟨result, hresult, h⟩ := bind_eq_ok_iff.1 h
      cases h
      rw [if_pos hfinal]
      exact ⟨_, ⟨[⟨[], intent⟩], rfl, .cons ⟨rfl, hintent⟩ .nil⟩, result, hresult, rfl⟩
    · next hfinal =>
      obtain ⟨first, hfirst, h⟩ := bind_eq_ok_iff.1 h
      cases hfirst
      obtain ⟨result, hresult, h⟩ := bind_eq_ok_iff.1 h
      cases h
      rw [if_neg hfinal]
      exact ⟨_, adds_nil, result, hresult, rfl⟩
  obtain ⟨first, hstop, result, hresult, rfl⟩ := hstops
  obtain ⟨new, hnew, hshows⟩ := hstop.trans (adds_walk ha hresult)
  rw [← map_snd_runsFrom, List.forall₂_map_left_iff] at hshows
  rw [hnew]
  exact hshows

end Example

end Phrasebook
