import Phrasebook.Proofs.Example.Enumerate
import Phrasebook.Proofs.Symbol

/-!
# Enumeration as a search with a stack

The runs are walked without a bound on their length when the way from the start state to the
last state is kept on a stack, together with the arc that each state on the way tries next. From
a state that reaches no cycle this search ends, and it ends as the bounded walk does: the bound
is never what stops a walk.

* `Example.Search.turn`: what the search does next.
* `Example.Search.Ends`: what it comes to when it ends.
* `Example.Search.ends_iff`: it ends as the walk does.
* `Example.Enumerated`: the examples of the accepted runs, each once and in their order.
* `Example.enumerate_spec`: what enumeration gives, and when it is refused.
-/

namespace Phrasebook

namespace Example

variable {a : Automaton} {limit : Nat}

/-- A state on the way of a search. -/
structure Frame where
  /-- The state. -/
  state : Nat
  /-- The position of the arc that is tried next. -/
  next : Nat
  /-- What was put out on the way in. -/
  symbol : Option Symbol

/-- How far a search has come. -/
structure Search where
  /-- The way to the last state, which comes first. -/
  frames : List Frame
  /-- The examples found so far. -/
  examples : Array Example

namespace Search

/-- What has been put out on the way, last first. -/
def output (frames : List Frame) : List Symbol := frames.filterMap Frame.symbol

theorem output_cons {frame : Frame} {frames : List Frame} :
    output (frame :: frames) = frame.symbol.toList ++ output frames := by
  rw [output, List.filterMap_cons]
  cases frame.symbol <;> rfl

/-- The search for the runs that go on from a state. -/
def start (state : Nat) (examples : Array Example) : Search := ⟨[⟨state, 0, none⟩], examples⟩

/-- Adds the example of the run that stops in a state which the search comes to. -/
def arrive (a : Automaton) (limit : Nat) (output : List Symbol) (state : Nat)
    (examples : Array Example) : Except Error (Array Example) :=
  if a.isFinal state then found limit output.reverse examples else .ok examples

/-- What a search does in its last state: it goes back when there is no arc to try, and otherwise
along the next arc if a run can stop from there on. -/
def turn (a : Automaton) (limit : Nat) (last : Frame) (frames : List Frame)
    (examples : Array Example) : Except Error Search :=
  match (a.arcs last.state)[last.next]? with
  | none => .ok ⟨frames, examples⟩
  | some arc =>
    let back := { last with next := last.next + 1 } :: frames
    if a.coaccessible.contains arc.target then
      let way := ⟨arc.target, 0, arc.output⟩ :: back
      (⟨way, ·⟩) <$> arrive a limit (output way) arc.target examples
    else .ok ⟨back, examples⟩

/-- A search ends with examples or with an error. -/
inductive Ends (a : Automaton) (limit : Nat) : Search → Except Error (Array Example) → Prop
  /-- There is no state to go on from. -/
  | done (examples : Array Example) : Ends a limit ⟨[], examples⟩ (.ok examples)
  /-- An example cannot be added. -/
  | fail {last : Frame} {frames : List Frame} {examples : Array Example} {e : Error}
    (now : turn a limit last frames examples = .error e) :
    Ends a limit ⟨last :: frames, examples⟩ (.error e)
  /-- The search goes on. -/
  | step {last : Frame} {frames : List Frame} {examples : Array Example} {s : Search}
    {result : Except Error (Array Example)} (now : turn a limit last frames examples = .ok s)
    (rest : Ends a limit s result) : Ends a limit ⟨last :: frames, examples⟩ result

/-- A search ends in one way only. -/
theorem Ends.unique {s : Search} {result result' : Except Error (Array Example)}
    (h : Ends a limit s result) (h' : Ends a limit s result') : result = result' := by
  -- A turn has one outcome, so both searches go the same way.
  induction h with
  | done =>
    cases h'
    rfl
  | fail now =>
    cases h' with
    | fail now' => cases now.symm.trans now'; rfl
    | step now' _ => cases now.symm.trans now'
  | step now _ ih =>
    cases h' with
    | fail now' => cases now.symm.trans now'
    | step now' rest => cases now.symm.trans now'; exact ih rest

/-! ### What a turn does -/

variable {last : Frame} {frames : List Frame} {examples : Array Example} {arc : Automaton.Arc}

theorem turn_of_none (h : (a.arcs last.state)[last.next]? = none) :
    turn a limit last frames examples = .ok ⟨frames, examples⟩ := by
  rw [turn, h]

theorem turn_of_dead (h : (a.arcs last.state)[last.next]? = some arc)
    (hdead : a.coaccessible.contains arc.target = false) :
    turn a limit last frames examples =
      .ok ⟨{ last with next := last.next + 1 } :: frames, examples⟩ := by
  rw [turn, h]
  exact if_neg (by rw [hdead]; exact Bool.false_ne_true)

theorem turn_of_live (h : (a.arcs last.state)[last.next]? = some arc)
    (hlive : a.coaccessible.contains arc.target = true) :
    turn a limit last frames examples =
      (⟨⟨arc.target, 0, arc.output⟩ :: { last with next := last.next + 1 } :: frames, ·⟩) <$>
        arrive a limit (arc.output.toList ++ (last.symbol.toList ++ output frames)) arc.target
          examples := by
  rw [turn, h]
  dsimp only
  rw [if_pos hlive, output_cons, output_cons]

/-- When a turn fails, an example could not be added. -/
theorem exists_found_of_turn {e : Error} (h : turn a limit last frames examples = .error e) :
    ∃ symbols, found limit symbols examples = .error e := by
  cases harc : (a.arcs last.state)[last.next]? with
  | none =>
    rw [turn_of_none harc] at h
    cases h
  | some arc =>
    cases hlive : a.coaccessible.contains arc.target with
    | false =>
      rw [turn_of_dead harc hlive] at h
      cases h
    | true =>
      rw [turn_of_live harc hlive, arrive] at h
      split at h
      · generalize hfound : found limit _ examples = x at h
        cases x with
        | error e' =>
          cases h
          exact ⟨_, hfound⟩
        | ok => cases h
      · cases h

/-- When a search fails, an example could not be added. -/
theorem Ends.exists_found {s : Search} {result : Except Error (Array Example)}
    (h : Ends a limit s result) {e : Error} (hresult : result = .error e) :
    ∃ symbols examples, found limit symbols examples = .error e := by
  induction h with
  | done => cases hresult
  | step _ _ ih => exact ih hresult
  | @fail _ _ examples _ now =>
    cases hresult
    obtain ⟨symbols, h⟩ := exists_found_of_turn now
    exact ⟨symbols, examples, h⟩

/-! ### The search and the walk -/

/-- What a walk does about one arc. -/
def branch (a : Automaton) (limit depth : Nat) (output : List Symbol) (examples : Array Example)
    (arc : Automaton.Arc) : Except Error (Array Example) :=
  if a.coaccessible.contains arc.target then
    arrive a limit (arc.output.toList ++ output) arc.target examples >>=
      walk a a.coaccessible.contains limit depth arc.target (arc.output.toList ++ output)
  else .ok examples

theorem walk_succ {depth state : Nat} {output : List Symbol} :
    walk a a.coaccessible.contains limit (depth + 1) state output examples =
      (a.arcs state).foldlM (branch a limit depth output) examples := by
  rw [walk]
  congr 1
  funext examples arc
  rw [branch, arrive]
  split
  · dsimp only
    split <;> rfl
  · rfl

/-- A search goes on in the frames that are left when what came before gave examples. -/
def Continues (a : Automaton) (limit : Nat) (frames : List Frame)
    (result : Except Error (Array Example)) : Except Error (Array Example) → Prop
  | .ok examples => Ends a limit ⟨frames, examples⟩ result
  | .error e => result = .error e

theorem Continues.of_bind {frames' : List Frame} {x : Except Error (Array Example)}
    {f : Array Example → Except Error (Array Example)} {result : Except Error (Array Example)}
    (h : Continues a limit frames result (x >>= f))
    (hf : ∀ examples, Continues a limit frames result (f examples) →
      Ends a limit ⟨frames', examples⟩ result) :
    Continues a limit frames' result x := by
  cases x with
  | error e => exact h
  | ok examples => exact hf examples h

/-- In a state, a search does what a walk does about the arcs that are left there. -/
theorem ends_of_foldlM {depth state i : Nat} {symbol : Option Symbol}
    {arcs : List Automaton.Arc} {result : Except Error (Array Example)}
    (harcs : (a.arcs state).drop i = arcs)
    (hwalk : ∀ arc ∈ arcs, ∀ symbol frames examples,
      Continues a limit frames result (walk a a.coaccessible.contains limit depth arc.target
        (symbol.toList ++ output frames) examples) →
      Ends a limit ⟨⟨arc.target, 0, symbol⟩ :: frames, examples⟩ result)
    (h : Continues a limit frames result
      (arcs.foldlM (branch a limit depth (symbol.toList ++ output frames)) examples)) :
    Ends a limit ⟨⟨state, i, symbol⟩ :: frames, examples⟩ result := by
  induction arcs generalizing i examples with
  | nil => exact .step (turn_of_none (List.getElem?_eq_none (List.drop_eq_nil_iff.1 harcs))) h
  | cons arc arcs ih =>
    have harc : (a.arcs state)[i]? = some arc := by
      rw [← Nat.add_zero i, ← List.getElem?_drop, harcs]
      rfl
    have hrest : (a.arcs state).drop (i + 1) = arcs := by
      rw [← List.drop_drop, harcs, List.drop_one, List.tail_cons]
    -- Once the arc is done with, the search is back in the state and tries the next one.
    have hback : ∀ examples, Continues a limit frames result
        (arcs.foldlM (branch a limit depth (symbol.toList ++ output frames)) examples) →
        Ends a limit ⟨⟨state, i + 1, symbol⟩ :: frames, examples⟩ result := fun _ =>
      ih hrest fun arc harc => hwalk arc (List.mem_cons_of_mem _ harc)
    rw [List.foldlM_cons, branch] at h
    cases hlive : a.coaccessible.contains arc.target with
    | false =>
      rw [hlive] at h
      exact .step (turn_of_dead harc hlive) (hback _ h)
    | true =>
      have hturn : turn a limit ⟨state, i, symbol⟩ frames examples = _ := turn_of_live harc hlive
      rw [hlive, if_pos rfl] at h
      cases harrive : arrive a limit (arc.output.toList ++ (symbol.toList ++ output frames))
        arc.target examples with
      | error e =>
        rw [harrive] at h hturn
        obtain rfl : result = .error e := h
        exact .fail hturn
      | ok found =>
        rw [harrive] at h hturn
        -- The target is searched first, and what is put out there follows what is put out here.
        refine .step hturn (hwalk arc List.mem_cons_self _ _ _ (Continues.of_bind ?_ hback))
        rw [output_cons]
        exact h

/-- From a state, a search does what a walk does that no run is too long for. -/
theorem ends_of_walk {depth state : Nat} {symbol : Option Symbol}
    {result : Except Error (Array Example)}
    (hdepth : ∀ run arcs stop, a.Follows state run arcs stop → run.length ≤ depth)
    (h : Continues a limit frames result (walk a a.coaccessible.contains limit depth state
      (symbol.toList ++ output frames) examples)) :
    Ends a limit ⟨⟨state, 0, symbol⟩ :: frames, examples⟩ result := by
  induction depth generalizing state symbol frames examples with
  | zero =>
    -- An arc would make a run that is too long.
    have hnone : (a.arcs state)[0]? = none := by
      cases harc : (a.arcs state)[0]? with
      | none => rfl
      | some arc => exact absurd (hdepth [0] [arc] arc.target (.cons harc (.nil _))) (by simp)
    exact .step (turn_of_none hnone) h
  | succ depth ih =>
    rw [walk_succ] at h
    have hdepth' : ∀ arc ∈ a.arcs state, ∀ run arcs stop, a.Follows arc.target run arcs stop →
        run.length ≤ depth := by
      intro arc harc run arcs stop hrun
      obtain ⟨i, hi⟩ := List.mem_iff_getElem?.1 harc
      exact Nat.le_of_succ_le_succ (hdepth _ _ _ (.cons hi hrun))
    exact ends_of_foldlM List.drop_zero (fun arc harc _ _ _ => ih (hdepth' arc harc))
      (walk_succ ▸ h)

/-- Where no cycle can be reached, the search ends, and it ends as the walk does. -/
theorem ends_iff (ha : a.WellFormed) (hacyclic : Graph.AcyclicFrom a.targets a.start)
    {result : Except Error (Array Example)} :
    Ends a limit (start a.start examples) result ↔
      walk a a.coaccessible.contains limit a.size a.start [] examples = result := by
  have hdepth : ∀ run arcs stop, a.Follows a.start run arcs stop → run.length ≤ a.size :=
    fun _ _ _ hrun => Nat.le_of_lt (hrun.length_lt_size ha ha.start_lt hacyclic)
  have hends : Ends a limit (start a.start examples)
      (walk a a.coaccessible.contains limit a.size a.start [] examples) := by
    refine ends_of_walk hdepth ?_
    change Continues a limit [] _ (walk a a.coaccessible.contains limit a.size a.start [] examples)
    cases walk a a.coaccessible.contains limit a.size a.start [] examples with
    | error e => rfl
    | ok examples => exact .done examples
  exact ⟨hends.unique, fun h => h ▸ hends⟩

end Search

/-! ### What enumeration gives -/

/-- Why an example could not be added: there are as many as there may be, or the symbols are not
nested properly. -/
theorem eq_of_found {symbols : List Symbol} {examples : Array Example} {e : Error}
    (h : found limit symbols examples = .error e) :
    e = .exhausted (.tooMany limit) ∨ ∃ fault, e = .malformedPath fault := by
  rw [found] at h
  split at h
  · cases h
    exact .inl rfl
  · rw [ofSymbols, Intent.ofSymbols] at h
    cases hdecode : Decoder.decode symbols with
    | error fault =>
      rw [hdecode] at h
      cases h
      exact .inr ⟨fault, rfl⟩
    | ok intent =>
      rw [hdecode] at h
      cases h

/-- That an example could not be added is not said as is said of a cycle. -/
theorem message_ne_of_found {symbols : List Symbol} {examples : Array Example} {e : Error}
    (h : found limit symbols examples = .error e) :
    e.message ≠ "path enumeration exhausted: cannot enumerate a cyclic automaton" := by
  rcases eq_of_found h with rfl | ⟨fault, rfl⟩
  · -- The texts differ only behind their common beginning.
    change "path enumeration exhausted: " ++ ("more than " ++ Nat.repr limit ++ " paths") ≠
      "path enumeration exhausted: " ++ "cannot enumerate a cyclic automaton"
    rw [Ne, String.append_right_inj, String.append_assoc]
    exact Symbol.append_ne (by decide +kernel)
  · exact Symbol.append_ne (by decide +kernel)

/-- Where no cycle is found, enumeration is the walk from the start state, unless no run can stop
at all. -/
theorem enumerate_of_isAcyclic (h : a.isAcyclic = true) :
    enumerate a limit = .ok [] ∨ ∃ first, enumerate a limit =
      Array.toList <$> walk a a.coaccessible.contains limit a.size a.start [] first := by
  rw [enumerate, h]
  dsimp only
  cases hlive : a.coaccessible.contains a.start with
  | false => exact .inl rfl
  | true =>
    refine .inr ?_
    cases hfinal : a.isFinal a.start with
    | false => exact ⟨#[], rfl⟩
    | true => exact ⟨#[_], rfl⟩

/-- Examples of the accepted runs of an automaton, each once and in their order. -/
structure Enumerated (a : Automaton) (runs : List (List Nat × List Automaton.Arc))
    (examples : List Example) : Prop where
  /-- The runs are the accepted ones. -/
  mem_iff : ∀ run arcs, (run, arcs) ∈ runs ↔ a.Accepts run arcs
  /-- A run comes before those that extend it, and otherwise the first arcs in which two runs
  differ decide. -/
  increasing : (runs.map Prod.fst).Pairwise (· < ·)
  /-- Each run has an example: what it puts out, with what this decodes to. -/
  shows : List.Forall₂ (fun run e => e.symbols = (Utterance.ofArcs run.2).output ∧
    Intent.ofSymbols e.symbols = .ok e.intent) runs examples

/-- Enumeration succeeds in an automaton without reachable cycles only, with the examples of its
accepted runs. -/
theorem enumerated_of_enumerate (ha : a.WellFormed) {examples : List Example}
    (h : enumerate a limit = .ok examples) :
    Graph.AcyclicFrom a.targets a.start ∧ ∃ runs, Enumerated a runs examples := by
  have hacyclic : Graph.AcyclicFrom a.targets a.start := by
    refine (Automaton.isAcyclic_iff ha).1 (Decidable.byContradiction fun hnot => ?_)
    rw [enumerate, Bool.eq_false_iff.2 hnot] at h
    cases h
  -- No run is longer than what is listed, as it would come to a state twice.
  refine ⟨hacyclic, a.runsFrom a.size a.start, fun run arcs => ?_, Automaton.pairwise_runsFrom,
    (forall₂_of_enumerate ha h).imp fun _ _ h => ⟨h.symbols_eq, h.ofSymbols_eq⟩⟩
  rw [Automaton.mem_runsFrom]
  refine and_iff_right_of_imp ?_
  rintro ⟨stop, hrun, _⟩
  exact Nat.le_of_lt (hrun.length_lt_size ha ha.start_lt hacyclic)

/-- Where no cycle can be reached, enumeration does not say that one can. -/
theorem message_ne_of_enumerate (ha : a.WellFormed)
    (hacyclic : Graph.AcyclicFrom a.targets a.start) {e : Error}
    (h : enumerate a limit = .error e) :
    e.message ≠ "path enumeration exhausted: cannot enumerate a cyclic automaton" := by
  rcases enumerate_of_isAcyclic ((Automaton.isAcyclic_iff ha).2 hacyclic) with
    hok | ⟨first, hwalk⟩
  · rw [h] at hok
    cases hok
  · rw [h] at hwalk
    cases hresult : walk a a.coaccessible.contains limit a.size a.start [] first with
    | ok =>
      rw [hresult] at hwalk
      cases hwalk
    | error e' =>
      rw [hresult] at hwalk
      cases hwalk
      -- The walk fails as the search does, and that fails only where an example is added.
      obtain ⟨_, _, hfound⟩ := ((Search.ends_iff ha hacyclic).2 hresult).exists_found rfl
      exact message_ne_of_found hfound

/-- Enumeration gives the examples of all accepted runs, in their order. It is refused as that of
a cyclic automaton when a cycle can be reached from the start state, and only then. In every other
automaton the search from the start state ends, with what enumeration takes from it. -/
theorem enumerate_spec (ha : a.WellFormed) (limit : Nat) :
    (∀ examples, enumerate a limit = .ok examples →
      Graph.AcyclicFrom a.targets a.start ∧ ∃ runs, Enumerated a runs examples) ∧
    ((∃ e, enumerate a limit = .error e ∧
        e.message = "path enumeration exhausted: cannot enumerate a cyclic automaton") ↔
      ∃ state, Graph.Reaches a.targets a.start state ∧ Graph.OnCycle a.targets state) ∧
    (Graph.AcyclicFrom a.targets a.start → ∀ examples result,
      Search.Ends a limit (.start a.start examples) result ↔
        walk a a.coaccessible.contains limit a.size a.start [] examples = result) := by
  refine ⟨fun _ => enumerated_of_enumerate ha, ⟨?_, ?_⟩, fun h _ _ => Search.ends_iff ha h⟩
  · rintro ⟨e, he, hmessage⟩
    refine Classical.byContradiction fun hnot => ?_
    have hacyclic : Graph.AcyclicFrom a.targets a.start := fun state path cycle =>
      hnot ⟨state, path, cycle⟩
    exact message_ne_of_enumerate ha hacyclic he hmessage
  · rintro ⟨state, path, cycle⟩
    have hcyclic : a.isAcyclic = false := Bool.eq_false_iff.2 fun h =>
      (Automaton.isAcyclic_iff ha).1 h state path cycle
    refine ⟨.exhausted .cyclic, ?_, rfl⟩
    rw [enumerate, hcyclic]
    rfl

/-- Two ways into a state at which a run may stop, and from which one may go on. -/
def crossing : Automaton where
  states := #[⟨[⟨some "a", some (.word "a"), 0, 1⟩, ⟨some "b", some (.word "b"), 0, 1⟩], none⟩,
    ⟨[⟨some "c", some (.word "c"), 0, 2⟩], some 0⟩, ⟨[], some 0⟩]
  start := 0

theorem enumerate_spec_crossing : crossing.WellFormed ∧ ∃ examples runs,
    enumerate crossing 4 = .ok examples ∧ Enumerated crossing runs examples ∧
      examples.map rawSymbols = ["a", "a c", "b", "b c"] := by
  have hwell : crossing.WellFormed := by
    have htarget : ∀ state < crossing.size, ∀ arc ∈ crossing.arcs state,
        arc.target < crossing.size := by decide
    exact ⟨by decide, fun state arc harc =>
      htarget state (Automaton.lt_size_of_mem_arcs harc) arc harc⟩
  have htexts : (enumerate crossing 4).toOption.map (List.map rawSymbols) =
      some ["a", "a c", "b", "b c"] := by decide +kernel
  cases hexamples : enumerate crossing 4 with
  | error e =>
    rw [hexamples] at htexts
    cases htexts
  | ok examples =>
    obtain ⟨_, runs, hruns⟩ := (enumerate_spec hwell 4).1 examples hexamples
    rw [hexamples] at htexts
    exact ⟨hwell, examples, runs, rfl, hruns, Option.some.inj htexts⟩

end Example

end Phrasebook
