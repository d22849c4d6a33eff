import Phrasebook.Proofs.Recognition.FirstRun
import Phrasebook.Proofs.Recognition.Matching

/-!
# The two recognizers agree on exact input

Skipping a word always costs something, so an alignment without costs matches every word: its run
is one of those that strict recognition looks for. Strict recognition finds such a run whenever
there is one, in every automaton: when the search ends without a run, then everything that comes
after what it has marked is marked as well, and no run stops there.

* `StrictRecognizer.Closed`: what comes after marked points is marked or still to be looked at.
* `StrictRecognizer.exists_findPath_iff`: something is found exactly when a run finishes.
* `FuzzyRecognizer.continues_zero_iff`: the alignments without costs.
* `FuzzyRecognizer.agrees_on_exact_input`: both recognizers find something, and the same thing
  when there is only one run.
-/

namespace Phrasebook

/-! ### The strict search -/

namespace StrictRecognizer

variable {r : StrictRecognizer} {tokens : List String} {todo rest : List Visit} {u v : Visit}
  {seen : Marks (r.automaton.size * (tokens.length + 1))}

/-- No run stops at a marked point, and what comes after it is marked or to be looked at. -/
def Closed {n : Nat} (r : StrictRecognizer) (tokens : List String) (todo : List Visit)
    (seen : Marks n) : Prop :=
  ∀ v : Visit, v.state < r.automaton.size → v.rest <:+ tokens →
    seen.contains (v.key (tokens.length + 1)) = true →
    ¬ (v.rest = [] ∧ r.automaton.isFinal v.state = true) ∧
      ∀ u ∈ r.next v, seen.contains (u.key (tokens.length + 1)) = true ∨
        ∃ w ∈ todo, w.state = u.state ∧ w.rest = u.rest

/-- What has been put out makes no difference for what comes after a point. -/
theorem exists_mem_next {w : Visit} (hstate : w.state = v.state) (hrest : w.rest = v.rest)
    (hu : u ∈ r.next w) : ∃ x ∈ r.next v, x.state = u.state ∧ x.rest = u.rest := by
  obtain ⟨arc, harc, hu⟩ := mem_next_iff.1 hu
  obtain ⟨hallowed, htarget, hwords, -⟩ := nextOf_eq_some_iff.1 hu
  exact ⟨⟨u.state, u.rest, arc.output.toList ++ v.output⟩,
    mem_next_iff.2 ⟨arc, hstate ▸ harc,
      nextOf_eq_some_iff.2 ⟨hallowed, htarget, hrest ▸ hwords, rfl⟩⟩, rfl, rfl⟩

/-- Looking at a new point keeps the search closed. -/
theorem Closed.next (h : r.Closed tokens (v :: rest) seen) (hstate : v.state < r.automaton.size)
    (hsuffix : v.rest <:+ tokens)
    (hstop : ¬ (v.rest = [] ∧ r.automaton.isFinal v.state = true)) :
    r.Closed tokens (r.next v ++ rest) (seen.mark (v.key (tokens.length + 1))) := by
  intro p hpstate hprest hmark
  rw [Marks.contains_mark, Bool.or_eq_true, decide_eq_true_eq] at hmark
  rcases hmark with ⟨hkey, _⟩ | hmark
  · -- What comes after the new point is looked at next.
    obtain ⟨hstates, hrests⟩ := key_injective hsuffix hprest hkey
    refine ⟨by rwa [← hstates, ← hrests], fun u hu => .inr ?_⟩
    obtain ⟨x, hx, hxstate, hxrest⟩ := exists_mem_next hstates.symm hrests.symm hu
    exact ⟨x, List.mem_append_left _ hx, hxstate, hxrest⟩
  · obtain ⟨hpstop, hbehind⟩ := h p hpstate hprest hmark
    refine ⟨hpstop, fun u hu => ?_⟩
    rw [Marks.contains_mark, Bool.or_eq_true, decide_eq_true_eq]
    rcases hbehind u hu with hseen | ⟨w, hw, hwstate, hwrest⟩
    · exact .inl (.inr hseen)
    · rcases List.mem_cons.1 hw with rfl | hw
      · refine .inl (.inl ⟨?_, ?_⟩)
        · rw [Visit.key, Visit.key, hwstate, hwrest]
        · rw [Visit.key, ← hwstate, ← hwrest]
          exact key_lt hstate hsuffix
      · exact .inr ⟨w, List.mem_append_right _ hw, hwstate, hwrest⟩

/-- An old point may be passed over. -/
theorem Closed.skip (h : r.Closed tokens (v :: rest) seen)
    (hmark : seen.contains (v.key (tokens.length + 1)) = true) : r.Closed tokens rest seen := by
  intro p hpstate hprest hpmark
  obtain ⟨hpstop, hbehind⟩ := h p hpstate hprest hpmark
  refine ⟨hpstop, fun u hu => ?_⟩
  rcases hbehind u hu with hseen | ⟨w, hw, hwstate, hwrest⟩
  · exact .inl hseen
  · rcases List.mem_cons.1 hw with rfl | hw
    · rw [Visit.key, ← hwstate, ← hwrest]
      exact .inl hmark
    · exact .inr ⟨w, hw, hwstate, hwrest⟩

/-- When nothing is left to be looked at, then no run finishes from a marked point: it would never
leave the marked points, and at none of them it could stop. -/
theorem Closed.dead (ha : r.automaton.WellFormed) (h : r.Closed tokens [] seen)
    (hstate : v.state < r.automaton.size) (hsuffix : v.rest <:+ tokens)
    (hmark : seen.contains (v.key (tokens.length + 1)) = true) : r.Dead v.state v.rest := by
  intro run
  induction run generalizing v with
  | nil =>
    rintro arcs ⟨⟨stop, hrun, hfinal⟩, -, hwords⟩
    cases hrun with
    | nil => exact (h v hstate hsuffix hmark).1 ⟨hwords.symm, hfinal⟩
  | cons i run ih =>
    intro arcs hfinishes
    cases arcs with
    | nil =>
      obtain ⟨stop, hrun, -⟩ := hfinishes.stops
      cases hrun
    | cons arc arcs =>
      obtain ⟨hi, u, hu, hfinishes⟩ := finishes_cons_iff.1 hfinishes
      have hmem : u ∈ r.next v := mem_next_iff.2 ⟨arc, List.mem_of_getElem? hi, hu⟩
      obtain ⟨hustate, husuffix⟩ := lt_of_mem_next ha hmem
      have humark := ((h v hstate hsuffix hmark).2 u hmem).resolve_right (by simp)
      exact ih hustate (husuffix.trans hsuffix) humark arcs hfinishes

/-- A search that finds nothing has marked only points from which no run finishes. -/
theorem dead_of_search_eq_none (ha : r.automaton.WellFormed) (hvalid : r.Valid tokens todo)
    (hclosed : r.Closed tokens todo seen) (h : r.search (tokens.length + 1) todo seen = none) :
    (∀ v ∈ todo, r.Dead v.state v.rest) ∧
      ∀ v : Visit, v.state < r.automaton.size → v.rest <:+ tokens →
        seen.contains (v.key (tokens.length + 1)) = true → r.Dead v.state v.rest := by
  fun_induction r.search (tokens.length + 1) todo seen with
  | case1 seen => exact ⟨by simp, fun v => hclosed.dead ha⟩
  | case2 => cases h
  | case3 seen v rest hnew hstop next ih =>
    rw [Bool.and_eq_true, List.isEmpty_iff] at hstop
    obtain ⟨hstate, hsuffix, _⟩ := hvalid v List.mem_cons_self
    obtain ⟨htodo, hmarks⟩ := ih (hvalid.next ha) (hclosed.next hstate hsuffix hstop) h
    have hmark : ∀ w : Visit, seen.contains (w.key (tokens.length + 1)) = true →
        (seen.mark (v.key (tokens.length + 1))).contains (w.key (tokens.length + 1)) = true := by
      intro w hw
      rw [Marks.contains_mark, hw, Bool.or_true]
    refine ⟨List.forall_mem_cons.2 ⟨hmarks v hstate hsuffix ?_, fun u hu => ?_⟩, ?_⟩
    · simp [Marks.contains_mark, key_lt hstate hsuffix]
    · exact htodo u (List.mem_append_right _ hu)
    · exact fun w hwstate hwsuffix hw => hmarks w hwstate hwsuffix (hmark w hw)
  | case4 seen v rest hold ih =>
    obtain ⟨⟨hstate, hsuffix, hreach⟩, hrest⟩ := List.forall_mem_cons.1 hvalid
    have hmark : seen.contains (v.key (tokens.length + 1)) = true := by
      have hlt := key_lt hstate hsuffix
      simpa [Marks.isNew, Marks.contains, hlt] using hold
    obtain ⟨htodo, hmarks⟩ := ih hrest (hclosed.skip hmark) h
    exact ⟨List.forall_mem_cons.2 ⟨hmarks v hstate hsuffix hmark, htodo⟩, hmarks⟩

/-- What a search finds is the output of a run that finishes from one of the points. -/
theorem exists_finishes_of_search {n width : Nat} {seen : Marks n} {output : List Symbol}
    (h : r.search width todo seen = some output) :
    ∃ v ∈ todo, ∃ run arcs, r.Finishes v.state v.rest run arcs ∧
      output = v.output.reverse ++ (Utterance.ofArcs arcs).output := by
  fun_induction r.search width todo seen with
  | case1 => cases h
  | case2 seen v rest hnew hstop =>
    cases h
    rw [Bool.and_eq_true, List.isEmpty_iff] at hstop
    exact ⟨v, List.mem_cons_self, [], [], ⟨⟨v.state, .nil _, hstop.2⟩, by simp, hstop.1.symm⟩,
      (List.append_nil _).symm⟩
  | case3 seen v rest hnew hstop next ih =>
    obtain ⟨u, hu, run, arcs, hfinishes, rfl⟩ := ih h
    rcases List.mem_append.1 hu with hu | hu
    · -- The run is made longer by the arc that leads to the point.
      change u ∈ r.next v at hu
      obtain ⟨arc, harc, hu⟩ := mem_next_iff.1 hu
      obtain ⟨i, hi⟩ := List.mem_iff_getElem?.1 harc
      exact ⟨v, List.mem_cons_self, i :: run, arc :: arcs,
        finishes_cons_iff.2 ⟨hi, u, hu, hfinishes⟩, output_of_nextOf hu⟩
    · exact ⟨u, List.mem_cons_of_mem _ hu, run, arcs, hfinishes, rfl⟩
  | case4 seen v rest hold ih =>
    obtain ⟨u, hu, hfound⟩ := ih h
    exact ⟨u, List.mem_cons_of_mem _ hu, hfound⟩

/-- What is found is the output of a run that finishes. -/
theorem exists_finishes_of_findPath {output : List Symbol} (h : r.findPath tokens = some output) :
    ∃ run arcs, r.Finishes r.automaton.start tokens run arcs ∧
      output = (Utterance.ofArcs arcs).output := by
  obtain ⟨v, hv, run, arcs, hfinishes, rfl⟩ := exists_finishes_of_search h
  obtain rfl := List.mem_singleton.1 hv
  exact ⟨run, arcs, hfinishes, rfl⟩

/-- Something is found exactly when a run finishes, also in automata with cycles. -/
theorem exists_findPath_iff (ha : r.automaton.WellFormed) :
    (∃ output, r.findPath tokens = some output) ↔
      ∃ run arcs, r.Finishes r.automaton.start tokens run arcs := by
  constructor
  · rintro ⟨output, h⟩
    obtain ⟨run, arcs, hfinishes, -⟩ := exists_finishes_of_findPath h
    exact ⟨run, arcs, hfinishes⟩
  · rintro ⟨run, arcs, hfinishes⟩
    cases hfind : r.findPath tokens with
    | some output => exact ⟨output, rfl⟩
    | none =>
      have hvalid : r.Valid tokens [⟨r.automaton.start, tokens, []⟩] :=
        List.forall_mem_singleton.2 ⟨ha.start_lt, List.suffix_refl _, .refl _⟩
      have hclosed : r.Closed tokens [⟨r.automaton.start, tokens, []⟩]
          (Marks.none (r.automaton.size * (tokens.length + 1))) :=
        fun p _ _ hmark => by simp at hmark
      have hdead := (dead_of_search_eq_none ha hvalid hclosed hfind).1 _ List.mem_cons_self
      exact absurd hfinishes (hdead run arcs)

/-- When only one run finishes, then its output is found. -/
theorem findPath_of_unique (ha : r.automaton.WellFormed) {run : List Nat}
    {arcs : List Automaton.Arc} (h : r.Finishes r.automaton.start tokens run arcs)
    (hunique : ∀ run' arcs', r.Finishes r.automaton.start tokens run' arcs' → run' = run) :
    r.findPath tokens = some (Utterance.ofArcs arcs).output := by
  obtain ⟨output, hfind⟩ := (exists_findPath_iff ha).2 ⟨run, arcs, h⟩
  obtain ⟨run', arcs', h', rfl⟩ := exists_finishes_of_findPath hfind
  obtain rfl := hunique run' arcs' h'
  obtain ⟨stop, hrun, -⟩ := h.stops
  obtain ⟨stop', hrun', -⟩ := h'.stops
  obtain ⟨rfl, -⟩ := hrun'.unique hrun
  exact hfind

end StrictRecognizer

/-! ### Alignments without costs -/

/-- A word that may be skipped costs one when it is a stop word, and else ten. -/
theorem Leniency.eq_of_cost? {l : Leniency} {word : String} {c : Nat}
    (h : l.cost? word = some c) : c = if word ∈ l.stopWords then stopWordCost else skipCost := by
  rw [cost?] at h
  split at h
  · next hstop =>
    rw [if_pos (WordSet.contains_eq_true_iff.1 hstop)]
    exact (Option.some.inj h).symm
  · next hstop =>
    rw [if_neg fun hmem => hstop (WordSet.contains_eq_true_iff.2 hmem)]
    split at h
    · exact (Option.some.inj h).symm
    · cases h

/-- Skipping a word costs something. -/
theorem Leniency.cost?_pos {l : Leniency} {word : String} {c : Nat} (h : l.cost? word = some c) :
    0 < c := by
  rw [eq_of_cost? h]
  split
  · exact Nat.one_pos
  · exact Nat.succ_pos 9

/-- Skipping a word costs at most ten. -/
theorem Leniency.cost?_le {l : Leniency} {word : String} {c : Nat} (h : l.cost? word = some c) :
    c ≤ skipCost := by
  rw [eq_of_cost? h]
  split
  · decide
  · exact Nat.le_refl _

namespace FuzzyRecognizer

open Phrasebook.Alignment (Optimal)

variable {r : FuzzyRecognizer} {tokens words : List String} {position : Nat} {used : List Nat}

/-- Without costs all words are matched, each in its place. -/
theorem picks_zero_iff : Picks (r.input tokens) position words used 0 ↔
    words = tokens ∧ used = List.range' position tokens.length := by
  constructor
  · intro h
    generalize hcost : 0 = cost at h
    generalize hinput : r.input tokens = input at h
    induction h generalizing tokens with
    | nil =>
      obtain rfl := List.map_eq_nil_iff.1 hinput
      exact ⟨rfl, rfl⟩
    | skip skippable _ _ =>
      obtain ⟨word, rest, rfl, rfl, rfl⟩ := List.map_eq_cons_iff.1 hinput
      have hpos := Leniency.cost?_pos skippable
      omega
    | take _ ih =>
      obtain ⟨word, rest, rfl, rfl, rfl⟩ := List.map_eq_cons_iff.1 hinput
      obtain ⟨rfl, rfl⟩ := ih hcost rfl
      exact ⟨rfl, rfl⟩
  · rintro ⟨rfl, rfl⟩
    induction words generalizing position with
    | nil => exact .nil
    | cons word words ih => exact .take ih

/-- The alignments without costs are those of the runs that strict recognition looks for. -/
theorem continues_zero_iff (htokens : tokens ≠ []) (dropUnknown : Bool) {a : Alignment} :
    (∃ choices, r.Continues (r.input tokens) 0 r.automaton.start false choices a) ∧ a.cost = 0 ↔
      ∃ run arcs, (StrictRecognizer.new r.automaton dropUnknown r.filter).Finishes
          r.automaton.start tokens run arcs ∧
        a = ⟨0, arcs.length, (Utterance.ofArcs arcs).output, List.range' 0 tokens.length⟩ := by
  constructor
  · rintro ⟨⟨choices, h⟩, hcost⟩
    obtain ⟨run, arcs, used, cost, stop, hrun, hfinal, hallowed, hpicks, -, -, rfl⟩ :=
      continues_iff_follows.1 h
    obtain rfl : cost = 0 := hcost
    obtain ⟨hwords, rfl⟩ := picks_zero_iff.1 hpicks
    exact ⟨run, arcs, ⟨⟨stop, hrun, hfinal⟩, hallowed, hwords⟩, rfl⟩
  · rintro ⟨run, arcs, ⟨⟨stop, hrun, hfinal⟩, hallowed, hwords⟩, rfl⟩
    have hused : List.range' 0 tokens.length ≠ [] := by
      simpa [List.range'_eq_nil_iff] using htokens
    exact ⟨⟨_, continues_iff_follows.2 ⟨run, arcs, _, 0, stop, hrun, hfinal, hallowed,
      picks_zero_iff.2 ⟨hwords, rfl⟩, .inr hused, rfl, rfl⟩⟩, rfl⟩

/-- What is found without costs is the output of a run that strict recognition looks for. -/
theorem exists_finishes_of_optimal (htokens : tokens ≠ []) (dropUnknown : Bool)
    {found : Alignment} (hbest : Optimal (r.Continues (r.input tokens) 0 r.automaton.start false)
      (some found)) (hcost : found.cost = 0) :
    ∃ run arcs, (StrictRecognizer.new r.automaton dropUnknown r.filter).Finishes
        r.automaton.start tokens run arcs ∧ found.output = (Utterance.ofArcs arcs).output := by
  obtain ⟨choices, hchoices, -⟩ := hbest
  obtain ⟨run, arcs, hfinishes, rfl⟩ :=
    (continues_zero_iff htokens dropUnknown).1 ⟨⟨choices, hchoices⟩, hcost⟩
  exact ⟨run, arcs, hfinishes, rfl⟩

/-- When there is such a run, then what is found costs nothing. -/
theorem exists_found_of_finishes (htokens : tokens ≠ []) {dropUnknown : Bool}
    {o : Option Alignment}
    (hbest : Optimal (r.Continues (r.input tokens) 0 r.automaton.start false) o)
    {run : List Nat} {arcs : List Automaton.Arc}
    (h : (StrictRecognizer.new r.automaton dropUnknown r.filter).Finishes
      r.automaton.start tokens run arcs) : ∃ found, o = some found ∧ found.cost = 0 := by
  obtain ⟨⟨choices, hchoices⟩, -⟩ :=
    (continues_zero_iff htokens dropUnknown).2 ⟨run, arcs, h, rfl⟩
  cases o with
  | none => exact absurd hchoices (hbest _ _)
  | some found =>
    -- The best alignment is that of the run, or it costs no more.
    obtain ⟨_, _, hleast⟩ := hbest
    refine ⟨found, rfl, ?_⟩
    rcases hleast choices _ hchoices with ⟨-, rfl⟩ | hless | ⟨heq, -⟩
    · rfl
    · exact absurd hless (Nat.not_lt_zero _)
    · exact heq

/-- Strict and fuzzy recognition agree on exact input. In an automaton in which no state leads back
to itself over arcs that consume nothing, strict recognition finds something exactly when fuzzy
recognition finds an alignment without costs, and both do when an accepted run over arcs that may be
taken consumes the words; the alignment is that of such a run; and when there is only one, both find
its output. -/
theorem agrees_on_exact_input {a : Automaton} (ha : a.WellFormed)
    (hacyclic : ∀ state, ¬ Graph.OnCycle a.silentTargets state) (leniency : Leniency)
    (filter : Option WordSet) (dropUnknown : Bool) :
    ∃ r, FuzzyRecognizer.new a leniency filter = .ok r ∧ ∀ tokens ≠ [],
      ((∃ output, (StrictRecognizer.new a dropUnknown filter).findPath tokens = some output) ↔
        ∃ found, r.bestAlignment tokens = some found ∧ found.cost = 0) ∧
      (∀ run arcs, (StrictRecognizer.new a dropUnknown filter).Finishes a.start tokens run arcs →
        (∃ output, (StrictRecognizer.new a dropUnknown filter).findPath tokens = some output) ∧
          ∃ found, r.bestAlignment tokens = some found ∧ found.cost = 0) ∧
      ∀ found, r.bestAlignment tokens = some found → found.cost = 0 →
        (∃ run arcs,
          (StrictRecognizer.new a dropUnknown filter).Finishes a.start tokens run arcs ∧
            found.output = (Utterance.ofArcs arcs).output) ∧
        ((∀ run arcs run' arcs',
            (StrictRecognizer.new a dropUnknown filter).Finishes a.start tokens run arcs →
            (StrictRecognizer.new a dropUnknown filter).Finishes a.start tokens run' arcs' →
              run = run') →
          (StrictRecognizer.new a dropUnknown filter).findPath tokens = some found.output) := by
  obtain ⟨order, heq, horder⟩ := Automaton.silentOrder_of_acyclic ha hacyclic
  refine ⟨⟨a, order, leniency, filter⟩, by rw [FuzzyRecognizer.new, heq], fun tokens htokens => ?_⟩
  have hbest := optimal_bestAlignment (r := ⟨a, order, leniency, filter⟩) ha horder tokens
  have hstrict : (∃ output,
      (StrictRecognizer.new a dropUnknown filter).findPath tokens = some output) ↔
        ∃ run arcs, (StrictRecognizer.new a dropUnknown filter).Finishes a.start tokens run arcs :=
    StrictRecognizer.exists_findPath_iff ha
  have hexact : ∀ found, FuzzyRecognizer.bestAlignment ⟨a, order, leniency, filter⟩ tokens =
      some found → found.cost = 0 → ∃ run arcs,
        (StrictRecognizer.new a dropUnknown filter).Finishes a.start tokens run arcs ∧
          found.output = (Utterance.ofArcs arcs).output := by
    intro found hfound
    rw [hfound] at hbest
    exact exists_finishes_of_optimal htokens dropUnknown hbest
  refine ⟨⟨?_, ?_⟩, fun run arcs hfinishes => ⟨?_, ?_⟩, fun found hfound hcost => ⟨?_, ?_⟩⟩
  · intro houtput
    obtain ⟨run, arcs, hfinishes⟩ := hstrict.1 houtput
    exact exists_found_of_finishes htokens hbest hfinishes
  · rintro ⟨found, hfound, hcost⟩
    obtain ⟨run, arcs, hfinishes, -⟩ := hexact found hfound hcost
    exact hstrict.2 ⟨run, arcs, hfinishes⟩
  · exact hstrict.2 ⟨run, arcs, hfinishes⟩
  · exact exists_found_of_finishes htokens hbest hfinishes
  · exact hexact found hfound hcost
  · -- What is found is the output of some run, and there is only one.
    intro hunique
    obtain ⟨run, arcs, hfinishes, houtput⟩ := hexact found hfound hcost
    rw [houtput]
    exact StrictRecognizer.findPath_of_unique ha hfinishes fun run' arcs' hfinishes' =>
      hunique _ _ _ _ hfinishes' hfinishes

/-- A state with an arc back to itself, which consumes a word. -/
theorem agrees_on_exact_input_loop : ∃ a : Automaton,
    a = ⟨#[⟨[⟨some "again", some (.word "again"), 0, 0⟩], some 0⟩], 0⟩ ∧
    ∃ r, FuzzyRecognizer.new a ⟨∅, none, false⟩ none = .ok r ∧ ∀ tokens ≠ [],
      ((∃ output, (StrictRecognizer.new a false none).findPath tokens = some output) ↔
        ∃ found, r.bestAlignment tokens = some found ∧ found.cost = 0) ∧
      (∀ run arcs, (StrictRecognizer.new a false none).Finishes a.start tokens run arcs →
        (∃ output, (StrictRecognizer.new a false none).findPath tokens = some output) ∧
          ∃ found, r.bestAlignment tokens = some found ∧ found.cost = 0) ∧
      ∀ found, r.bestAlignment tokens = some found → found.cost = 0 →
        (∃ run arcs, (StrictRecognizer.new a false none).Finishes a.start tokens run arcs ∧
          found.output = (Utterance.ofArcs arcs).output) ∧
        ((∀ run arcs run' arcs',
            (StrictRecognizer.new a false none).Finishes a.start tokens run arcs →
            (StrictRecognizer.new a false none).Finishes a.start tokens run' arcs' →
              run = run') →
          (StrictRecognizer.new a false none).findPath tokens = some found.output) := by
  refine ⟨_, rfl, agrees_on_exact_input ⟨by decide, ?_⟩ ?_ _ _ _⟩
  · rintro (_ | state) arc harc
    · cases List.mem_singleton.1 harc
      exact Nat.one_pos
    · cases harc
  · -- The arc consumes a word, and there is no other one.
    rintro (_ | state) ⟨target, htarget, -⟩
    · cases htarget
    · cases htarget

end FuzzyRecognizer

end Phrasebook
