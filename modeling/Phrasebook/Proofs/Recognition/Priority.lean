import Phrasebook.Proofs.Compile.Phrases
import Phrasebook.Proofs.Example.Enumerate
import Phrasebook.Proofs.Recognition.FirstRun

/-!
# Recognition and enumeration agree on priority

Strict recognition finds the first run that consumes the words, and enumeration lists the runs in
the same order. In a compiled grammar every run decodes, so neither passes over one: what is
recognized in the words of an example is the intent of the first example with these words.

* `Automaton.IsFirstRun`: the first of the accepted runs that consume some words.
* `StrictRecognizer.recognize_spec`: what is recognized is the intent of this run.
* `Example.find?_of_enumerate`: it is that of the first example with the words.
* `Grammar.prefersFirst_of_compile`: both hold of a compiled grammar.
-/

namespace Phrasebook

/-- A run is accepted and consumes some words, and it comes first among the runs that do. -/
structure Automaton.IsFirstRun (a : Automaton) (tokens : List String) (run : List Nat)
    (arcs : List Arc) : Prop where
  /-- The run is accepted. -/
  accepts : a.Accepts run arcs
  /-- It consumes the words. -/
  words : (Utterance.ofArcs arcs).words = tokens
  /-- No other run that does comes before it. -/
  not_lt : ∀ run' arcs', a.Accepts run' arcs' → (Utterance.ofArcs arcs').words = tokens →
    ¬ run' < run

variable {a : Automaton} {us : List Utterance}

/-- Accepted runs decode when everything that is spelt does. -/
theorem Automaton.Spells.decodes (ha : a.Spells us) (hus : ∀ u ∈ us, u.Decodes) {run : List Nat}
    {arcs : List Automaton.Arc} (h : a.Accepts run arcs) : (Utterance.ofArcs arcs).Decodes :=
  hus _ (ha.mem_of_accepts h)

namespace StrictRecognizer

/-- Without a filter, the runs that finish are the accepted ones that consume the words. -/
theorem finishes_new_iff {tokens : List String} {run : List Nat} {arcs : List Automaton.Arc} :
    (StrictRecognizer.new a false none).Finishes a.start tokens run arcs ↔
      a.Accepts run arcs ∧ (Utterance.ofArcs arcs).words = tokens :=
  ⟨fun h => ⟨h.stops, h.words⟩, fun ⟨hrun, hwords⟩ => ⟨hrun, fun _ _ => rfl, hwords⟩⟩

/-- What is recognized in some words is the intent that the first run with these words decodes to;
without such a run there is no match. -/
theorem recognize_spec (ha : a.Spells us) (hus : ∀ u ∈ us, u.Decodes) {tokens : List String}
    (htokens : tokens ≠ []) :
    (∃ run arcs intent, a.IsFirstRun tokens run arcs ∧
        Intent.ofSymbols (Utterance.ofArcs arcs).output = .ok intent ∧
        intent.name.isSome = true ∧
        (StrictRecognizer.new a false none).recognize tokens = ⟨intent, none⟩) ∨
      (∀ run arcs, a.Accepts run arcs → (Utterance.ofArcs arcs).words ≠ tokens) ∧
        (StrictRecognizer.new a false none).recognize tokens = ⟨.noMatch tokens, none⟩ := by
  have hkept : (StrictRecognizer.new a false none).kept tokens = tokens := rfl
  have hnonempty : ¬ tokens.isEmpty = true := by rwa [List.isEmpty_iff]
  have hfound := findPath_spec (r := StrictRecognizer.new a false none) ha.tidy.wellFormed
    ha.yields.acyclicFrom tokens
  rw [recognize, hkept, if_neg hnonempty]
  cases hpath : (StrictRecognizer.new a false none).findPath tokens with
  | none =>
    rw [hpath] at hfound
    exact .inr ⟨fun run arcs hrun hwords => hfound run arcs (finishes_new_iff.2 ⟨hrun, hwords⟩),
      rfl⟩
  | some output =>
    rw [hpath] at hfound
    obtain ⟨run, arcs, hfinishes, hleast, rfl⟩ := hfound
    obtain ⟨hrun, hwords⟩ := finishes_new_iff.1 hfinishes
    obtain ⟨intent, hintent, hname, _⟩ := ha.decodes hus hrun
    refine .inl ⟨run, arcs, intent, ⟨hrun, hwords, fun run' arcs' hrun' hwords' => ?_⟩, hintent,
      hname, ?_⟩
    · exact hleast run' arcs' (finishes_new_iff.2 ⟨hrun', hwords'⟩)
    · simp only [Option.map_some, hintent]

/-- There is a match exactly when an accepted run consumes the words. -/
theorem isMatch_recognize_iff (ha : a.Spells us) (hus : ∀ u ∈ us, u.Decodes)
    {tokens : List String} (htokens : tokens ≠ []) :
    ((StrictRecognizer.new a false none).recognize tokens).isMatch = true ↔
      ∃ run arcs, a.Accepts run arcs ∧ (Utterance.ofArcs arcs).words = tokens := by
  obtain ⟨run, arcs, intent, hfirst, _, hname, heq⟩ | ⟨hnone, heq⟩ :=
    recognize_spec ha hus htokens
  · rw [heq, Recognition.isMatch, Intent.isEmpty, Option.not_isNone, hname]
    exact iff_of_true rfl ⟨run, arcs, hfirst.accepts, hfirst.words⟩
  · rw [heq]
    exact iff_of_false Bool.false_ne_true fun ⟨run, arcs, hrun, hwords⟩ =>
      hnone run arcs hrun hwords

end StrictRecognizer

namespace Example

/-- An example has the words that its run consumes. -/
theorem Shows.rawTokens_eq (ha : a.Spells us) (hus : ∀ u ∈ us, u.Decodes) {run : List Nat}
    {arcs : List Automaton.Arc} {e : Example} (h : a.Accepts run arcs) (he : Shows [] arcs e) :
    Intent.ofSymbols (Utterance.ofArcs arcs).output = .ok e.intent ∧
      e.intent.rawTokens = (Utterance.ofArcs arcs).words := by
  have hsymbols : e.symbols = (Utterance.ofArcs arcs).output := he.symbols_eq
  have hshown := he.ofSymbols_eq
  rw [hsymbols] at hshown
  obtain ⟨intent, hintent, _, hraw⟩ := ha.decodes hus h
  obtain rfl := Except.ok.inj (hshown.symm.trans hintent)
  exact ⟨hshown, hraw⟩

/-- The first example with the words of an example is that of the first run with these words. -/
theorem find?_of_enumerate (ha : a.Spells us) (hus : ∀ u ∈ us, u.Decodes) {limit : Nat}
    {examples : List Example} (h : enumerate a limit = .ok examples) {tokens : List String}
    {run : List Nat} {arcs : List Automaton.Arc} (hfirst : a.IsFirstRun tokens run arcs) :
    ∃ first, examples.find? (·.intent.rawTokens = tokens) = some first ∧
      Intent.ofSymbols (Utterance.ofArcs arcs).output = .ok first.intent := by
  have hlists := ha.lists
  have hshows := forall₂_of_enumerate ha.tidy.wellFormed h
  have haccepts : ∀ i (hi : i < (a.runsFrom a.size a.start).length),
      a.Accepts (a.runsFrom a.size a.start)[i].1 (a.runsFrom a.size a.start)[i].2 :=
    fun i hi => (hlists.complete _ _).1 (List.getElem_mem hi)
  obtain ⟨k, hk, hrun⟩ := List.mem_iff_getElem.1 ((hlists.complete run arcs).2 hfirst.accepts)
  have hlt : k < examples.length := by rwa [← hshows.length_eq]
  have hshown := hshows.get hk hlt
  rw [List.get_eq_getElem, hrun] at hshown
  obtain ⟨hintent, hraw⟩ := hshown.rawTokens_eq ha hus hfirst.accepts
  refine ⟨examples[k], List.find?_eq_some_iff_getElem.2
    ⟨decide_eq_true (hraw.trans hfirst.words), k, hlt, rfl, fun i hi => ?_⟩, hintent⟩
  -- A run that is listed before the first one consumes other words.
  have hik : i < (a.runsFrom a.size a.start).length := Nat.lt_trans hi hk
  obtain ⟨_, hraw⟩ := (hshows.get hik (Nat.lt_trans hi hlt)).rawTokens_eq ha hus (haccepts i hik)
  simp only [Bool.not_eq_true', decide_eq_false_iff_not]
  intro hwords
  have hless := List.pairwise_iff_getElem.1 (List.pairwise_map.1 hlists.increasing) i k hik hk hi
  rw [hrun] at hless
  exact hfirst.not_lt _ _ (haccepts i hik) (hraw.symm.trans hwords) hless

end Example

/-- Strict recognition and enumeration of an automaton agree on what comes first. -/
structure Automaton.PrefersFirst (a : Automaton) : Prop where
  /-- There is a match in some words exactly when an accepted run consumes them. -/
  isMatch_iff : ∀ tokens, tokens ≠ [] →
    (((StrictRecognizer.new a false none).recognize tokens).isMatch = true ↔
      ∃ run arcs, a.Accepts run arcs ∧ (Utterance.ofArcs arcs).words = tokens)
  /-- The intent of a match is the one that the first such run decodes to. -/
  isFirstRun : ∀ tokens, tokens ≠ [] →
    ((StrictRecognizer.new a false none).recognize tokens).isMatch = true →
      ∃ run arcs intent, a.IsFirstRun tokens run arcs ∧
        Intent.ofSymbols (Utterance.ofArcs arcs).output = .ok intent ∧
        (StrictRecognizer.new a false none).recognize tokens = ⟨intent, none⟩
  /-- In the words of an example it is the intent of the first example with these words. -/
  isFirstExample : ∀ limit examples, Example.enumerate a limit = .ok examples →
    ∀ e ∈ examples, e.intent.rawTokens ≠ [] →
      ∃ first, examples.find? (·.intent.rawTokens = e.intent.rawTokens) = some first ∧
        ((StrictRecognizer.new a false none).recognize e.intent.rawTokens).intent = first.intent

/-- Where everything that is spelt decodes, recognition and enumeration agree. -/
theorem Automaton.Spells.prefersFirst (ha : a.Spells us) (hus : ∀ u ∈ us, u.Decodes) :
    a.PrefersFirst where
  isMatch_iff tokens htokens := StrictRecognizer.isMatch_recognize_iff ha hus htokens
  isFirstRun tokens htokens hmatch := by
    obtain ⟨run, arcs, intent, hfirst, hintent, _, heq⟩ | ⟨hnone, _⟩ :=
      StrictRecognizer.recognize_spec ha hus htokens
    · exact ⟨run, arcs, intent, hfirst, hintent, heq⟩
    · obtain ⟨run, arcs, hrun, hwords⟩ :=
        (StrictRecognizer.isMatch_recognize_iff ha hus htokens).1 hmatch
      exact absurd hwords (hnone run arcs hrun)
  isFirstExample limit examples hexamples e he hnonempty := by
    -- The run of the example consumes its words, so there is a first run that does.
    have hshows := Example.forall₂_of_enumerate ha.tidy.wellFormed hexamples
    obtain ⟨i, hi, rfl⟩ := List.mem_iff_getElem.1 he
    have hlt : i < (a.runsFrom a.size a.start).length := by rwa [hshows.length_eq]
    have hrun := (ha.lists.complete _ _).1 (List.getElem_mem hlt)
    obtain ⟨_, hraw⟩ := (hshows.get hlt hi).rawTokens_eq ha hus hrun
    obtain ⟨run, arcs, intent, hfirst, hintent, _, heq⟩ | ⟨hnone, _⟩ :=
      StrictRecognizer.recognize_spec ha hus hnonempty
    · obtain ⟨first, hfind, hshown⟩ := Example.find?_of_enumerate ha hus hexamples hfirst
      refine ⟨first, hfind, ?_⟩
      rw [heq]
      exact Except.ok.inj (hintent.symm.trans hshown)
    · exact absurd hraw.symm (hnone _ _ hrun)

namespace Grammar

/-- In a compiled grammar, strict recognition and enumeration agree: an input is matched exactly
when a run consumes it, and it means what the first such run and the first such example do. -/
theorem prefersFirst_of_compile {allowed : Option WordSet} {text : String} {grammar : Grammar}
    {slots : Slots} {casing : Casing} {compiled : Compiled}
    (hgrammar : ofTextWith allowed text = .ok grammar) (hslots : slots.Defined)
    (h : grammar.compile casing slots = .ok compiled) : compiled.merged.PrefersFirst := by
  obtain ⟨us, hspells, hdecode⟩ := spells_merged hgrammar hslots h
  exact hspells.prefersFirst hdecode

/-- Two intents share a sentence, which the first of them also reaches in two ways. -/
theorem prefersFirst_of_compile_shared : ∃ grammar slots compiled,
    ofTextWith none "[Stop]\nhalt [now] | halt now\n[Break]\nhalt $when" = .ok grammar ∧
    Slots.Defined slots ∧ grammar.compile .upper slots = .ok compiled ∧
    compiled.merged.PrefersFirst := by
  obtain ⟨grammar, slots, compiled, hgrammar, hslots, hcompile, -⟩ := @exists_compile
    "[Stop]\nhalt [now] | halt now\n[Break]\nhalt $when" "when" ["now", "later"] .upper
    (fun _ _ => true) (by decide +kernel)
  exact ⟨grammar, slots, compiled, hgrammar, hslots, hcompile,
    prefersFirst_of_compile hgrammar hslots hcompile⟩

end Grammar

end Phrasebook
