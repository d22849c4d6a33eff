import Phrasebook.Proofs.Compile.Phrases
import Phrasebook.Proofs.Recognition.Agreement

/-!
# Every run of a compiled grammar decodes

An accepted run of the automaton of some intents first chooses an intent and then goes through its
automaton, between the markers of the intent. What is put out there nests, so the run decodes to
that intent. No recognizer has to pass over what it has found, and the matched words of a match
are those that the run consumes.

* `exists_intent_of_accepts`: an accepted run goes through the automaton of one of the intents.
* `StrictRecognizer.Faithful`, `FuzzyRecognizer.Faithful`: what is found in some words is what is
  recognized in them.
* `Grammar.decodes_of_compile`: this holds of a compiled grammar, and its runs decode.
-/

namespace Phrasebook

/-- An accepted run of the automaton of some intents chooses one of them by its first arc, and has
an utterance of this intent between the markers. -/
theorem exists_intent_of_accepts {intents : List (String × Automaton)}
    (h : ∀ part ∈ intents, ∃ us, part.2.Spells us) {run : List Nat} {arcs : List Automaton.Arc}
    (hrun : (mergeIntents intents).Accepts run arcs) :
    ∃ i rest part run' arcs', run = i :: rest ∧ intents[i]? = some part ∧
      part.2.Accepts run' arcs' ∧
      Utterance.ofArcs arcs = (Utterance.ofArcs arcs').inIntent part.1 := by
  obtain ⟨i, rest, us, rfl, hi, hmem⟩ :=
    Automaton.exists_branch_of_accepts (forall₂_spells_wrap h) hrun
  rw [List.getElem?_map, Option.map_eq_some_iff] at hi
  obtain ⟨part, hpart, rfl⟩ := hi
  obtain ⟨u, hu, heq⟩ := List.mem_map.1 hmem
  obtain ⟨⟨run', arcs'⟩, hlisted, rfl⟩ := List.mem_map.1 hu
  obtain ⟨us, hus⟩ := h part (List.mem_of_getElem? hpart)
  exact ⟨i, rest, part, run', arcs', rfl, hpart, (hus.lists.complete run' arcs').1 hlisted,
    heq.symm⟩

/-! ### Nothing that is found is passed over -/

/-- Strict recognition recognizes what it finds in some words. -/
structure StrictRecognizer.Faithful (r : StrictRecognizer) (tokens : List String) : Prop where
  /-- There is a match when there are words to be matched and something is found in them. -/
  isMatch_iff : (r.recognize tokens).isMatch = true ↔
    r.kept tokens ≠ [] ∧ ∃ output, r.findPath (r.kept tokens) = some output
  /-- The intent is the one that is found. -/
  recognize_eq : ∀ output, r.kept tokens ≠ [] → r.findPath (r.kept tokens) = some output →
    ∃ intent, Intent.ofSymbols output = .ok intent ∧ r.recognize tokens = ⟨intent, none⟩
  /-- Its matched words are the words that were to be matched. -/
  rawTokens_eq : (r.recognize tokens).isMatch = true →
    (r.recognize tokens).intent.rawTokens = r.kept tokens

/-- Fuzzy recognition recognizes what it finds in some words. -/
structure FuzzyRecognizer.Faithful (r : FuzzyRecognizer) (tokens : List String) : Prop where
  /-- There is a match when there are words and something is found in them. -/
  isMatch_iff : (r.recognize tokens).isMatch = true ↔
    tokens ≠ [] ∧ ∃ found, r.bestAlignment tokens = some found
  /-- The intent is the one that is found, its matched words are the words at the positions that
  are used, in order, and the words are counted by these positions. -/
  recognize_eq : ∀ found, tokens ≠ [] → r.bestAlignment tokens = some found →
    ∃ intent, Intent.ofSymbols found.output = .ok intent ∧
      r.recognize tokens = ⟨{ intent with
        confidence := confidence found.cost tokens.length }, some (r.diagnose tokens found.used)⟩ ∧
      found.used.Pairwise (· < ·) ∧
      intent.rawTokens.map some = found.used.map (tokens[·]?)

/-- A recognition has a match exactly when its intent has a name. -/
theorem Recognition.isMatch_eq {r : Recognition} : r.isMatch = r.intent.name.isSome := by
  rw [isMatch, Intent.isEmpty, Option.not_isNone]

namespace StrictRecognizer

variable {r : StrictRecognizer}

/-- Where all accepted runs decode, what is found is recognized, and otherwise there is no
match. -/
theorem recognize_cases
    (h : ∀ run arcs, r.automaton.Accepts run arcs → (Utterance.ofArcs arcs).Decodes)
    (tokens : List String) :
    (∃ output intent, r.kept tokens ≠ [] ∧ r.findPath (r.kept tokens) = some output ∧
        Intent.ofSymbols output = .ok intent ∧ intent.name.isSome = true ∧
        intent.rawTokens = r.kept tokens ∧ r.recognize tokens = ⟨intent, none⟩) ∨
      (r.kept tokens ≠ [] → r.findPath (r.kept tokens) = none) ∧
        r.recognize tokens = ⟨.noMatch tokens, none⟩ := by
  by_cases hkept : r.kept tokens = []
  · exact .inr ⟨absurd hkept, by simp [recognize, hkept]⟩
  · cases hfind : r.findPath (r.kept tokens) with
    | none => exact .inr ⟨fun _ => rfl, by simp [recognize, hkept, hfind]⟩
    | some output =>
      -- An accepted run puts out what is found, and accepted runs decode.
      obtain ⟨run, arcs, hfinishes, rfl⟩ := exists_finishes_of_findPath hfind
      obtain ⟨intent, hdecode, hname, hraw⟩ := h run arcs hfinishes.stops
      exact .inl ⟨_, intent, hkept, rfl, hdecode, hname, hraw.trans hfinishes.words,
        by simp [recognize, hkept, hfind, hdecode]⟩

/-- Where all accepted runs decode, strict recognition recognizes what it finds. -/
theorem faithful_of_decodes
    (h : ∀ run arcs, r.automaton.Accepts run arcs → (Utterance.ofArcs arcs).Decodes)
    (tokens : List String) : r.Faithful tokens := by
  obtain ⟨output, intent, hkept, hfind, hdecode, hname, hraw, heq⟩ | ⟨hnone, heq⟩ :=
    recognize_cases h tokens
  · have hmatch : (r.recognize tokens).isMatch = true := by rw [heq, Recognition.isMatch_eq, hname]
    refine ⟨iff_of_true hmatch ⟨hkept, output, hfind⟩, fun found _ hfound => ?_, fun _ => ?_⟩
    · obtain rfl := Option.some.inj (hfind.symm.trans hfound)
      exact ⟨intent, hdecode, heq⟩
    · rw [heq, hraw]
  · have hmatch : (r.recognize tokens).isMatch = false := by rw [heq]; rfl
    rw [← Bool.not_eq_true] at hmatch
    refine ⟨iff_of_false hmatch fun ⟨hkept, output, hfind⟩ => ?_, fun output hkept hfind => ?_,
      fun h => absurd h hmatch⟩
    · exact Option.some_ne_none output (hfind.symm.trans (hnone hkept))
    · exact absurd (hfind.symm.trans (hnone hkept)) (Option.some_ne_none output)

end StrictRecognizer

/-- In an automaton that spells something, arcs that consume nothing lead on in some order. -/
theorem Automaton.Spells.exists_silentOrder {a : Automaton} {us : List Utterance}
    (h : a.Spells us) :
    ∃ order, a.silentOrder = .ok order ∧ Graph.IsOrder a.size a.silentTargets order := by
  refine silentOrder_of_acyclic h.tidy.wellFormed fun state hcycle => ?_
  exact h.not_onCycle state (onCycle_of_silent hcycle)

namespace FuzzyRecognizer

open Phrasebook.Alignment (Optimal)

variable {r : FuzzyRecognizer} {tokens : List String}

/-- Where all accepted runs decode, fuzzy recognition recognizes the best alignment. -/
theorem faithful_of_decodes
    (h : ∀ run arcs, r.automaton.Accepts run arcs → (Utterance.ofArcs arcs).Decodes)
    (hbest : Optimal (r.Continues (r.input tokens) 0 r.automaton.start false)
      (r.bestAlignment tokens)) : r.Faithful tokens := by
  have hfound : ∀ found, tokens ≠ [] → r.bestAlignment tokens = some found →
      ∃ intent, Intent.ofSymbols found.output = .ok intent ∧ intent.name.isSome = true ∧
        r.recognize tokens = ⟨{ intent with
          confidence := confidence found.cost tokens.length },
            some (r.diagnose tokens found.used)⟩ ∧
        found.used.Pairwise (· < ·) ∧
        intent.rawTokens.map some = found.used.map (tokens[·]?) := by
    intro found htokens hfound
    -- The best alignment is that of a matching, which uses the words that its run consumes.
    rw [hfound] at hbest
    obtain ⟨choices, hcontinues, -⟩ := hbest
    obtain ⟨m, hm, -, rfl⟩ := continues_iff_isMatching.1 hcontinues
    obtain ⟨intent, hdecode, hname, hraw⟩ := h m.run m.arcs hm.accepts
    refine ⟨intent, hdecode, hname, by simp [recognize, htokens, hfound, hdecode],
      hm.increasing, ?_⟩
    rw [hraw, ← hm.words]
  refine ⟨⟨fun hmatch => ?_, fun ⟨htokens, found, hsome⟩ => ?_⟩, fun found htokens hsome => ?_⟩
  · refine ⟨?_, ?_⟩
    · rintro rfl
      cases hmatch
    · refine Option.isSome_iff_exists.1 (Option.isSome_iff_ne_none.2 fun hnone => ?_)
      simp [recognize, hnone, Recognition.isMatch_eq, Intent.noMatch] at hmatch
  · obtain ⟨intent, -, hname, heq, -⟩ := hfound found htokens hsome
    rw [heq, Recognition.isMatch_eq, hname]
  · obtain ⟨intent, hdecode, -, hrest⟩ := hfound found htokens hsome
    exact ⟨intent, hdecode, hrest⟩

end FuzzyRecognizer

/-! ### Compiled grammars -/

/-- The accepted runs of a compiled grammar decode, and no recognizer passes over one. -/
structure Compiled.Decodes (compiled : Compiled) (grammar : Grammar) : Prop where
  /-- An accepted run chooses an intent of the grammar by its first arc. It has an utterance of
  this intent between the markers, and it decodes to this intent. -/
  runs : ∀ run arcs, compiled.merged.Accepts run arcs →
    ∃ i rest s a run' arcs', run = i :: rest ∧ grammar[i]? = some s ∧
      compiled.intents[i]? = some (s.intent, a) ∧ a.Accepts run' arcs' ∧
      Utterance.ofArcs arcs = (Utterance.ofArcs arcs').inIntent s.intent ∧
      (Utterance.ofArcs arcs).DecodesAs s.intent
  /-- Strict recognition recognizes what it finds, with every filter and whether or not unknown
  words are dropped. -/
  strict : ∀ dropUnknown filter tokens,
    (StrictRecognizer.new compiled.merged dropUnknown filter).Faithful tokens
  /-- There is a fuzzy recognizer, with every filter and whatever may be skipped, and it recognizes
  what it finds. -/
  fuzzy : ∀ leniency filter, ∃ r, FuzzyRecognizer.new compiled.merged leniency filter = .ok r ∧
    ∀ tokens, r.Faithful tokens

namespace Grammar

section Compile

variable {allowed : Option WordSet} {text : String} {grammar : Grammar} {slots : Slots}
  {casing : Casing} {compiled : Compiled}

/-- An accepted run goes through the automaton of an intent of the grammar and decodes to it. -/
theorem exists_section_of_accepts (hgrammar : ofTextWith allowed text = .ok grammar)
    (hslots : slots.Defined) (h : grammar.compile casing slots = .ok compiled) {run : List Nat}
    {arcs : List Automaton.Arc} (hrun : compiled.merged.Accepts run arcs) :
    ∃ i rest s a run' arcs', run = i :: rest ∧ grammar[i]? = some s ∧
      compiled.intents[i]? = some (s.intent, a) ∧ a.Accepts run' arcs' ∧
      Utterance.ofArcs arcs = (Utterance.ofArcs arcs').inIntent s.intent ∧
      (Utterance.ofArcs arcs).DecodesAs s.intent := by
  obtain ⟨hintents, hmerged⟩ := isPhrased_of_compile hgrammar hslots h
  have hspell : ∀ part ∈ compiled.intents, ∃ us, part.2.Spells us := fun part hpart =>
    (isPhrased_of_mem_intents hgrammar hslots h hpart).imp fun us hus => hus.1
  rw [hmerged] at hrun
  obtain ⟨i, rest, part, run', arcs', rfl, hpart, hrun', heq⟩ :=
    exists_intent_of_accepts hspell hrun
  -- The intents are those of the sections, in the same order.
  obtain ⟨hi, rfl⟩ := List.getElem?_eq_some_iff.1 hpart
  have higrammar : i < grammar.length := by rwa [hintents.length_eq]
  obtain ⟨hname, us, hus, hphrased⟩ := hintents.get higrammar hi
  simp only [List.get_eq_getElem] at hname hus
  rw [hname] at heq
  refine ⟨i, rest, grammar[i], compiled.intents[i].2, run', arcs', rfl,
    List.getElem?_eq_getElem higrammar, by rw [hpart, ← hname], hrun', heq, ?_⟩
  rw [heq]
  exact (hphrased _ (hus.mem_of_accepts hrun')).decodesAs _

/-- Every accepted run of a compiled grammar decodes to the intent that it goes through, and to
the words that it consumes, so that no recognizer passes over what it finds. -/
theorem decodes_of_compile (hgrammar : ofTextWith allowed text = .ok grammar)
    (hslots : slots.Defined) (h : grammar.compile casing slots = .ok compiled) :
    compiled.Decodes grammar := by
  obtain ⟨us, hspells, hdecode⟩ := spells_merged hgrammar hslots h
  have hdecodes : ∀ run arcs, compiled.merged.Accepts run arcs →
      (Utterance.ofArcs arcs).Decodes :=
    fun run arcs hrun => hdecode _ (hspells.mem_of_accepts hrun)
  refine ⟨fun run arcs => exists_section_of_accepts hgrammar hslots h,
    fun dropUnknown filter => StrictRecognizer.faithful_of_decodes hdecodes,
    fun leniency filter => ?_⟩
  have hwf := hspells.tidy.wellFormed
  obtain ⟨order, heq, horder⟩ := hspells.exists_silentOrder
  refine ⟨⟨compiled.merged, order, leniency, filter⟩, by rw [FuzzyRecognizer.new, heq],
    fun tokens => ?_⟩
  exact FuzzyRecognizer.faithful_of_decodes hdecodes
    (FuzzyRecognizer.optimal_bestAlignment hwf horder tokens)

end Compile

/-- Two intents with entities inside of one another, of which the inner one is reported as another
word. -/
theorem decodes_of_compile_nested : ∃ grammar slots compiled,
    ofTextWith none
        "[Light]\nplace = (the $room)\x7bplace\x7d\nturn on <place>\n[Stop]\n(halt):stop" =
      .ok grammar ∧ Slots.Defined slots ∧ grammar.compile .lower slots = .ok compiled ∧
    compiled.Decodes grammar := by
  obtain ⟨grammar, slots, compiled, hgrammar, hslots, hcompile, -⟩ := @exists_compile
    "[Light]\nplace = (the $room)\x7bplace\x7d\nturn on <place>\n[Stop]\n(halt):stop" "room"
    ["kitchen", "hall:lobby"] .lower (fun _ _ => true) (by decide +kernel)
  exact ⟨grammar, slots, compiled, hgrammar, hslots, hcompile,
    decodes_of_compile hgrammar hslots hcompile⟩

end Grammar

end Phrasebook
