import Phrasebook.Proofs.Automaton.Reach
import Phrasebook.Proofs.Compile.Permutation
import Phrasebook.Proofs.Recognition.Filter

/-!
# Recognition and the order of sections

The automaton of all intents chooses an intent by its first arc and then goes through the automaton
of this intent. When the intents stand in another order, the choice is another number and the states
are other numbers. But each run is followed by one along arcs with the same labels, and this is all
that recognition looks at, as long as it does not choose between runs. So both recognizers find
something in the same words, and fuzzy recognition at the same cost with as many arcs. Only which of
several equally good runs is found depends on the order.

* `Automaton.Mirrors`: each run is followed by one of another automaton.
* `Automaton.mem_vocabulary_iff`: the vocabulary is what runs consume.
* `Automaton.MatchesAlike`: two automata with which recognition differs at most in its choices.
* `Automaton.matchesAlike_of_mirrors`: automata that mirror each other are such.
* `Grammar.matchesAlike_of_perm`: so are those of a grammar in two orders of its sections.
-/

namespace Phrasebook

open Phrasebook.Alignment (Optimal)

namespace Automaton

variable {a b : Automaton}

/-! ### Runs that are followed -/

/-- Each run of an automaton is followed by one of another automaton, along arcs with the same
labels, which may stop when the run may. -/
def Mirrors (b a : Automaton) : Prop :=
  ∀ run arcs stop, a.Follows a.start run arcs stop →
    ∃ run' arcs' stop', b.Follows b.start run' arcs' stop' ∧
      a.isFinal stop = b.isFinal stop' ∧ arcs.map Arc.label = arcs'.map Arc.label

/-- Accepted runs are followed by accepted runs. -/
theorem Mirrors.exists_accepts (h : b.Mirrors a) {run : List Nat} {arcs : List Arc}
    (hrun : a.Accepts run arcs) :
    ∃ run' arcs', b.Accepts run' arcs' ∧ arcs.map Arc.label = arcs'.map Arc.label := by
  obtain ⟨stop, hrun, hfinal⟩ := hrun
  obtain ⟨run', arcs', stop', hrun', hsame, hlabels⟩ := h run arcs stop hrun
  exact ⟨run', arcs', ⟨stop', hrun', hsame ▸ hfinal⟩, hlabels⟩

/-- A union follows the runs of every union that has only branches of its own. -/
theorem mirrors_union {branches branches' : List Automaton}
    (hbranches : ∀ b ∈ branches, b.WellFormed) (hsub : branches ⊆ branches') :
    (union branches').Mirrors (union branches) := by
  intro run arcs stop hrun
  cases hrun with
  | nil => exact ⟨[], [], _, .nil _, rfl, rfl⟩
  | @cons _ i _ arc run arcs first rest =>
    -- The first arc leads into a branch, which stands somewhere in the other union.
    have hi : i < branches.length := by
      obtain ⟨hi, -⟩ := List.getElem?_eq_some_iff.1 first
      exact length_arcs_union ▸ hi
    have hmem : branches[i] ∈ branches := List.getElem_mem hi
    obtain ⟨j, hj⟩ := List.mem_iff_getElem?.1 (hsub hmem)
    obtain ⟨arcs', stop', hrun', hsame, hlabels⟩ := exists_follows_union
      (hbranches _ hmem) (List.getElem?_eq_getElem hi) hj (.cons first rest)
    exact ⟨j :: run, arcs', stop', hrun', hsame, hlabels⟩

/-! ### Vocabularies -/

/-- The vocabulary is what is consumed along runs, whether or not they can stop. -/
theorem mem_vocabulary_iff (ha : a.WellFormed) {word : String} : word ∈ a.vocabulary ↔
    ∃ run arcs stop, a.Follows a.start run arcs stop ∧ word ∈ (Utterance.ofArcs arcs).words := by
  have hreach : ∀ state, state ∈ a.accessible.toList ↔ Graph.Reaches a.targets a.start state :=
    fun _ => Marks.mem_toList.trans (contains_accessible_iff ha)
  simp only [vocabulary, WordSet.mem_ofList, List.mem_flatMap, List.mem_filterMap, hreach]
  constructor
  · rintro ⟨state, hpath, arc, harc, hinput⟩
    obtain ⟨run, arcs, hrun⟩ := exists_follows_of_reaches hpath
    obtain ⟨i, hi⟩ := List.mem_iff_getElem?.1 harc
    refine ⟨run ++ [i], arcs ++ [arc], arc.target, hrun.append (.cons hi (.nil _)), ?_⟩
    rw [Utterance.ofArcs_append, Utterance.words_append, List.mem_append]
    exact .inr (by simp [Utterance.ofArcs, hinput])
  · rintro ⟨run, arcs, stop, hrun, hword⟩
    exact hrun.exists_arc_of_mem hword

theorem Mirrors.vocabulary_subset (h : b.Mirrors a) (ha : a.WellFormed) (hb : b.WellFormed)
    {word : String} (hword : word ∈ a.vocabulary) : word ∈ b.vocabulary := by
  obtain ⟨run, arcs, stop, hrun, hword⟩ := (mem_vocabulary_iff ha).1 hword
  obtain ⟨run', arcs', stop', hrun', -, hlabels⟩ := h run arcs stop hrun
  exact (mem_vocabulary_iff hb).2
    ⟨run', arcs', stop', hrun', ofArcs_eq_of_map_label_eq hlabels ▸ hword⟩

/-- Automata that mirror each other have the same vocabulary. -/
theorem Mirrors.vocabulary_eq (h : b.Mirrors a) (h' : a.Mirrors b) (ha : a.WellFormed)
    (hb : b.WellFormed) : a.vocabulary = b.vocabulary :=
  WordSet.ext fun _ => ⟨h.vocabulary_subset ha hb, h'.vocabulary_subset hb ha⟩

/-- What is made of the accepted runs is made of accepted runs that follow them. -/
theorem Mirrors.exists_offers (h : b.Mirrors a) {filter : Option WordSet}
    {makes : Utterance → Nat → List Nat → Alignment → Prop} {choices : List Nat}
    {found : Alignment} (hfound : a.Offers filter makes choices found) :
    ∃ others, b.Offers filter makes others found := by
  obtain ⟨run, arcs, used, hrun, hpasses, hmakes, -⟩ := hfound
  obtain ⟨run', arcs', hrun', hlabels⟩ := h.exists_accepts hrun
  have hutterance := ofArcs_eq_of_map_label_eq hlabels
  have hlength : arcs.length = arcs'.length := by simpa using congrArg List.length hlabels
  rw [hutterance] at hpasses
  rw [hutterance, hlength] at hmakes
  exact ⟨_, run', arcs', used, hrun', hpasses, hmakes, rfl⟩

end Automaton

/-! ### Strict recognition -/

namespace StrictRecognizer

variable {a b : Automaton} {dropUnknown : Bool} {filter : Option WordSet} {tokens : List String}

/-- A run that finishes is followed by one that does. -/
theorem exists_finishes_of_mirrors (h : b.Mirrors a) {run : List Nat} {arcs : List Automaton.Arc}
    (hfinishes : (new a dropUnknown filter).Finishes a.start tokens run arcs) :
    ∃ run' arcs', (new b dropUnknown filter).Finishes b.start tokens run' arcs' ∧
      Utterance.ofArcs arcs = Utterance.ofArcs arcs' := by
  obtain ⟨hstops, hallowed, hwords⟩ := hfinishes
  obtain ⟨run', arcs', hrun', hlabels⟩ := h.exists_accepts hstops
  have hutterance := Automaton.ofArcs_eq_of_map_label_eq hlabels
  refine ⟨run', arcs', ⟨hrun', ?_, hutterance ▸ hwords⟩, hutterance⟩
  exact isAllowed_iff_passes.2 (hutterance ▸ isAllowed_iff_passes.1 hallowed)

variable (h : b.Mirrors a) (h' : a.Mirrors b) (ha : a.WellFormed) (hb : b.WellFormed)
include h h' ha hb

theorem kept_eq_of_mirrors : (new a dropUnknown filter).kept tokens =
    (new b dropUnknown filter).kept tokens := by
  rw [kept, kept, new, new, h.vocabulary_eq h' ha hb]

/-- Something is found in both automata or in none. -/
theorem exists_findPath_iff_of_mirrors :
    (∃ output, (new a dropUnknown filter).findPath tokens = some output) ↔
      ∃ output, (new b dropUnknown filter).findPath tokens = some output := by
  rw [exists_findPath_iff (r := new a dropUnknown filter) ha,
    exists_findPath_iff (r := new b dropUnknown filter) hb]
  constructor
  · rintro ⟨run, arcs, hfinishes⟩
    obtain ⟨run', arcs', hfinishes', -⟩ := exists_finishes_of_mirrors h hfinishes
    exact ⟨run', arcs', hfinishes'⟩
  · rintro ⟨run, arcs, hfinishes⟩
    obtain ⟨run', arcs', hfinishes', -⟩ := exists_finishes_of_mirrors h' hfinishes
    exact ⟨run', arcs', hfinishes'⟩

/-- The same is found when there is no choice between two runs. -/
theorem findPath_eq_of_mirrors (hunique : ∀ run arcs run' arcs',
      (new a dropUnknown filter).Finishes a.start tokens run arcs →
      (new a dropUnknown filter).Finishes a.start tokens run' arcs' → run = run') :
    (new a dropUnknown filter).findPath tokens = (new b dropUnknown filter).findPath tokens := by
  have hiff : (∃ output, (new a dropUnknown filter).findPath tokens = some output) ↔
      ∃ output, (new b dropUnknown filter).findPath tokens = some output :=
    exists_findPath_iff_of_mirrors h h' ha hb
  cases hfind : (new b dropUnknown filter).findPath tokens with
  | none =>
    rw [hfind] at hiff
    refine Option.eq_none_iff_forall_ne_some.2 fun output houtput => ?_
    simpa using hiff.1 ⟨output, houtput⟩
  | some output =>
    -- The run that is found there is followed by the only one that finishes here.
    obtain ⟨run, arcs, hfinishes, rfl⟩ := exists_finishes_of_findPath hfind
    obtain ⟨run', arcs', hfinishes', hutterance⟩ := exists_finishes_of_mirrors h' hfinishes
    rw [hutterance]
    exact findPath_of_unique ha hfinishes' fun run arcs hrun =>
      hunique _ _ _ _ hrun hfinishes'

end StrictRecognizer

/-! ### Automata with which the same is recognized -/

/-- Recognition with two automata differs at most where it chooses between runs. -/
structure Automaton.MatchesAlike (a b : Automaton) : Prop where
  /-- Strict recognition matches with both automata or with none, with every filter and whether or
  not unknown words are dropped. -/
  isMatch_eq : ∀ dropUnknown filter tokens,
    ((StrictRecognizer.new a dropUnknown filter).recognize tokens).isMatch =
      ((StrictRecognizer.new b dropUnknown filter).recognize tokens).isMatch
  /-- It recognizes the same when no two accepted runs that may be taken consume the words. -/
  recognize_eq : ∀ dropUnknown filter tokens,
    (∀ run arcs run' arcs',
      (StrictRecognizer.new a dropUnknown filter).Finishes a.start
        ((StrictRecognizer.new a dropUnknown filter).kept tokens) run arcs →
      (StrictRecognizer.new a dropUnknown filter).Finishes a.start
        ((StrictRecognizer.new a dropUnknown filter).kept tokens) run' arcs' → run = run') →
    (StrictRecognizer.new a dropUnknown filter).recognize tokens =
      (StrictRecognizer.new b dropUnknown filter).recognize tokens
  /-- Fuzzy recognition finds an alignment with both automata or with none, at the same cost and
  with as many arcs, whatever may be skipped. The recognizers exist. -/
  alignment_eq : ∀ leniency filter, ∃ r r',
    FuzzyRecognizer.new a leniency filter = .ok r ∧
    FuzzyRecognizer.new b leniency filter = .ok r' ∧
    ∀ tokens, (r.bestAlignment tokens).map (fun found => (found.cost, found.arcs)) =
      (r'.bestAlignment tokens).map fun found => (found.cost, found.arcs)

/-- Automata that mirror each other are such, when their accepted runs decode. -/
theorem Automaton.matchesAlike_of_mirrors {a b : Automaton} {us vs : List Utterance}
    (ha : a.Spells us) (hb : b.Spells vs) (hus : ∀ u ∈ us, u.Decodes) (hvs : ∀ v ∈ vs, v.Decodes)
    (h : b.Mirrors a) (h' : a.Mirrors b) : a.MatchesAlike b := by
  have hwf := ha.tidy.wellFormed
  have hwf' := hb.tidy.wellFormed
  refine ⟨fun dropUnknown filter tokens => ?_, fun dropUnknown filter tokens hunique => ?_,
    fun leniency filter => ?_⟩
  · have hfaithful := StrictRecognizer.faithful_of_decodes (r := .new a dropUnknown filter)
      (fun run arcs hrun => hus _ (ha.mem_of_accepts hrun)) tokens
    have hfaithful' := StrictRecognizer.faithful_of_decodes (r := .new b dropUnknown filter)
      (fun run arcs hrun => hvs _ (hb.mem_of_accepts hrun)) tokens
    rw [Bool.eq_iff_iff, hfaithful.isMatch_iff, hfaithful'.isMatch_iff,
      StrictRecognizer.kept_eq_of_mirrors h h' hwf hwf',
      StrictRecognizer.exists_findPath_iff_of_mirrors h h' hwf hwf']
  · have hkept : (StrictRecognizer.new a dropUnknown filter).kept tokens =
        (StrictRecognizer.new b dropUnknown filter).kept tokens :=
      StrictRecognizer.kept_eq_of_mirrors h h' hwf hwf'
    have hfind := StrictRecognizer.findPath_eq_of_mirrors h h' hwf hwf' hunique
    rw [StrictRecognizer.recognize, StrictRecognizer.recognize, hfind, hkept]
  · obtain ⟨order, heq, horder⟩ := ha.exists_silentOrder
    obtain ⟨order', heq', horder'⟩ := hb.exists_silentOrder
    refine ⟨⟨a, order, leniency, filter⟩, ⟨b, order', leniency, filter⟩,
      by rw [FuzzyRecognizer.new, heq], by rw [FuzzyRecognizer.new, heq'], fun tokens => ?_⟩
    have hbest := FuzzyRecognizer.optimal_bestAlignment (r := ⟨a, order, leniency, filter⟩)
      hwf horder tokens
    have hbest' := FuzzyRecognizer.optimal_bestAlignment (r := ⟨b, order', leniency, filter⟩)
      hwf' horder' tokens
    refine Optimal.cost_arcs_eq (hbest.congr fun _ _ => FuzzyRecognizer.offers_iff.symm)
      (hbest'.congr fun _ _ => FuzzyRecognizer.offers_iff.symm) ?_ ?_
    · exact fun choices found hfound => h.exists_offers hfound
    · exact fun choices found hfound => h'.exists_offers hfound

/-! ### Compiled grammars -/

/-- The automaton of some intents follows the runs of that of the same intents in another order. -/
theorem ArePhrased.mirrors_perm {intents intents' : List (String × Automaton)}
    (h : ArePhrased intents) (hperm : intents.Perm intents') :
    (mergeIntents intents').Mirrors (mergeIntents intents) := by
  refine Automaton.mirrors_union (fun b hb => ?_) (hperm.map _).subset
  obtain ⟨part, hpart, rfl⟩ := List.mem_map.1 hb
  obtain ⟨us, hus, -⟩ := h part hpart
  exact (hus.wrap (.openIntent part.1) .closeIntent).tidy.wellFormed

namespace Grammar

/-- The order of the sections makes a difference only where recognition chooses between runs. A
grammar compiles in every order of its sections or in none. When it does, then strict recognition
matches in the same words, and recognizes the same when there is no choice between two runs; and
fuzzy recognition finds alignments in the same words, at the same cost and with as many arcs. -/
theorem matchesAlike_of_perm {allowed : Option WordSet} {text : String}
    {grammar grammar' : Grammar} {slots : Slots} (casing : Casing)
    (hgrammar : ofTextWith allowed text = .ok grammar) (hslots : slots.Defined)
    (hperm : grammar.Perm grammar') :
    ((∃ compiled, grammar.compile casing slots = .ok compiled) ↔
        ∃ compiled, grammar'.compile casing slots = .ok compiled) ∧
      ∀ compiled compiled', grammar.compile casing slots = .ok compiled →
        grammar'.compile casing slots = .ok compiled' →
          compiled.merged.MatchesAlike compiled'.merged := by
  refine ⟨exists_compile_perm hgrammar hslots hperm, fun compiled compiled' h h' => ?_⟩
  have hintents := intents_perm_of_compile hgrammar hslots hperm h h'
  have hphrased : ArePhrased compiled.intents :=
    fun part => isPhrased_of_mem_intents hgrammar hslots h
  have hphrased' : ArePhrased compiled'.intents :=
    fun part hpart => hphrased part (hintents.mem_iff.2 hpart)
  obtain ⟨us, hspells, hdecode⟩ := spells_mergeIntents hphrased
  obtain ⟨vs, hspells', hdecode'⟩ := spells_mergeIntents hphrased'
  rw [merged_eq_of_compile h, merged_eq_of_compile h']
  exact Automaton.matchesAlike_of_mirrors hspells hspells' hdecode hdecode'
    (hphrased.mirrors_perm hintents) (hphrased'.mirrors_perm hintents.symm)

/-- Two intents with a sentence in common, of which the second one refers to a rule of the first
one, and the same intents the other way round. -/
theorem matchesAlike_of_perm_remote : ∃ grammar slots compiled compiled',
    ofTextWith none
        "[Light]\nat = here | in the $room\nturn it on [<at>]\n[Radio]\nturn it on <Light.at>" =
      .ok grammar ∧ Slots.Defined slots ∧ grammar.compile .lower slots = .ok compiled ∧
    compile .lower grammar.reverse slots = .ok compiled' ∧
    compiled.merged.MatchesAlike compiled'.merged := by
  obtain ⟨grammar, slots, compiled, hgrammar, hslots, hcompile, -⟩ := @exists_compile
    "[Light]\nat = here | in the $room\nturn it on [<at>]\n[Radio]\nturn it on <Light.at>" "room"
    ["kitchen", "hall:lobby"] .lower (fun _ _ => true) (by decide +kernel)
  obtain ⟨hsuccess, halike⟩ := matchesAlike_of_perm .lower hgrammar hslots
    (List.reverse_perm grammar).symm
  obtain ⟨compiled', hcompile'⟩ := hsuccess.1 ⟨compiled, hcompile⟩
  exact ⟨grammar, slots, compiled, compiled', hgrammar, hslots, hcompile, hcompile',
    halike compiled compiled' hcompile hcompile'⟩

end Grammar

end Phrasebook
