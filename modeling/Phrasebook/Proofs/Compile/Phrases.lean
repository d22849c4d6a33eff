import Phrasebook.Proofs.Compile.Meaning
import Phrasebook.Proofs.Decoding
import Phrasebook.Proofs.Template.Legal
import Phrasebook.Proofs.Text.Words

/-!
# Utterances of templates are phrases

What a legal template puts out nests: it is the output of phrases whose matched words are those
that are consumed. In a compiled grammar the phrases of a sentence stand inside the intent of the
sentence, so every run of the merged automaton decodes.

* `Phrase.unreported`, `Phrase.reportedAs`: phrases that match the same words and report none of
  them, or a value.
* `Utterance.IsPhrased`: an utterance is that of some phrases.
* `Template.Carries`: what is carried over from templates to their utterances.
* `Template.Means.isPhrased`: the utterances of a legal template are phrased.
* `Utterance.DecodesAs`: an utterance decodes to an intent in which its words are matched.
* `Grammar.isPhrased_of_compile`: the utterances of every intent are phrased.
* `Grammar.spells_merged`: the merged automaton spells utterances that decode.
-/

namespace Phrasebook

/-! ### Phrases that report nothing -/

namespace Phrase

mutual

/-- The phrase that matches the same words and reports none. -/
def unreported : Phrase → Phrase
  | word text => .substitution text ""
  | substitution raw _ => .substitution raw ""
  | entity slot value inner => .entity slot value (unreportedAll inner)

/-- The phrases that match the same words and report none. -/
def unreportedAll : List Phrase → List Phrase
  | [] => []
  | p :: ps => unreported p :: unreportedAll ps

end

mutual

theorem symbols_unreported (p : Phrase) :
    p.unreported.symbols = p.symbols.map Utterance.unreported := by
  match p with
  | word text => rfl
  | substitution raw value => rfl
  | entity slot value inner =>
    rw [unreported, symbols, symbolsOf_unreportedAll inner, symbols, List.map_append]
    rfl

theorem symbolsOf_unreportedAll (ps : List Phrase) :
    symbolsOf (unreportedAll ps) = (symbolsOf ps).map Utterance.unreported := by
  match ps with
  | [] => rfl
  | p :: ps =>
    rw [unreportedAll, symbolsOf, symbols_unreported p, symbolsOf_unreportedAll ps, symbolsOf,
      List.map_append]

end

mutual

/-- When every word is a single one, the same words are matched. -/
theorem rawWords_unreported (p : Phrase) (h : ∀ w, .word w ∈ p.symbols → Text.words w = [w]) :
    p.unreported.rawWords = p.rawWords := by
  match p with
  | word text => exact h text List.mem_cons_self
  | substitution raw value => rfl
  | entity slot value inner =>
    refine rawWordsOf_unreportedAll inner fun w hw => h w ?_
    exact List.mem_append_left _ (List.mem_cons_of_mem _ hw)

theorem rawWordsOf_unreportedAll (ps : List Phrase)
    (h : ∀ w, .word w ∈ symbolsOf ps → Text.words w = [w]) :
    rawWordsOf (unreportedAll ps) = rawWordsOf ps := by
  match ps with
  | [] => rfl
  | p :: ps =>
    rw [unreportedAll, rawWordsOf, rawWordsOf,
      rawWords_unreported p fun w hw => h w (List.mem_append_left _ hw),
      rawWordsOf_unreportedAll ps fun w hw => h w (List.mem_append_right _ hw)]

end

/-- The phrases that match the same words and report a value behind them. -/
def reportedAs (value : String) (ps : List Phrase) : List Phrase :=
  unreportedAll ps ++ [.substitution "" value]

theorem symbolsOf_reportedAs (value : String) (ps : List Phrase) :
    symbolsOf (reportedAs value ps) =
      (symbolsOf ps).map Utterance.unreported ++ [.substitution "" value] := by
  rw [reportedAs, symbolsOf_append, symbolsOf_unreportedAll]
  rfl

theorem rawWordsOf_reportedAs (value : String) (ps : List Phrase)
    (h : ∀ w, .word w ∈ symbolsOf ps → Text.words w = [w]) :
    rawWordsOf (reportedAs value ps) = rawWordsOf ps := by
  rw [reportedAs, rawWordsOf_append, rawWordsOf_unreportedAll ps h, rawWordsOf, rawWords,
    Text.words_empty, rawWordsOf, List.append_nil, List.append_nil]

end Phrase

/-! ### Phrased utterances -/

/-- An utterance is that of some phrases: they put out its symbols and match its words. -/
structure Utterance.IsPhrased (u : Utterance) : Prop where
  /-- There are such phrases. -/
  exists_phrases : ∃ ps, u.output = Phrase.symbolsOf ps ∧ u.words = Phrase.rawWordsOf ps
  /-- Every word that is put out is a single one. -/
  single : ∀ w, .word w ∈ u.output → Text.words w = [w]

namespace Utterance.IsPhrased

variable {u v : Utterance}

theorem empty : Utterance.empty.IsPhrased :=
  ⟨⟨[], rfl, rfl⟩, fun _ h => absurd h List.not_mem_nil⟩

theorem append (hu : u.IsPhrased) (hv : v.IsPhrased) : (u ++ v).IsPhrased := by
  obtain ⟨⟨ps, houtput, hwords⟩, hu⟩ := hu
  obtain ⟨⟨qs, houtput', hwords'⟩, hv⟩ := hv
  refine ⟨⟨ps ++ qs, ?_, ?_⟩, fun w hw => (List.mem_append.1 hw).elim (hu w) (hv w)⟩
  · rw [output_append, houtput, houtput', Phrase.symbolsOf_append]
  · rw [words_append, hwords, hwords', Phrase.rawWordsOf_append]

theorem within (hu : u.IsPhrased) (tag : Tag) : (u.within tag).IsPhrased := by
  obtain ⟨⟨ps, houtput, hwords⟩, hu⟩ := hu
  refine ⟨⟨[.entity tag.slot tag.value ps], ?_, ?_⟩, fun w hw => hu w ?_⟩
  · rw [Utterance.within, houtput, Phrase.symbolsOf, Phrase.symbols, Phrase.symbolsOf,
      List.append_nil]
  · rw [Utterance.within, hwords, Phrase.rawWordsOf, Phrase.rawWords, Phrase.rawWordsOf,
      List.append_nil]
  · rw [Utterance.within] at hw
    simpa using hw

theorem reportedAs (hu : u.IsPhrased) (value : String) : (u.reportedAs value).IsPhrased := by
  obtain ⟨⟨ps, houtput, hwords⟩, hu⟩ := hu
  rw [houtput] at hu
  refine ⟨⟨Phrase.reportedAs value ps, ?_, ?_⟩, fun w hw => ?_⟩
  · rw [Utterance.reportedAs, houtput, Phrase.symbolsOf_reportedAs]
  · rw [Utterance.reportedAs, hwords, Phrase.rawWordsOf_reportedAs value ps hu]
  · -- Words are not left among symbols that report nothing.
    rcases List.mem_append.1 hw with hw | hw
    · obtain ⟨symbol, _, heq⟩ := List.mem_map.1 hw
      cases symbol <;> cases heq
    · cases List.mem_singleton.1 hw

theorem word {text : String} {substitution : Option String} (htext : IsLegalWord text)
    (hne : text = "" → substitution.isSome = true) :
    (Template.utteranceOfWord text substitution).IsPhrased := by
  have hwords : (if text = "" then [] else [text]) = Text.words text := by
    split
    · next hempty => rw [hempty, Text.words_empty]
    · next hnonempty => exact (Text.words_of_isUnbroken htext.unbroken hnonempty).symm
  cases substitution with
  | some value =>
    refine ⟨⟨[.substitution text value], rfl, ?_⟩, fun w hw => ?_⟩
    · exact hwords.trans (List.append_nil _).symm
    · cases List.mem_singleton.1 hw
  | none =>
    have hnonempty : text ≠ "" := fun hempty => absurd (hne hempty) Bool.false_ne_true
    refine ⟨⟨[.word text], rfl, if_neg hnonempty⟩, fun w hw => ?_⟩
    cases List.mem_singleton.1 hw
    exact Text.words_of_isUnbroken htext.unbroken hnonempty

end Utterance.IsPhrased

/-! ### Templates -/

/-- What holds of a template is handed on to the parts that stand in it, and something else holds
of the utterances that are put together as templates are. -/
structure Template.Carries (P : Template → Prop) (Q : Utterance → Prop) : Prop where
  /-- It is handed on to the items of a sequence. -/
  item : ∀ {items t}, P (sequence items) → t ∈ items → P t
  /-- It holds of an alternation when it holds of the branches. -/
  branches : ∀ {branches}, P (alternation branches) ↔ ∀ t ∈ branches, P t
  /-- It is handed on to what is optional. -/
  optional : ∀ {inner}, P (.optional inner) → P inner
  /-- It is handed on to what is tagged. -/
  tagged : ∀ {inner tag}, P (tagged inner tag) → P inner
  /-- It is handed on to what is reported as a value. -/
  substituted : ∀ {inner value}, P (substituted inner value) → P inner
  /-- The utterances of words. -/
  word : ∀ {text substitution}, P (word text substitution) → Q (utteranceOfWord text substitution)
  /-- The empty utterance. -/
  empty : Q .empty
  /-- One utterance followed by another one. -/
  append : ∀ {u v}, Q u → Q v → Q (u ++ v)
  /-- The value of a slot as an entity of the slot's name. -/
  slotRef : ∀ {name u}, P (slotRef name) → Q u → Q (u.within ⟨name, none⟩)
  /-- A tagged part as an entity. -/
  within : ∀ {inner tag u}, P (.tagged inner tag) → Q u → Q (u.within tag)
  /-- An utterance that is reported as a value. -/
  reportedAs : ∀ {u value}, Q u → Q (u.reportedAs value)

namespace Template.Carries

variable {P : Template → Prop} {Q : Utterance → Prop}

theorem of_mem_sequences (hPQ : Carries P Q) {lists : List (List Utterance)}
    (h : ∀ us ∈ lists, ∀ u ∈ us, Q u) {u : Utterance} (hu : u ∈ Utterance.sequences lists) :
    Q u := by
  induction lists generalizing u with
  | nil =>
    rw [List.mem_singleton.1 hu]
    exact hPQ.empty
  | cons us lists ih =>
    obtain ⟨hus, hlists⟩ := List.forall_mem_cons.1 h
    obtain ⟨first, hfirst, hu⟩ := List.mem_flatMap.1 hu
    obtain ⟨rest, hrest, rfl⟩ := List.mem_map.1 hu
    exact hPQ.append (hus first hfirst) (ih hlists hrest)

theorem of_mem_flatten {lists : List (List Utterance)} (h : ∀ us ∈ lists, ∀ u ∈ us, Q u)
    {u : Utterance} (hu : u ∈ lists.flatten) : Q u := by
  obtain ⟨us, hus, hu⟩ := List.mem_flatten.1 hu
  exact h us hus u hu

variable {grammar : Grammar} {slots : Slots}

mutual

/-- What is carried over holds of all utterances of a template, when its premise holds of the
template and of everything that it can refer to. -/
theorem forall_mem (hPQ : Carries P Q) (hgrammar : ∀ s ∈ grammar, s.Holds P)
    (hslots : slots.Holds P) {intent : String} {t : Template} {us : List Utterance}
    (h : Means grammar slots intent t us) (ht : P t) : ∀ u ∈ us, Q u := by
  match h with
  | .word => exact List.forall_mem_singleton.2 (hPQ.word ht)
  | .sequence each =>
    have heach := hPQ.forall_mem_each hgrammar hslots each fun _ => hPQ.item ht
    exact fun _ => hPQ.of_mem_sequences heach
  | .alternation each =>
    have heach := hPQ.forall_mem_each hgrammar hslots each (hPQ.branches.1 ht)
    exact fun _ => of_mem_flatten heach
  | .optional part =>
    exact List.forall_mem_append.2 ⟨hPQ.forall_mem hgrammar hslots part (hPQ.optional ht),
      List.forall_mem_singleton.2 hPQ.empty⟩
  | .ruleRef found part =>
    obtain ⟨s, hs, hbody⟩ := Option.bind_eq_some_iff.1 found
    have hrule := (hgrammar s (List.mem_of_find?_eq_some hs)).rules.find? hbody
    exact hPQ.forall_mem hgrammar hslots part hrule
  | .slotRef found each =>
    have heach := hPQ.forall_mem_each hgrammar hslots each fun t ht => (hslots.find? found t ht).1
    exact List.forall_mem_map.2 fun u hu => hPQ.slotRef ht (of_mem_flatten heach hu)
  | .taggedSlot found each =>
    have heach := hPQ.forall_mem_each hgrammar hslots each fun t ht => (hslots.find? found t ht).1
    exact List.forall_mem_map.2 fun u hu => hPQ.within ht (of_mem_flatten heach hu)
  | .tagged _ part =>
    have hpart := hPQ.forall_mem hgrammar hslots part (hPQ.tagged ht)
    exact List.forall_mem_map.2 fun u hu => hPQ.within ht (hpart u hu)
  | .substituted part =>
    have hpart := hPQ.forall_mem hgrammar hslots part (hPQ.substituted ht)
    exact List.forall_mem_map.2 fun u hu => hPQ.reportedAs (hpart u hu)

theorem forall_mem_each (hPQ : Carries P Q) (hgrammar : ∀ s ∈ grammar, s.Holds P)
    (hslots : slots.Holds P) {intent : String} {ts : List Template}
    {lists : List (List Utterance)} (h : MeanEach grammar slots intent ts lists)
    (hts : ∀ t ∈ ts, P t) : ∀ us ∈ lists, ∀ u ∈ us, Q u := by
  match h with
  | .nil => exact fun _ h => absurd h List.not_mem_nil
  | .cons first rest =>
    obtain ⟨ht, hts⟩ := List.forall_mem_cons.1 hts
    exact List.forall_mem_cons.2 ⟨hPQ.forall_mem hgrammar hslots first ht,
      hPQ.forall_mem_each hgrammar hslots rest hts⟩

end

end Template.Carries

/-- Legal templates put out phrased utterances. -/
theorem Template.carries_legal : Carries Legal Utterance.IsPhrased where
  item h ht := legalAll_iff.1 h _ ht
  branches := legalAll_iff
  optional h := h
  tagged h := h.1
  substituted h := h
  word h := .word h.1 h.2
  empty := .empty
  append hu hv := hu.append hv
  slotRef _ hu := hu.within _
  within _ hu := hu.within _
  reportedAs hu := hu.reportedAs _

/-- The utterances of a legal template are phrased. -/
theorem Template.Means.isPhrased {grammar : Grammar} {slots : Slots}
    (hgrammar : ∀ s ∈ grammar, s.Holds Legal) (hslots : slots.Holds Legal) {intent : String}
    {t : Template} {us : List Utterance} (h : Means grammar slots intent t us) (ht : t.Legal) :
    ∀ u ∈ us, u.IsPhrased :=
  carries_legal.forall_mem hgrammar hslots h ht

/-! ### The merged automaton -/

/-- The utterance between the markers of an intent. -/
def Utterance.inIntent (name : String) (u : Utterance) : Utterance :=
  ⟨u.words, .openIntent name :: u.output ++ [.closeIntent]⟩

/-- An utterance decodes to an intent of some name, which is certain, and in which its words are
matched. -/
def Utterance.DecodesAs (name : String) (u : Utterance) : Prop :=
  ∃ intent, Intent.ofSymbols u.output = .ok intent ∧ intent.name = some name ∧
    intent.confidence = 1 ∧ intent.rawTokens = u.words

/-- An utterance decodes to an intent in which its words are matched. -/
def Utterance.Decodes (u : Utterance) : Prop :=
  ∃ intent, Intent.ofSymbols u.output = .ok intent ∧ intent.name.isSome = true ∧
    intent.rawTokens = u.words

theorem Utterance.DecodesAs.decodes {name : String} {u : Utterance} (h : u.DecodesAs name) :
    u.Decodes := by
  obtain ⟨intent, hdecode, hname, -, hraw⟩ := h
  exact ⟨intent, hdecode, by rw [hname]; rfl, hraw⟩

/-- Inside an intent, a phrased utterance decodes to that intent. -/
theorem Utterance.IsPhrased.decodesAs {u : Utterance} (h : u.IsPhrased) (name : String) :
    (u.inIntent name).DecodesAs name := by
  obtain ⟨⟨ps, houtput, hwords⟩, _⟩ := h
  obtain ⟨intent, hdecode, hname, hconfidence, hraw⟩ := Transcript.exists_ofSymbols name ps
  refine ⟨intent, ?_, hname, hconfidence, hraw.trans hwords.symm⟩
  rw [Utterance.inIntent, houtput]
  exact hdecode

/-- Between the markers of an intent, its automaton spells the same utterances with the markers. -/
theorem forall₂_spells_wrap {intents : List (String × Automaton)}
    (h : ∀ part ∈ intents, ∃ us, part.2.Spells us) :
    List.Forall₂ Automaton.Spells
      (intents.map fun part => part.2.wrap (.openIntent part.1) .closeIntent)
      (intents.map fun part => part.2.utterances.map (Utterance.inIntent part.1)) := by
  rw [List.forall₂_map_left_iff, List.forall₂_map_right_iff, List.forall₂_same]
  intro part hpart
  obtain ⟨us, hus⟩ := h part hpart
  rw [hus.lists.utterances_eq]
  exact hus.wrap (.openIntent part.1) .closeIntent

/-- The automaton of some intents spells utterances that decode when those of every intent are
phrased. -/
theorem spells_mergeIntents {intents : List (String × Automaton)}
    (h : ∀ part ∈ intents, ∃ us, part.2.Spells us ∧ ∀ u ∈ us, u.IsPhrased) :
    ∃ us, (mergeIntents intents).Spells us ∧ ∀ u ∈ us, u.Decodes := by
  have hspells := forall₂_spells_wrap fun part hpart => (h part hpart).imp fun us hus => hus.1
  refine ⟨_, Automaton.spells_union hspells, fun v hv => ?_⟩
  obtain ⟨us, hus, hv⟩ := List.mem_flatten.1 hv
  obtain ⟨part, hpart, rfl⟩ := List.mem_map.1 hus
  obtain ⟨u, hu, rfl⟩ := List.mem_map.1 hv
  obtain ⟨us, hspell, hphrased⟩ := h part hpart
  rw [hspell.lists.utterances_eq] at hu
  exact ((hphrased u hu).decodesAs part.1).decodes

/-- Every template of a grammar that is read is legal, in every letter case. -/
theorem Grammar.legal_of_ofTextWith {allowed : Option WordSet} {text : String} {grammar : Grammar}
    (h : ofTextWith allowed text = .ok grammar) (casing : Casing) :
    Section.Proper Template.Legal (grammar.map (Section.mapWords casing.apply)) :=
  (Section.proper_of_ofTextWith (fun _ _ _ _ => Template.legal_of_ofLine) h).mapWords
    fun _ => Template.Legal.mapWords

/-- So is every value of a slot. -/
theorem Slots.Defined.legal {slots : Slots} (h : slots.Defined) (casing : Casing) :
    (slots.mapWords casing.apply).Holds Template.Legal :=
  Slots.holds_mapWords (h.holds fun _ _ _ _ => Template.legal_of_ofLine)
    fun _ => Template.Legal.mapWords

/-- What is carried over from the lines of a grammar and its slots holds of the utterances that the
automata of its intents spell. -/
theorem Template.Carries.forall₂_of_compile {P : Template → Prop} {Q : Utterance → Prop}
    (hPQ : Carries P Q) {allowed : Option WordSet} {text : String} {grammar : Grammar}
    {slots : Slots} {casing : Casing} {compiled : Compiled}
    (hread : ∀ label number text t, ofLine label number text = .ok t → P (t.mapWords casing.apply))
    (hgrammar : Grammar.ofTextWith allowed text = .ok grammar) (hslots : slots.Defined)
    (h : grammar.compile casing slots = .ok compiled) :
    List.Forall₂ (fun s part => part.1 = s.intent ∧
        ∃ us, part.2.Spells us ∧ ∀ u ∈ us, Q u) grammar compiled.intents ∧
      compiled.merged = mergeIntents compiled.intents := by
  have hproper : Section.Proper P (grammar.map (Section.mapWords casing.apply)) :=
    (Section.proper_of_ofTextWith hread hgrammar).mapWords fun _ => id
  have hholds : (slots.mapWords casing.apply).Holds P :=
    Slots.holds_mapWords (hslots.holds hread) fun _ => id
  obtain ⟨_, hintents, hmerged⟩ := Grammar.spells_of_compileWords hproper hholds h
  refine ⟨?_, hmerged⟩
  have htemplate : ∀ s ∈ grammar, P (s.mapWords casing.apply).template := fun s hs =>
    hPQ.branches.2 (hproper.holds _ (List.mem_map_of_mem hs)).sentences
  rw [List.forall₂_map_left_iff] at hintents
  refine ((List.forall₂_and_left _ _).2 ⟨htemplate, hintents⟩).imp
    fun s part ⟨hs, hname, us, hmean, hspell⟩ => ?_
  exact ⟨hname, us, hspell, hPQ.forall_mem hproper.holds hholds hmean hs⟩

/-- It holds of what the automaton of each intent spells. -/
theorem Template.Carries.exists_spells_of_mem {P : Template → Prop} {Q : Utterance → Prop}
    (hPQ : Carries P Q) {allowed : Option WordSet} {text : String} {grammar : Grammar}
    {slots : Slots} {casing : Casing} {compiled : Compiled}
    (hread : ∀ label number text t, ofLine label number text = .ok t → P (t.mapWords casing.apply))
    (hgrammar : Grammar.ofTextWith allowed text = .ok grammar) (hslots : slots.Defined)
    (h : grammar.compile casing slots = .ok compiled) {part : String × Automaton}
    (hpart : part ∈ compiled.intents) : ∃ us, part.2.Spells us ∧ ∀ u ∈ us, Q u := by
  obtain ⟨hintents, -⟩ := hPQ.forall₂_of_compile hread hgrammar hslots h
  obtain ⟨s, -, -, hspells⟩ := exists_of_mem_right hintents hpart
  exact hspells

/-- The automata of the intents of a compiled grammar spell phrased utterances. -/
theorem Grammar.isPhrased_of_compile {allowed : Option WordSet} {text : String}
    {grammar : Grammar} {slots : Slots} {casing : Casing} {compiled : Compiled}
    (hgrammar : ofTextWith allowed text = .ok grammar) (hslots : slots.Defined)
    (h : grammar.compile casing slots = .ok compiled) :
    List.Forall₂ (fun s part => part.1 = s.intent ∧
        ∃ us, part.2.Spells us ∧ ∀ u ∈ us, u.IsPhrased) grammar compiled.intents ∧
      compiled.merged = mergeIntents compiled.intents :=
  Template.carries_legal.forall₂_of_compile
    (fun _ _ _ _ hline => (Template.legal_of_ofLine hline).mapWords) hgrammar hslots h

/-- So does the automaton of each one of them. -/
theorem Grammar.isPhrased_of_mem_intents {allowed : Option WordSet} {text : String}
    {grammar : Grammar} {slots : Slots} {casing : Casing} {compiled : Compiled}
    (hgrammar : ofTextWith allowed text = .ok grammar) (hslots : slots.Defined)
    (h : grammar.compile casing slots = .ok compiled) {part : String × Automaton}
    (hpart : part ∈ compiled.intents) : ∃ us, part.2.Spells us ∧ ∀ u ∈ us, u.IsPhrased :=
  Template.carries_legal.exists_spells_of_mem
    (fun _ _ _ _ hline => (Template.legal_of_ofLine hline).mapWords) hgrammar hslots h hpart

/-- The merged automaton of a compiled grammar spells utterances that decode. -/
theorem Grammar.spells_merged {allowed : Option WordSet} {text : String} {grammar : Grammar}
    {slots : Slots} {casing : Casing} {compiled : Compiled}
    (hgrammar : ofTextWith allowed text = .ok grammar) (hslots : slots.Defined)
    (h : grammar.compile casing slots = .ok compiled) :
    ∃ us, compiled.merged.Spells us ∧ ∀ u ∈ us, u.Decodes := by
  rw [(isPhrased_of_compile hgrammar hslots h).2]
  exact spells_mergeIntents fun part => isPhrased_of_mem_intents hgrammar hslots h

end Phrasebook
