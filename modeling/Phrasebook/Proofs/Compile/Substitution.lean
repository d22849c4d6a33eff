import Phrasebook.Proofs.Compile.Phrases

/-!
# What is reported for a bracket with a value

A bracket that is reported as a value keeps the words that it matches and reports none of them.
The entities inside it stay, and an entity whose tag gives a value of its own still reports that
one. So what is reported are the values that are given inside the bracket, where an entity's value
takes the place of those further inside, and then the value of the bracket.

* `Template.parts`: the templates that stand in a template.
* `Phrase.givenWords`: the words of the values that are given.
* `Phrase.wordsOf_unreportedAll`: they are all that phrases report which report no word.
* `Utterance.ReportsValue`: what an utterance decodes to when it is reported as a value.
* `Grammar.reportsValue_of_accepts`: it is true of every run of a bracket with a value.
-/

namespace Phrasebook

/-! ### Parts of a template -/

namespace Template

mutual

/-- The templates that stand in a template, the template itself among them. -/
def parts : Template → List Template
  | word text substitution => [word text substitution]
  | sequence items => sequence items :: partsAll items
  | alternation branches => alternation branches :: partsAll branches
  | optional inner => optional inner :: parts inner
  | ruleRef name => [ruleRef name]
  | slotRef name => [slotRef name]
  | tagged inner tag => tagged inner tag :: parts inner
  | substituted inner value => substituted inner value :: parts inner

/-- The templates that stand in those of a list. -/
def partsAll : List Template → List Template
  | [] => []
  | t :: ts => parts t ++ partsAll ts

end

mutual

/-- The parts of a legal template are legal. -/
theorem Legal.forall_parts {t : Template} (h : t.Legal) : ∀ part ∈ t.parts, part.Legal := by
  match t with
  | word text substitution => exact List.forall_mem_singleton.2 h
  | sequence items => exact List.forall_mem_cons.2 ⟨h, LegalAll.forall_parts h⟩
  | alternation branches => exact List.forall_mem_cons.2 ⟨h, LegalAll.forall_parts h⟩
  | optional inner => exact List.forall_mem_cons.2 ⟨h, Legal.forall_parts (t := inner) h⟩
  | ruleRef name => exact List.forall_mem_singleton.2 h
  | slotRef name => exact List.forall_mem_singleton.2 h
  | tagged inner tag => exact List.forall_mem_cons.2 ⟨h, Legal.forall_parts (t := inner) h.1⟩
  | substituted inner value =>
    exact List.forall_mem_cons.2 ⟨h, Legal.forall_parts (t := inner) h⟩

theorem LegalAll.forall_parts {ts : List Template} (h : LegalAll ts) :
    ∀ part ∈ partsAll ts, part.Legal := by
  match ts with
  | [] => exact fun _ h => absurd h List.not_mem_nil
  | t :: ts =>
    exact List.forall_mem_append.2 ⟨Legal.forall_parts h.1, LegalAll.forall_parts h.2⟩

end

end Template

/-! ### Values that are given -/

namespace Phrase

mutual

/-- The words of the values that are given in a phrase. The value of an entity takes the place of
everything inside. -/
def givenWords : Phrase → List String
  | word _ => []
  | substitution _ _ => []
  | entity _ none inner => givenWordsOf inner
  | entity _ (some value) _ => Text.words value

/-- The words of the values that are given in some phrases. -/
def givenWordsOf : List Phrase → List String
  | [] => []
  | p :: ps => givenWords p ++ givenWordsOf ps

end

mutual

theorem words_unreported (p : Phrase) : p.unreported.words = p.givenWords := by
  match p with
  | word text => exact Text.words_empty
  | substitution raw value => exact Text.words_empty
  | entity slot none inner => exact wordsOf_unreportedAll inner
  | entity slot (some value) inner => rfl

/-- Phrases that report no word still report the values that are given in them. -/
theorem wordsOf_unreportedAll (ps : List Phrase) :
    wordsOf (unreportedAll ps) = givenWordsOf ps := by
  match ps with
  | [] => rfl
  | p :: ps =>
    rw [unreportedAll, wordsOf, words_unreported p, wordsOf_unreportedAll ps, givenWordsOf]

end

theorem wordsOf_reportedAs (value : String) (ps : List Phrase) :
    wordsOf (reportedAs value ps) = givenWordsOf ps ++ Text.words value := by
  rw [reportedAs, wordsOf_append, wordsOf_unreportedAll, wordsOf, words, wordsOf, List.append_nil]

mutual

theorem givenWords_eq_nil (p : Phrase)
    (h : ∀ slot value, .openEntity slot (some value) ∈ p.symbols → Text.words value = []) :
    p.givenWords = [] := by
  match p with
  | word text => rfl
  | substitution raw value => rfl
  | entity slot none inner =>
    refine givenWordsOf_eq_nil inner fun slot value hmem => h slot value ?_
    exact List.mem_append_left _ (List.mem_cons_of_mem _ hmem)
  | entity slot (some value) inner => exact h slot value List.mem_cons_self

/-- Nothing is given where no entity has a value with a word. -/
theorem givenWordsOf_eq_nil (ps : List Phrase)
    (h : ∀ slot value, .openEntity slot (some value) ∈ symbolsOf ps → Text.words value = []) :
    givenWordsOf ps = [] := by
  match ps with
  | [] => rfl
  | p :: ps =>
    rw [givenWordsOf, givenWords_eq_nil p fun slot value hmem => h slot value
        (List.mem_append_left _ hmem),
      givenWordsOf_eq_nil ps fun slot value hmem => h slot value (List.mem_append_right _ hmem)]
    rfl

end

end Phrase

/-! ### Utterances that are reported as a value -/

/-- What an utterance decodes to when it is reported as a value. -/
structure Utterance.ReportsValue (value : String) (u : Utterance) (intent : Intent) : Prop where
  /-- What is put out decodes to the intent. -/
  ofSymbols_eq : Intent.ofSymbols (u.reportedAs value).output = .ok intent
  /-- The words that are consumed are matched. -/
  rawTokens_eq : intent.rawTokens = (u.reportedAs value).words
  /-- The utterance is that of some phrases. -/
  exists_phrases : ∃ ps, u.output = Phrase.symbolsOf ps
  /-- The values that are given in them are reported, and then the value. -/
  tokens_eq : ∀ ps, u.output = Phrase.symbolsOf ps →
    intent.tokens = Phrase.givenWordsOf ps ++ Text.words value
  /-- Nothing but the value is reported when no entity gives a value with a word. -/
  tokens_of_plain : (∀ slot given, .openEntity slot (some given) ∈ u.output →
    Text.words given = []) → intent.tokens = Text.words value

/-- Phrases that are reported as a value decode to their given values and that value. -/
theorem Phrase.ofSymbols_reportedAs {u : Utterance} {ps : List Phrase} (value : String)
    (h : u.output = symbolsOf ps) : ∃ intent, Intent.ofSymbols (u.reportedAs value).output =
      .ok intent ∧ intent.tokens = givenWordsOf ps ++ Text.words value ∧
      intent.rawTokens = rawWordsOf (reportedAs value ps) := by
  let t : Transcript := .plain (reportedAs value ps)
  have hsymbols : (u.reportedAs value).output = t.symbols := by
    rw [Utterance.reportedAs, h]
    exact (symbolsOf_reportedAs value ps).symm
  refine ⟨t.intent, ?_, wordsOf_reportedAs value ps, rfl⟩
  rw [hsymbols]
  exact mapError_eq_ok_iff.2 t.decode_symbols

/-- A phrased utterance can be reported as every value. -/
theorem Utterance.IsPhrased.exists_reportsValue {u : Utterance} (h : u.IsPhrased) (value : String) :
    ∃ intent, u.ReportsValue value intent := by
  obtain ⟨⟨ps, houtput, hwords⟩, hsingle⟩ := h
  obtain ⟨intent, hdecode, htokens, hraw⟩ := Phrase.ofSymbols_reportedAs value houtput
  refine ⟨intent, hdecode, ?_, ⟨ps, houtput⟩, fun qs hqs => ?_, fun hplain => ?_⟩
  · rw [hraw, Phrase.rawWordsOf_reportedAs value ps (houtput ▸ hsingle)]
    exact hwords.symm
  · obtain ⟨intent', hdecode', htokens', -⟩ := Phrase.ofSymbols_reportedAs value hqs
    rw [Except.ok.inj (hdecode.symm.trans hdecode'), htokens']
  · rw [htokens, Phrase.givenWordsOf_eq_nil ps (houtput ▸ hplain), List.nil_append]

/-! ### Brackets with a value -/

namespace Grammar

section Compile

variable {allowed : Option WordSet} {text : String} {grammar : Grammar} {slots : Slots}
  {casing : Casing} {compiled : Compiled}

/-- A bracket that is reported as a value stands in a template that is read from a line, and its
references have been built. Whatever stands inside it, every run of its automaton decodes; the
words that are matched are those that the run consumes, and the values that tags give inside are
reported before the value of the bracket. So the value alone is reported for every run exactly
when no words are given inside. -/
theorem reportsValue_of_accepts (hgrammar : ofTextWith allowed text = .ok grammar)
    (hslots : slots.Defined) (h : grammar.compile casing slots = .ok compiled)
    {label line : String} {number : Nat} {t : Template}
    (hline : Template.ofLine label number line = .ok t) {inCase : Casing} {inner : Template}
    {value : String} (hpart : .substituted inner value ∈ (t.mapWords inCase.apply).parts)
    {intent : String} {a : Automaton}
    (hbuild : (Template.substituted inner value).build compiled.parts.resolve intent = .ok a) :
    ∃ us, Template.Means (grammar.map (Section.mapWords casing.apply))
        (slots.mapWords casing.apply) intent inner us ∧
      (∀ run arcs, a.Accepts run arcs → ∃ u ∈ us, Utterance.ofArcs arcs = u.reportedAs value ∧
        ∃ decoded, u.ReportsValue value decoded) ∧
      ((∀ run arcs decoded, a.Accepts run arcs →
          Intent.ofSymbols (Utterance.ofArcs arcs).output = .ok decoded →
          decoded.tokens = Text.words value) ↔
        ∀ u ∈ us, ∀ ps, u.output = Phrase.symbolsOf ps → Phrase.givenWordsOf ps = []) := by
  have hproper := legal_of_ofTextWith hgrammar casing
  have hholds := hslots.legal casing
  obtain ⟨hspelt, -, -⟩ := spells_of_compileWords hproper hholds h
  obtain ⟨vs, hmeans, hspells⟩ := hspelt.resolves.spells_of_build hproper.pointless hbuild
  -- The bracket is legal because it stands in a template that is.
  have ht : (t.mapWords inCase.apply).Legal := (Template.legal_of_ofLine hline).mapWords
  have hinner : (Template.substituted inner value).Legal := ht.forall_parts _ hpart
  cases hmeans with
  | @substituted _ _ _ us part =>
    have hphrased := part.isPhrased hproper.holds hholds hinner
    -- Every run puts out an utterance of the inside, reported as the value.
    have hreported : ∀ run arcs, a.Accepts run arcs →
        ∃ u ∈ us, Utterance.ofArcs arcs = u.reportedAs value ∧
          ∃ decoded, u.ReportsValue value decoded := by
      intro run arcs hrun
      obtain ⟨u, hu, heq⟩ := List.mem_map.1 (hspells.mem_of_accepts hrun)
      exact ⟨u, hu, heq.symm, (hphrased u hu).exists_reportsValue value⟩
    refine ⟨us, part, hreported, fun hvalue u hu ps hps => ?_,
      fun hnothing run arcs decoded hrun hdecoded => ?_⟩
    · -- Every utterance of the inside is that of a run, which reports its given values too.
      obtain ⟨run, arcs, hrun, heq⟩ := hspells.exists_accepts (List.mem_map_of_mem hu)
      obtain ⟨decoded, hdecoded, htokens, -⟩ := Phrase.ofSymbols_reportedAs value hps
      have honly := hvalue run arcs decoded hrun (by rw [heq, hdecoded])
      rw [htokens] at honly
      exact List.append_left_eq_self.1 honly
    · obtain ⟨u, hu, heq, decoded', hdecoded'⟩ := hreported run arcs hrun
      obtain ⟨ps, hps⟩ := hdecoded'.exists_phrases
      rw [heq, hdecoded'.ofSymbols_eq] at hdecoded
      rw [← Except.ok.inj hdecoded, hdecoded'.tokens_eq ps hps, hnothing u hu ps hps,
        List.nil_append]

end Compile

/-- A bracket whose first word has a tag with a value of its own. -/
theorem reportsValue_of_accepts_given :
    ∃ grammar slots compiled t inner a run arcs decoded, ∃ us : List Utterance,
    ofTextWith none "[A]\n(a\x7bt:X\x7d b):v\n" = .ok grammar ∧ Slots.Defined slots ∧
    grammar.compile .keep slots = .ok compiled ∧
    Template.ofLine "A" 2 "(a\x7bt:X\x7d b):v" = .ok t ∧
    .substituted inner "v" ∈ (t.mapWords Casing.keep.apply).parts ∧
    (Template.substituted inner "v").build compiled.parts.resolve "A" = .ok a ∧
    a.Accepts run arcs ∧ Intent.ofSymbols (Utterance.ofArcs arcs).output = .ok decoded ∧
    decoded.tokens = ["X", "v"] ∧ decoded.rawTokens = ["a", "b"] ∧
    Template.Means (grammar.map (Section.mapWords Casing.keep.apply))
      (slots.mapWords Casing.keep.apply) "A" inner us ∧
    (∃ u ∈ us, Utterance.ofArcs arcs = u.reportedAs "v" ∧ ∃ decoded, u.ReportsValue "v" decoded) ∧
    ((∀ run arcs decoded, a.Accepts run arcs →
        Intent.ofSymbols (Utterance.ofArcs arcs).output = .ok decoded →
        decoded.tokens = Text.words "v") ↔
      ∀ u ∈ us, ∀ ps, u.output = Phrase.symbolsOf ps → Phrase.givenWordsOf ps = []) := by
  let t : Transcript := .plain [.entity "t" (some "X") [.substitution "a" ""],
    .substitution "b" "", .substitution "" "v"]
  let inner : Template := .sequence [.tagged (.word "a" none) ⟨"t", some "X"⟩, .word "b" none]
  have hscan : Token.scan false "(a\x7bt:X\x7d b):v".toList = .ok [⟨.openGroup, false⟩,
      ⟨.word "a", true⟩, ⟨.tag ⟨"t", some "X"⟩, true⟩, ⟨.word "b", false⟩, ⟨.closeGroup, true⟩,
      ⟨.word ":v", true⟩] := by decide +kernel
  have hline : Template.ofLine "A" 2 "(a\x7bt:X\x7d b):v" = .ok (.substituted inner "v") :=
    mapError_eq_ok_iff.2 (bind_eq_ok_iff.2 ⟨_, hscan, rfl⟩)
  obtain ⟨grammar, slots, compiled, hgrammar, hslots, hcompile, hcheck⟩ := @exists_compile
    "[A]\n(a\x7bt:X\x7d b):v\n" "unused" ["word"] .keep
    (fun _ compiled => decide (((Template.substituted inner "v").build compiled.parts.resolve
      "A").toOption.map (fun a : Automaton => a.utterances.map Utterance.output) =
        some [t.symbols])) (by decide +kernel)
  obtain ⟨a, hbuilt, houtputs⟩ := Option.map_eq_some_iff.1 (of_decide_eq_true hcheck)
  have hbuild := toOption_eq_some_iff.1 hbuilt
  have hmem : t.symbols ∈ a.utterances.map Utterance.output := by
    rw [houtputs]
    exact List.mem_cons_self
  obtain ⟨u, hu, houtput⟩ := List.mem_map.1 hmem
  obtain ⟨⟨run, arcs⟩, hlisted, rfl⟩ := List.mem_map.1 hu
  have hrun : a.Accepts run arcs := (Automaton.mem_runsFrom.1 hlisted).2
  have hdecoded : Intent.ofSymbols (Utterance.ofArcs arcs).output = .ok t.intent := by
    rw [houtput]
    exact mapError_eq_ok_iff.2 t.decode_symbols
  have hpart : Template.substituted inner "v" ∈
      ((Template.substituted inner "v").mapWords Casing.keep.apply).parts :=
    List.mem_cons_self
  obtain ⟨us, hmeans, hreported, hiff⟩ :=
    reportsValue_of_accepts hgrammar hslots hcompile hline hpart hbuild
  exact ⟨grammar, slots, compiled, _, inner, a, run, arcs, _, us, hgrammar, hslots, hcompile,
    hline, hpart, hbuild, hrun, hdecoded, by decide +kernel, by decide +kernel,
    hmeans, hreported run arcs hrun, hiff⟩

end Grammar

end Phrasebook
