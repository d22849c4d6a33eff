import Phrasebook.Proofs.Compile.Entities
import Phrasebook.Proofs.Example.Sample

/-!
# Tags of words

The entities of an example are tagged one after another, so a word has the tag of the last one
that covers it. Entities are listed in the order in which they are opened, so this is the one that
was opened last. The words and the names of entities hold no blanks, and the line of an example
can be taken apart again.

* `Entity.Covers`, `Entity.IsLastAt`: the last entity that covers a word.
* `Example.getElem?_tags_of_isLastAt`, `Example.getElem?_tags_of_not_covers`: the tag of a word.
* `Example.IsAligned`: what can be read off the line of an example.
* `Grammar.isAligned_of_accepts`: it holds for every accepted run of a compiled grammar.
* `Grammar.exists_compile_example`: the example of a grammar that has only one.
-/

namespace Phrasebook

/-! ### Entities and words -/

namespace Entity

/-- The word at a position is one of the entity's reported words. -/
def Covers (e : Entity) (i : Nat) : Prop := e.start ≤ i ∧ i < e.stop

instance (e : Entity) (i : Nat) : Decidable (e.Covers i) :=
  inferInstanceAs (Decidable (e.start ≤ i ∧ i < e.stop))

/-- The tag of the word at a position, when it is that of the entity. -/
def tagAt (e : Entity) (i : Nat) : String := (if i = e.start then "B-" else "I-") ++ e.name

/-- The entity covers the word at a position, and none of those behind it does. -/
def IsLastAt (entities : List Entity) (i : Nat) (e : Entity) : Prop :=
  ∃ before behind, entities = before ++ e :: behind ∧ e.Covers i ∧
    ∀ later ∈ behind, ¬ later.Covers i

variable {entities : List Entity} {e : Entity} {i : Nat}

theorem IsLastAt.mem (h : IsLastAt entities i e) : e ∈ entities := by
  obtain ⟨before, behind, rfl, -, -⟩ := h
  exact List.mem_append_right _ List.mem_cons_self

/-- Of the entities that cover a word one is the last. -/
theorem exists_isLastAt (h : ∃ e ∈ entities, e.Covers i) : ∃ e, IsLastAt entities i e := by
  induction entities with
  | nil =>
    obtain ⟨_, hmem, _⟩ := h
    cases hmem
  | cons first rest ih =>
    by_cases hrest : ∃ e ∈ rest, e.Covers i
    · obtain ⟨e, before, behind, rfl, hlast⟩ := ih hrest
      exact ⟨e, first :: before, behind, rfl, hlast⟩
    · obtain ⟨e, hmem, hcovers⟩ := h
      rcases List.mem_cons.1 hmem with rfl | hmem
      · exact ⟨e, [], rest, rfl, hcovers, fun later hlater hlast => hrest ⟨later, hlater, hlast⟩⟩
      · exact absurd ⟨e, hmem, hcovers⟩ hrest

/-- The tag of an entity has a letter and a hyphen in front of the name. -/
theorem two_le_length_tagAt : 2 ≤ (e.tagAt i).length := by
  rw [tagAt, String.length_append]
  split <;> exact Nat.le_add_right 2 _

/-- No tag of an entity is that of the words outside. -/
theorem tagAt_ne : e.tagAt i ≠ "O" := by
  intro h
  have hlength : 2 ≤ "O".length := h ▸ two_le_length_tagAt
  exact absurd hlength (by decide +kernel)

end Entity

/-! ### Tagging -/

namespace Example

variable {tags : List String} {entities : List Entity} {e : Entity} {i : Nat}

/-- An entity changes the tags of the words that it covers. -/
theorem getElem?_tagEntity (hspan : e.start ≤ e.stop ∧ e.stop ≤ tags.length) :
    (tagEntity tags e)[i]? = tags[i]?.map fun tag => if e.Covers i then e.tagAt i else tag := by
  rw [tagEntity, if_pos hspan, List.getElem?_map, List.getElem?_zipIdx, Option.map_map,
    Nat.zero_add]
  refine congrArg (Option.map · tags[i]?) (funext fun tag => ?_)
  dsimp only [Function.comp_def]
  by_cases hcovers : e.Covers i
  · rw [if_pos hcovers, Entity.tagAt]
    obtain ⟨hstart, hstop⟩ := hcovers
    rcases Nat.eq_or_lt_of_le hstart with heq | hlt
    · rw [if_pos ⟨heq.symm, hstop⟩, if_pos heq.symm]
    · rw [if_neg fun h => hlt.ne' h.1, if_pos ⟨hlt, hstop⟩, if_neg hlt.ne']
  · rw [if_neg hcovers, if_neg fun h => hcovers ⟨h.1.ge, h.2⟩,
      if_neg fun h => hcovers ⟨h.1.le, h.2⟩]

theorem length_tagEntity : (tagEntity tags e).length = tags.length := by
  rw [tagEntity]
  split
  · rw [List.length_map, List.length_zipIdx]
  · rfl

theorem length_foldl_tagEntity : (entities.foldl tagEntity tags).length = tags.length := by
  induction entities generalizing tags with
  | nil => rfl
  | cons e entities ih => rw [List.foldl_cons, ih, length_tagEntity]

/-- The tag of a word that none of the entities covers stays. -/
theorem getElem?_foldl_of_not_covers
    (hspans : ∀ e ∈ entities, e.start ≤ e.stop ∧ e.stop ≤ tags.length)
    (h : ∀ e ∈ entities, ¬ e.Covers i) : (entities.foldl tagEntity tags)[i]? = tags[i]? := by
  induction entities generalizing tags with
  | nil => rfl
  | cons e entities ih =>
    obtain ⟨hspan, hspans⟩ := List.forall_mem_cons.1 hspans
    obtain ⟨hnot, hrest⟩ := List.forall_mem_cons.1 h
    rw [List.foldl_cons, ih (by rwa [length_tagEntity]) hrest, getElem?_tagEntity hspan]
    simp only [if_neg hnot, Option.map_id']

/-- A word gets the tag of the last entity that covers it. -/
theorem getElem?_foldl_of_isLastAt
    (hspans : ∀ e ∈ entities, e.start ≤ e.stop ∧ e.stop ≤ tags.length)
    (h : Entity.IsLastAt entities i e) :
    (entities.foldl tagEntity tags)[i]? = some (e.tagAt i) := by
  obtain ⟨before, behind, rfl, hcovers, hbehind⟩ := h
  obtain ⟨-, hspans⟩ := List.forall_mem_append.1 hspans
  obtain ⟨hspan, hspans⟩ := List.forall_mem_cons.1 hspans
  have hlength : (before.foldl tagEntity tags).length = tags.length := length_foldl_tagEntity
  have hlt : i < (before.foldl tagEntity tags).length := by
    have := hcovers.2
    omega
  -- Whatever the entities before it do to the word, this one tags it, and those behind leave it.
  rw [List.foldl_append, List.foldl_cons, getElem?_foldl_of_not_covers _ hbehind,
    getElem?_tagEntity (by rwa [hlength]), List.getElem?_eq_getElem hlt]
  · rw [Option.map_some, if_pos hcovers]
  · rwa [length_tagEntity, hlength]

end Example

/-! ### Words and names without blanks -/

namespace Phrase

mutual

/-- Reported words are single ones when the matched words that are reported are. -/
theorem words_of_mem_words (p : Phrase) (h : ∀ w, .word w ∈ p.symbols → Text.words w = [w]) :
    ∀ w ∈ p.words, Text.words w = [w] := by
  match p with
  | word text => exact List.forall_mem_singleton.2 (h text List.mem_cons_self)
  | substitution raw value => exact fun w => Text.words_of_mem_words
  | entity slot none inner =>
    refine words_of_mem_wordsOf inner fun w hw => h w ?_
    exact List.mem_append_left _ (List.mem_cons_of_mem _ hw)
  | entity slot (some value) inner => exact fun w => Text.words_of_mem_words

theorem words_of_mem_wordsOf (ps : List Phrase)
    (h : ∀ w, .word w ∈ symbolsOf ps → Text.words w = [w]) :
    ∀ w ∈ wordsOf ps, Text.words w = [w] := by
  match ps with
  | [] => exact fun _ h => absurd h List.not_mem_nil
  | p :: ps =>
    exact List.forall_mem_append.2
      ⟨words_of_mem_words p fun w hw => h w (List.mem_append_left _ hw),
        words_of_mem_wordsOf ps fun w hw => h w (List.mem_append_right _ hw)⟩

end

end Phrase

/-- A tag is a single word when the name of the entity holds no blank. -/
theorem Entity.words_tagAt {e : Entity} {i : Nat} (h : IsUnbroken e.name) :
    Text.words (e.tagAt i) = [e.tagAt i] := by
  have hmark : ∀ c ∈ (if i = e.start then "B-" else "I-").toList, isBlank c = false := by
    split <;> simp [isBlank]
  refine Text.words_of_isUnbroken ?_ fun hempty => ?_
  · rw [IsUnbroken, tagAt, String.toList_append]
    exact List.forall_mem_append.2 ⟨hmark, h⟩
  · have hlength : 2 ≤ "".length := hempty ▸ two_le_length_tagAt
    simp at hlength

namespace Example

/-- What makes the line of an example readable: the spans of its entities are spans of its words,
and words and names hold no blanks. -/
structure IsReadable (e : Example) : Prop where
  /-- The intent is named by an identifier. -/
  name : ∃ name, e.intent.name = some name ∧ isIdentifier name.toList = true
  /-- The reported words are single ones. -/
  words : ∀ w ∈ e.intent.tokens, Text.words w = [w]
  /-- The entities are named by unbroken texts. -/
  unbroken : ∀ entity ∈ e.intent.entities, IsUnbroken entity.name
  /-- The spans lie within the words. -/
  spans : ∀ entity ∈ e.intent.entities,
    entity.start ≤ entity.stop ∧ entity.stop ≤ e.intent.tokens.length
  /-- Of two entities the later one lies behind the earlier one or inside it. -/
  nested : e.intent.entities.Pairwise NestedOrDisjoint
  /-- The entities are listed in the order in which they are opened. -/
  opened : e.intent.entities.map Entity.name = e.symbols.filterMap Symbol.opened?

namespace IsReadable

variable {e : Example} {entity : Entity} {i : Nat}

theorem length_tags : e.tags.length = e.intent.tokens.length := by
  rw [tags, length_foldl_tagEntity, List.length_map]

theorem spans_tags (h : e.IsReadable) : ∀ entity ∈ e.intent.entities,
    entity.start ≤ entity.stop ∧ entity.stop ≤ (e.intent.tokens.map fun _ => "O").length := by
  rw [List.length_map]
  exact h.spans

/-- A word has the tag of the last entity that covers it. -/
theorem getElem?_tags_of_isLastAt (h : e.IsReadable)
    (hlast : Entity.IsLastAt e.intent.entities i entity) :
    e.tags[i]? = some (entity.tagAt i) :=
  getElem?_foldl_of_isLastAt h.spans_tags hlast

/-- A word that no entity covers is tagged as being outside. -/
theorem getElem?_tags_of_not_covers (h : e.IsReadable) (hi : i < e.intent.tokens.length)
    (hnot : ∀ entity ∈ e.intent.entities, ¬ entity.Covers i) : e.tags[i]? = some "O" := by
  rw [tags, getElem?_foldl_of_not_covers h.spans_tags hnot, List.getElem?_map,
    List.getElem?_eq_getElem hi, Option.map_some]

/-- Every tag is a single word. -/
theorem words_tags (h : e.IsReadable) : ∀ tag ∈ e.tags, Text.words tag = [tag] := by
  intro tag htag
  obtain ⟨i, hi, rfl⟩ := List.mem_iff_getElem.1 htag
  have hget := List.getElem?_eq_getElem hi
  by_cases hcovers : ∃ entity ∈ e.intent.entities, entity.Covers i
  · obtain ⟨entity, hlast⟩ := Entity.exists_isLastAt hcovers
    rw [h.getElem?_tags_of_isLastAt hlast] at hget
    rw [← Option.some.inj hget]
    exact Entity.words_tagAt (h.unbroken entity hlast.mem)
  · rw [h.getElem?_tags_of_not_covers (length_tags ▸ hi)
      fun entity hmem hcov => hcovers ⟨entity, hmem, hcov⟩] at hget
    rw [← Option.some.inj hget]
    decide +kernel

end IsReadable

/-- What can be read off the line of an example. -/
structure IsAligned (e : Example) : Prop where
  /-- There are three fields between tabs. The first one holds the words between their markers, the
  second one the tags between those of the markers, and the last one is the intent's name. -/
  fields : ∃ words tags name : String,
    e.taggedLine.toList.splitOn '\t' = [words.toList, tags.toList, name.toList] ∧
    Text.words words = "BS" :: e.intent.tokens ++ ["ES"] ∧
    Text.words tags = "O" :: e.tags ++ ["O"] ∧ e.intent.name = some name
  /-- There are as many tags as words. -/
  length_eq : e.tags.length = e.intent.tokens.length
  /-- The entities are listed in the order in which they are opened. -/
  opened : e.intent.entities.map Entity.name = e.symbols.filterMap Symbol.opened?
  /-- A word is tagged as being outside when no entity covers it, and only then. -/
  outside_iff : ∀ i < e.intent.tokens.length,
    e.tags[i]? = some "O" ↔ ∀ entity ∈ e.intent.entities, ¬ entity.Covers i
  /-- Otherwise it has the tag of the entity that was opened last among those that cover it. -/
  inside : ∀ i, (∃ entity ∈ e.intent.entities, entity.Covers i) →
    ∃ entity, Entity.IsLastAt e.intent.entities i entity ∧ e.tags[i]? = some (entity.tagAt i)

/-- A line that is readable can be taken apart. -/
theorem IsReadable.isAligned {e : Example} (h : e.IsReadable) : e.IsAligned where
  fields := by
    obtain ⟨name, hname, hidentifier⟩ := h.name
    have hBS : Text.words "BS" = ["BS"] := by decide +kernel
    have hES : Text.words "ES" = ["ES"] := by decide +kernel
    have hO : Text.words "O" = ["O"] := by decide +kernel
    have hline : e.taggedLine = "BS" ++ " " ++ Text.joinWords e.intent.tokens ++ " " ++ "ES" ++
        "\t" ++ ("O" ++ " " ++ Text.joinWords e.tags ++ " " ++ "O") ++ "\t" ++ name := by
      rw [taggedLine, hname, ← String.toList_inj]
      simp
    -- The last field need not be a word of its own, but an identifier holds no tab.
    have htab : '\t' ∉ name.toList := fun hmem =>
      Bool.false_ne_true ((by decide : isIdentifierChar '\t' = false).symm.trans
        (isIdentifierChar_of_mem hidentifier hmem))
    refine ⟨_, _, name, ?_, Text.words_enclosed hBS h.words hES,
      Text.words_enclosed hO h.words_tags hO, hname⟩
    rw [hline, Text.splitOn_tab (Text.tab_notMem_enclosed hBS h.words hES)
      (Text.tab_notMem_enclosed hO h.words_tags hO) htab]
  length_eq := length_tags
  opened := h.opened
  outside_iff i hi := by
    refine ⟨fun hO entity hmem hcovers => ?_, h.getElem?_tags_of_not_covers hi⟩
    obtain ⟨last, hlast⟩ := Entity.exists_isLastAt ⟨entity, hmem, hcovers⟩
    rw [h.getElem?_tags_of_isLastAt hlast] at hO
    exact Entity.tagAt_ne (Option.some.inj hO)
  inside i hcovers := by
    obtain ⟨last, hlast⟩ := Entity.exists_isLastAt hcovers
    exact ⟨last, hlast, h.getElem?_tags_of_isLastAt hlast⟩

/-- Phrases inside an intent make a readable example when no name holds a blank. -/
theorem exists_readable {u : Utterance} {name : String} (hu : u.IsPhrased)
    (hopens : u.OpensUnbroken) (hname : isIdentifier name.toList = true) :
    ∃ e, ofSymbols (u.inIntent name).output = .ok e ∧ e.IsReadable := by
  obtain ⟨⟨ps, houtput, -⟩, hsingle⟩ := hu
  let t : Transcript := .named [] name ps []
  have hsymbols : (u.inIntent name).output = t.symbols := by
    rw [Utterance.inIntent, houtput]
    rfl
  have hphrases : t.phrases = ps := List.append_nil ps
  have hdescribes := t.describes_intent
  refine ⟨⟨t.symbols, t.intent⟩, ?_, ⟨name, rfl, hname⟩, ?_, fun entity hentity => ?_,
    hdescribes.spans, hdescribes.nested, hdescribes.names_eq⟩
  · rw [hsymbols]
    exact ofSymbols_eq_ok_iff.2 ⟨rfl, mapError_eq_ok_iff.2 t.decode_symbols⟩
  · rw [hdescribes.tokens_eq, hphrases]
    exact Phrase.words_of_mem_wordsOf ps fun w hw => hsingle w (houtput ▸ hw)
  · -- The markers of the intent open no entity.
    have hmem : entity.name ∈ (u.inIntent name).output.filterMap Symbol.opened? := by
      rw [hsymbols, ← hdescribes.names_eq]
      exact List.mem_map_of_mem hentity
    rw [Utterance.inIntent, List.filterMap_append, List.filterMap_cons] at hmem
    exact hopens _ ((List.mem_append.1 hmem).resolve_right List.not_mem_nil)

end Example

namespace Grammar

section Compile

variable {allowed : Option WordSet} {text : String} {grammar : Grammar} {slots : Slots}
  {casing : Casing} {compiled : Compiled}

/-- The examples of a compiled grammar are readable. -/
theorem exists_readable_of_accepts (hgrammar : ofTextWith allowed text = .ok grammar)
    (hslots : slots.Defined) (h : grammar.compile casing slots = .ok compiled) {run : List Nat}
    {arcs : List Automaton.Arc} (hrun : compiled.merged.Accepts run arcs) :
    ∃ e, Example.ofSymbols (Utterance.ofArcs arcs).output = .ok e ∧ e.IsReadable := by
  obtain ⟨s, -, hnamed, u, heq, hphrased, hunbroken⟩ :=
    exists_utterance_of_accepts hgrammar hslots h hrun
  rw [heq]
  exact Example.exists_readable hphrased hunbroken hnamed.intent

/-- Every accepted run of a compiled grammar has an example, and the line of the example can be
taken apart: it aligns the words with tags, of which each is that of the entity that was opened
last among those that cover the word. -/
theorem isAligned_of_accepts (hgrammar : ofTextWith allowed text = .ok grammar)
    (hslots : slots.Defined) (h : grammar.compile casing slots = .ok compiled) {run : List Nat}
    {arcs : List Automaton.Arc} (hrun : compiled.merged.Accepts run arcs) :
    ∃ e, Example.ofSymbols (Utterance.ofArcs arcs).output = .ok e ∧ e.IsAligned := by
  obtain ⟨e, he, hreadable⟩ := exists_readable_of_accepts hgrammar hslots h hrun
  exact ⟨e, he, hreadable.isAligned⟩

/-- The merged automaton of a compiled grammar is well-formed. -/
theorem wellFormed_merged (hgrammar : ofTextWith allowed text = .ok grammar)
    (hslots : slots.Defined) (h : grammar.compile casing slots = .ok compiled) :
    compiled.merged.WellFormed := by
  obtain ⟨_, hspells, -⟩ := spells_merged hgrammar hslots h
  exact hspells.tidy.wellFormed

end Compile

/-- The only example of a grammar is what its symbols mean. -/
theorem exists_compile_example {text name : String} {lines : List String} {casing : Casing}
    (t : Transcript)
    (h : (do
      let grammar ← ofTextWith none text
      let slots ← Slots.define ∅ name lines
      let compiled ← grammar.compile casing slots
      return decide ((Example.enumerate compiled.merged 1).toOption.map
        (List.map Example.symbols) = some [t.symbols])) = Except.ok true) :
    ∃ grammar slots compiled, ofTextWith none text = .ok grammar ∧ Slots.Defined slots ∧
      grammar.compile casing slots = .ok compiled ∧
      Example.IsGenerated compiled.merged ⟨t.symbols, t.intent⟩ := by
  obtain ⟨grammar, slots, compiled, hgrammar, hslots, hcompile, hcheck⟩ := exists_compile h
  obtain ⟨examples, hfound, hsymbols⟩ := Option.map_eq_some_iff.1 (of_decide_eq_true hcheck)
  have hlisted := toOption_eq_some_iff.1 hfound
  obtain ⟨⟨_, intent⟩, rfl, rfl⟩ := List.map_eq_singleton_iff.1 hsymbols
  have hshows := Example.forall₂_of_enumerate
    (wellFormed_merged hgrammar hslots hcompile) hlisted
  obtain ⟨_, _, ⟨-, hintent⟩, -, -⟩ := List.forall₂_cons_right_iff.1 hshows
  have hdecode : Intent.ofSymbols t.symbols = .ok t.intent :=
    mapError_eq_ok_iff.2 t.decode_symbols
  obtain rfl : intent = t.intent := Except.ok.inj (hintent.symm.trans hdecode)
  exact ⟨grammar, slots, compiled, hgrammar, hslots, hcompile,
    .enumerated hlisted List.mem_cons_self⟩

/-- A slot whose value is replaced by that of the tag around it, and a word that is reported as
another one. -/
theorem isAligned_of_accepts_valued : ∃ grammar slots compiled run arcs e,
    ofTextWith none "[Light]\nturn (the $room)\x7bplace:over there\x7d on:off\n" = .ok grammar ∧
    Slots.Defined slots ∧ grammar.compile .lower slots = .ok compiled ∧
    compiled.merged.Accepts run arcs ∧
    Example.ofSymbols (Utterance.ofArcs arcs).output = .ok e ∧ e.IsAligned ∧
    e.taggedLine = "BS turn over there off ES\tO O B-room I-room O O\tLight" := by
  let t : Transcript := .named [] "Light" [.word "turn", .entity "place" (some "over there")
    [.word "the", .entity "room" none [.word "kitchen"]], .substitution "on" "off"] []
  obtain ⟨grammar, slots, compiled, hgrammar, hslots, hcompile, hgenerated⟩ :=
    @exists_compile_example "[Light]\nturn (the $room)\x7bplace:over there\x7d on:off\n" "room"
      ["kitchen"] .lower t (by decide +kernel)
  obtain ⟨run, arcs, hrun, he⟩ :=
    hgenerated.isOfRun (wellFormed_merged hgrammar hslots hcompile)
  obtain ⟨e, he', haligned⟩ := isAligned_of_accepts hgrammar hslots hcompile hrun
  obtain rfl := Except.ok.inj (he.symm.trans he')
  exact ⟨grammar, slots, compiled, run, arcs, _, hgrammar, hslots, hcompile, hrun, he, haligned,
    by decide +kernel⟩

end Grammar

end Phrasebook
