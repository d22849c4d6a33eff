import Phrasebook.Proofs.Compile.Shape
import Phrasebook.Proofs.Recognition.Permutation
import Phrasebook.Proofs.Respelling.Compile

/-!
# The vocabulary of a compiled grammar

The vocabulary of an automaton is what its arcs consume as far as they can be reached, whether or
not a run along them can stop. For a compiled grammar this makes no difference. What an arc
consumes is a word of some sentence or of something that the sentence refers to. When every slot
that is referred to has a value, each such word occurs in an utterance of the sentence, since there
is always something to say before and behind it; and what accepted runs consume is reached.

An intent without sentences has states from which no run can stop, and so has a part that stands
before or behind a slot without values. The former does no harm, since nothing is consumed there.

* `Node.Says`: a word occurs in a node or in something that the node refers to.
* `Template.buildsUp_consumes`: arcs consume only words that occur in a template.
* `Template.Speakable`: a template of which there are utterances.
* `Template.Means.covers`: every word that occurs in such a template is in some utterance.
* `Grammar.mem_vocabulary_iff_says`: the vocabulary is what accepted runs consume, and what the
  sentences say.
-/

namespace Phrasebook

/-! ### What is said -/

namespace Template

variable {grammar : Grammar} {slots : Slots} {intent word : String}

/-- What stands among templates that refer to nothing refers to nothing. -/
theorem mentions_eq_nil_of_mem {t : Template} {ts : List Template} (h : mentionsAll ts = [])
    (ht : t ∈ ts) : t.mentions = [] := by
  rw [mentionsAll_eq_flatMap, List.flatMap_eq_nil_iff] at h
  exact h t ht

/-- A template that refers to nothing says the same in every intent. -/
theorem Says.congr_intent {t : Template} (h : Says grammar slots intent t word)
    (ht : t.mentions = []) (other : String) : Says grammar slots other t word := by
  induction h with
  | word nonempty => exact .word nonempty
  | item mem _ ih => exact .item mem (ih (mentions_eq_nil_of_mem ht mem))
  | branch mem _ ih => exact .branch mem (ih (mentions_eq_nil_of_mem ht mem))
  | optional _ ih => exact .optional (ih ht)
  | ruleRef => cases ht
  | slotRef => cases ht
  | tagged _ ih => exact .tagged (ih ht)
  | substituted _ ih => exact .substituted (ih ht)

end Template

/-- A word occurs in a node or in something that the node refers to. -/
inductive Node.Says (grammar : Grammar) (slots : Slots) : Node → String → Prop
  /-- A slot says what its values say, in every intent. -/
  | slot {name word : String} {values : List Template} {value : Template}
    (found : slots.find? name = some values) (mem : value ∈ values)
    (part : ∀ intent, Template.Says grammar slots intent value word) :
    Says grammar slots (.slot name) word
  /-- A rule says what its template does in the intent that defines it. -/
  | rule {qualified owner word : String} {body : Template}
    (found : grammar.rule? qualified = some (owner, body))
    (part : Template.Says grammar slots owner body word) :
    Says grammar slots (.rule qualified) word
  /-- An intent says what its sentences say. -/
  | intent {name word : String} {s : Section} (found : grammar.section? name = some s)
    (part : Template.Says grammar slots name s.template word) :
    Says grammar slots (.intent name) word

/-! ### What arcs consume -/

namespace Automaton

variable {V W : String → Prop} {a : Automaton}

/-- The arcs of an automaton, which is shaped as combinations are, consume only certain words. -/
def Consumes (V : String → Prop) (a : Automaton) : Prop :=
  a.Shaped fun input _ => ∀ word ∈ input, V word

theorem Consumes.mono (h : a.Consumes V) (hVW : ∀ word, V word → W word) : a.Consumes W := by
  obtain ⟨hwellFormed, hstop, hstart, hlabels⟩ := h
  exact ⟨hwellFormed, hstop, hstart, fun state arc harc word hword =>
    hVW word (hlabels state arc harc word hword)⟩

theorem consumes_union {branches : List Automaton} (h : ∀ b ∈ branches, b.Consumes V) :
    (union branches).Consumes V :=
  shaped_union (by simp) h

theorem Consumes.wrap (h : a.Consumes V) (opening closing : Symbol) :
    (a.wrap opening closing).Consumes V :=
  Shaped.wrap h (by simp) (by simp)

/-- What is in the vocabulary is consumed. -/
theorem Consumes.of_mem_vocabulary (h : a.Consumes V) {word : String}
    (hword : word ∈ a.vocabulary) : V word := by
  obtain ⟨state, arc, harc, hinput⟩ := exists_arc_of_mem_vocabulary hword
  exact h.labels state arc harc word hinput

end Automaton

namespace Template

variable {grammar : Grammar} {slots : Slots} {resolve : Node → Except Error Automaton}

/-- The arcs of the automaton of a template consume only what the template says, when this holds of
the nodes that it refers to. -/
theorem buildsUp_consumes (hpointless : ∀ s ∈ grammar, s.Pointless)
    (hresolve : ∀ node a, resolve node = .ok a → a.Consumes (node.Says grammar slots))
    (intent : String) :
    BuildsUp resolve intent fun t a => a.Consumes (Says grammar slots intent t) := by
  have hslot : ∀ {name : String} {a : Automaton}, resolve (.slot name) = .ok a →
      a.Consumes (Says grammar slots intent (.slotRef name)) := by
    intro name a h
    refine (hresolve _ _ h).mono fun word hoccurs => ?_
    cases hoccurs with
    | slot found mem part => exact .slotRef found mem (part intent)
  constructor
  case word =>
    intro text substitution
    refine Automaton.shaped_ofArc fun word hword => ?_
    -- The empty word consumes nothing.
    obtain ⟨hempty, rfl⟩ : text.isEmpty = false ∧ text = word := by simpa using hword
    exact .word fun h => by simp [h] at hempty
  case sequence =>
    intro items as h
    refine Automaton.shaped_foldl_concat (by simp) Automaton.shaped_epsilon fun a ha => ?_
    obtain ⟨t, ht, hconsumes⟩ := exists_of_mem_right h ha
    exact hconsumes.mono fun _ => .item ht
  case alternation =>
    intro branches as h
    refine Automaton.consumes_union fun a ha => ?_
    obtain ⟨t, ht, hconsumes⟩ := exists_of_mem_right h ha
    exact hconsumes.mono fun _ => .branch ht
  case optional =>
    intro inner a h
    exact Automaton.consumes_union (List.forall_mem_cons.2
      ⟨h.mono fun _ => .optional, List.forall_mem_singleton.2 Automaton.shaped_epsilon⟩)
  case ruleRef =>
    intro name a h
    refine (hresolve _ _ h).mono fun word hoccurs => ?_
    cases hoccurs with
    | rule found part =>
      obtain ⟨rfl, hbody⟩ := Grammar.ruleBody?_of_rule? hpointless found
      exact .ruleRef hbody part
  case slotRef => exact fun name a h => (hslot h).wrap _ _
  case taggedSlot => exact fun name tag a h => ((hslot h).mono fun _ => .tagged).wrap _ _
  case tagged => exact fun inner tag a _ h => (h.mono fun _ => .tagged).wrap _ _
  case substituted =>
    intro inner value a h
    have hinner : a.Consumes (Says grammar slots intent (.substituted inner value)) :=
      h.mono fun _ => .substituted
    exact (hinner.mapOutputs fun _ _ => id).concat (by simp) (Automaton.shaped_ofArc (by simp))

end Template

namespace Grammar

variable {grammar : Grammar} {slots : Slots} {P : Template → Prop}

/-- The arcs of a node that is built consume only what the node says. -/
theorem consumes_of_isBuilt (hgrammar : Section.Proper P grammar) (hslots : slots.Holds P)
    {parts : Parts} {node : Node} {a : Automaton}
    (hparts : ∀ part ∈ parts, part.2.Consumes (part.1.Says grammar slots))
    (h : grammar.IsBuilt slots parts node a) : a.Consumes (node.Says grammar slots) := by
  have hbuilds := Template.buildsUp_consumes hgrammar.pointless
    fun node a h => hparts (node, a) (Parts.mem_of_resolve h)
  cases h with
  | slot found each =>
    refine Automaton.consumes_union fun a ha => ?_
    obtain ⟨value, hvalue, hconsumes⟩ := exists_of_mem_right ((hbuilds _).of_buildAll each) ha
    -- A value refers to nothing, so what it says it says wherever the slot is referred to.
    have hmentions := Template.mentions_eq_nil_of_mem (hslots.mentionsAll_eq_nil found) hvalue
    exact hconsumes.mono fun _ hoccurs => .slot found hvalue (hoccurs.congr_intent hmentions)
  | rule found part => exact ((hbuilds _).of_build part).mono fun _ => .rule found
  | intent found part => exact ((hbuilds _).of_build part).mono fun _ => .intent found

/-- The arcs of the merged automaton consume only what sentences say. -/
theorem consumes_merged (hgrammar : Section.Proper P grammar) (hslots : slots.Holds P)
    {compiled : Compiled} (h : grammar.compileWords slots = .ok compiled) :
    compiled.merged.Consumes fun word =>
      ∃ s ∈ grammar, Template.Says grammar slots s.intent s.template word := by
  obtain ⟨⟨order, -, hparts⟩, hintents, hmerged⟩ := exists_of_compileWords h
  have hall := forall_mem_of_buildNodes
    (C := fun node a => a.Consumes (node.Says grammar slots))
    (fun _ _ _ hbefore hbuilt => consumes_of_isBuilt hgrammar hslots hbefore hbuilt) hparts
  rw [hmerged]
  refine Automaton.consumes_union (List.forall_mem_map.2 fun part hpart => ?_)
  obtain ⟨s, hs, -, hresolve⟩ := exists_of_mem_right hintents hpart
  refine ((hall _ (Parts.mem_of_resolve hresolve)).mono fun word hoccurs => ?_).wrap _ _
  cases hoccurs with
  | intent found part =>
    obtain rfl : s = _ := Option.some.inj ((section?_eq_some hgrammar hs).symm.trans found)
    exact ⟨s, hs, part⟩

end Grammar

/-! ### What is in some utterance -/

namespace Utterance

variable {lists : List (List Utterance)}

/-- There is a sequence when there is something to choose for each of its parts. -/
theorem sequences_ne_nil (h : ∀ us ∈ lists, us ≠ []) : sequences lists ≠ [] := by
  induction lists with
  | nil => simp [sequences]
  | cons us lists ih =>
    obtain ⟨hus, hlists⟩ := List.forall_mem_cons.1 h
    obtain ⟨u, hu⟩ := List.exists_mem_of_ne_nil us hus
    obtain ⟨v, hv⟩ := List.exists_mem_of_ne_nil _ (ih hlists)
    exact List.ne_nil_of_mem (List.mem_flatMap.2 ⟨u, hu, List.mem_map_of_mem hv⟩)

/-- Then each utterance of a part occurs in one of the sequences. -/
theorem exists_mem_sequences (h : ∀ us ∈ lists, us ≠ []) {us : List Utterance} (hus : us ∈ lists)
    {u : Utterance} (hu : u ∈ us) : ∃ v ∈ sequences lists, u.words ⊆ v.words := by
  induction lists with
  | nil => cases hus
  | cons first lists ih =>
    obtain ⟨hfirst, hlists⟩ := List.forall_mem_cons.1 h
    -- The utterance is followed by any of the rest, or any utterance of the first part precedes.
    rcases List.mem_cons.1 hus with rfl | hus
    · obtain ⟨v, hv⟩ := List.exists_mem_of_ne_nil _ (sequences_ne_nil hlists)
      exact ⟨u ++ v, List.mem_flatMap.2 ⟨u, hu, List.mem_map_of_mem hv⟩,
        List.subset_append_left _ _⟩
    · obtain ⟨u', hu'⟩ := List.exists_mem_of_ne_nil first hfirst
      obtain ⟨v, hv, hsub⟩ := ih hlists hus
      exact ⟨u' ++ v, List.mem_flatMap.2 ⟨u', hu', List.mem_map_of_mem hv⟩,
        List.subset_append_of_subset_right _ hsub⟩

end Utterance

namespace Template

variable {grammar : Grammar} {slots : Slots} {intent : String}

/-- Something can be said for a template: every alternation of a well-formed template has branches,
and no slot that it refers to is without values. -/
structure Speakable (slots : Slots) (t : Template) : Prop where
  /-- The template is well-formed. -/
  wellFormed : t.WellFormed
  /-- No slot that it refers to is without values. -/
  values : ∀ name, .slot name ∈ t.mentions → slots.find? name ≠ some []

/-- What stands among such templates is such a template. -/
theorem speakable_of_mem {t : Template} {ts : List Template} (hts : WellFormedAll ts)
    (hvalues : ∀ name, .slot name ∈ mentionsAll ts → slots.find? name ≠ some []) (ht : t ∈ ts) :
    t.Speakable slots := by
  refine ⟨wellFormedAll_iff.1 hts t ht, fun name hname => hvalues name ?_⟩
  rw [mentionsAll_eq_flatMap]
  exact List.mem_flatMap.2 ⟨t, ht, hname⟩

/-- A list of utterances covers a template: it is not empty, and each word that the template says is
in one of the utterances. -/
structure Covers (grammar : Grammar) (slots : Slots) (intent : String) (t : Template)
    (us : List Utterance) : Prop where
  /-- The list is not empty. -/
  ne_nil : us ≠ []
  /-- Each word is in one of them. -/
  exists_mem : ∀ word, Says grammar slots intent t word → ∃ u ∈ us, word ∈ u.words

/-- A choice covers what the choices do. -/
theorem exists_mem_flatten {ts : List Template} {lists : List (List Utterance)}
    (h : List.Forall₂ (Covers grammar slots intent) ts lists) {t : Template} (ht : t ∈ ts)
    {word : String} (hword : Says grammar slots intent t word) :
    ∃ u ∈ lists.flatten, word ∈ u.words := by
  obtain ⟨us, hus, hcovers⟩ := exists_of_mem_left h ht
  obtain ⟨u, hu, hword⟩ := hcovers.exists_mem word hword
  exact ⟨u, List.mem_flatten.2 ⟨us, hus, hu⟩, hword⟩

theorem flatten_ne_nil {ts : List Template} {lists : List (List Utterance)}
    (h : List.Forall₂ (Covers grammar slots intent) ts lists) (hts : ts ≠ []) :
    lists.flatten ≠ [] := by
  obtain ⟨t, ht⟩ := List.exists_mem_of_ne_nil ts hts
  obtain ⟨us, hus, hcovers⟩ := exists_of_mem_left h ht
  obtain ⟨u, hu⟩ := List.exists_mem_of_ne_nil us hcovers.ne_nil
  exact List.ne_nil_of_mem (List.mem_flatten.2 ⟨us, hus, hu⟩)

/-- Changing what utterances put out changes nothing about what they cover. -/
theorem Covers.map {t t' : Template} {us : List Utterance} {f : Utterance → Utterance}
    (h : Covers grammar slots intent t us) (hf : ∀ u, (f u).words = u.words)
    (hoccurs : ∀ word, Says grammar slots intent t' word → Says grammar slots intent t word) :
    Covers grammar slots intent t' (us.map f) := by
  refine ⟨mt List.map_eq_nil_iff.1 h.ne_nil, fun word hword => ?_⟩
  obtain ⟨u, hu, hword⟩ := h.exists_mem word (hoccurs word hword)
  exact ⟨f u, List.mem_map_of_mem hu, (hf u).symm ▸ hword⟩

theorem covers_word {text : String} {substitution : Option String} :
    Covers grammar slots intent (.word text substitution)
      [utteranceOfWord text substitution] := by
  refine ⟨List.cons_ne_nil _ _, fun word hword => ?_⟩
  cases hword with
  | word nonempty => exact ⟨_, List.mem_cons_self, by simp [utteranceOfWord, nonempty]⟩

/-- A word of an item is said with something before and behind it, as each item has an
utterance. -/
theorem covers_sequence {items : List Template} {lists : List (List Utterance)}
    (h : List.Forall₂ (Covers grammar slots intent) items lists) :
    Covers grammar slots intent (.sequence items) (Utterance.sequences lists) := by
  have hne : ∀ us ∈ lists, us ≠ [] := by
    intro us hus
    obtain ⟨t, -, hcovers⟩ := exists_of_mem_right h hus
    exact hcovers.ne_nil
  refine ⟨Utterance.sequences_ne_nil hne, fun word hword => ?_⟩
  cases hword with
  | item mem part =>
    obtain ⟨us, hus, hcovers⟩ := exists_of_mem_left h mem
    obtain ⟨u, hu, hword⟩ := hcovers.exists_mem word part
    obtain ⟨v, hv, hsub⟩ := Utterance.exists_mem_sequences hne hus hu
    exact ⟨v, hv, hsub hword⟩

theorem covers_alternation {branches : List Template} {lists : List (List Utterance)}
    (h : List.Forall₂ (Covers grammar slots intent) branches lists) (hbranches : branches ≠ []) :
    Covers grammar slots intent (.alternation branches) lists.flatten := by
  refine ⟨flatten_ne_nil h hbranches, fun word hword => ?_⟩
  cases hword with
  | branch mem part => exact exists_mem_flatten h mem part

theorem Covers.optional {inner : Template} {us : List Utterance}
    (h : Covers grammar slots intent inner us) :
    Covers grammar slots intent (.optional inner) (us ++ [.empty]) := by
  refine ⟨by simp, fun word hword => ?_⟩
  cases hword with
  | optional hword =>
    obtain ⟨u, hu, hword⟩ := h.exists_mem word hword
    exact ⟨u, List.mem_append_left _ hu, hword⟩

/-- What covers a rule in the intent that defines it covers the references to the rule. -/
theorem Covers.ruleRef {name : RuleName} {body : Template} {us : List Utterance}
    (found : ruleBody? grammar intent name = some body)
    (h : Covers grammar slots (name.owner intent) body us) :
    Covers grammar slots intent (.ruleRef name) us := by
  refine ⟨h.ne_nil, fun word hword => ?_⟩
  cases hword with
  | ruleRef found' part =>
    cases found.symm.trans found'
    exact h.exists_mem word part

/-- The values of a slot cover the slot. -/
theorem covers_slotRef {name : String} {values : List Template} {lists : List (List Utterance)}
    (found : slots.find? name = some values) (hname : slots.find? name ≠ some [])
    (h : List.Forall₂ (Covers grammar slots intent) values lists) :
    Covers grammar slots intent (.slotRef name) lists.flatten := by
  refine ⟨flatten_ne_nil h fun hnil => hname (hnil ▸ found), fun word hword => ?_⟩
  cases hword with
  | slotRef found' mem part =>
    cases found.symm.trans found'
    exact exists_mem_flatten h mem part

/-- Something can be said for the values of slots, which refer to nothing. -/
theorem speakable_of_find? (hslots : slots.Holds WellFormed) {name : String}
    {values : List Template} (found : slots.find? name = some values) :
    ∀ t ∈ values, t.Speakable slots := by
  intro t ht
  obtain ⟨hwellFormed, hmentions⟩ := hslots.find? found t ht
  exact ⟨hwellFormed, by simp [hmentions]⟩

mutual

/-- What a template means covers it, when something can be said for the template and for all
rules. -/
theorem Means.covers (hgrammar : ∀ s ∈ grammar, s.Holds (Speakable slots))
    (hslots : slots.Holds WellFormed) {intent : String} {t : Template} {us : List Utterance}
    (h : Means grammar slots intent t us) (ht : t.Speakable slots) :
    Covers grammar slots intent t us := by
  match h with
  | .word => exact covers_word
  | .sequence each =>
    exact covers_sequence (each.covers hgrammar hslots fun t =>
      speakable_of_mem ht.wellFormed.1 ht.values)
  | .alternation each =>
    have heach := each.covers hgrammar hslots fun t => speakable_of_mem ht.wellFormed.1 ht.values
    -- A well-formed alternation has two branches.
    exact covers_alternation heach (List.ne_nil_of_length_pos (by have := ht.wellFormed.2; omega))
  | .optional part => exact (part.covers hgrammar hslots ⟨ht.wellFormed, ht.values⟩).optional
  | .ruleRef found part =>
    obtain ⟨s, hs, hbody⟩ := Option.bind_eq_some_iff.1 found
    have hrule := (hgrammar s (List.mem_of_find?_eq_some hs)).rules.find? hbody
    exact (part.covers hgrammar hslots hrule).ruleRef found
  | .slotRef found each =>
    have heach := each.covers hgrammar hslots (speakable_of_find? hslots found)
    exact (covers_slotRef found (ht.values _ (by simp [mentions])) heach).map (fun _ => rfl)
      fun _ => id
  | .taggedSlot found each =>
    have heach := each.covers hgrammar hslots (speakable_of_find? hslots found)
    refine (covers_slotRef found (ht.values _ (by simp [mentions])) heach).map (fun _ => rfl) ?_
    rintro word ⟨⟩
    assumption
  | .tagged _ part =>
    refine (part.covers hgrammar hslots ⟨ht.wellFormed.1, ht.values⟩).map (fun _ => rfl) ?_
    rintro word ⟨⟩
    assumption
  | .substituted part =>
    refine (part.covers hgrammar hslots ⟨ht.wellFormed.1, ht.values⟩).map (fun _ => rfl) ?_
    rintro word ⟨⟩
    assumption

theorem MeanEach.covers (hgrammar : ∀ s ∈ grammar, s.Holds (Speakable slots))
    (hslots : slots.Holds WellFormed) {intent : String} {ts : List Template}
    {lists : List (List Utterance)} (h : MeanEach grammar slots intent ts lists)
    (hts : ∀ t ∈ ts, t.Speakable slots) :
    List.Forall₂ (Covers grammar slots intent) ts lists := by
  match h with
  | .nil => exact .nil
  | .cons first rest =>
    obtain ⟨ht, hts⟩ := List.forall_mem_cons.1 hts
    exact .cons (first.covers hgrammar hslots ht) (rest.covers hgrammar hslots hts)

end

end Template

/-! ### Another spelling -/

namespace Automaton

variable {f : String → String} {a : Automaton}

theorem WellFormed.respell (ha : a.WellFormed) : (a.respell f).WellFormed := by
  refine ⟨size_respell.symm ▸ ha.start_lt, fun state arc harc => ?_⟩
  rw [arcs_respell] at harc
  obtain ⟨before, hbefore, rfl⟩ := List.mem_map.1 harc
  exact size_respell.symm ▸ ha.target_lt state before hbefore

/-- The vocabulary in the new spelling is that of the automaton in the new spelling. -/
theorem mem_vocabulary_respell_iff (ha : a.WellFormed) {word : String} :
    word ∈ (a.respell f).vocabulary ↔ ∃ before ∈ a.vocabulary, f before = word := by
  rw [mem_vocabulary_iff ha.respell]
  constructor
  · rintro ⟨run, arcs, stop, hrun, hword⟩
    obtain ⟨arcs, hfollows, rfl⟩ := hrun.exists_of_respell
    rw [Utterance.ofArcs_map_respell] at hword
    obtain ⟨before, hbefore, rfl⟩ := List.mem_map.1 hword
    exact ⟨before, (mem_vocabulary_iff ha).2 ⟨run, arcs, stop, hfollows, hbefore⟩, rfl⟩
  · rintro ⟨before, hbefore, rfl⟩
    obtain ⟨run, arcs, stop, hrun, hword⟩ := (mem_vocabulary_iff ha).1 hbefore
    refine ⟨run, arcs.map (.respell f), stop, hrun.respell, ?_⟩
    rw [Utterance.ofArcs_map_respell]
    exact List.mem_map_of_mem hword

/-- What is accepted in the new spelling is what is accepted, in the new spelling. -/
theorem acceptsWords_respell_iff {words : List String} :
    (a.respell f).AcceptsWords words ↔ ∃ before, a.AcceptsWords before ∧ before.map f = words := by
  constructor
  · rintro ⟨run, arcs, hrun, rfl⟩
    obtain ⟨arcs, haccepts, rfl⟩ := accepts_respell_iff.1 hrun
    exact ⟨_, ⟨run, arcs, haccepts, rfl⟩, by rw [Utterance.ofArcs_map_respell]; rfl⟩
  · rintro ⟨before, h, rfl⟩
    exact h.respell

/-- An accepted run consumes what is in the vocabulary. -/
theorem AcceptsWords.mem_vocabulary (ha : a.WellFormed) {words : List String}
    (h : a.AcceptsWords words) {word : String} (hword : word ∈ words) : word ∈ a.vocabulary := by
  obtain ⟨run, arcs, ⟨stop, hrun, -⟩, rfl⟩ := h
  exact (mem_vocabulary_iff ha).2 ⟨run, arcs, stop, hrun, hword⟩

end Automaton

/-! ### Compiled grammars -/

/-- Each utterance of an intent is between the markers of the intent one of all intents. -/
theorem exists_accepts_mergeIntents {intents : List (String × Automaton)}
    (h : ∀ part ∈ intents, ∃ us, part.2.Spells us) {part : String × Automaton}
    (hpart : part ∈ intents) {us : List Utterance} (hspells : part.2.Spells us) {u : Utterance}
    (hu : u ∈ us) : ∃ run arcs, (mergeIntents intents).Accepts run arcs ∧
      Utterance.ofArcs arcs = u.inIntent part.1 := by
  refine (Automaton.spells_union (forall₂_spells_wrap h)).exists_accepts ?_
  refine List.mem_flatten.2 ⟨_, List.mem_map_of_mem hpart, List.mem_map_of_mem ?_⟩
  rwa [hspells.lists.utterances_eq]

namespace Grammar

variable {grammar : Grammar} {slots : Slots} {compiled : Compiled}

/-- What is said in a sentence is accepted in some utterance. -/
theorem exists_acceptsWords_of_says (hgrammar : Section.Proper Template.WellFormed grammar)
    (hslots : slots.Holds Template.WellFormed)
    (hvalues : ∀ s ∈ grammar, ∀ name, .slot name ∈ s.references → slots.find? name ≠ some [])
    (h : grammar.compileWords slots = .ok compiled) {s : Section} (hs : s ∈ grammar)
    {word : String} (hword : Template.Says grammar slots s.intent s.template word) :
    ∃ words, compiled.merged.AcceptsWords words ∧ word ∈ words := by
  have hspeakable : ∀ s ∈ grammar, s.Holds (Template.Speakable slots) := by
    intro s hs
    have hreferences : ∀ t ∈ s.sentences ++ s.rules.values, ∀ name,
        .slot name ∈ t.mentions → slots.find? name ≠ some [] := fun t ht name hname =>
      hvalues s hs name (List.mem_eraseDups.2
        (List.mem_flatMap.2 ⟨t, ht, List.mem_eraseDups.2 hname⟩))
    have hholds := hgrammar.holds s hs
    exact ⟨fun t ht => ⟨hholds.sentences t ht, hreferences t (List.mem_append_left _ ht)⟩,
      fun e he => ⟨hholds.rules e he,
        hreferences e.2 (List.mem_append_right _ (List.mem_map_of_mem he))⟩⟩
  obtain ⟨-, hintents, hmerged⟩ := spells_of_compileWords hgrammar hslots h
  obtain ⟨part, hpart, -, us, hmeans, hspells⟩ := exists_of_mem_left hintents hs
  obtain ⟨u, hu, hword⟩ : ∃ u ∈ us, word ∈ u.words := by
    -- There may be no sentence, so that only the sentences are covered.
    cases hmeans with
    | alternation each =>
      have heach := each.covers hspeakable hslots (hspeakable s hs).sentences
      cases hword with
      | branch mem part => exact Template.exists_mem_flatten heach mem part
  have hall : ∀ part ∈ compiled.intents, ∃ us, part.2.Spells us := by
    intro part hpart
    obtain ⟨s, -, -, us, -, hspells⟩ := exists_of_mem_right hintents hpart
    exact ⟨us, hspells⟩
  obtain ⟨run, arcs, hrun, harcs⟩ := exists_accepts_mergeIntents hall hpart hspells hu
  exact ⟨u.words, ⟨run, arcs, hmerged ▸ hrun, by rw [harcs]; rfl⟩, hword⟩

/-- The vocabulary of a grammar whose words are left as they are. -/
theorem mem_vocabulary_iff_of_compileWords
    (hgrammar : Section.Proper Template.WellFormed grammar)
    (hslots : slots.Holds Template.WellFormed)
    (hvalues : ∀ s ∈ grammar, ∀ name, .slot name ∈ s.references → slots.find? name ≠ some [])
    (h : grammar.compileWords slots = .ok compiled) {word : String} :
    (word ∈ compiled.merged.vocabulary ↔
        ∃ words, compiled.merged.AcceptsWords words ∧ word ∈ words) ∧
      (word ∈ compiled.merged.vocabulary ↔
        ∃ s ∈ grammar, Template.Says grammar slots s.intent s.template word) := by
  have hconsumes := consumes_merged hgrammar hslots h
  -- The vocabulary is said, what is said is accepted, and what is accepted is in the vocabulary.
  have hsaid := fun hword : word ∈ compiled.merged.vocabulary =>
    hconsumes.of_mem_vocabulary hword
  have haccepted : (∃ s ∈ grammar, Template.Says grammar slots s.intent s.template word) →
      ∃ words, compiled.merged.AcceptsWords words ∧ word ∈ words := fun ⟨s, hs, hword⟩ =>
    exists_acceptsWords_of_says hgrammar hslots hvalues h hs hword
  have hreached : (∃ words, compiled.merged.AcceptsWords words ∧ word ∈ words) →
      word ∈ compiled.merged.vocabulary := fun ⟨words, haccepts, hword⟩ =>
    haccepts.mem_vocabulary hconsumes.wellFormed hword
  exact ⟨⟨fun hword => haccepted (hsaid hword), hreached⟩,
    ⟨hsaid, fun hword => hreached (haccepted hword)⟩⟩

/-- What an intent says is what its sentences say. -/
theorem says_template_iff {s : Section} {word : String} :
    Template.Says grammar slots s.intent s.template word ↔
      ∃ sentence ∈ s.sentences, Template.Says grammar slots s.intent sentence word := by
  constructor
  · intro h
    cases h with
    | branch mem part => exact ⟨_, mem, part⟩
  · rintro ⟨sentence, mem, part⟩
    exact .branch mem part

/-- The vocabulary of a compiled grammar is what can be said. When every slot that is referred to
has a value, it consists of the words that accepted runs consume, and these are the words, in the
chosen case, that occur in the sentences and in the rules and slots that they refer to. -/
theorem mem_vocabulary_iff_says {allowed : Option WordSet} {text : String} {casing : Casing}
    (hgrammar : ofTextWith allowed text = .ok grammar) (hslots : slots.Defined)
    (hvalues : ∀ s ∈ grammar, ∀ name, .slot name ∈ s.references → slots.find? name ≠ some [])
    (h : grammar.compile casing slots = .ok compiled) (word : String) :
    (word ∈ compiled.merged.vocabulary ↔
        ∃ words, compiled.merged.AcceptsWords words ∧ word ∈ words) ∧
      (word ∈ compiled.merged.vocabulary ↔
        ∃ s ∈ grammar, ∃ sentence ∈ s.sentences, ∃ said,
          Template.Says grammar slots s.intent sentence said ∧ casing.apply said = word) := by
  have hread : ∀ label number text t, Template.ofLine label number text = .ok t → t.WellFormed :=
    fun _ _ _ _ hline => Template.wellFormed_of_ofText (mapError_eq_ok_iff.1 hline)
  have hproper := Section.proper_of_ofTextWith hread hgrammar
  have hholds := hslots.holds hread
  -- The words are compiled as they are and then spelled in the chosen case.
  rw [compile_eq_respell, map_eq_ok_iff] at h
  obtain ⟨before, hbefore, rfl⟩ := h
  rw [compile_keep] at hbefore
  have hwords := fun word =>
    @mem_vocabulary_iff_of_compileWords _ _ _ hproper hholds hvalues hbefore word
  have hspelled := @Automaton.mem_vocabulary_respell_iff casing.apply before.merged
    (consumes_merged hproper hholds hbefore).wellFormed word
  constructor
  · refine hspelled.trans ?_
    simp only [(hwords _).1]
    constructor
    · rintro ⟨said, ⟨words, haccepts, hsaid⟩, rfl⟩
      exact ⟨_, haccepts.respell, List.mem_map_of_mem hsaid⟩
    · rintro ⟨spelled, hspelled, hword⟩
      obtain ⟨words, haccepts, rfl⟩ := Automaton.acceptsWords_respell_iff.1 hspelled
      obtain ⟨said, hsaid, rfl⟩ := List.mem_map.1 hword
      exact ⟨said, ⟨words, haccepts, hsaid⟩, rfl⟩
  · refine hspelled.trans ?_
    simp only [(hwords _).2, says_template_iff]
    constructor
    · rintro ⟨said, ⟨s, hs, sentence, hsentence, hoccurs⟩, heq⟩
      exact ⟨s, hs, sentence, hsentence, said, hoccurs, heq⟩
    · rintro ⟨s, hs, sentence, hsentence, said, hoccurs, heq⟩
      exact ⟨said, ⟨s, hs, sentence, hsentence, hoccurs⟩, heq⟩

/-- A rule that no sentence refers to, and an intent that has no sentence. -/
theorem mem_vocabulary_iff_says_greeting : ∃ grammar slots compiled,
    ofTextWith none
        "[Greet]\npolite = please | kindly\nrude = hey\n[<polite>] greet $who\n[Quiet]" =
      .ok grammar ∧ Slots.Defined slots ∧
    (∀ s ∈ grammar, ∀ name, .slot name ∈ s.references → slots.find? name ≠ some []) ∧
    grammar.compile .upper slots = .ok compiled ∧ ∀ word,
      (word ∈ compiled.merged.vocabulary ↔
        ∃ words, compiled.merged.AcceptsWords words ∧ word ∈ words) ∧
      (word ∈ compiled.merged.vocabulary ↔
        ∃ s ∈ grammar, ∃ sentence ∈ s.sentences, ∃ said,
          Template.Says grammar slots s.intent sentence said ∧
            Casing.upper.apply said = word) := by
  obtain ⟨grammar, slots, compiled, hgrammar, hslots, hcompile, hcheck⟩ := @exists_compile_slots
    "[Greet]\npolite = please | kindly\nrude = hey\n[<polite>] greet $who\n[Quiet]" "who"
    ["Bob", "Ada Lovelace"] .upper
    (fun grammar slots _ => decide ((∀ s ∈ grammar, ∀ r ∈ s.references,
      r = .rule ⟨none, "polite"⟩ ∨ r = .slot "who") ∧
        (slots.find? "who").map List.isEmpty = some false)) (by decide +kernel)
  obtain ⟨hreferences, hwho⟩ := of_decide_eq_true hcheck
  have hvalues : ∀ s ∈ grammar, ∀ name,
      .slot name ∈ s.references → slots.find? name ≠ some [] := by
    intro s hs name hname hempty
    rcases hreferences s hs _ hname with hrule | hslot
    · cases hrule
    · cases hslot
      simp [hempty] at hwho
  exact ⟨grammar, slots, compiled, hgrammar, hslots, hvalues, hcompile,
    mem_vocabulary_iff_says hgrammar hslots hvalues hcompile⟩

end Grammar

end Phrasebook
