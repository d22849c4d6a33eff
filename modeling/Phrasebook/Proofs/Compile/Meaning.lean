import Phrasebook.Proofs.Automaton.Combine
import Phrasebook.Proofs.Compile.Induction
import Phrasebook.Proofs.Grammar
import Phrasebook.Template.Meaning

/-!
# Compiled automata spell what templates mean

The automaton of a template is put together as its meaning is, so it spells the meaning when
what the template refers to has been built. The nodes are built one after another, and by then
each automaton that was built spells what its node means.

* `Node.Means`: what a slot, a rule or an intent means.
* `Template.Resolves.buildsUp`: the constructs of templates keep that automata spell meanings.
* `Grammar.spelt_of_buildNodes`: every automaton that is built spells the meaning of its node.
* `Grammar.lists_of_compile`: the automaton of an intent lists the meaning of its sentences.
-/

namespace Phrasebook

/-! ### References -/

/-- What a node of a grammar means. The values of a slot mean the same in every intent. -/
inductive Node.Means (grammar : Grammar) (slots : Slots) : Node → List Utterance → Prop
  /-- A slot means what its values mean. -/
  | slot {name : String} {values : List Template} {lists : List (List Utterance)}
    (found : slots.find? name = some values)
    (each : ∀ intent, Template.MeanEach grammar slots intent values lists) :
    Means grammar slots (.slot name) lists.flatten
  /-- A rule means what its template does in the intent that defines it. -/
  | rule {qualified owner : String} {body : Template} {us : List Utterance}
    (found : grammar.rule? qualified = some (owner, body))
    (part : Template.Means grammar slots owner body us) :
    Means grammar slots (.rule qualified) us
  /-- An intent means what its sentences mean. -/
  | intent {name : String} {s : Section} {us : List Utterance}
    (found : grammar.section? name = some s)
    (part : Template.Means grammar slots name s.template us) :
    Means grammar slots (.intent name) us

/-- A text with a single point is cut there. -/
theorem eq_of_append_point_eq {owner rule owner' rule' : List Char} (howner : '.' ∉ owner)
    (hrule : '.' ∉ rule) (h : owner' ++ '.' :: rule' = owner ++ '.' :: rule) :
    owner' = owner ∧ rule' = rule := by
  have hcount := congrArg (List.count '.') h
  simp only [List.count_append, List.count_cons_self, List.count_eq_zero.2 howner,
    List.count_eq_zero.2 hrule] at hcount
  have howner' : '.' ∉ owner' := List.count_eq_zero.1 (by omega)
  have hcut := Text.cutAt_eq_some_iff.2 ⟨h, howner⟩
  rw [Text.cutAt_eq_some_iff.2 ⟨rfl, howner'⟩] at hcut
  obtain ⟨rfl, rfl⟩ := Prod.mk.inj (Option.some.inj hcut)
  exact ⟨rfl, rfl⟩

/-- What is found under the qualified name of a reference is the rule that it refers to. -/
theorem Grammar.ruleBody?_of_rule? {grammar : Grammar} {intent owner : String} {name : RuleName}
    {body : Template} (hpointless : ∀ s ∈ grammar, s.Pointless)
    (h : grammar.rule? (name.qualified intent) = some (owner, body)) :
    name.owner intent = owner ∧ Template.ruleBody? grammar intent name = some body := by
  simp only [rule?, Option.bind_eq_bind, Option.bind_eq_some_iff, Prod.exists] at h
  obtain ⟨owner', rule, hcut, s, hsection, body', hbody, heq⟩ := h
  cases heq
  obtain ⟨happend, hbefore⟩ := Text.cut_eq_some_iff.1 hcut
  -- The rule is found in a section, so its name has no point.
  have hafter : '.' ∉ rule.toList :=
    (hpointless s (List.mem_of_find?_eq_some hsection)).rules.find? hbody
  have hqualified : (name.qualified intent).toList =
      (name.owner intent).toList ++ '.' :: name.rule.toList := by
    rw [RuleName.qualified, String.toList_append, String.toList_append]
    simp
  rw [hqualified] at happend
  obtain ⟨howner, hrule⟩ := eq_of_append_point_eq hbefore hafter happend
  have howner := String.toList_inj.1 howner
  have hrule := String.toList_inj.1 hrule
  refine ⟨howner, ?_⟩
  simp only [Template.ruleBody?, Option.bind_eq_bind, Option.bind_eq_some_iff, howner, hrule]
  exact ⟨s, hsection, hbody⟩

/-! ### Templates without references -/

namespace Template

variable {grammar : Grammar} {slots : Slots}

mutual

/-- A template that refers to nothing means the same in every intent. -/
theorem Means.congr_intent {intent : String} {t : Template} {us : List Utterance}
    (h : Means grammar slots intent t us) (ht : t.mentions = []) (other : String) :
    Means grammar slots other t us := by
  match h with
  | .word => exact .word
  | .sequence each => exact .sequence (each.congr_intent ht other)
  | .alternation each => exact .alternation (each.congr_intent ht other)
  | .optional part => exact .optional (part.congr_intent ht other)
  | .ruleRef _ _ => cases ht
  | .slotRef _ _ => cases ht
  | .taggedSlot _ _ => cases ht
  | .tagged notSlot part => exact .tagged notSlot (part.congr_intent ht other)
  | .substituted part => exact .substituted (part.congr_intent ht other)

theorem MeanEach.congr_intent {intent : String} {ts : List Template}
    {lists : List (List Utterance)} (h : MeanEach grammar slots intent ts lists)
    (hts : mentionsAll ts = []) (other : String) : MeanEach grammar slots other ts lists := by
  match h with
  | .nil => exact .nil
  | .cons first rest =>
    obtain ⟨ht, hts⟩ := List.append_eq_nil_iff.1 hts
    exact .cons (first.congr_intent ht other) (rest.congr_intent hts other)

end

/-! ### Templates -/

/-- Automata one after another spell the sequences of their utterances. -/
theorem spells_foldl_concat {a : Automaton} {bs : List Automaton} {us : List Utterance}
    {lists : List (List Utterance)} (ha : a.Spells us)
    (hbs : List.Forall₂ Automaton.Spells bs lists) :
    (bs.foldl .concat a).Spells (Utterance.product us (Utterance.sequences lists)) := by
  induction hbs generalizing a us with
  | nil => rwa [Utterance.sequences, Utterance.product_empty]
  | cons hb _ ih =>
    have h := ih (ha.concat hb)
    rwa [Utterance.product_assoc] at h

/-- The label that reports no word is that of the changed symbol. -/
theorem silence_eq_map (label : Option Symbol) :
    Symbol.silence label = label.map Utterance.unreported := by
  rcases label with _ | (_ | _ | _ | _ | _ | _) <;> rfl

theorem spells_entity {a : Automaton} {us : List Utterance} (ha : a.Spells us) (tag : Tag) :
    (a.entity tag).Spells (us.map (.within tag)) :=
  ha.wrap _ _

theorem spells_ofWord (text : String) (substitution : Option String) :
    (Automaton.ofWord text substitution).Spells [utteranceOfWord text substitution] := by
  have hwords : (if text.isEmpty then none else some text).toList =
      if text = "" then [] else [text] := by
    by_cases htext : text = "" <;> simp [htext]
  have hspells := fun symbol => Automaton.spells_ofArc
    (if text.isEmpty then none else some text) (some symbol)
  rw [hwords] at hspells
  cases substitution with
  | none => exact hspells (.word text)
  | some value => exact hspells (.substitution text value)

/-- Every node that is built has a meaning, which its automaton spells. -/
def Resolves (grammar : Grammar) (slots : Slots) (resolve : Node → Except Error Automaton) :
    Prop :=
  ∀ node a, resolve node = .ok a → ∃ us, node.Means grammar slots us ∧ a.Spells us

variable {resolve : Node → Except Error Automaton}

/-- The automaton of a slot spells what its values mean. -/
theorem Resolves.spells_of_slot (hresolve : Resolves grammar slots resolve) {name : String}
    {a : Automaton} (h : resolve (.slot name) = .ok a) (intent : String) :
    ∃ values lists, slots.find? name = some values ∧
      MeanEach grammar slots intent values lists ∧ a.Spells lists.flatten := by
  obtain ⟨us, hmeans, hspells⟩ := hresolve _ _ h
  cases hmeans with
  | slot found each => exact ⟨_, _, found, each intent, hspells⟩

/-- Automata that spell what some templates mean, as two lists. -/
theorem exists_meanEach {intent : String} {ts : List Template} {as : List Automaton}
    (h : List.Forall₂ (fun t a => ∃ us, Means grammar slots intent t us ∧ a.Spells us) ts as) :
    ∃ lists, MeanEach grammar slots intent ts lists ∧ List.Forall₂ Automaton.Spells as lists := by
  induction h with
  | nil => exact ⟨[], .nil, .nil⟩
  | cons first _ ih =>
    obtain ⟨us, hmean, hspell⟩ := first
    obtain ⟨lists, hmeans, hspells⟩ := ih
    exact ⟨us :: lists, .cons hmean hmeans, .cons hspell hspells⟩

/-- An automaton of a template spells what the template means, when this holds of what the template
refers to. -/
theorem Resolves.buildsUp (hresolve : Resolves grammar slots resolve)
    (hpointless : ∀ s ∈ grammar, s.Pointless) (intent : String) :
    BuildsUp resolve intent fun t a => ∃ us, Means grammar slots intent t us ∧ a.Spells us where
  word text substitution := ⟨_, .word, spells_ofWord text substitution⟩
  sequence items as h := by
    obtain ⟨lists, hmean, hspell⟩ := exists_meanEach h
    refine ⟨_, .sequence hmean, ?_⟩
    have h := spells_foldl_concat Automaton.spells_epsilon hspell
    rwa [Utterance.empty_product] at h
  alternation branches as h := by
    obtain ⟨lists, hmean, hspell⟩ := exists_meanEach h
    exact ⟨_, .alternation hmean, Automaton.spells_union hspell⟩
  optional inner a h := by
    obtain ⟨us, hmean, hspell⟩ := h
    exact ⟨_, .optional hmean, hspell.optional⟩
  ruleRef name a h := by
    obtain ⟨us, hmean, hspell⟩ := hresolve _ _ h
    cases hmean with
    | rule found part =>
      -- The name of the node leads back to the intent and the rule that it was made of.
      obtain ⟨rfl, hbody⟩ := Grammar.ruleBody?_of_rule? hpointless found
      exact ⟨us, .ruleRef hbody part, hspell⟩
  slotRef name a h := by
    obtain ⟨values, lists, found, hmean, hspell⟩ := hresolve.spells_of_slot h intent
    exact ⟨_, .slotRef found hmean, spells_entity hspell _⟩
  taggedSlot name tag a h := by
    obtain ⟨values, lists, found, hmean, hspell⟩ := hresolve.spells_of_slot h intent
    exact ⟨_, .taggedSlot found hmean, spells_entity hspell tag⟩
  tagged inner tag a hne h := by
    obtain ⟨us, hmean, hspell⟩ := h
    exact ⟨_, .tagged hne hmean, spells_entity hspell tag⟩
  substituted inner value a h := by
    obtain ⟨us, hmean, hspell⟩ := h
    -- The words inside are no longer reported, and an arc behind them reports the value.
    refine ⟨_, .substituted hmean, ?_⟩
    have h := (hspell.mapOutputs silence_eq_map).concat
      (Automaton.spells_ofArc none (some (.substitution "" value)))
    rw [Utterance.product_singleton, List.map_map] at h
    have heq : ∀ u ∈ us, u.reportedAs value =
        u.mapOutput Utterance.unreported ++ ⟨[], [.substitution "" value]⟩ := by
      intro u _
      change Utterance.mk _ _ = Utterance.mk (u.words ++ []) _
      rw [List.append_nil]
      rfl
    rwa [List.map_congr_left heq]

/-- The automaton of a template spells what the template means. -/
theorem Resolves.spells_of_build (hresolve : Resolves grammar slots resolve)
    (hpointless : ∀ s ∈ grammar, s.Pointless) {intent : String} {t : Template} {a : Automaton}
    (h : t.build resolve intent = .ok a) :
    ∃ us, Means grammar slots intent t us ∧ a.Spells us :=
  (hresolve.buildsUp hpointless intent).of_build h

end Template

/-! ### Nodes in build order -/

namespace Grammar

variable {grammar : Grammar} {slots : Slots}

/-- Every automaton that has been built spells what its node means. -/
def Spelt (grammar : Grammar) (slots : Slots) (parts : Parts) : Prop :=
  ∀ part ∈ parts, ∃ us, part.1.Means grammar slots us ∧ part.2.Spells us

theorem Spelt.resolves {parts : Parts} (h : Spelt grammar slots parts) :
    Template.Resolves grammar slots parts.resolve :=
  fun node a hresolve => h (node, a) (Parts.mem_of_resolve hresolve)

/-- A node that is built after what it needs has an automaton that spells what it means. -/
theorem spells_of_isBuilt {P : Template → Prop} {parts : Parts} {node : Node} {a : Automaton}
    (hgrammar : Section.Proper P grammar) (hslots : slots.Holds P)
    (hparts : Spelt grammar slots parts) (h : grammar.IsBuilt slots parts node a) :
    ∃ us, node.Means grammar slots us ∧ a.Spells us := by
  have hbuilds := hparts.resolves.buildsUp hgrammar.pointless
  cases h with
  | slot found each =>
    obtain ⟨lists, hmean, hspell⟩ := Template.exists_meanEach ((hbuilds _).of_buildAll each)
    -- The values refer to nothing, so that they mean the same in every intent.
    have hmentions := hslots.mentionsAll_eq_nil found
    exact ⟨_, .slot found (hmean.congr_intent hmentions), Automaton.spells_union hspell⟩
  | rule found part =>
    obtain ⟨us, hmean, hspell⟩ := (hbuilds _).of_build part
    exact ⟨us, .rule found hmean, hspell⟩
  | intent found part =>
    obtain ⟨us, hmean, hspell⟩ := (hbuilds _).of_build part
    exact ⟨us, .intent found hmean, hspell⟩

/-- Every automaton that is built spells what its node means. -/
theorem spelt_of_buildNodes {P : Template → Prop} {order : List Node} {parts : Parts}
    (hgrammar : Section.Proper P grammar) (hslots : slots.Holds P)
    (h : grammar.buildNodes slots order = .ok parts) : Spelt grammar slots parts :=
  forall_mem_of_buildNodes (C := fun node a => ∃ us, node.Means grammar slots us ∧ a.Spells us)
    (fun _ _ _ hparts hbuilt => spells_of_isBuilt hgrammar hslots hparts hbuilt) h

/-- A section is found under the name of its intent. -/
theorem section?_eq_some {P : Template → Prop} (hgrammar : Section.Proper P grammar) {s : Section}
    (hs : s ∈ grammar) : grammar.section? s.intent = some s := by
  cases hfind : grammar.section? s.intent with
  | none => exact absurd (List.find?_eq_none.1 hfind s hs) (by simp)
  | some found =>
    have hintent : found.intent = s.intent := by simpa using List.find?_some hfind
    rw [List.inj_on_of_nodup_map hgrammar.distinct (List.mem_of_find?_eq_some hfind) hs hintent]

/-- The automata of a compiled grammar: every part, and for each section that of its intent. -/
theorem spells_of_compileWords {P : Template → Prop} {compiled : Compiled}
    (hgrammar : Section.Proper P grammar) (hslots : slots.Holds P)
    (h : grammar.compileWords slots = .ok compiled) :
    Spelt grammar slots compiled.parts ∧
      List.Forall₂ (fun s part => part.1 = s.intent ∧
        ∃ us, Template.Means grammar slots s.intent s.template us ∧ part.2.Spells us)
        grammar compiled.intents ∧
      compiled.merged = mergeIntents compiled.intents := by
  obtain ⟨⟨order, -, hparts⟩, hintents, hmerged⟩ := exists_of_compileWords h
  have hspelt := spelt_of_buildNodes hgrammar hslots hparts
  refine ⟨hspelt, ?_, hmerged⟩
  -- The node of an intent is built from the section that is found under its name.
  have hfound : ∀ s ∈ grammar, grammar.section? s.intent = some s :=
    fun s hs => section?_eq_some hgrammar hs
  refine ((List.forall₂_and_left _ _).2 ⟨hfound, hintents⟩).imp
    fun s part ⟨hs, hname, hresolve⟩ => ?_
  obtain ⟨us, hmean, hspell⟩ := hspelt.resolves _ _ hresolve
  cases hmean with
  | intent found part =>
    cases hs.symm.trans found
    exact ⟨hname, us, part, hspell⟩

/-- A compiled grammar means, intent by intent and in order, what its sentences mean: listing the
accepted runs of an intent's automaton gives the utterances of the sentences. -/
theorem lists_of_compile {allowed : Option WordSet} {text : String} {grammar : Grammar}
    {slots : Slots} {casing : Casing} {compiled : Compiled}
    (hgrammar : ofTextWith allowed text = .ok grammar) (hslots : slots.Defined)
    (h : grammar.compile casing slots = .ok compiled) :
    List.Forall₂ (fun s part => part.1 = s.intent ∧
      ∃ us, Template.Means (grammar.map (Section.mapWords casing.apply))
          (slots.mapWords casing.apply) s.intent (s.mapWords casing.apply).template us ∧
        part.2.Lists us)
      grammar compiled.intents := by
  have hproper := Section.proper_mapWords_of_ofTextWith casing.apply hgrammar
  have hholds := hslots.holds_mapWords casing.apply
  obtain ⟨_, hintents, _⟩ := spells_of_compileWords hproper hholds h
  rw [List.forall₂_map_left_iff] at hintents
  exact hintents.imp fun s part ⟨hname, us, hmean, hspell⟩ =>
    ⟨hname, us, hmean, hspell.lists⟩

/-- When a text and the lines of a slot compile and pass a check together with what they compile to,
there is a grammar with slots that does. -/
theorem exists_compile_slots {text name : String} {lines : List String} {casing : Casing}
    {check : Grammar → Slots → Compiled → Bool}
    (h : (do
      let grammar ← ofTextWith none text
      let slots ← Slots.define ∅ name lines
      let compiled ← grammar.compile casing slots
      return check grammar slots compiled) = .ok true) :
    ∃ grammar slots compiled, ofTextWith none text = .ok grammar ∧ Slots.Defined slots ∧
      grammar.compile casing slots = .ok compiled ∧ check grammar slots compiled = true := by
  obtain ⟨grammar, hgrammar, h⟩ := bind_eq_ok_iff.1 h
  obtain ⟨slots, hslots, h⟩ := bind_eq_ok_iff.1 h
  obtain ⟨compiled, hcompile, h⟩ := bind_eq_ok_iff.1 h
  exact ⟨grammar, slots, compiled, hgrammar, .define .empty hslots, hcompile, Except.ok.inj h⟩

/-- The check need not look at the slots. -/
theorem exists_compile {text name : String} {lines : List String} {casing : Casing}
    {check : Grammar → Compiled → Bool}
    (h : (do
      let grammar ← ofTextWith none text
      let slots ← Slots.define ∅ name lines
      let compiled ← grammar.compile casing slots
      return check grammar compiled) = .ok true) :
    ∃ grammar slots compiled, ofTextWith none text = .ok grammar ∧ Slots.Defined slots ∧
      grammar.compile casing slots = .ok compiled ∧ check grammar compiled = true :=
  @exists_compile_slots text name lines casing (fun grammar _ compiled => check grammar compiled) h

/-- A grammar with a rule, a slot, an optional part and words that are reported as other ones. -/
theorem lists_of_compile_greeting : ∃ grammar slots compiled,
    ofTextWith none "[Greet]\npolite = please | kindly\n[<polite>] greet (the world):all $who" =
      .ok grammar ∧ Slots.Defined slots ∧ grammar.compile .upper slots = .ok compiled ∧
    List.Forall₂ (fun s part => part.1 = s.intent ∧
      ∃ us, Template.Means (grammar.map (Section.mapWords Casing.upper.apply))
          (slots.mapWords Casing.upper.apply) s.intent
          (s.mapWords Casing.upper.apply).template us ∧
        part.2.Lists us)
      grammar compiled.intents := by
  obtain ⟨grammar, slots, compiled, hgrammar, hslots, hcompile, -⟩ := @exists_compile
    "[Greet]\npolite = please | kindly\n[<polite>] greet (the world):all $who" "who"
    ["Bob", "Ada"] .upper (fun _ _ => true) (by decide +kernel)
  exact ⟨grammar, slots, compiled, hgrammar, hslots, hcompile,
    lists_of_compile hgrammar hslots hcompile⟩

end Grammar

end Phrasebook
