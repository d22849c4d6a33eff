import Phrasebook.Proofs.Automaton.Artifact
import Phrasebook.Proofs.BuildOrder
import Phrasebook.Proofs.Compile.Phrases

/-!
# Which compiled automata are read back

An automaton that was built is read back from its text unless it puts out a symbol whose text is
that of another one. Words, tags and intents never are such symbols. But a slot that a template
refers to without a tag gives its name to an entity, and a name with a colon is taken for a name
and a value. So everything that is built is read back unchanged exactly when no template refers to
such a slot without a tag.

* `Template.bareSlots`: the slots that a template refers to without a tag.
* `Template.stores_of_build`: what the automaton of a template puts out.
* `Template.emits_of_build`: such slots give their names to entities.
* `Grammar.Ensures`: what holds of the automata of templates holds of everything that is built.
* `Grammar.readsBack_iff`: when what is built is read back.
-/

namespace Phrasebook

namespace Template

mutual

/-- The slots that a template refers to without a tag, from left to right. -/
def bareSlots : Template → List String
  | word _ _ => []
  | sequence items => bareSlotsAll items
  | alternation branches => bareSlotsAll branches
  | optional inner => bareSlots inner
  | ruleRef _ => []
  | slotRef name => [name]
  | tagged (slotRef _) _ => []
  | tagged inner _ => bareSlots inner
  | substituted inner _ => bareSlots inner

/-- The slots that some templates refer to without a tag. -/
def bareSlotsAll : List Template → List String
  | [] => []
  | t :: ts => bareSlots t ++ bareSlotsAll ts

end

theorem mem_bareSlotsAll {ts : List Template} {name : String} :
    name ∈ bareSlotsAll ts ↔ ∃ t ∈ ts, name ∈ t.bareSlots := by
  induction ts with
  | nil => simp [bareSlotsAll]
  | cons t ts ih => simp [bareSlotsAll, ih]

theorem bareSlots_tagged_of_ne {inner : Template} {tag : Tag} (h : ∀ name, inner ≠ slotRef name) :
    (tagged inner tag).bareSlots = inner.bareSlots := by
  cases inner with
  | slotRef name => exact absurd rfl (h name)
  | _ => rfl

theorem mapWords_ne_slotRef {f : String → String} {inner : Template}
    (h : ∀ name, inner ≠ slotRef name) (name : String) : inner.mapWords f ≠ slotRef name := by
  cases inner with
  | slotRef name => exact absurd rfl (h name)
  | word text substitution =>
    rw [mapWords]
    split <;> exact fun h => by cases h
  | _ => exact fun h => by cases h

mutual

/-- A change of words changes no reference. -/
theorem bareSlots_mapWords {f : String → String} (t : Template) :
    (t.mapWords f).bareSlots = t.bareSlots := by
  match t with
  | word text substitution =>
    rw [mapWords]
    split <;> rfl
  | sequence items => exact bareSlotsAll_mapWordsAll items
  | alternation branches => exact bareSlotsAll_mapWordsAll branches
  | optional inner => exact bareSlots_mapWords inner
  | ruleRef name => rfl
  | slotRef name => rfl
  | tagged inner tag =>
    rcases eq_slotRef_or_ne inner with ⟨name, rfl⟩ | hne
    · rfl
    · rw [mapWords, bareSlots_tagged_of_ne (mapWords_ne_slotRef hne), bareSlots_tagged_of_ne hne,
        bareSlots_mapWords inner]
  | substituted inner value => exact bareSlots_mapWords inner

theorem bareSlotsAll_mapWordsAll {f : String → String} (ts : List Template) :
    bareSlotsAll (mapWordsAll f ts) = bareSlotsAll ts := by
  match ts with
  | [] => rfl
  | t :: ts => rw [mapWordsAll, bareSlotsAll, bareSlots_mapWords t, bareSlotsAll_mapWordsAll ts,
      bareSlotsAll]

end

/-- No slot that the template refers to without a tag has a colon in its name. -/
def PlainSlots (t : Template) : Prop := ∀ name ∈ t.bareSlots, ':' ∉ name.toList

instance : DecidablePred PlainSlots := fun t =>
  inferInstanceAs (Decidable (∀ name ∈ t.bareSlots, ':' ∉ name.toList))

mutual

/-- What is referred to without a tag is referred to. -/
theorem bareSlots_subset_mentions {t : Template} {name : String} (h : name ∈ t.bareSlots) :
    .slot name ∈ t.mentions := by
  match t with
  | sequence items => exact bareSlotsAll_subset_mentionsAll h
  | alternation branches => exact bareSlotsAll_subset_mentionsAll h
  | optional inner => exact bareSlots_subset_mentions (t := inner) h
  | slotRef other =>
    rw [List.mem_singleton.1 h]
    exact List.mem_singleton.2 rfl
  | tagged inner tag =>
    rcases eq_slotRef_or_ne inner with ⟨name, rfl⟩ | hne
    · cases h
    · rw [bareSlots_tagged_of_ne hne] at h
      exact bareSlots_subset_mentions (t := inner) h
  | substituted inner value => exact bareSlots_subset_mentions (t := inner) h

theorem bareSlotsAll_subset_mentionsAll {ts : List Template} {name : String}
    (h : name ∈ bareSlotsAll ts) : .slot name ∈ mentionsAll ts := by
  match ts with
  | t :: ts =>
    exact List.mem_append.2 ((List.mem_append.1 h).imp bareSlots_subset_mentions
      bareSlotsAll_subset_mentionsAll)

end

/-! ### What templates put out -/

/-- What automata may put out: at least the legal symbols, and with the symbol of a label also the
one that reports nothing in its stead. -/
structure Permits (P : Symbol → Prop) : Prop where
  /-- Legal symbols are permitted. -/
  legal : ∀ x : Symbol, x.Legal → P x
  /-- So are the symbols that report nothing. -/
  silence : ∀ label, (∀ x ∈ label, P x) → ∀ x ∈ Symbol.silence label, P x

theorem permits_true : Permits fun _ => True := ⟨fun _ _ => trivial, fun _ _ _ _ => trivial⟩

theorem permits_legal : Permits Symbol.Legal := by
  refine ⟨fun _ hx => hx, fun label h x hx => ?_⟩
  cases label with
  | none => cases hx
  | some y =>
    have hy := h y rfl
    cases y <;> cases hx <;> exact hy

variable {P : Symbol → Prop} {resolve : Node → Except Error Automaton} {intent : String}

theorem stores_ofWord {text : String} {substitution : Option String} (h : IsLegalWord text)
    (hP : ∀ x : Symbol, x.Legal → P x) : (Automaton.ofWord text substitution).Stores P := by
  refine Automaton.stores_ofArc fun x hx => ?_
  cases substitution <;> cases hx <;> exact hP _ h

/-- The automaton of a legal template puts out what is permitted, when the slots that the template
refers to without a tag may give their names to entities. -/
theorem stores_of_build (hP : Permits P) (hresolve : ∀ node a, resolve node = .ok a → a.Stores P)
    {t : Template} {a : Automaton} (ht : t.Legal)
    (hnames : ∀ name ∈ t.bareSlots, P (.openEntity name none))
    (h : t.build resolve intent = .ok a) : a.Stores P := by
  have hall : ∀ {ts : List Template} {as : List Automaton}, List.Forall₂ (fun t a => t.Legal →
      (∀ name ∈ t.bareSlots, P (.openEntity name none)) → a.Stores P) ts as → LegalAll ts →
      (∀ name ∈ bareSlotsAll ts, P (.openEntity name none)) → ∀ a ∈ as, a.Stores P := by
    intro ts as h hts hnames a ha
    obtain ⟨t, ht, hstores⟩ := exists_of_mem_right h ha
    exact hstores (legalAll_iff.1 hts t ht)
      fun name hname => hnames name (mem_bareSlotsAll.2 ⟨t, ht, hname⟩)
  have hbuilds : BuildsUp resolve intent fun t a => t.Legal →
      (∀ name ∈ t.bareSlots, P (.openEntity name none)) → a.Stores P := {
    word := fun _ _ ht _ => stores_ofWord ht.1 hP.legal
    sequence := fun _ _ h ht hnames =>
      Automaton.stores_foldl_concat Automaton.stores_epsilon (hall h ht hnames)
    alternation := fun _ _ h ht hnames => Automaton.stores_union (hall h ht hnames)
    optional := fun _ _ h ht hnames => Automaton.stores_union (List.forall_mem_cons.2
      ⟨h ht hnames, List.forall_mem_singleton.2 Automaton.stores_epsilon⟩)
    ruleRef := fun _ _ h _ _ => hresolve _ _ h
    slotRef := fun name _ h _ hnames =>
      (hresolve _ _ h).wrap (hnames name List.mem_cons_self) (hP.legal _ trivial)
    -- A slot with a tag gives the tag to the entity and not its name.
    taggedSlot := fun _ _ _ h ht _ =>
      (hresolve _ _ h).wrap (hP.legal _ ht.2) (hP.legal _ trivial)
    tagged := fun _ _ _ hne h ht hnames =>
      (h ht.1 (bareSlots_tagged_of_ne hne ▸ hnames)).wrap (hP.legal _ ht.2) (hP.legal _ trivial)
    substituted := fun _ _ _ h ht hnames => by
      refine ((h ht hnames).mapOutputs hP.silence).concat (Automaton.stores_ofArc fun x hx => ?_)
      cases hx
      exact hP.legal _ isLegalWord_empty }
  exact hbuilds.of_build h ht hnames

/-- A slot that is referred to without a tag gives its name to an entity. -/
theorem emits_of_build {t : Template} {a : Automaton} {name : String} (hname : name ∈ t.bareSlots)
    (h : t.build resolve intent = .ok a) : a.Emits (.openEntity name none) := by
  have hsome : ∀ {ts : List Template} {as : List Automaton},
      List.Forall₂ (fun t a => name ∈ t.bareSlots → a.Emits (.openEntity name none)) ts as →
      name ∈ bareSlotsAll ts → ∃ a ∈ as, a.Emits (.openEntity name none) := by
    intro ts as h hname
    obtain ⟨t, ht, hname⟩ := mem_bareSlotsAll.1 hname
    obtain ⟨a, ha, hemits⟩ := exists_of_mem_left h ht
    exact ⟨a, ha, hemits hname⟩
  have hbuilds : BuildsUp resolve intent fun t a =>
      name ∈ t.bareSlots → a.Emits (.openEntity name none) := {
    word := fun _ _ hname => absurd hname List.not_mem_nil
    sequence := fun _ _ h hname => Automaton.Emits.foldl_concat (.inr (hsome h hname))
    alternation := fun _ _ h hname => by
      obtain ⟨b, hb, hemits⟩ := hsome h hname
      exact hemits.union hb
    optional := fun _ _ h hname => (h hname).optional
    ruleRef := fun _ _ _ hname => absurd hname List.not_mem_nil
    slotRef := fun _ _ _ hname => by
      rw [List.mem_singleton.1 hname]
      exact Automaton.Emits.wrap_opening _ _ _
    taggedSlot := fun _ _ _ _ hname => absurd hname List.not_mem_nil
    tagged := fun _ _ _ hne h hname => (h (bareSlots_tagged_of_ne hne ▸ hname)).wrap _ _
    substituted := fun _ _ _ h hname => ((h hname).mapOutputs rfl).concat_left _ }
  exact hbuilds.of_build h hname

end Template

/-! ### Nodes -/

/-- The automata that are built for a grammar: those of its nodes and the merged one. The automata
of intents are among those of nodes. -/
def Compiled.automata (compiled : Compiled) : List Automaton :=
  compiled.merged :: compiled.parts.map Prod.snd

namespace Grammar

variable {grammar : Grammar} {slots : Slots} {P : Symbol → Prop}

theorem rule?_mem {qualified owner : String} {body : Template}
    (h : grammar.rule? qualified = some (owner, body)) :
    ∃ s ∈ grammar, ∃ rule, s.rules.find? rule = some body := by
  simp only [rule?, Option.bind_eq_bind, Option.bind_eq_some_iff, Prod.exists] at h
  obtain ⟨owner', rule, _, s, hsection, body', hbody, heq⟩ := h
  cases heq
  exact ⟨s, List.mem_of_find?_eq_some hsection, rule, hbody⟩

/-- Something that holds of the automata of some templates when it holds of those that they refer
to. Choosing between automata and marking an intent keep it. -/
structure Ensures (Q : Template → Prop) (C : Automaton → Prop) : Prop where
  /-- It holds of the automata of these templates. -/
  build : ∀ {resolve : Node → Except Error Automaton} {intent : String} {t : Template}
    {a : Automaton}, (∀ node b, resolve node = .ok b → C b) → Q t →
      t.build resolve intent = .ok a → C a
  /-- It holds of any one of some automata. -/
  union : ∀ {as : List Automaton}, (∀ a ∈ as, C a) → C (.union as)
  /-- It holds of an automaton between the markers of an intent. -/
  wrap : ∀ {a : Automaton} (name : String), C a → C (a.wrap (.openIntent name) .closeIntent)

section Ensures

variable {Q : Template → Prop} {C : Automaton → Prop} (hC : Ensures Q C)
include hC

/-- It holds of the automata of some of these templates. -/
theorem Ensures.buildAll {resolve : Node → Except Error Automaton} {intent : String}
    {ts : List Template} {as : List Automaton} (hresolve : ∀ node b, resolve node = .ok b → C b)
    (hts : ∀ t ∈ ts, Q t) (h : Template.buildAll resolve intent ts = .ok as) : ∀ a ∈ as, C a := by
  intro a ha
  obtain ⟨t, ht, hbuild⟩ := exists_of_mem_right (Template.forall₂_of_buildAll h) ha
  exact hC.build hresolve (hts t ht) hbuild

/-- It holds of the automaton of a node when it holds of those before. -/
theorem Ensures.isBuilt {parts : Parts} {node : Node} {a : Automaton}
    (hgrammar : ∀ s ∈ grammar, s.Holds Q) (hslots : slots.Holds Q)
    (hparts : ∀ part ∈ parts, C part.2) (h : grammar.IsBuilt slots parts node a) : C a := by
  have hresolve : ∀ node a, parts.resolve node = .ok a → C a :=
    fun node a h => hparts (node, a) (Parts.mem_of_resolve h)
  cases h with
  | slot found each =>
    have hvalues := Table.Holds.find? hslots found
    exact hC.union (hC.buildAll hresolve (fun t ht => (hvalues t ht).1) each)
  | rule found part =>
    obtain ⟨s, hs, rule, hbody⟩ := rule?_mem found
    exact hC.build hresolve ((hgrammar s hs).rules.find? hbody) part
  | intent found part =>
    obtain ⟨as, has, h⟩ := bind_eq_ok_iff.1 part
    cases h
    have hs := List.mem_of_find?_eq_some found
    exact hC.union (hC.buildAll hresolve (hgrammar _ hs).sentences has)

/-- It holds of everything that is built. -/
theorem Ensures.compileWords {compiled : Compiled} (hgrammar : ∀ s ∈ grammar, s.Holds Q)
    (hslots : slots.Holds Q) (h : grammar.compileWords slots = .ok compiled) :
    ∀ a ∈ compiled.automata, C a := by
  obtain ⟨⟨order, -, hparts⟩, hintents, hmerged⟩ := exists_of_compileWords h
  have hall : ∀ part ∈ compiled.parts, C part.2 :=
    forall_mem_of_buildNodes (C := fun _ a => C a)
      (fun _ _ _ hbefore hbuilt => hC.isBuilt hgrammar hslots hbefore hbuilt) hparts
  refine List.forall_mem_cons.2 ⟨hmerged ▸ hC.union (List.forall_mem_map.2 ?_),
    List.forall_mem_map.2 hall⟩
  -- The merged automaton adds the markers of the intents.
  intro part hpart
  obtain ⟨s, -, -, hresolve⟩ := exists_of_mem_right hintents hpart
  exact hC.wrap part.1 (hall _ (Parts.mem_of_resolve hresolve))

end Ensures

/-- Everything that is built puts out what is permitted. -/
theorem stores_of_compileWords (hP : Template.Permits P)
    (hgrammar : Section.Proper Template.Legal grammar) (hslots : slots.Holds Template.Legal)
    (hnames : ∀ s ∈ grammar, s.Holds fun t => ∀ name ∈ t.bareSlots, P (.openEntity name none))
    {compiled : Compiled} (h : grammar.compileWords slots = .ok compiled) :
    ∀ a ∈ compiled.automata, a.Stores P := by
  have hC : Ensures (fun t => t.Legal ∧ ∀ name ∈ t.bareSlots, P (.openEntity name none))
      (Automaton.Stores P) :=
    ⟨fun hresolve ht h => Template.stores_of_build hP hresolve ht.1 ht.2 h,
      Automaton.stores_union, fun _ ha => ha.wrap (hP.legal _ trivial) (hP.legal _ trivial)⟩
  refine hC.compileWords (fun s hs => ?_) (fun e he t ht => ?_) h
  · exact ⟨fun t ht => ⟨(hgrammar.holds s hs).sentences t ht, (hnames s hs).sentences t ht⟩,
      fun e he => ⟨(hgrammar.holds s hs).rules e he, (hnames s hs).rules e he⟩⟩
  · -- The values of slots refer to nothing.
    obtain ⟨hlegal, hmentions⟩ := hslots e he t ht
    refine ⟨⟨hlegal, fun name hname => ?_⟩, hmentions⟩
    have hmention := Template.bareSlots_subset_mentions hname
    rw [hmentions] at hmention
    cases hmention

/-- A node of a build order is built from what was built before it. -/
theorem exists_buildNode_of_mem {order : List Node} {parts : Parts}
    (h : grammar.buildNodes slots order = .ok parts) :
    ∀ node ∈ order, ∃ before a, (node, a) ∈ parts ∧
      grammar.buildNode slots before node = .ok a := by
  refine foldlM_establishes (P := fun node parts => ∃ before a, (node, a) ∈ parts ∧
    grammar.buildNode slots before node = .ok a) (fun before node _ parts h => ?_)
    (fun node parts other parts' => ?_) h
  · obtain ⟨a, ha, h⟩ := bind_eq_ok_iff.1 h
    cases h
    exact ⟨before, a, List.mem_append_right _ (List.mem_singleton.2 rfl), ha⟩
  · rintro ⟨before, a, hmem, ha⟩ h
    obtain ⟨b, _, h⟩ := bind_eq_ok_iff.1 h
    cases h
    exact ⟨before, a, List.mem_append_left _ hmem, ha⟩

/-- Every section is built: a slot that one of its templates refers to without a tag gives its
name to an entity. -/
theorem emits_of_compileWords {Q : Template → Prop} {compiled : Compiled}
    (hgrammar : Section.Proper Q grammar) (h : grammar.compileWords slots = .ok compiled) :
    ∀ s ∈ grammar, s.Holds fun t =>
      ∀ name ∈ t.bareSlots, ∃ a ∈ compiled.automata, a.Emits (.openEntity name none) := by
  obtain ⟨⟨order, horder, hparts⟩, -, -⟩ := exists_of_compileWords h
  obtain ⟨graph, hgraph, horder⟩ := bind_eq_ok_iff.1 horder
  have hextends := DependencyGraph.extends_of_ofGrammar hgraph
  have hbuildOrder := (hextends.wellFormed DependencyGraph.wellFormed_empty).buildOrder_spec
  rw [horder] at hbuildOrder
  have hbuilt : ∀ node ∈ graph.nodes, ∃ before a, a ∈ compiled.parts.map Prod.snd ∧
      grammar.IsBuilt slots before node a := by
    intro node hnode
    obtain ⟨before, a, hmem, ha⟩ := exists_buildNode_of_mem hparts node
      ((hbuildOrder.mem_iff node).2 hnode)
    exact ⟨before, a, List.mem_map_of_mem hmem, isBuilt_of_buildNode ha⟩
  intro s hs
  have hnodes : ∀ node ∈ s.nodes, node ∈ graph.nodes := fun node hnode =>
    (hextends.mem_nodes_iff node).2 (.inr (.inl (List.mem_flatMap.2 ⟨s, hs, hnode⟩)))
  have hsection := section?_eq_some hgrammar hs
  refine ⟨fun t ht name hname => ?_, fun entry hentry name hname => ?_⟩
  · obtain ⟨before, a, hmem, ha⟩ := hbuilt _ (hnodes _ List.mem_cons_self)
    have hname : name ∈ s.template.bareSlots := Template.mem_bareSlotsAll.2 ⟨t, ht, hname⟩
    cases ha with
    | intent found part =>
      cases hsection.symm.trans found
      exact ⟨a, List.mem_cons_of_mem _ hmem, Template.emits_of_build hname part⟩
  · obtain ⟨rule, body⟩ := entry
    have hrule : s.ruleNode rule ∈ s.nodes :=
      List.mem_cons_of_mem _ (List.mem_map_of_mem (List.mem_map_of_mem hentry))
    obtain ⟨before, a, hmem, ha⟩ := hbuilt _ (hnodes _ hrule)
    cases ha with
    | @rule _ owner found _ hrule part =>
      -- What is found under the qualified name is the rule of this section.
      have hbody : Template.ruleBody? grammar s.intent ⟨none, rule⟩ = some found :=
        (@ruleBody?_of_rule? _ _ _ ⟨none, rule⟩ _ hgrammar.pointless hrule).2
      obtain ⟨s', hs', hbody⟩ := Option.bind_eq_some_iff.1 hbody
      obtain rfl : s = s' := Option.some.inj (hsection.symm.trans hs')
      cases hbody.symm.trans (Table.find?_of_mem hentry)
      exact ⟨a, List.mem_cons_of_mem _ hmem, Template.emits_of_build hname part⟩

/-- The automata that are built spell something. -/
theorem exists_spells_of_compile {allowed : Option WordSet} {text : String} {grammar : Grammar}
    {casing : Casing} {compiled : Compiled} (hgrammar : ofTextWith allowed text = .ok grammar)
    (hslots : slots.Defined) (h : grammar.compile casing slots = .ok compiled) :
    ∀ a ∈ compiled.automata, ∃ us, a.Spells us := by
  refine List.forall_mem_cons.2 ⟨?_, List.forall_mem_map.2 fun part hpart => ?_⟩
  · obtain ⟨us, hspells, _⟩ := spells_merged hgrammar hslots h
    exact ⟨us, hspells⟩
  · have hspelt := spells_of_compileWords (legal_of_ofTextWith hgrammar casing)
      (hslots.legal casing) h
    obtain ⟨us, _, hspells⟩ := hspelt.1 part hpart
    exact ⟨us, hspells⟩

/-- Nothing that is built costs anything. -/
theorem costless_of_compile {allowed : Option WordSet} {text : String} {grammar : Grammar}
    {casing : Casing} {compiled : Compiled} (hgrammar : ofTextWith allowed text = .ok grammar)
    (hslots : slots.Defined) (h : grammar.compile casing slots = .ok compiled) :
    ∀ a ∈ compiled.automata, a.Stores fun _ => True := by
  have hproper := legal_of_ofTextWith hgrammar casing
  have hnames : ∀ s ∈ grammar.map (Section.mapWords casing.apply), s.Holds fun t =>
      ∀ name ∈ t.bareSlots, True := fun s hs => (hproper.holds s hs).imp fun _ _ _ _ => trivial
  exact stores_of_compileWords Template.permits_true hproper (hslots.legal casing) hnames h

/-- Everything that is built is read from its text, as long as 32 bits number its states. What is
read is what was built exactly when no slot that is referred to without a tag has a colon in its
name. -/
theorem readsBack_iff {allowed : Option WordSet} {text : String} {grammar : Grammar}
    {slots : Slots} {casing : Casing} {compiled : Compiled}
    (hgrammar : ofTextWith allowed text = .ok grammar) (hslots : slots.Defined)
    (h : grammar.compile casing slots = .ok compiled)
    (hsize : ∀ a ∈ compiled.automata, a.size ≤ Nat.pow 2 32) :
    (∀ a ∈ compiled.automata, Automaton.ofBytes a.text.toUTF8 = .ok a.reread) ∧
      ((∀ a ∈ compiled.automata, Automaton.ofBytes a.text.toUTF8 = .ok a) ↔
        ∀ s ∈ grammar, s.Holds Template.PlainSlots) := by
  have hproper := legal_of_ofTextWith hgrammar casing
  have hholds := hslots.legal casing
  -- That a text is read at all does not depend on which symbols are put out.
  have hportable : ∀ a ∈ compiled.automata, a.Portable := by
    intro a ha
    obtain ⟨us, hspells⟩ := exists_spells_of_compile hgrammar hslots h a ha
    exact hspells.tidy.portable (hsize a ha) (costless_of_compile hgrammar hslots h a ha)
  simp only [Automaton.ofBytes_toUTF8]
  refine ⟨fun a ha => Automaton.ofText_text (hportable a ha), fun hread s hs => ?_,
    fun hplain a ha => ?_⟩
  · -- A slot that is referred to without a tag is put out, and read back if it has no colon.
    have hemits := emits_of_compileWords hproper h _ (List.mem_map_of_mem hs)
    refine (Section.holds_mapWords_iff.1 hemits).imp fun t ht name hname => ?_
    rw [Template.bareSlots_mapWords] at ht
    obtain ⟨a, ha, hemits⟩ := ht name hname
    have hcanonical := (Automaton.ofText_text_eq_iff (hportable a ha)).1 (hread a ha) _ hemits
    exact Symbol.isCanonical_openEntity_iff.1 hcanonical
  · -- Nothing else is put out but legal symbols.
    have hnames : ∀ s ∈ grammar.map (Section.mapWords casing.apply),
        s.Holds Template.PlainSlots := by
      refine List.forall_mem_map.2 fun s hs => Section.holds_mapWords_iff.2 ?_
      refine (hplain s hs).imp fun t ht => ?_
      rwa [Template.PlainSlots, Template.bareSlots_mapWords]
    have hstores := stores_of_compileWords Template.permits_legal hproper hholds hnames h a ha
    exact (Automaton.ofText_text_eq_iff (hportable a ha)).2
      fun x hx => (hstores.of_emits hx).isCanonical

/-- A slot with a colon in its name. What is built for it is read as an entity with a value. -/
theorem readsBack_iff_colon : ∃ grammar slots compiled,
    ofTextWith none "[A]\n$a:b" = .ok grammar ∧ Slots.Defined slots ∧
    grammar.compile .keep slots = .ok compiled ∧
    (∀ a ∈ compiled.automata, Automaton.ofBytes a.text.toUTF8 = .ok a.reread) ∧
    ¬ ∀ a ∈ compiled.automata, Automaton.ofBytes a.text.toUTF8 = .ok a := by
  obtain ⟨grammar, slots, compiled, hgrammar, hslots, hcompile, hcheck⟩ := @exists_compile
    "[A]\n$a:b" "a:b" ["x"] .keep
    (fun grammar compiled => decide ((∀ a ∈ compiled.automata, a.size ≤ Nat.pow 2 32) ∧
      ∃ s ∈ grammar, ∃ t ∈ s.sentences, ¬ t.PlainSlots)) (by decide +kernel)
  obtain ⟨hsize, s, hs, t, ht, hcolon⟩ := of_decide_eq_true hcheck
  have hread := readsBack_iff hgrammar hslots hcompile hsize
  exact ⟨grammar, slots, compiled, hgrammar, hslots, hcompile, hread.1,
    fun hall => hcolon ((hread.2.1 hall s hs).sentences t ht)⟩

end Grammar

end Phrasebook
