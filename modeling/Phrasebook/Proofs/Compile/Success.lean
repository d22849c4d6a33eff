import Phrasebook.Files.Tree
import Phrasebook.Proofs.BuildOrder
import Phrasebook.Proofs.Compile.Building

/-!
# When compiling succeeds

A grammar compiles when all of its references are defined and nothing needs itself. All
references are checked before anything is built, in the order in which the grammar mentions them,
so that the first one that is not defined is reported. After that every node of the graph has a
template whose references have been built before it, so nothing that is built is ever missing.

* `Grammar.defines`, `Grammar.firstUndefined`: the references that name something.
* `Grammar.Needs`: what is needed to build what.
* `Template.exists_build`: a template can be built when what it refers to has been.
* `Grammar.IsSchedule`: an order in which everything that has a name can be built.
* `Grammar.exists_buildNodes`: everything is built along such an order.
* `Compiler.compile_outcome`: the three outcomes of a compilation without a store.
-/

namespace Phrasebook

open Relation (TransGen)

namespace Grammar

/-- Whether a reference names a rule of the grammar or one of the slots. -/
def defines (grammar : Grammar) (slots : Slots) (m : Mention) : Bool :=
  match m.reference with
  | .rule name => (Template.ruleBody? grammar m.intent name).isSome
  | .slot name => (slots.find? name).isSome

/-- The first reference that names nothing. -/
def firstUndefined (grammar : Grammar) (slots : Slots) : Option Mention :=
  grammar.mentions.find? fun m => !grammar.defines slots m

/-- Something is needed to build something else, because a template refers to it. -/
def Needs (grammar : Grammar) (needed dependent : Node) : Prop :=
  ∃ m ∈ grammar.mentions, m.need = (needed, dependent)

end Grammar

/-! ### Changing words -/

section MapWords

variable {f : String → String} {grammar : Grammar} {slots : Slots}

theorem Mention.ofTemplate_mapWords (dependent : Node) (intent : String) (t : Template) :
    ofTemplate dependent intent (t.mapWords f) = ofTemplate dependent intent t := by
  rw [ofTemplate, ofTemplate, Template.mentions_mapWords]

theorem Section.mentions_mapWords (s : Section) : (s.mapWords f).mentions = s.mentions := by
  simp only [mentions, mapWords, ruleNode, Table.map, List.flatMap_map,
    Mention.ofTemplate_mapWords]

/-- A change of words changes no reference of a grammar. -/
theorem Grammar.mentions_mapWords :
    mentions (grammar.map (Section.mapWords f)) = grammar.mentions := by
  rw [mentions, mentions, List.flatMap_map]
  exact congrArg grammar.flatMap (funext Section.mentions_mapWords)

theorem Grammar.ruleBody?_mapWords (intent : String) (name : RuleName) :
    Template.ruleBody? (grammar.map (Section.mapWords f)) intent name =
      (Template.ruleBody? grammar intent name).map (Template.mapWords f) := by
  rw [Template.ruleBody?, Template.ruleBody?, List.find?_map]
  change ((grammar.find? (·.intent = name.owner intent)).map (Section.mapWords f)).bind _ = _
  cases grammar.find? (·.intent = name.owner intent) with
  | none => rfl
  | some s => exact Table.find?_map

/-- It makes no difference for what is defined. -/
theorem Grammar.defines_mapWords (m : Mention) :
    defines (grammar.map (Section.mapWords f)) (slots.mapWords f) m = grammar.defines slots m := by
  rw [defines, defines]
  cases m.reference with
  | rule name => exact (congrArg _ (ruleBody?_mapWords m.intent name)).trans Option.isSome_map
  | slot name => exact (congrArg _ Table.find?_map).trans Option.isSome_map

theorem Grammar.firstUndefined_mapWords :
    firstUndefined (grammar.map (Section.mapWords f)) (slots.mapWords f) =
      grammar.firstUndefined slots := by
  rw [firstUndefined, firstUndefined, mentions_mapWords]
  simp only [defines_mapWords]

theorem Grammar.needs_mapWords :
    Needs (grammar.map (Section.mapWords f)) = grammar.Needs := by
  funext needed dependent
  rw [Needs, Needs, mentions_mapWords]

end MapWords

/-! ### Names of rules -/

namespace Grammar

variable {P : Template → Prop} {grammar : Grammar} {slots : Slots}

section Proper

variable (hgrammar : Section.Proper P grammar)
include hgrammar

/-- A rule is found under its qualified name. -/
theorem rule?_eq_some {s : Section} (hs : s ∈ grammar) {entry : String × Template}
    (hentry : entry ∈ s.rules.entries) :
    grammar.rule? (s.intent ++ "." ++ entry.1) = some (s.intent, entry.2) := by
  have hcut : Text.cut '.' (s.intent ++ "." ++ entry.1) = some (s.intent, entry.1) :=
    Text.cut_eq_some_iff.2 ⟨by simp, (hgrammar.pointless s hs).intent⟩
  simp only [rule?, hcut, section?_eq_some hgrammar hs, Option.bind_eq_bind, Option.bind_some,
    Table.find?_of_mem (show (entry.1, entry.2) ∈ s.rules.entries from hentry)]
  rfl

/-- A reference to a rule names an entry of the section that defines it. -/
theorem ruleBody?_eq_some_iff {intent : String} {name : RuleName} {body : Template} :
    Template.ruleBody? grammar intent name = some body ↔
      ∃ s ∈ grammar, s.intent = name.owner intent ∧ (name.rule, body) ∈ s.rules.entries := by
  simp only [Template.ruleBody?, Option.bind_eq_bind, Option.bind_eq_some_iff]
  constructor
  · rintro ⟨s, hfind, hbody⟩
    exact ⟨s, List.mem_of_find?_eq_some hfind, by simpa using List.find?_some hfind,
      Table.mem_of_find? hbody⟩
  · rintro ⟨s, hs, hintent, hentry⟩
    have hfind : grammar.find? (·.intent = s.intent) = some s := section?_eq_some hgrammar hs
    rw [hintent] at hfind
    exact ⟨s, hfind, Table.find?_of_mem hentry⟩

/-- The rules that are defined are those that references name. -/
theorem contains_definedRules (intent : String) (name : RuleName) :
    (DependencyGraph.definedRules grammar).contains (name.qualified intent) =
      (Template.ruleBody? grammar intent name).isSome := by
  rw [Bool.eq_iff_iff, List.contains_iff_mem, Option.isSome_iff_exists]
  simp only [ruleBody?_eq_some_iff hgrammar, DependencyGraph.definedRules, List.mem_flatMap,
    List.mem_map, Table.names]
  constructor
  · rintro ⟨s, hs, _, ⟨entry, hentry, rfl⟩, heq⟩
    -- Neither name of the rule holds a point, so that both are those of the reference.
    have hchars := congrArg String.toList heq
    simp only [RuleName.qualified, String.toList_append] at hchars
    obtain ⟨howner, hrule⟩ := eq_of_append_point_eq (hgrammar.pointless s hs).intent
      ((hgrammar.pointless s hs).rules entry hentry) (by simpa using hchars.symm)
    rw [String.toList_inj] at howner hrule
    exact ⟨entry.2, s, hs, howner.symm, by rwa [hrule]⟩
  · rintro ⟨body, s, hs, hintent, hentry⟩
    refine ⟨s, hs, name.rule, ⟨_, hentry, rfl⟩, ?_⟩
    rw [hintent, RuleName.qualified]

/-- The references that are checked are those that name something. -/
theorem knows_eq_defines (m : Mention) :
    DependencyGraph.knows (DependencyGraph.definedRules grammar) slots.nameSet m =
      grammar.defines slots m := by
  rw [DependencyGraph.knows, defines]
  cases m.reference with
  | rule name => exact contains_definedRules hgrammar m.intent name
  | slot name =>
    rw [Bool.eq_iff_iff, Table.isSome_find?_iff]
    exact WordSet.contains_eq_true_iff

end Proper

end Grammar

/-! ### Templates -/

namespace Template

variable {resolve : Node → Except Error Automaton} {intent : String}

mutual

/-- A template can be built when what it refers to has been. -/
theorem exists_build {t : Template}
    (h : ∀ r ∈ t.mentions, ∃ a, resolve (.ofReference intent r) = .ok a) :
    ∃ a, t.build resolve intent = .ok a := by
  match t with
  | word text substitution => exact ⟨_, rfl⟩
  | sequence items =>
    obtain ⟨as, has⟩ := exists_buildAll h
    exact ⟨_, bind_eq_ok_iff.2 ⟨as, has, rfl⟩⟩
  | alternation branches =>
    obtain ⟨as, has⟩ := exists_buildAll h
    exact ⟨_, bind_eq_ok_iff.2 ⟨as, has, rfl⟩⟩
  | optional inner =>
    obtain ⟨a, ha⟩ := exists_build (t := inner) h
    exact ⟨_, bind_eq_ok_iff.2 ⟨a, ha, rfl⟩⟩
  | ruleRef name => exact h _ List.mem_cons_self
  | slotRef name =>
    obtain ⟨a, ha⟩ := h _ List.mem_cons_self
    exact ⟨_, bind_eq_ok_iff.2 ⟨a, ha, rfl⟩⟩
  | tagged inner tag =>
    rcases eq_slotRef_or_ne inner with ⟨name, rfl⟩ | hne
    · obtain ⟨a, ha⟩ := h _ List.mem_cons_self
      exact ⟨_, bind_eq_ok_iff.2 ⟨a, ha, rfl⟩⟩
    · obtain ⟨a, ha⟩ := exists_build (t := inner) h
      rw [build_tagged_of_ne hne]
      exact ⟨_, bind_eq_ok_iff.2 ⟨a, ha, rfl⟩⟩
  | substituted inner value =>
    obtain ⟨a, ha⟩ := exists_build (t := inner) h
    exact ⟨_, bind_eq_ok_iff.2 ⟨a, ha, rfl⟩⟩

theorem exists_buildAll {ts : List Template}
    (h : ∀ r ∈ mentionsAll ts, ∃ a, resolve (.ofReference intent r) = .ok a) :
    ∃ as, buildAll resolve intent ts = .ok as := by
  match ts with
  | [] => exact ⟨[], rfl⟩
  | t :: ts =>
    obtain ⟨a, ha⟩ := exists_build fun r hr => h r (List.mem_append_left _ hr)
    obtain ⟨as, has⟩ := exists_buildAll fun r hr => h r (List.mem_append_right _ hr)
    exact ⟨a :: as, bind_eq_ok_iff.2 ⟨a, ha, bind_eq_ok_iff.2 ⟨as, has, rfl⟩⟩⟩

end

end Template

/-! ### Nodes in build order -/

theorem Parts.exists_resolve {parts : Parts} {node : Node} (h : node ∈ parts.map Prod.fst) :
    ∃ a, parts.resolve node = .ok a := by
  obtain ⟨part, hpart, rfl⟩ := List.mem_map.1 h
  have hfind : (List.find? (fun other => other.1 = part.1) parts).isSome = true :=
    List.find?_isSome.2 ⟨part, hpart, by simp⟩
  obtain ⟨found, hfound⟩ := Option.isSome_iff_exists.1 hfind
  exact ⟨found.2, by rw [resolve, Parts.find?, hfound]; rfl⟩

namespace Grammar

/-- A node is a node of the grammar or one of the slots. -/
def Names (grammar : Grammar) (slots : Slots) (node : Node) : Prop :=
  node ∈ grammar.nodes ∨ ∃ name, node = .slot name ∧ (slots.find? name).isSome = true

/-- What a node needs has been built. -/
def Ready (grammar : Grammar) (parts : Parts) (node : Node) : Prop :=
  ∀ needed, grammar.Needs needed node → ∃ a, parts.resolve needed = .ok a

variable {P : Template → Prop} {grammar : Grammar} {slots : Slots} {parts : Parts} {node : Node}
  (hgrammar : Section.Proper P grammar)
include hgrammar

/-- A node of the grammar can be built when what it needs has been built. -/
theorem exists_buildNode_of_ready (hnode : node ∈ grammar.nodes)
    (hready : grammar.Ready parts node) : ∃ a, grammar.buildNode slots parts node = .ok a := by
  obtain ⟨s, hs, hnode⟩ := List.mem_flatMap.1 hnode
  have hneeds : ∀ m ∈ s.mentions, m.dependent = node →
      ∃ a, parts.resolve (.ofReference m.intent m.reference) = .ok a := by
    rintro m hm rfl
    exact hready _ ⟨m, List.mem_flatMap.2 ⟨s, hs, hm⟩, rfl⟩
  rcases List.mem_cons.1 hnode with rfl | hnode
  · simp only [buildNode, buildNodeWith, section?_eq_some hgrammar hs]
    refine Template.exists_build fun r hr => ?_
    rw [Section.template, Template.mentions, Template.mentionsAll_eq_flatMap] at hr
    obtain ⟨t, ht, hr⟩ := List.mem_flatMap.1 hr
    refine hneeds ⟨_, s.intent, r⟩ (List.mem_append_right _ ?_) rfl
    exact List.mem_flatMap.2 ⟨t, ht, List.mem_map_of_mem hr⟩
  · obtain ⟨rule, hrule, rfl⟩ := List.mem_map.1 hnode
    obtain ⟨entry, hentry, rfl⟩ := List.mem_map.1 hrule
    simp only [buildNode, buildNodeWith, Section.ruleNode, rule?_eq_some hgrammar hs hentry]
    refine Template.exists_build fun r hr => ?_
    refine hneeds ⟨_, s.intent, r⟩ (List.mem_append_left _ ?_) rfl
    exact List.mem_flatMap.2 ⟨entry, hentry, List.mem_map_of_mem hr⟩

omit hgrammar in
/-- A slot can be built: its values refer to nothing. -/
theorem exists_buildNode_of_slot (hslots : slots.Holds P) {name : String}
    (h : (slots.find? name).isSome = true) :
    ∃ a, grammar.buildNode slots parts (.slot name) = .ok a := by
  obtain ⟨values, hvalues⟩ := Option.isSome_iff_exists.1 h
  have hbuild : ∃ as, Template.buildAll parts.resolve ("$" ++ name) values = .ok as :=
    Template.exists_buildAll (by simp [hslots.mentionsAll_eq_nil hvalues])
  obtain ⟨as, has⟩ := hbuild
  simp only [buildNode, buildNodeWith, hvalues]
  exact ⟨_, bind_eq_ok_iff.2 ⟨as, has, rfl⟩⟩

/-- What a reference names is a slot or a node of the grammar. -/
theorem names_of_defines {m : Mention} (h : grammar.defines slots m = true) :
    grammar.Names slots m.need.1 := by
  obtain ⟨dependent, intent, reference⟩ := m
  cases reference with
  | slot name => exact .inr ⟨name, rfl, h⟩
  | rule name =>
    obtain ⟨body, hbody⟩ := Option.isSome_iff_exists.1 h
    obtain ⟨s, hs, hintent, hentry⟩ := (ruleBody?_eq_some_iff hgrammar).1 hbody
    refine .inl (List.mem_flatMap.2 ⟨s, hs, ?_⟩)
    refine List.mem_cons_of_mem _ (List.mem_map.2 ⟨name.rule, List.mem_map_of_mem hentry, ?_⟩)
    rw [Section.ruleNode, hintent]
    rfl

/-- What has a name can be built when what it needs has been built. -/
theorem exists_buildNode_of_names (hslots : slots.Holds P) (h : grammar.Names slots node)
    (hready : grammar.Ready parts node) : ∃ a, grammar.buildNode slots parts node = .ok a := by
  rcases h with hnode | ⟨name, rfl, hname⟩
  · exact exists_buildNode_of_ready hgrammar hnode hready
  · exact exists_buildNode_of_slot hslots hname

omit hgrammar in
/-- Everything can be built along an order in which each node comes after what it needs. -/
theorem exists_buildNodes {order : List Node}
    (hbuild : ∀ parts, ∀ node ∈ order, grammar.Ready parts node →
      ∃ a, grammar.buildNode slots parts node = .ok a)
    (hprecedes : ∀ before node after, order = before ++ node :: after →
      ∀ needed, grammar.Needs needed node → needed ∈ before) :
    ∃ parts, grammar.buildNodes slots order = .ok parts ∧ parts.map Prod.fst = order := by
  -- What has been built are the nodes before the rest of the order.
  suffices h : ∀ (rest : List Node) (parts : Parts), parts.map Prod.fst ++ rest = order →
      ∃ parts', rest.foldlM (fun parts node => do
        return parts ++ [(node, ← grammar.buildNode slots parts node)]) parts = .ok parts' ∧
          parts'.map Prod.fst = order from h order [] rfl
  intro rest
  induction rest with
  | nil =>
    intro parts heq
    rw [List.append_nil] at heq
    exact ⟨parts, rfl, heq⟩
  | cons node rest ih =>
    intro parts heq
    have hready : grammar.Ready parts node := fun needed hneeds =>
      Parts.exists_resolve (hprecedes _ node rest heq.symm needed hneeds)
    obtain ⟨a, ha⟩ := hbuild parts node (heq ▸ by simp) hready
    obtain ⟨parts', hrest, horder⟩ := ih (parts ++ [(node, a)]) (by simpa using heq)
    refine ⟨parts', ?_, horder⟩
    rw [List.foldlM_cons, ha]
    exact hrest

omit hgrammar in
/-- The needs of the graph are those of the references. -/
theorem needs_of_ofGrammar {g : DependencyGraph} {slots : WordSet}
    (h : DependencyGraph.ofGrammar grammar slots = .ok g) : g.Needs = grammar.Needs := by
  funext needed dependent
  rw [(DependencyGraph.extends_of_ofGrammar h).needs_iff]
  exact propext ⟨fun h => h.elim (absurd · List.not_mem_nil) List.mem_map.1,
    fun h => .inr (List.mem_map.2 h)⟩

/-- An order in which a grammar and its slots can be built. -/
structure IsSchedule (grammar : Grammar) (slots : Slots) (order : List Node) : Prop where
  /-- No node is listed twice. -/
  nodup : order.Nodup
  /-- Only what has a name is listed. -/
  names : ∀ node ∈ order, grammar.Names slots node
  /-- The intents are listed. -/
  intent_mem : ∀ s ∈ grammar, .intent s.intent ∈ order
  /-- What a node needs is listed before it. -/
  precedes : ∀ before node after, order = before ++ node :: after →
    ∀ needed, grammar.Needs needed node → needed ∈ before

/-- The order in which a grammar is built is the reported one, or else a reference is undefined or
something needs itself. -/
theorem buildOrder_spec :
    match grammar.firstUndefined slots with
    | some m => grammar.buildOrder slots = .error (.unresolved m.reference m.intent)
    | none =>
      (∃ names, grammar.buildOrder slots = .error (.cyclic names)) ∧
          (∃ node, TransGen grammar.Needs node node) ∨
        (∃ order, grammar.buildOrder slots = .ok order ∧ grammar.IsSchedule slots order) ∧
          ∀ node, ¬ TransGen grammar.Needs node node := by
  have hchecked := DependencyGraph.checked_ofGrammar grammar slots.nameSet
  simp only [DependencyGraph.Checked, knows_eq_defines hgrammar] at hchecked
  change match grammar.firstUndefined slots with | some m => _ | none => _ at hchecked
  rw [buildOrder]
  split at hchecked
  · next m hfind => exact congrArg (· >>= DependencyGraph.buildOrder) hchecked
  · next hfind =>
    obtain ⟨g, hg, hextends⟩ := hchecked
    have hwellFormed := hextends.wellFormed DependencyGraph.wellFormed_empty
    have hspec := hwellFormed.buildOrder_spec
    rw [hg, ← needs_of_ofGrammar hg]
    change _ ∨ (∃ order, g.buildOrder = .ok order ∧ _) ∧ _
    split at hspec
    · next order horder =>
      refine .inr ⟨⟨order, horder, hspec.nodup, fun node hnode => ?_, fun s hs => ?_,
        needs_of_ofGrammar hg ▸ hspec.precedes⟩, hspec.acyclic hwellFormed⟩
      · rcases (hextends.mem_nodes_iff node).1 ((hspec.mem_iff node).1 hnode) with h | h | h
        · exact absurd h List.not_mem_nil
        · exact .inl h
        · rw [List.map_map] at h
          obtain ⟨m, hm, rfl⟩ := List.mem_map.1 h
          have hdefines := List.find?_eq_none.1 hfind m hm
          exact names_of_defines hgrammar (by simpa using hdefines)
      · rw [hspec.mem_iff, hextends.mem_nodes_iff]
        exact .inr (.inl (List.mem_flatMap.2 ⟨s, hs, List.mem_cons_self⟩))
    · next e herror =>
      obtain ⟨names, rfl, node, hcycle, -⟩ := hspec
      exact .inl ⟨⟨names, herror⟩, node, hcycle⟩

/-- The order in which a grammar is built is one in which it can be built. -/
theorem isSchedule_of_buildOrder {order : List Node} (h : grammar.buildOrder slots = .ok order) :
    grammar.IsSchedule slots order := by
  have hspec := @buildOrder_spec P grammar slots hgrammar
  split at hspec
  · cases h.symm.trans hspec
  · rcases hspec with ⟨⟨names, hcyclic⟩, -⟩ | ⟨⟨order', horder, hschedule⟩, -⟩
    · cases h.symm.trans hcyclic
    · cases h.symm.trans horder
      exact hschedule

variable (hslots : slots.Holds P)
include hslots

/-- Everything is built in such an order. -/
theorem IsSchedule.exists_buildNodes {order : List Node} (h : grammar.IsSchedule slots order) :
    ∃ parts, grammar.buildNodes slots order = .ok parts ∧ parts.map Prod.fst = order :=
  Grammar.exists_buildNodes (fun _ node hnode hready =>
    exists_buildNode_of_names hgrammar hslots (h.names node hnode) hready) h.precedes

/-- With a build order everything is built, and the automaton of each intent is among that. -/
theorem exists_compileWords {order : List Node} (h : grammar.buildOrder slots = .ok order) :
    ∃ compiled, grammar.compileWords slots = .ok compiled ∧
      compiled.parts.map Prod.fst = order := by
  have hschedule := isSchedule_of_buildOrder hgrammar h
  obtain ⟨parts, hparts, hbuilt⟩ := hschedule.exists_buildNodes hgrammar hslots
  have hresolve : ∀ s ∈ grammar, ∃ part : String × Automaton,
      (do return (s.intent, ← parts.resolve (.intent s.intent))) = Except.ok part := by
    intro s hs
    obtain ⟨a, ha⟩ := Parts.exists_resolve (hbuilt ▸ hschedule.intent_mem s hs)
    exact ⟨_, bind_eq_ok_iff.2 ⟨a, ha, rfl⟩⟩
  obtain ⟨intents, hintents⟩ := exists_mapM_eq_ok hresolve
  exact ⟨_, bind_eq_ok_iff.2 ⟨order, h, bind_eq_ok_iff.2 ⟨parts, hparts,
    bind_eq_ok_iff.2 ⟨intents, hintents, rfl⟩⟩⟩, hbuilt⟩

/-- What a compilation of the words as they are comes to: the first undefined reference is
reported, or else a cycle, or else everything is built. -/
theorem compileWords_spec :
    match grammar.firstUndefined slots with
    | some m => grammar.compileWords slots = .error (.unresolved m.reference m.intent)
    | none =>
      (∃ names, grammar.compileWords slots = .error (.cyclic names)) ∧
          (∃ node, TransGen grammar.Needs node node) ∨
        (∃ compiled, grammar.compileWords slots = .ok compiled) ∧
          ∀ node, ¬ TransGen grammar.Needs node node := by
  have hspec := @buildOrder_spec P grammar slots hgrammar
  split at hspec
  · exact congrArg (· >>= _) hspec
  · refine hspec.imp (And.imp_left fun ⟨names, hcyclic⟩ => ?_)
      (And.imp_left fun ⟨order, horder, _⟩ => ?_)
    · exact ⟨names, congrArg (· >>= _) hcyclic⟩
    · exact (exists_compileWords hgrammar hslots horder).imp fun _ h => h.1

end Grammar

/-! ### Compilers -/

namespace Compiler

variable {m : Type → Type} [Monad m] [LawfulMonad m] [Files m] {c : Compiler}

/-- A compilation without a store reports the first reference that names nothing, or else that
something needs itself, or else it succeeds; nothing that it builds is ever missing. -/
theorem compile_outcome (hstore : c.store = none) {allowed : Option WordSet} {text : String}
    {grammar : Grammar} {slots : Slots}
    (hgrammar : Grammar.ofTextWith allowed text = .ok grammar) (hslots : slots.Defined) :
    ∃ outcome, Prod.fst <$> (c.compile grammar slots : m (Except Error Compiled × Compiler)) =
        pure outcome ∧
      (∀ reference intent, outcome = .error (.unresolved reference intent) ↔
        ∃ mention, grammar.firstUndefined slots = some mention ∧
          mention.reference = reference ∧ mention.intent = intent) ∧
      ((∃ names, outcome = .error (.cyclic names)) ↔
        grammar.firstUndefined slots = none ∧ ∃ node, TransGen grammar.Needs node node) ∧
      ((∃ compiled, outcome = .ok compiled) ↔
        grammar.firstUndefined slots = none ∧ ∀ node, ¬ TransGen grammar.Needs node node) ∧
      ∀ name, outcome ≠ .error (.missingArtifact name) := by
  refine ⟨grammar.compile c.casing slots, fst_compile hstore grammar slots, ?_⟩
  have hproper := Section.proper_mapWords_of_ofTextWith c.casing.apply hgrammar
  have hholds := hslots.holds_mapWords c.casing.apply
  have hspec := Grammar.compileWords_spec hproper hholds
  rw [Grammar.firstUndefined_mapWords, Grammar.needs_mapWords] at hspec
  rw [Grammar.compile]
  cases hfirst : grammar.firstUndefined slots with
  | some mention =>
    rw [hfirst] at hspec
    rw [hspec]
    simp
  | none =>
    rw [hfirst] at hspec
    rcases hspec with ⟨⟨names, hnames⟩, node, hcycle⟩ | ⟨⟨compiled, hcompiled⟩, hacyclic⟩
    · have hcyclic : ∃ node, TransGen grammar.Needs node node := ⟨node, hcycle⟩
      simp [hnames, hcyclic]
    · simp [hcompiled, hacyclic]

/-- The rules need each other, but a reference that names nothing is reported first. -/
theorem compile_outcome_undefined : ∃ grammar,
    Grammar.ofTextWith none "[Loop]\nb = y <a> <c> <c>\na = x <b>\nstart $who" = .ok grammar ∧
    grammar.firstUndefined ∅ = some ⟨.rule "Loop.b", "Loop", .rule ⟨none, "c"⟩⟩ ∧
    ∃ outcome, Prod.fst <$> ((new .upper none).compile grammar ∅ :
        StateM FileTree (Except Error Compiled × Compiler)) = pure outcome ∧
      (∀ reference intent, outcome = .error (.unresolved reference intent) ↔
        ∃ mention, grammar.firstUndefined ∅ = some mention ∧
          mention.reference = reference ∧ mention.intent = intent) ∧
      ((∃ names, outcome = .error (.cyclic names)) ↔
        grammar.firstUndefined ∅ = none ∧ ∃ node, TransGen grammar.Needs node node) ∧
      ((∃ compiled, outcome = .ok compiled) ↔
        grammar.firstUndefined ∅ = none ∧ ∀ node, ¬ TransGen grammar.Needs node node) ∧
      ∀ name, outcome ≠ .error (.missingArtifact name) := by
  have h : (do
      let grammar ← Grammar.ofTextWith none
        "[Loop]\nb = y <a> <c> <c>\na = x <b>\nstart $who"
      return grammar.firstUndefined ∅) =
        .ok (some ⟨.rule "Loop.b", "Loop", .rule ⟨none, "c"⟩⟩) := by decide +kernel
  obtain ⟨grammar, hgrammar, hfirst⟩ := bind_eq_ok_iff.1 h
  exact ⟨grammar, hgrammar, Except.ok.inj hfirst, compile_outcome rfl hgrammar .empty⟩

end Compiler

end Phrasebook
