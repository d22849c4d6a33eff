import Phrasebook.Proofs.Compile.Stored
import Phrasebook.Proofs.Compile.Success
import Phrasebook.Proofs.Respelling.Decoding

/-!
# Compiling words that are spelled anew

A grammar whose words are spelled anew compiles to the automata of the grammar in the new
spelling, or fails in the same way. References, tags and reported words are no matched words, so
a new spelling passes through every construct of templates and through every node that is built.

* `Template.build_mapWords`: the automaton of a template in the new spelling.
* `Grammar.buildNode_mapWords`, `Grammar.compileWords_mapWords`: those of nodes and of a grammar.
* `Grammar.casing_commutes`: letter case changes only how the words of an input are spelled.
-/

namespace Phrasebook

variable {f : String → String}

/-! ### Templates -/

theorem Automaton.respell_ofWord (hf : IsSpelling f) (text : String)
    (substitution : Option String) :
    (ofWord text substitution).respell f =
      if f text = text then ofWord text substitution
      else ofWord (f text) (some (substitution.getD text)) := by
  have hempty : (f text).isEmpty = text.isEmpty := by
    rw [Bool.eq_iff_iff, String.isEmpty_iff, String.isEmpty_iff, hf.eq_empty_iff]
  have hinput : (if text.isEmpty then none else some text).map f =
      if (f text).isEmpty then none else some (f text) := by
    rw [hempty]
    split <;> rfl
  by_cases hsame : f text = text
  · rw [if_pos hsame]
    cases substitution with
    | none =>
      rw [ofWord, respell_ofArc, hinput, Option.map_some, Symbol.respell, if_pos hsame, hsame]
    | some value =>
      rw [ofWord, respell_ofArc, hinput, Option.map_some, Symbol.respell, hsame]
  · rw [if_neg hsame]
    cases substitution with
    | none =>
      rw [ofWord, ofWord, respell_ofArc, hinput, Option.map_some, Symbol.respell, if_neg hsame,
        Option.getD_none]
    | some value =>
      rw [ofWord, ofWord, respell_ofArc, hinput, Option.map_some, Symbol.respell,
        Option.getD_some]

theorem Automaton.respell_entity (a : Automaton) (tag : Tag) :
    (a.entity tag).respell f = (a.respell f).entity tag :=
  respell_wrap rfl rfl

namespace Template

variable {resolve resolve' : Node → Except Error Automaton} {intent : String}

mutual

/-- A template in the new spelling has the automaton of the template in the new spelling, when this
holds of what the template refers to. -/
theorem build_mapWords (hf : IsSpelling f)
    (hresolve : ∀ node, resolve' node = Automaton.respell f <$> resolve node) (t : Template) :
    (t.mapWords f).build resolve' intent = Automaton.respell f <$> t.build resolve intent := by
  match t with
  | word text substitution =>
    refine Eq.trans ?_ (congrArg Except.ok (Automaton.respell_ofWord hf text substitution)).symm
    rw [mapWords]
    split <;> rfl
  | sequence items =>
    rw [mapWords, build, build, buildAll_mapWordsAll hf hresolve items]
    simp only [bind_pure_comp, Functor.map_map, Automaton.respell_foldl_concat,
      Automaton.respell_epsilon]
  | alternation branches =>
    rw [mapWords, build, build, buildAll_mapWordsAll hf hresolve branches]
    simp only [bind_pure_comp, Functor.map_map, Automaton.respell_union]
  | optional inner =>
    rw [mapWords, build, build, build_mapWords hf hresolve inner]
    simp only [bind_pure_comp, Functor.map_map, Automaton.respell_optional]
  | ruleRef name => exact hresolve _
  | slotRef name =>
    rw [mapWords, build, build, hresolve]
    simp only [bind_pure_comp, Functor.map_map, Automaton.respell_entity]
  | tagged inner tag =>
    rcases eq_slotRef_or_ne inner with ⟨name, rfl⟩ | hne
    · rw [mapWords, mapWords, build, build, hresolve]
      simp only [bind_pure_comp, Functor.map_map, Automaton.respell_entity]
    · rw [mapWords, build_tagged_of_ne (mapWords_ne_slotRef hne), build_tagged_of_ne hne,
        build_mapWords hf hresolve inner]
      simp only [bind_pure_comp, Functor.map_map, Automaton.respell_entity]
  | substituted inner value =>
    have hvalue : (Symbol.substitution "" value).respell f = .substitution "" value :=
      congrArg (Symbol.substitution · value) ((hf.eq_empty_iff "").2 rfl)
    rw [mapWords, build, build, build_mapWords hf hresolve inner]
    simp only [bind_pure_comp, Functor.map_map, Automaton.respell_concat,
      Automaton.respell_mapOutputs Symbol.map_respell_silence, Automaton.respell_ofArc,
      Option.map_none, Option.map_some, hvalue]

theorem buildAll_mapWordsAll (hf : IsSpelling f)
    (hresolve : ∀ node, resolve' node = Automaton.respell f <$> resolve node)
    (ts : List Template) :
    buildAll resolve' intent (mapWordsAll f ts) =
      List.map (Automaton.respell f) <$> buildAll resolve intent ts := by
  match ts with
  | [] => rfl
  | t :: ts =>
    rw [mapWordsAll, buildAll, buildAll, build_mapWords hf hresolve t,
      buildAll_mapWordsAll hf hresolve ts]
    simp only [bind_pure_comp, bind_map_left, map_bind, Functor.map_map, List.map_cons]

end

end Template

/-! ### Nodes -/

namespace Parts

/-- The automata that have been built, in the new spelling. -/
def respell (f : String → String) (parts : Parts) : Parts :=
  parts.map fun (node, a) => (node, a.respell f)

theorem resolve_respell (parts : Parts) (node : Node) :
    (parts.respell f).resolve node = Automaton.respell f <$> parts.resolve node := by
  have hfind : (parts.respell f).find? node = (parts.find? node).map (.respell f) := by
    rw [find?, find?, respell, List.find?_map, Option.map_map, Option.map_map]
    rfl
  rw [resolve, resolve, hfind]
  cases parts.find? node <;> rfl

end Parts

namespace Grammar

variable {grammar : Grammar} {slots : Slots}

theorem section?_mapWords (name : String) :
    Grammar.section? (grammar.map (Section.mapWords f)) name =
      (grammar.section? name).map (Section.mapWords f) := by
  rw [section?, section?, List.find?_map]
  rfl

theorem rule?_mapWords (qualified : String) :
    rule? (grammar.map (Section.mapWords f)) qualified =
      (grammar.rule? qualified).map fun (owner, body) => (owner, body.mapWords f) := by
  rw [rule?, rule?]
  cases Text.cut '.' qualified with
  | none => rfl
  | some parts =>
    obtain ⟨owner, rule⟩ := parts
    simp only [Option.bind_eq_bind, Option.bind_some, section?_mapWords]
    cases grammar.section? owner with
    | none => rfl
    | some s =>
      simp only [Option.map_some, Option.bind_some, Section.mapWords, Table.find?_map]
      cases s.rules.find? rule <;> rfl

theorem template_mapWords (s : Section) : (s.mapWords f).template = s.template.mapWords f := by
  rw [Section.template, Section.template, Template.mapWords, Template.mapWordsAll_eq_map]
  rfl

/-- A node in the new spelling has its automaton in the new spelling. -/
theorem buildNode_mapWords (hf : IsSpelling f) (parts : Parts) (node : Node) :
    buildNode (grammar.map (Section.mapWords f)) (slots.mapWords f) (parts.respell f) node =
      Automaton.respell f <$> grammar.buildNode slots parts node := by
  have hresolve := parts.resolve_respell (f := f)
  cases node with
  | slot name =>
    rw [buildNode, buildNode, buildNodeWith, buildNodeWith, Slots.mapWords, Table.find?_map]
    cases slots.find? name with
    | none => rfl
    | some values =>
      simp only [Option.map_some, ← Template.mapWordsAll_eq_map,
        Template.buildAll_mapWordsAll hf hresolve, bind_pure_comp, Functor.map_map,
        Automaton.respell_union]
  | rule qualified =>
    rw [buildNode, buildNode, buildNodeWith, buildNodeWith, rule?_mapWords]
    cases grammar.rule? qualified with
    | none => rfl
    | some found => exact Template.build_mapWords hf hresolve found.2
  | intent name =>
    rw [buildNode, buildNode, buildNodeWith, buildNodeWith, section?_mapWords]
    cases grammar.section? name with
    | none => rfl
    | some s =>
      simp only [Option.map_some, template_mapWords]
      exact Template.build_mapWords hf hresolve s.template

/-- Nodes in the new spelling have their automata in the new spelling. -/
theorem buildNodes_mapWords (hf : IsSpelling f) (order : List Node) :
    buildNodes (grammar.map (Section.mapWords f)) (slots.mapWords f) order =
      Parts.respell f <$> grammar.buildNodes slots order := by
  -- This holds from any automata on that have been built already.
  suffices h : ∀ parts : Parts, order.foldlM (fun parts node => do
      return parts ++ [(node, ← buildNode (grammar.map (Section.mapWords f)) (slots.mapWords f)
        parts node)]) (parts.respell f) =
      Parts.respell f <$> order.foldlM (fun parts node => do
        return parts ++ [(node, ← grammar.buildNode slots parts node)]) parts from h []
  induction order with
  | nil => exact fun _ => rfl
  | cons node order ih =>
    intro parts
    rw [List.foldlM_cons, List.foldlM_cons, buildNode_mapWords hf parts node]
    cases grammar.buildNode slots parts node with
    | error e => rfl
    | ok a =>
      have hparts : parts.respell f ++ [(node, a.respell f)] =
          Parts.respell f (parts ++ [(node, a)]) := by
        rw [Parts.respell, Parts.respell, List.map_append]
        rfl
      change List.foldlM _ (parts.respell f ++ [(node, a.respell f)]) order = _
      rw [hparts]
      exact ih (parts ++ [(node, a)])

end Grammar

/-! ### The order in which nodes are built -/

/-- What needs what does not depend on how words are spelled. -/
theorem DependencyGraph.ofGrammar_mapWords (grammar : Grammar) (slots : Slots) :
    ofGrammar (grammar.map (Section.mapWords f)) (slots.mapWords f).nameSet =
      ofGrammar grammar slots.nameSet := by
  have hrules : definedRules (grammar.map (Section.mapWords f)) = definedRules grammar := by
    simp only [definedRules, List.flatMap_map, Table.names, Section.mapWords, Table.map,
      List.map_map]
    rfl
  have hslots : (slots.mapWords f).nameSet = slots.nameSet := by
    simp only [Slots.nameSet, Table.names, Slots.mapWords, Table.map, List.map_map]
    rfl
  have hreferences : ∀ t : Template, (t.mapWords f).references = t.references := fun t => by
    rw [Template.references, Template.references, Template.mentions_mapWords]
  have hsection : ∀ g s, addSection (definedRules grammar) slots.nameSet g (s.mapWords f) =
      addSection (definedRules grammar) slots.nameSet g s := by
    intro g s
    simp only [addSection, Section.mapWords, Table.map, List.foldlM_map, hreferences,
      List.flatMap_map]
  rw [ofGrammar, ofGrammar, hrules, hslots, List.foldlM_map]
  simp only [hsection]

/-- What a grammar is compiled to, in the new spelling. -/
def Compiled.respell (f : String → String) (compiled : Compiled) : Compiled where
  intents := compiled.intents.map fun (name, a) => (name, a.respell f)
  merged := compiled.merged.respell f
  parts := compiled.parts.respell f

theorem respell_mergeIntents (intents : List (String × Automaton)) :
    (mergeIntents intents).respell f =
      mergeIntents (intents.map fun (name, a) => (name, a.respell f)) := by
  rw [mergeIntents, mergeIntents, Automaton.respell_union, List.map_map, List.map_map]
  refine congrArg Automaton.union (List.map_congr_left fun part _ => ?_)
  exact Automaton.respell_wrap rfl rfl

namespace Grammar

variable {grammar : Grammar} {slots : Slots}

theorem buildOrder_mapWords (grammar : Grammar) (slots : Slots) :
    buildOrder (grammar.map (Section.mapWords f)) (slots.mapWords f) =
      grammar.buildOrder slots := by
  rw [buildOrder, buildOrder, DependencyGraph.ofGrammar_mapWords]

/-- The automata of the intents are found in the new spelling. -/
theorem mapM_resolve_mapWords (parts : Parts) :
    ((grammar.map (Section.mapWords f)).mapM fun s => do
        return (s.intent, ← (parts.respell f).resolve (.intent s.intent))) =
      List.map (fun (name, a) => (name, a.respell f)) <$> grammar.mapM fun s => do
        return (s.intent, ← parts.resolve (.intent s.intent)) := by
  rw [List.mapM_map]
  induction grammar with
  | nil => rfl
  | cons s grammar ih =>
    rw [List.mapM_cons, List.mapM_cons, ih, Function.comp_apply, Parts.resolve_respell]
    simp only [Section.mapWords, bind_pure_comp, bind_map_left, map_bind, Functor.map_map,
      List.map_cons]

/-- A grammar in the new spelling compiles to what the grammar compiles to in the new spelling, or
fails with the same error. -/
theorem compileWords_mapWords (hf : IsSpelling f) (grammar : Grammar) (slots : Slots) :
    compileWords (grammar.map (Section.mapWords f)) (slots.mapWords f) =
      Compiled.respell f <$> grammar.compileWords slots := by
  rw [compileWords, compileWords, buildOrder_mapWords, map_bind]
  refine bind_congr fun order => ?_
  rw [buildNodes_mapWords hf, bind_map_left, map_bind]
  refine bind_congr fun parts => ?_
  rw [mapM_resolve_mapWords, bind_map_left, map_bind]
  refine bind_congr fun intents => congrArg Except.ok ?_
  rw [Compiled.respell, respell_mergeIntents]

end Grammar

/-! ### Letter case -/

/-- A change of letter case is a new spelling. -/
theorem Casing.isSpelling (casing : Casing) : IsSpelling casing.apply :=
  ⟨fun _ => Casing.apply_eq_empty_iff, fun _ h => h.apply casing⟩

namespace Template

mutual

/-- When every word keeps its spelling, nothing changes. -/
theorem mapWords_eq_self (hf : ∀ word, f word = word) (t : Template) : t.mapWords f = t := by
  match t with
  | word text substitution => rw [mapWords, if_pos (hf text)]
  | sequence items => rw [mapWords, mapWordsAll_eq_self hf items]
  | alternation branches => rw [mapWords, mapWordsAll_eq_self hf branches]
  | optional inner => rw [mapWords, mapWords_eq_self hf inner]
  | ruleRef name => rfl
  | slotRef name => rfl
  | tagged inner tag => rw [mapWords, mapWords_eq_self hf inner]
  | substituted inner value => rw [mapWords, mapWords_eq_self hf inner]

theorem mapWordsAll_eq_self (hf : ∀ word, f word = word) (ts : List Template) :
    mapWordsAll f ts = ts := by
  match ts with
  | [] => rfl
  | t :: ts => rw [mapWordsAll, mapWords_eq_self hf t, mapWordsAll_eq_self hf ts]

end

/-- Symbols that match words without blanks may be put out. -/
theorem permits_unbroken : Permits Symbol.Unbroken := by
  refine ⟨fun x hx => ?_, fun label h x hx => ?_⟩
  · cases x with
    | word raw => exact hx.unbroken
    | substitution raw value => exact hx.unbroken
    | _ => trivial
  · cases label with
    | none => cases hx
    | some y =>
      have hy := h y rfl
      cases y <;> cases hx <;> exact hy

end Template

namespace Grammar

variable {grammar : Grammar} {slots : Slots}

/-- Words that keep their letter case are compiled as they are. -/
theorem compile_keep (grammar : Grammar) (slots : Slots) :
    grammar.compile .keep slots = grammar.compileWords slots := by
  have htemplate : Template.mapWords Casing.keep.apply = id :=
    funext fun t => Template.mapWords_eq_self (fun _ => rfl) t
  have hsection : Section.mapWords Casing.keep.apply = id := by
    funext s
    simp [Section.mapWords, htemplate, Table.map]
  have hslots : slots.mapWords Casing.keep.apply = slots := by
    simp [Slots.mapWords, htemplate, Table.map]
  rw [compile, hsection, hslots, List.map_id]

/-- In another letter case a grammar compiles to what it compiles to in its own, with the words in
the other case, or it fails with the same error. -/
theorem compile_eq_respell (casing : Casing) (grammar : Grammar) (slots : Slots) :
    grammar.compile casing slots =
      Compiled.respell casing.apply <$> grammar.compile .keep slots := by
  rw [compile_keep]
  exact compileWords_mapWords casing.isSpelling grammar slots

section Compile

variable {allowed : Option WordSet} {text : String} {compiled : Compiled}
  (hgrammar : ofTextWith allowed text = .ok grammar) (hslots : slots.Defined)
include hgrammar hslots

/-- What is put out along a run of a compiled grammar matches words without blanks. -/
theorem unbroken_of_accepts {casing : Casing} (h : grammar.compile casing slots = .ok compiled)
    {run : List Nat} {arcs : List Automaton.Arc} (hrun : compiled.merged.Accepts run arcs) :
    ∀ x ∈ (Utterance.ofArcs arcs).output, x.Unbroken := by
  have hproper := legal_of_ofTextWith hgrammar casing
  have hnames : ∀ s ∈ grammar.map (Section.mapWords casing.apply), s.Holds fun t =>
      ∀ name ∈ t.bareSlots, (Symbol.openEntity name none).Unbroken :=
    fun s hs => (hproper.holds s hs).imp fun _ _ _ _ => trivial
  have hstores : compiled.merged.Stores Symbol.Unbroken :=
    stores_of_compileWords Template.permits_unbroken hproper (hslots.legal casing) hnames h
      compiled.merged List.mem_cons_self
  obtain ⟨stop, hfollows, -⟩ := hrun
  intro x hx
  obtain ⟨arc, harc, houtput⟩ := List.mem_filterMap.1 hx
  exact (hstores.of_follows hfollows arc harc).output x houtput

/-- Letter case commutes with recognition. In a letter case a grammar compiles to what it compiles
to as it is, with all matched words in that case, or it fails with the same error. The accepted
runs are the same, and a run decodes to the same intent but for the matched words. What is
accepted as it is, is accepted in the letter case. -/
theorem casing_commutes (casing : Casing) :
    grammar.compile casing slots =
        Compiled.respell casing.apply <$> grammar.compile .keep slots ∧
      ∀ compiled, grammar.compile .keep slots = .ok compiled →
        (∀ run arcs, (compiled.merged.respell casing.apply).Accepts run arcs ↔
          ∃ before, compiled.merged.Accepts run before ∧
            arcs = before.map (.respell casing.apply)) ∧
        (∀ run arcs, compiled.merged.Accepts run arcs → ∃ intent,
          Intent.ofSymbols (Utterance.ofArcs arcs).output = .ok intent ∧
          Intent.ofSymbols (Utterance.ofArcs (arcs.map (.respell casing.apply))).output =
            .ok (intent.respell casing.apply)) ∧
        ∀ tokens, compiled.merged.AcceptsWords tokens →
          (compiled.merged.respell casing.apply).AcceptsWords (tokens.map casing.apply) := by
  refine ⟨compile_eq_respell casing grammar slots, fun compiled h =>
    ⟨fun _ _ => Automaton.accepts_respell_iff, fun run arcs hrun => ?_, fun _ => .respell⟩⟩
  obtain ⟨us, hspells, hdecodes⟩ := spells_merged hgrammar hslots h
  obtain ⟨intent, hdecode, -⟩ := hdecodes _ (hspells.mem_of_accepts hrun)
  have hunbroken := unbroken_of_accepts hgrammar hslots h hrun
  refine ⟨intent, hdecode, ?_⟩
  rw [Utterance.ofArcs_map_respell, Utterance.respell,
    Intent.ofSymbols_map_respell casing.isSpelling hunbroken, hdecode]
  rfl

end Compile

/-- Words in mixed case, some of which are reported as other words, in a rule and in a slot. -/
theorem casing_commutes_rooms : ∃ grammar slots,
    ofTextWith none "[Light]\nstate = on | Off:off\n(turn the):set [Big] light <state> $room" =
      .ok grammar ∧ Slots.Defined slots ∧
    (∃ compiled, grammar.compile .keep slots = .ok compiled) ∧
    grammar.compile .upper slots =
        Compiled.respell Casing.upper.apply <$> grammar.compile .keep slots ∧
      ∀ compiled, grammar.compile .keep slots = .ok compiled →
        (∀ run arcs, (compiled.merged.respell Casing.upper.apply).Accepts run arcs ↔
          ∃ before, compiled.merged.Accepts run before ∧
            arcs = before.map (.respell Casing.upper.apply)) ∧
        (∀ run arcs, compiled.merged.Accepts run arcs → ∃ intent,
          Intent.ofSymbols (Utterance.ofArcs arcs).output = .ok intent ∧
          Intent.ofSymbols (Utterance.ofArcs (arcs.map (.respell Casing.upper.apply))).output =
            .ok (intent.respell Casing.upper.apply)) ∧
        ∀ tokens, compiled.merged.AcceptsWords tokens →
          (compiled.merged.respell Casing.upper.apply).AcceptsWords
            (tokens.map Casing.upper.apply) := by
  obtain ⟨grammar, slots, compiled, hgrammar, hslots, hcompile, -⟩ := @exists_compile
    "[Light]\nstate = on | Off:off\n(turn the):set [Big] light <state> $room" "room"
    ["Kitchen", "hall:lobby"] .keep (fun _ _ => true) (by decide +kernel)
  exact ⟨grammar, slots, hgrammar, hslots, ⟨compiled, hcompile⟩,
    casing_commutes hgrammar hslots .upper⟩

end Grammar

end Phrasebook
