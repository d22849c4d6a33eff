import Mathlib.Data.List.Nodup
import Phrasebook.Dependency
import Phrasebook.Proofs.Outcome

/-!
# What needs what

A graph of needs grows by nodes that are mentioned and by needs that are added; nothing is ever
taken away, no node is listed twice, and needs are between nodes of the graph. The needs of a
grammar are those of the references in its templates, each of which is checked first, so that
the first one that is not defined is what is reported.

* `DependencyGraph.Needs`, `DependencyGraph.WellFormed`: the needs and what holds of every graph.
* `DependencyGraph.Extends`: one graph has some nodes and needs more than another one.
* `Grammar.mentions`: the references of a grammar in the order in which they are checked.
* `DependencyGraph.extends_ofSection`, `DependencyGraph.checked_ofGrammar`: the graph of a
  section, and that of a grammar unless a reference is undefined.
-/

namespace Phrasebook

/-! ### References and their places -/

/-- A reference in one of the templates of a grammar. -/
structure Mention where
  /-- The intent or the rule whose template refers to something. -/
  dependent : Node
  /-- The intent that the template belongs to. -/
  intent : String
  /-- What the template refers to. -/
  reference : Reference
  deriving DecidableEq, Repr

namespace Mention

/-- The node that the mention needs, with the one that needs it. -/
def need (m : Mention) : Node × Node := (.ofReference m.intent m.reference, m.dependent)

/-- The references of a template, from left to right. -/
def ofTemplate (dependent : Node) (intent : String) (t : Template) : List Mention :=
  t.mentions.map (⟨dependent, intent, ·⟩)

end Mention

namespace Section

/-- The node of a rule of the section. -/
def ruleNode (s : Section) (rule : String) : Node := .rule (s.intent ++ "." ++ rule)

/-- What is built for a section. -/
def nodes (s : Section) : List Node :=
  .intent s.intent :: s.rules.names.map s.ruleNode

/-- The references in the rules of a section, by name, and then in its sentences. -/
def mentions (s : Section) : List Mention :=
  s.rules.entries.flatMap (fun entry => Mention.ofTemplate (s.ruleNode entry.1) s.intent entry.2) ++
    s.sentences.flatMap (Mention.ofTemplate (.intent s.intent) s.intent)

end Section

namespace Grammar

/-- What is built for the sections of a grammar. -/
def nodes (grammar : Grammar) : List Node := grammar.flatMap Section.nodes

/-- The references in a grammar, section by section. -/
def mentions (grammar : Grammar) : List Mention := grammar.flatMap Section.mentions

end Grammar

namespace DependencyGraph

variable {g g' g'' : DependencyGraph} {node needed dependent : Node} {nodes nodes' : List Node}
  {needs needs' : List (Node × Node)}

/-! ### Growing graphs -/

/-- A node is needed to build another one. -/
def Needs (g : DependencyGraph) (needed dependent : Node) : Prop :=
  (needed, dependent) ∈ g.needs

/-- What holds of every graph of needs. -/
structure WellFormed (g : DependencyGraph) : Prop where
  /-- No node is listed twice. -/
  nodup : g.nodes.Nodup
  /-- What is needed is a node. -/
  needed_mem : ∀ {needed dependent}, g.Needs needed dependent → needed ∈ g.nodes
  /-- What needs something is a node. -/
  dependent_mem : ∀ {needed dependent}, g.Needs needed dependent → dependent ∈ g.nodes

/-- One graph has some nodes and some needs more than another one. -/
structure Extends (g : DependencyGraph) (nodes : List Node) (needs : List (Node × Node))
    (g' : DependencyGraph) : Prop where
  /-- What is needed is among the new nodes. -/
  mem_nodes_iff : ∀ node, node ∈ g'.nodes ↔
    node ∈ g.nodes ∨ node ∈ nodes ∨ node ∈ needs.map Prod.fst
  /-- The new needs are those given. -/
  needs_iff : ∀ needed dependent, g'.Needs needed dependent ↔
    g.Needs needed dependent ∨ (needed, dependent) ∈ needs
  /-- A graph stays in order. -/
  wellFormed : g.WellFormed → g'.WellFormed

theorem wellFormed_empty : empty.WellFormed :=
  ⟨List.nodup_nil, fun h => absurd h List.not_mem_nil, fun h => absurd h List.not_mem_nil⟩

theorem Extends.refl (g : DependencyGraph) : Extends g [] [] g :=
  ⟨by simp, by simp, id⟩

theorem Extends.trans (h : Extends g nodes needs g') (h' : Extends g' nodes' needs' g'') :
    Extends g (nodes ++ nodes') (needs ++ needs') g'' := by
  refine ⟨fun node => ?_, fun needed dependent => ?_, fun hg => h'.wellFormed (h.wellFormed hg)⟩
  · rw [h'.mem_nodes_iff, h.mem_nodes_iff, List.map_append, List.mem_append, List.mem_append,
      or_assoc, or_assoc, or_assoc, or_left_comm (b := node ∈ nodes')]
  · rw [h'.needs_iff, h.needs_iff, List.mem_append, or_assoc]

/-- The order in which nodes and needs are added makes no difference. -/
theorem Extends.congr (h : Extends g nodes needs g') (hnodes : ∀ node, node ∈ nodes ↔ node ∈ nodes')
    (hneeds : ∀ need, need ∈ needs ↔ need ∈ needs') : Extends g nodes' needs' g' := by
  refine ⟨fun node => ?_, fun needed dependent => ?_, h.wellFormed⟩
  · rw [h.mem_nodes_iff, hnodes, List.mem_map, List.mem_map]
    simp only [hneeds]
  · rw [h.needs_iff, hneeds]

theorem Extends.mem_nodes (h : Extends g nodes needs g') (hnode : node ∈ g.nodes) :
    node ∈ g'.nodes :=
  (h.mem_nodes_iff node).2 (.inl hnode)

theorem extends_mention (g : DependencyGraph) (node : Node) :
    Extends g [node] [] (g.mention node) := by
  rw [mention]
  split
  · next hmem =>
    refine ⟨fun other => ?_, by simp, id⟩
    simp only [List.mem_singleton, List.map_nil, List.not_mem_nil, or_false]
    exact ⟨.inl, fun h => h.elim id fun heq => heq ▸ hmem⟩
  · next hnew =>
    refine ⟨by simp, by simp [Needs], fun hg => ⟨?_, fun h => ?_, fun h => ?_⟩⟩
    · refine List.nodup_append.2 ⟨hg.nodup, List.nodup_singleton node, ?_⟩
      intro other hother last hlast heq
      rw [heq, List.mem_singleton.1 hlast] at hother
      exact hnew hother
    · exact List.mem_append_left _ (hg.needed_mem h)
    · exact List.mem_append_left _ (hg.dependent_mem h)

/-- A need is added once between nodes of the graph. -/
theorem extends_link (hneeded : needed ∈ g.nodes) (hdependent : dependent ∈ g.nodes) :
    Extends g [] [(needed, dependent)]
      (if (needed, dependent) ∈ g.needs then g
        else { g with needs := g.needs ++ [(needed, dependent)] }) := by
  have hnodes : ∀ node, node ∈ g.nodes ↔
      node ∈ g.nodes ∨ node ∈ [] ∨ node ∈ [(needed, dependent)].map Prod.fst := by
    intro node
    refine (or_iff_left_of_imp fun h => ?_).symm
    obtain rfl : node = needed := by simpa using h
    exact hneeded
  split
  · next hold =>
    refine ⟨hnodes, fun a b => (or_iff_left_of_imp fun h => ?_).symm, id⟩
    cases List.mem_singleton.1 h
    exact hold
  · refine ⟨hnodes, fun a b => List.mem_append, fun hg => ⟨hg.nodup, fun h => ?_, fun h => ?_⟩⟩
    · rcases List.mem_append.1 h with h | h
      · exact hg.needed_mem h
      · cases List.mem_singleton.1 h
        exact hneeded
    · rcases List.mem_append.1 h with h | h
      · exact hg.dependent_mem h
      · cases List.mem_singleton.1 h
        exact hdependent

theorem extends_add (g : DependencyGraph) (needed dependent : Node) :
    Extends g [dependent] [(needed, dependent)] (g.add needed dependent) := by
  -- Both ends are mentioned before the need is added.
  have hends := (g.extends_mention needed).trans ((g.mention needed).extends_mention dependent)
  have h := hends.trans (extends_link ((hends.mem_nodes_iff needed).2 (by simp))
    ((hends.mem_nodes_iff dependent).2 (by simp)))
  refine ⟨fun node => ?_, h.needs_iff, h.wellFormed⟩
  rw [add, h.mem_nodes_iff]
  simp only [List.cons_append, List.nil_append, List.mem_cons, List.map_cons, List.map_nil,
    List.not_mem_nil, or_false]
  tauto

theorem extends_addAll (hdependent : dependent ∈ g.nodes) (needed : List Node) :
    Extends g [] (needed.map (·, dependent)) (g.addAll needed dependent) := by
  rw [addAll]
  induction needed generalizing g with
  | nil => exact .refl g
  | cons node needed ih =>
    have hfirst := g.extends_add node dependent
    have h := hfirst.trans (ih (hfirst.mem_nodes hdependent))
    refine ⟨fun other => ?_, h.needs_iff, h.wellFormed⟩
    have hdrop : other ∈ g.nodes ∨ other ∈ [dependent] ↔ other ∈ g.nodes :=
      or_iff_left_of_imp fun heq => List.mem_singleton.1 heq ▸ hdependent
    rw [List.foldl_cons, h.mem_nodes_iff, List.append_nil, ← or_assoc, hdrop]
    simp

/-- A rule is mentioned before what it needs is added. -/
theorem extends_mention_addAll (g : DependencyGraph) (node : Node) (needed : List Node) :
    Extends g [node] (needed.map (·, node)) ((g.mention node).addAll needed node) := by
  have hmention := g.extends_mention node
  exact hmention.trans (extends_addAll ((hmention.mem_nodes_iff node).2 (by simp)) needed)

/-! ### The graph of a section -/

/-- The graph of a section has its nodes and the needs of its references. -/
theorem extends_ofSection (s : Section) :
    Extends empty s.nodes (s.mentions.map Mention.need) (ofSection s) := by
  have hsentences := extends_mention_addAll empty (.intent s.intent)
    ((s.sentences.flatMap Template.references).map (.ofReference s.intent))
  have hrules : ∀ (entries : List (String × Template)) (g : DependencyGraph),
      Extends g (entries.map fun entry => s.ruleNode entry.1)
        (entries.flatMap fun entry =>
          (entry.2.references.map (.ofReference s.intent)).map (·, s.ruleNode entry.1))
        (entries.foldl (fun g entry => (g.mention (s.ruleNode entry.1)).addAll
          (entry.2.references.map (.ofReference s.intent)) (s.ruleNode entry.1)) g) := by
    intro entries
    induction entries with
    | nil => exact Extends.refl
    | cons entry entries ih => exact fun g => (extends_mention_addAll g _ _).trans (ih _)
  refine (hsentences.trans (hrules s.rules.entries _)).congr (fun node => ?_) fun need => ?_
  · rw [Section.nodes, Table.names, List.map_map]
    rfl
  · simp only [Section.mentions, Mention.ofTemplate, Mention.need, Template.references,
      List.mem_append, List.map_append, List.map_flatMap, List.map_map, List.mem_flatMap,
      List.mem_map, List.mem_eraseDups, Function.comp_def]
    exact or_comm

/-! ### The graph of a grammar -/

/-- Some mentions are added to a graph, unless one of them is undefined; the first such one is
reported. -/
def Checked (defined : Mention → Bool) (g : DependencyGraph) (nodes : List Node)
    (mentions : List Mention) (outcome : Except Error DependencyGraph) : Prop :=
  match mentions.find? fun m => !defined m with
  | some m => outcome = .error (.unresolved m.reference m.intent)
  | none => ∃ g', outcome = .ok g' ∧ Extends g nodes (mentions.map Mention.need) g'

variable {defined : Mention → Bool} {ms ms' : List Mention} {x : Except Error DependencyGraph}

/-- Nodes may be mentioned before anything is checked. -/
theorem Checked.after (h : Checked defined g' nodes' ms x) (hg : Extends g nodes [] g') :
    Checked defined g (nodes ++ nodes') ms x := by
  rw [Checked] at h ⊢
  split at h
  · exact h
  · obtain ⟨g'', rfl, hg''⟩ := h
    exact ⟨g'', rfl, hg.trans hg''⟩

/-- One check after another. -/
theorem Checked.bind {f : DependencyGraph → Except Error DependencyGraph}
    (h : Checked defined g nodes ms x)
    (hf : ∀ g', Extends g nodes (ms.map Mention.need) g' → Checked defined g' nodes' ms' (f g')) :
    Checked defined g (nodes ++ nodes') (ms ++ ms') (x >>= f) := by
  rw [Checked] at h ⊢
  rw [List.find?_append]
  cases hfind : ms.find? fun m => !defined m with
  | some m =>
    rw [hfind] at h
    rw [Option.some_or, h]
    rfl
  | none =>
    rw [hfind] at h
    obtain ⟨g', rfl, hg'⟩ := h
    have hrest := hf g' hg'
    rw [Checked] at hrest
    rw [Option.none_or]
    split at hrest
    · exact hrest
    · obtain ⟨g'', hrest, hg''⟩ := hrest
      rw [List.map_append]
      exact ⟨g'', hrest, hg'.trans hg''⟩

/-- Checks for each member of a list. -/
theorem checked_foldlM {α : Type} {f : DependencyGraph → α → Except Error DependencyGraph}
    {nodes : α → List Node} {ms : α → List Mention} {l : List α}
    (h : ∀ g, ∀ a ∈ l, Checked defined g (nodes a) (ms a) (f g a)) (g : DependencyGraph) :
    Checked defined g (l.flatMap nodes) (l.flatMap ms) (l.foldlM f g) := by
  induction l generalizing g with
  | nil => exact ⟨g, rfl, .refl g⟩
  | cons a l ih =>
    rw [List.foldlM_cons, List.flatMap_cons, List.flatMap_cons]
    exact (h g a List.mem_cons_self).bind fun g' _ =>
      ih (fun g a ha => h g a (List.mem_cons_of_mem _ ha)) g'

/-- The first reference that is found is not found later because it is repeated. -/
theorem find?_eraseDups {α : Type} [BEq α] [LawfulBEq α] (p : α → Bool) :
    ∀ l : List α, l.eraseDups.find? p = l.find? p
  | [] => rfl
  | a :: l => by
    have hlt : (l.filter fun b => !b == a).length < l.length + 1 :=
      Nat.lt_succ_of_le (List.length_filter_le _ _)
    rw [List.eraseDups_cons, List.find?_cons, List.find?_cons]
    cases ha : p a with
    | true => rfl
    | false =>
      -- What is left out equals the first member, which is passed over.
      have hp : ∀ b, (!b == a && p b) = p b := by
        intro b
        by_cases hb : b = a
        · rw [hb, ha, Bool.and_false]
        · simp [hb]
      rw [find?_eraseDups p (l.filter _), List.find?_filter]
      simp only [Bool.decide_and, Bool.decide_eq_true, hp]
termination_by l => l.length

variable {rules : List String} {slots : WordSet} {intent : String}

/-- References are resolved one after another until one is not defined. -/
theorem mapM_resolve (references : List Reference) :
    references.mapM (resolve rules slots intent) =
      match references.find? fun r => !isDefined rules slots intent r with
      | some r => .error (.unresolved r intent)
      | none => .ok (references.map (.ofReference intent)) := by
  induction references with
  | nil => rfl
  | cons r references ih =>
    rw [List.mapM_cons, ih, List.find?_cons, resolve]
    cases isDefined rules slots intent r with
    | false => rfl
    | true =>
      simp only [Bool.not_true]
      cases references.find? fun r => !isDefined rules slots intent r with
      | some r => rfl
      | none => rfl

/-- Whether what a mention refers to is a rule or a slot that is known. -/
def knows (rules : List String) (slots : WordSet) (m : Mention) : Bool :=
  isDefined rules slots m.intent m.reference

/-- References that are made for a node are checked and added. -/
theorem checked_references (hnode : node ∈ g.nodes) {references mentions : List Reference}
    (hfind : ∀ p, references.find? p = mentions.find? p) :
    Checked (knows rules slots) g [] (mentions.map (⟨node, intent, ·⟩)) (do
      let needed ← references.mapM (resolve rules slots intent)
      return g.addAll needed node) := by
  have hmap : (mentions.map (Mention.mk node intent)).find? (fun m => !knows rules slots m) =
      (mentions.find? fun r => !isDefined rules slots intent r).map (⟨node, intent, ·⟩) :=
    List.find?_map
  rw [Checked, hmap, mapM_resolve, hfind]
  cases mentions.find? fun r => !isDefined rules slots intent r with
  | some r => rfl
  | none =>
    refine ⟨_, rfl, (extends_addAll hnode _).congr (fun _ => .rfl) fun need => ?_⟩
    have hmem : ∀ r, r ∈ references ↔ r ∈ mentions := by
      intro r
      have h : (references.find? (· == r)).isSome = true ↔
          (mentions.find? (· == r)).isSome = true := by rw [hfind]
      simpa using h
    simp [Mention.need, hmem]

/-- What one rule of a section needs is checked and added. -/
theorem checked_rule (g : DependencyGraph) (s : Section) (entry : String × Template) :
    Checked (knows rules slots) g [s.ruleNode entry.1]
      (Mention.ofTemplate (s.ruleNode entry.1) s.intent entry.2) (do
        let needed ← entry.2.references.mapM (resolve rules slots s.intent)
        return (g.mention (s.ruleNode entry.1)).addAll needed (s.ruleNode entry.1)) := by
  have hmention := g.extends_mention (s.ruleNode entry.1)
  have hnode := (hmention.mem_nodes_iff (s.ruleNode entry.1)).2 (by simp)
  exact (checked_references hnode (find?_eraseDups · _)).after hmention

/-- What one section needs is checked and added. -/
theorem checked_addSection (g : DependencyGraph) (s : Section) :
    Checked (knows rules slots) g s.nodes s.mentions (addSection rules slots g s) := by
  have hnodes : s.nodes = [.intent s.intent] ++
      ((s.rules.entries.flatMap fun entry => [s.ruleNode entry.1]) ++ []) := by
    rw [List.append_nil, ← List.map_eq_flatMap, Section.nodes, Table.names, List.map_map]
    rfl
  have hmention := g.extends_mention (.intent s.intent)
  rw [hnodes]
  refine ((checked_foldlM (fun g entry _ => checked_rule g s entry) _).bind
    fun g' hg' => ?_).after hmention
  have hnode := hg'.mem_nodes ((hmention.mem_nodes_iff (.intent s.intent)).2 (by simp))
  have hfind : ∀ p, (s.sentences.flatMap Template.references).find? p =
      (s.sentences.flatMap Template.mentions).find? p := by
    intro p
    rw [List.find?_flatMap, List.find?_flatMap]
    simp only [Template.references, find?_eraseDups]
  have hmentions : s.sentences.flatMap (Mention.ofTemplate (.intent s.intent) s.intent) =
      (s.sentences.flatMap Template.mentions).map fun r => ⟨.intent s.intent, s.intent, r⟩ :=
    List.map_flatMap.symm
  rw [hmentions]
  exact checked_references hnode hfind

/-- What a grammar needs is checked and added to the graph without nodes. -/
theorem checked_ofGrammar (grammar : Grammar) (slots : WordSet) :
    Checked (knows (definedRules grammar) slots) empty grammar.nodes grammar.mentions
      (ofGrammar grammar slots) :=
  checked_foldlM (fun g s _ => checked_addSection g s) empty

/-- The graph of a grammar has its nodes and the needs of its references. -/
theorem extends_of_ofGrammar {grammar : Grammar} {slots : WordSet}
    (h : ofGrammar grammar slots = .ok g) :
    Extends empty grammar.nodes (grammar.mentions.map Mention.need) g := by
  have hchecked := checked_ofGrammar grammar slots
  rw [Checked, h] at hchecked
  split at hchecked
  · cases hchecked
  · obtain ⟨g', heq, hextends⟩ := hchecked
    cases heq
    exact hextends

end DependencyGraph

end Phrasebook
