import Phrasebook.Proofs.Compile.Success

/-!
# What a node needs, within one intent and within all

The graph of a section and that of the grammar mention nodes in different orders, and a template
may refer to something twice. What a node needs is listed all the same in one way: in the order of
listings and each node once, so that the list is determined by which nodes are needed. Names of
intents hold no point, so an intent or a rule belongs to one section of a grammar, and only the
templates of this section make it need anything.

* `Section.Refers`: a template of a node refers to another node.
* `DependencyGraph.IsListing`: some nodes in the order of listings, each once.
* `DependencyGraph.isListing_needsOf`: what a node needs is listed in this way.
* `Section.Proper.eq_of_mem_nodes`: a node belongs to one section.
* `DependencyGraph.needsOf_agrees`: the graph of a section agrees with that of the grammar.
-/

namespace Phrasebook

/-! ### The order of listings -/

namespace Node

variable {a b c : Node}

theorem le_iff : a.le b = true ↔ a.rank < b.rank ∨ a.rank = b.rank ∧ a.name ≤ b.name := by
  simp [le]

theorem le_trans (hab : a.le b = true) (hbc : b.le c = true) : a.le c = true := by
  rw [le_iff] at hab hbc ⊢
  rcases hab with hab | ⟨hab, hname⟩
  · exact .inl (by omega)
  · rcases hbc with hbc | ⟨hbc, hname'⟩
    · exact .inl (by omega)
    · exact .inr ⟨hab.trans hbc, String.le_trans hname hname'⟩

theorem le_total (a b : Node) : (a.le b || b.le a) = true := by
  rw [Bool.or_eq_true, le_iff, le_iff]
  rcases Nat.lt_trichotomy a.rank b.rank with hlt | heq | hgt
  · exact .inl (.inl hlt)
  · exact (String.le_total a.name b.name).imp (fun h => .inr ⟨heq, h⟩) fun h => .inr ⟨heq.symm, h⟩
  · exact .inr (.inl hgt)

/-- Nodes of one kind and one name are the same. -/
theorem eq_of_name_eq (hrank : a.rank = b.rank) (hname : a.name = b.name) : a = b := by
  cases a <;> cases b <;> simp_all [rank, name]

theorem le_antisymm (hab : a.le b = true) (hba : b.le a = true) : a = b := by
  rw [le_iff] at hab hba
  have hrank : a.rank = b.rank := by omega
  have hname := (hab.resolve_left (by omega)).2
  have hname' := (hba.resolve_left (by omega)).2
  exact eq_of_name_eq hrank (String.le_antisymm hname hname')

end Node

namespace DependencyGraph

variable {g : DependencyGraph} {node other needed dependent : Node} {nodes nodes' : List Node}

/-- The nodes of which something holds, in the order of listings and each once. -/
structure IsListing (P : Node → Prop) (nodes : List Node) : Prop where
  /-- The nodes are in the order of listings. -/
  sorted : nodes.Pairwise fun a b => a.le b = true
  /-- No node is listed twice. -/
  nodup : nodes.Nodup
  /-- It holds of the nodes that are listed. -/
  mem_iff : ∀ node, node ∈ nodes ↔ P node

/-- There is one listing only. -/
theorem IsListing.unique {P : Node → Prop} (h : IsListing P nodes) (h' : IsListing P nodes') :
    nodes = nodes' := by
  have hperm : nodes.Perm nodes' := (List.perm_ext_iff_of_nodup h.nodup h'.nodup).2 fun node => by
    rw [h.mem_iff, h'.mem_iff]
  exact hperm.eq_of_pairwise (fun _ _ _ _ => Node.le_antisymm) h.sorted h'.sorted

/-! ### No need is noted twice -/

theorem needs_mention : (g.mention node).needs = g.needs := by
  rw [mention]
  split <;> rfl

theorem nodup_needs_add (h : g.needs.Nodup) (needed dependent : Node) :
    (g.add needed dependent).needs.Nodup := by
  have hneeds : ((g.mention needed).mention dependent).needs = g.needs := by
    rw [needs_mention, needs_mention]
  rw [add, hneeds]
  split
  · rwa [hneeds]
  · next hnew =>
    refine List.nodup_append.2 ⟨h, List.nodup_singleton _, fun need hneed last hlast => ?_⟩
    rw [List.mem_singleton.1 hlast]
    rintro rfl
    exact hnew hneed

theorem nodup_needs_addAll (h : g.needs.Nodup) (needed : List Node) (dependent : Node) :
    (g.addAll needed dependent).needs.Nodup := by
  rw [addAll]
  induction needed generalizing g with
  | nil => exact h
  | cons node needed ih => exact ih (nodup_needs_add h node dependent)

theorem nodup_needs_mention_addAll (h : g.needs.Nodup) (node : Node) (needed : List Node) :
    ((g.mention node).addAll needed node).needs.Nodup :=
  nodup_needs_addAll (needs_mention (g := g) ▸ h) needed node

theorem nodup_needs_ofSection (s : Section) : (ofSection s).needs.Nodup := by
  rw [ofSection]
  have hsentences := nodup_needs_mention_addAll (g := empty) List.nodup_nil (.intent s.intent)
    ((s.sentences.flatMap Template.references).map (.ofReference s.intent))
  generalize (empty.mention _).addAll _ _ = g at hsentences
  induction s.rules.entries generalizing g with
  | nil => exact hsentences
  | cons entry entries ih => exact ih _ (nodup_needs_mention_addAll hsentences _ _)

theorem nodup_needs_addSection {rules : List String} {slots : WordSet} {s : Section}
    {g' : DependencyGraph} (h : g.needs.Nodup) (hadd : addSection rules slots g s = .ok g') :
    g'.needs.Nodup := by
  obtain ⟨middle, hmiddle, hadd⟩ := bind_eq_ok_iff.1 hadd
  obtain ⟨needed, -, hadd⟩ := bind_eq_ok_iff.1 hadd
  cases hadd
  refine nodup_needs_addAll ?_ needed _
  refine foldlM_preserves (P := fun g : DependencyGraph => g.needs.Nodup)
    (fun g hg entry _ g' hrule => ?_) (needs_mention (g := g) ▸ h) hmiddle
  obtain ⟨needed, -, hrule⟩ := bind_eq_ok_iff.1 hrule
  cases hrule
  exact nodup_needs_mention_addAll hg _ needed

theorem nodup_needs_ofGrammar {grammar : Grammar} {slots : WordSet}
    (h : ofGrammar grammar slots = .ok g) : g.needs.Nodup :=
  foldlM_preserves (P := fun g : DependencyGraph => g.needs.Nodup)
    (fun _ hg _ _ _ => nodup_needs_addSection hg) List.nodup_nil h

/-- What a node needs is listed in order, when no need is noted twice. -/
theorem isListing_needsOf (h : g.needs.Nodup) (node : Node) :
    IsListing (g.Needs · node) (g.needsOf node) := by
  have hperm := List.mergeSort_perm ((g.needs.filter (·.2 = node)).map Prod.fst) Node.le
  have hsorted := @List.pairwise_mergeSort _ Node.le (fun _ _ _ => Node.le_trans) Node.le_total
    ((g.needs.filter (·.2 = node)).map Prod.fst)
  refine ⟨hsorted, ?_, fun other => ?_⟩
  · -- The needs that are left over have the same second member, so they differ in the first.
    refine hperm.nodup_iff.2 ((h.filter _).map_on fun need hneed need' hneed' heq => ?_)
    have hdependent := of_decide_eq_true (List.mem_filter.1 hneed).2
    have hdependent' := of_decide_eq_true (List.mem_filter.1 hneed').2
    exact Prod.ext heq (hdependent.trans hdependent'.symm)
  · rw [needsOf, hperm.mem_iff, List.mem_map, Needs]
    constructor
    · rintro ⟨⟨needed, dependent⟩, hmem, rfl⟩
      obtain ⟨hneed, hdependent⟩ := List.mem_filter.1 hmem
      cases (of_decide_eq_true hdependent : dependent = node)
      exact hneed
    · exact fun hneed => ⟨_, List.mem_filter.2 ⟨hneed, decide_eq_true rfl⟩, rfl⟩

end DependencyGraph

/-! ### Nodes and their sections -/

namespace Section

variable {s s' : Section} {node other : Node}

/-- A template of a node of the section refers to another node. -/
inductive Refers (s : Section) : Node → Node → Prop
  /-- A sentence refers to it, and so the intent does. -/
  | sentence {t : Template} {r : Reference} (mem : t ∈ s.sentences)
    (reference : r ∈ t.references) : Refers s (.intent s.intent) (.ofReference s.intent r)
  /-- The template of a rule refers to it. -/
  | rule {name : String} {body : Template} {r : Reference} (mem : (name, body) ∈ s.rules.entries)
    (reference : r ∈ body.references) : Refers s (s.ruleNode name) (.ofReference s.intent r)

/-- The references of a section are those of its templates. -/
theorem refers_iff : s.Refers node other ↔ ∃ m ∈ s.mentions, m.need = (other, node) := by
  constructor
  · rintro (⟨mem, reference⟩ | ⟨mem, reference⟩)
    · exact ⟨_, List.mem_append_right _ (List.mem_flatMap.2 ⟨_, mem,
        List.mem_map_of_mem (List.mem_eraseDups.1 reference)⟩), rfl⟩
    · exact ⟨_, List.mem_append_left _ (List.mem_flatMap.2 ⟨_, mem,
        List.mem_map_of_mem (List.mem_eraseDups.1 reference)⟩), rfl⟩
  · rintro ⟨m, hm, hneed⟩
    rcases List.mem_append.1 hm with hm | hm
    · obtain ⟨⟨name, body⟩, mem, hm⟩ := List.mem_flatMap.1 hm
      obtain ⟨r, hr, rfl⟩ := List.mem_map.1 hm
      cases hneed
      exact .rule mem (List.mem_eraseDups.2 hr)
    · obtain ⟨t, mem, hm⟩ := List.mem_flatMap.1 hm
      obtain ⟨r, hr, rfl⟩ := List.mem_map.1 hm
      cases hneed
      exact .sentence mem (List.mem_eraseDups.2 hr)

/-- What refers to something is the intent or a rule. -/
theorem Refers.mem_nodes (h : s.Refers node other) : node ∈ s.nodes := by
  cases h with
  | sentence => exact List.mem_cons_self
  | rule mem => exact List.mem_cons_of_mem _ (List.mem_map_of_mem (List.mem_map_of_mem mem))

/-- An intent or a rule belongs to one section of a grammar. -/
theorem Proper.eq_of_mem_nodes {P : Template → Prop} {grammar : Grammar} (h : Proper P grammar)
    (hs : s ∈ grammar) (hs' : s' ∈ grammar) (hnode : node ∈ s.nodes) (hnode' : node ∈ s'.nodes) :
    s = s' := by
  have hnames : s.intent = s'.intent := by
    rcases List.mem_cons.1 hnode with rfl | hrule
    · rcases List.mem_cons.1 hnode' with heq | hrule
      · exact Node.intent.inj heq
      · obtain ⟨_, _, heq⟩ := List.mem_map.1 hrule
        cases heq
    · obtain ⟨name, hname, rfl⟩ := List.mem_map.1 hrule
      obtain ⟨entry, hentry, rfl⟩ := List.mem_map.1 hname
      rcases List.mem_cons.1 hnode' with heq | hrule
      · cases heq
      · obtain ⟨name, hname, heq⟩ := List.mem_map.1 hrule
        obtain ⟨entry', hentry', rfl⟩ := List.mem_map.1 hname
        -- A rule is found under its qualified name together with the intent that it belongs to.
        have hfound := Grammar.rule?_eq_some h hs hentry
        rw [← Node.rule.inj heq, Grammar.rule?_eq_some h hs' hentry'] at hfound
        exact (congrArg Prod.fst (Option.some.inj hfound)).symm
  exact List.inj_on_of_nodup_map h.distinct hs hs' hnames

end Section

namespace DependencyGraph

variable {g : DependencyGraph} {node other needed dependent : Node} {s : Section}
  {grammar : Grammar} {slots : WordSet}

/-- No graph without nodes has needs. -/
theorem not_needs_empty : ¬ empty.Needs needed dependent := List.not_mem_nil

/-- What is needed within a section is what its templates refer to. -/
theorem needs_ofSection_iff : (ofSection s).Needs other node ↔ s.Refers node other := by
  rw [(extends_ofSection s).needs_iff, or_iff_right not_needs_empty, Section.refers_iff,
    List.mem_map]

/-- What is needed within a grammar is what the templates of its sections refer to. -/
theorem needs_ofGrammar_iff (h : ofGrammar grammar slots = .ok g) :
    g.Needs other node ↔ ∃ s ∈ grammar, s.Refers node other := by
  rw [(extends_of_ofGrammar h).needs_iff, or_iff_right not_needs_empty, List.mem_map]
  simp only [Section.refers_iff, Grammar.mentions, List.mem_flatMap]
  tauto

theorem isListing_needsOf_ofSection (s : Section) (node : Node) :
    IsListing (s.Refers node) ((ofSection s).needsOf node) := by
  have h := isListing_needsOf (nodup_needs_ofSection s) node
  exact ⟨h.sorted, h.nodup, fun other => (h.mem_iff other).trans needs_ofSection_iff⟩

/-- What a node of a section needs within a grammar is what the templates of the section refer to,
as the node belongs to no other section. -/
theorem isListing_needsOf_ofGrammar {P : Template → Prop} (hgrammar : Section.Proper P grammar)
    (h : ofGrammar grammar slots = .ok g) (hs : s ∈ grammar) (hnode : node ∈ s.nodes) :
    IsListing (s.Refers node) (g.needsOf node) := by
  have hlisting := isListing_needsOf (nodup_needs_ofGrammar h) node
  refine ⟨hlisting.sorted, hlisting.nodup, fun other => ?_⟩
  rw [hlisting.mem_iff, needs_ofGrammar_iff h]
  constructor
  · rintro ⟨s', hs', hrefers⟩
    rwa [hgrammar.eq_of_mem_nodes hs hs' hnode hrefers.mem_nodes]
  · exact fun hrefers => ⟨s, hs, hrefers⟩

/-- All references of a grammar that has a graph are defined. -/
theorem knows_of_ofGrammar (h : ofGrammar grammar slots = .ok g) {m : Mention}
    (hm : m ∈ grammar.mentions) : knows (definedRules grammar) slots m = true := by
  have hchecked := checked_ofGrammar grammar slots
  rw [Checked, h] at hchecked
  split at hchecked
  · cases hchecked
  · next hfind =>
    have := List.find?_eq_none.1 hfind m hm
    rwa [Bool.not_eq_true', Bool.not_eq_false] at this

/-- What a grammar refers to is a rule of one of its sections or a slot. -/
theorem mem_nodes_or_eq_slot (h : ofGrammar grammar slots = .ok g) (hs : s ∈ grammar)
    (hrefers : s.Refers other node) : node ∈ grammar.nodes ∨ ∃ name, node = .slot name := by
  obtain ⟨m, hm, hneed⟩ := Section.refers_iff.1 hrefers
  obtain rfl : Node.ofReference m.intent m.reference = node := congrArg Prod.fst hneed
  have hknows := knows_of_ofGrammar h (List.mem_flatMap.2 ⟨s, hs, hm⟩)
  rw [knows] at hknows
  cases hreference : m.reference with
  | slot name => exact .inr ⟨name, rfl⟩
  | rule name =>
    rw [hreference, isDefined, List.contains_iff_mem] at hknows
    obtain ⟨s', hs', hname⟩ := List.mem_flatMap.1 hknows
    obtain ⟨rule, hrule, heq⟩ := List.mem_map.1 hname
    refine .inl (List.mem_flatMap.2 ⟨s', hs', List.mem_cons_of_mem _ ?_⟩)
    refine List.mem_map.2 ⟨rule, hrule, ?_⟩
    rw [Section.ruleNode, heq]
    rfl

/-- The nodes of the graph of a grammar are the intents, the rules and the slots that templates
refer to. -/
theorem mem_nodes_ofGrammar_iff (h : ofGrammar grammar slots = .ok g) :
    node ∈ g.nodes ↔ (∃ s ∈ grammar, node ∈ s.nodes) ∨
      ∃ name, node = .slot name ∧ ∃ s ∈ grammar, ∃ dependent, s.Refers dependent node := by
  have hextends := extends_of_ofGrammar h
  have hneeds : node ∈ (grammar.mentions.map Mention.need).map Prod.fst ↔
      ∃ s ∈ grammar, ∃ dependent, s.Refers dependent node := by
    rw [List.mem_map]
    constructor
    · rintro ⟨⟨_, dependent⟩, hneed, rfl⟩
      have hneeds := (hextends.needs_iff _ dependent).2 (.inr hneed)
      obtain ⟨s, hs, hrefers⟩ := (needs_ofGrammar_iff h).1 hneeds
      exact ⟨s, hs, dependent, hrefers⟩
    · rintro ⟨s, hs, dependent, hrefers⟩
      have hneeds := (needs_ofGrammar_iff h).2 ⟨s, hs, hrefers⟩
      exact ⟨_, ((hextends.needs_iff _ _).1 hneeds).resolve_left not_needs_empty, rfl⟩
  rw [hextends.mem_nodes_iff, or_iff_right (show node ∉ empty.nodes from List.not_mem_nil), hneeds,
    Grammar.nodes, List.mem_flatMap]
  refine or_congr_right' fun hnot => ?_
  constructor
  · rintro ⟨s, hs, dependent, hrefers⟩
    obtain ⟨name, hname⟩ :=
      (mem_nodes_or_eq_slot h hs hrefers).resolve_left (mt List.mem_flatMap.1 hnot)
    exact ⟨name, hname, s, hs, dependent, hrefers⟩
  · rintro ⟨_, _, hrefers⟩
    exact hrefers

/-- The graph of a section agrees with that of its grammar. What the intent of a section or one of
its rules needs is listed alike in both: in the order of listings and each node once, those that
its templates refer to. Within a section nothing else needs anything. The nodes of the grammar are
its intents, its rules, and the slots that are referred to. -/
theorem needsOf_agrees {allowed : Option WordSet} {text : String}
    (hread : Grammar.ofTextWith allowed text = .ok grammar)
    (hgraph : ofGrammar grammar slots = .ok g) :
    (∀ s ∈ grammar,
      (∀ node ∈ s.nodes, (ofSection s).needsOf node = g.needsOf node ∧
        IsListing (s.Refers node) (g.needsOf node)) ∧
      ∀ node, node ∉ s.nodes → (ofSection s).needsOf node = []) ∧
    ∀ node, node ∈ g.nodes ↔ (∃ s ∈ grammar, node ∈ s.nodes) ∨
      ∃ name, node = .slot name ∧ ∃ s ∈ grammar, ∃ dependent, s.Refers dependent node := by
  have hgrammar : Section.Proper (fun _ => True) grammar :=
    Section.proper_of_ofTextWith (fun _ _ _ _ _ => trivial) hread
  refine ⟨fun s hs => ⟨fun node hnode => ?_, fun node hnode => ?_⟩,
    fun node => mem_nodes_ofGrammar_iff hgraph⟩
  · have hlisting := isListing_needsOf_ofGrammar hgrammar hgraph hs hnode
    exact ⟨(isListing_needsOf_ofSection s node).unique hlisting, hlisting⟩
  · have hlisting := isListing_needsOf_ofSection s node
    refine List.eq_nil_iff_forall_not_mem.2 fun other hother => hnode ?_
    exact ((hlisting.mem_iff other).1 hother).mem_nodes

/-- A rule that refers to another one in two ways, and an intent that refers to it from elsewhere
and mentions a slot behind it, which is listed first. -/
theorem needsOf_agrees_repeated : ∃ grammar g,
    Grammar.ofTextWith none "[A]\nr = x <s> <A.s> [<s>]\ns = y\n<r>\n[B]\n<A.r> $t <A.r>\n" =
      .ok grammar ∧
    ofGrammar grammar (.ofList ["t"]) = .ok g ∧
    g.needsOf (.rule "A.r") = [.rule "A.s"] ∧
    g.needsOf (.intent "B") = [.slot "t", .rule "A.r"] ∧
    (∀ s ∈ grammar,
      (∀ node ∈ s.nodes, (ofSection s).needsOf node = g.needsOf node ∧
        IsListing (s.Refers node) (g.needsOf node)) ∧
      ∀ node, node ∉ s.nodes → (ofSection s).needsOf node = []) ∧
    ∀ node, node ∈ g.nodes ↔ (∃ s ∈ grammar, node ∈ s.nodes) ∨
      ∃ name, node = .slot name ∧ ∃ s ∈ grammar, ∃ dependent, s.Refers dependent node := by
  have h : (do
      let grammar ← Grammar.ofTextWith none
        "[A]\nr = x <s> <A.s> [<s>]\ns = y\n<r>\n[B]\n<A.r> $t <A.r>\n"
      let g ← ofGrammar grammar (.ofList ["t"])
      return g.needs) =
        .ok [(.rule "A.s", .rule "A.r"), (.rule "A.r", .intent "A"), (.rule "A.r", .intent "B"),
          (.slot "t", .intent "B")] := by decide +kernel
  obtain ⟨grammar, hgrammar, h⟩ := bind_eq_ok_iff.1 h
  obtain ⟨g, hg, h⟩ := bind_eq_ok_iff.1 h
  have hneeds := Except.ok.inj h
  have hlisting := isListing_needsOf (nodup_needs_ofGrammar hg)
  refine ⟨grammar, g, hgrammar, hg, ?_, ?_, needsOf_agrees hgrammar hg⟩
  · refine (hlisting _).unique ⟨by decide +kernel, by decide +kernel, fun node => ?_⟩
    simp [Needs, hneeds]
  · refine (hlisting _).unique ⟨by decide +kernel, by decide +kernel, fun node => ?_⟩
    simp [Needs, hneeds, or_comm]

end DependencyGraph

end Phrasebook
