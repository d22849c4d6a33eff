import Phrasebook.Proofs.Compile.Keeping

/-!
# The order of sections

A section is found by the name of its intent and a rule by its qualified name, so what a reference
names and what needs what do not depend on the order of the sections. The order in which things are
built does. Yet what is built for a node depends only on what was built for the nodes that it
refers to, and these come before it in every build order. So the same automaton is built for a node
in all of them, and only the order of the intents is another one.

* `Grammar.section?_perm`: the same section is found under each name.
* `Parts.Solves`: each node has the automaton that it is built to from all parts.
* `Grammar.solves_of_buildNodes`, `Parts.Solves.unique`: what is built along a schedule is this,
  and there is only one such way to build things.
* `Grammar.intents_perm_of_compile`: the intents are compiled to the same automata.
-/

namespace Phrasebook

open Relation (TransGen)

variable {P : Template → Prop} {grammar grammar' : Grammar} {slots : Slots}

theorem Section.Proper.perm (h : Section.Proper P grammar) (hperm : grammar.Perm grammar') :
    Section.Proper P grammar' where
  distinct := (hperm.map Section.intent).nodup_iff.1 h.distinct
  named s hs := h.named s (hperm.mem_iff.2 hs)
  holds s hs := h.holds s (hperm.mem_iff.2 hs)

namespace Grammar

/-! ### What is found by name -/

theorem section?_eq_some_iff (hgrammar : Section.Proper P grammar) {name : String} {s : Section} :
    grammar.section? name = some s ↔ s ∈ grammar ∧ s.intent = name := by
  constructor
  · intro h
    exact ⟨List.mem_of_find?_eq_some h, by simpa using List.find?_some h⟩
  · rintro ⟨hs, rfl⟩
    exact section?_eq_some hgrammar hs

/-- The same section is found under each name. -/
theorem section?_perm (hgrammar : Section.Proper P grammar) (hperm : grammar.Perm grammar') :
    grammar.section? = grammar'.section? := by
  funext name
  refine Option.ext fun s => ?_
  rw [section?_eq_some_iff hgrammar, section?_eq_some_iff (hgrammar.perm hperm), hperm.mem_iff]

section Congr

variable (h : grammar.section? = grammar'.section?)
include h

theorem rule?_congr : grammar.rule? = grammar'.rule? := by
  funext qualified
  rw [rule?, rule?, h]

/-- What is built depends only on what is found by name. -/
theorem buildNodeWith_congr {m : Type → Type} [Monad m] [MonadExceptOf Error m] :
    (grammar.buildNodeWith slots : (Node → m Automaton) → _) = grammar'.buildNodeWith slots := by
  funext resolve node
  cases node with
  | slot name => rfl
  | rule qualified => rw [buildNodeWith, buildNodeWith, rule?_congr h]
  | intent name => rw [buildNodeWith, buildNodeWith, h]

theorem defines_congr : grammar.defines slots = grammar'.defines slots := by
  funext m
  have hrule : ∀ name, Template.ruleBody? grammar m.intent name =
      Template.ruleBody? grammar' m.intent name := fun name =>
    congrArg (fun found => found (name.owner m.intent) >>= fun s => s.rules.find? name.rule) h
  rw [defines, defines]
  cases m.reference with
  | rule name => exact congrArg Option.isSome (hrule name)
  | slot name => rfl

end Congr

/-! ### What is needed -/

theorem mentions_perm (hperm : grammar.Perm grammar') : grammar.mentions.Perm grammar'.mentions :=
  hperm.flatMap_right _

/-- The same needs the same. -/
theorem needs_perm (hperm : grammar.Perm grammar') : grammar.Needs = grammar'.Needs := by
  funext needed dependent
  simp only [Needs, (mentions_perm hperm).mem_iff]

/-- Something is undefined in both orders or in none, although another reference may be the first
one. -/
theorem firstUndefined_eq_none_perm (hgrammar : Section.Proper P grammar)
    (hperm : grammar.Perm grammar') :
    grammar.firstUndefined slots = none ↔ grammar'.firstUndefined slots = none := by
  simp only [firstUndefined, List.find?_eq_none, (mentions_perm hperm).mem_iff,
    defines_congr (section?_perm hgrammar hperm)]

/-- A grammar compiles when its references are defined and nothing needs itself. -/
theorem exists_compileWords_iff (hgrammar : Section.Proper P grammar) (hslots : slots.Holds P) :
    (∃ compiled, grammar.compileWords slots = .ok compiled) ↔
      grammar.firstUndefined slots = none ∧ ∀ node, ¬ TransGen grammar.Needs node node := by
  have hspec := compileWords_spec hgrammar hslots
  cases hfirst : grammar.firstUndefined slots with
  | some m =>
    rw [hfirst] at hspec
    simp [hspec]
  | none =>
    rw [hfirst] at hspec
    rcases hspec with ⟨⟨names, hcyclic⟩, node, hcycle⟩ | ⟨hcompiled, hacyclic⟩
    · refine iff_of_false ?_ fun h => h.2 node hcycle
      simp [hcyclic]
    · exact iff_of_true hcompiled ⟨rfl, hacyclic⟩

theorem exists_compileWords_perm (hgrammar : Section.Proper P grammar) (hslots : slots.Holds P)
    (hperm : grammar.Perm grammar') :
    (∃ compiled, grammar.compileWords slots = .ok compiled) ↔
      ∃ compiled, grammar'.compileWords slots = .ok compiled := by
  rw [exists_compileWords_iff hgrammar hslots,
    exists_compileWords_iff (hgrammar.perm hperm) hslots,
    firstUndefined_eq_none_perm hgrammar hperm, needs_perm hperm]

end Grammar

/-! ### What is built -/

/-- A node keeps its automaton when more is built. -/
theorem Parts.resolve_append {parts : Parts} (more : Parts) {node : Node}
    (h : node ∈ parts.map Prod.fst) :
    Parts.resolve (parts ++ more) node = parts.resolve node := by
  obtain ⟨part, hpart, rfl⟩ := List.mem_map.1 h
  have hfound : (List.find? (fun other => decide (other.1 = part.1)) parts).isSome = true :=
    List.find?_isSome.2 ⟨part, hpart, decide_eq_true rfl⟩
  rw [resolve, resolve, find?, find?, List.find?_append, Option.or_of_isSome hfound]

/-- A node has the automaton that is built for it first. -/
theorem Parts.resolve_append_cons {parts : Parts} {node : Node} {a : Automaton} (more : Parts)
    (h : node ∉ parts.map Prod.fst) :
    Parts.resolve (parts ++ (node, a) :: more) node = .ok a := by
  have hnone : List.find? (fun other => decide (other.1 = node)) parts = none := by
    refine List.find?_eq_none.2 fun part hpart => ?_
    rw [decide_eq_true_iff]
    rintro rfl
    exact h (List.mem_map_of_mem hpart)
  rw [resolve, find?, List.find?_append, hnone, Option.none_or, List.find?_cons_of_pos (by simp)]
  rfl

/-- Each of some nodes has the automaton that it is built to from all parts. -/
def Parts.Solves (parts : Parts) (grammar : Grammar) (slots : Slots) (order : List Node) : Prop :=
  ∀ node ∈ order, parts.resolve node = grammar.buildNode slots parts node

namespace Grammar

/-- A node is built only from what it refers to. -/
theorem buildNode_congr {parts parts' : Parts} {node : Node}
    (h : ∀ needed ∈ grammar.uses slots node, parts.resolve needed = parts'.resolve needed) :
    grammar.buildNode slots parts node = grammar.buildNode slots parts' node := by
  -- Both are what a search comes to that finds each node where the other parts have it.
  have hsettled := @buildNodeWith_settled Id _ _ grammar slots parts'.resolve
    (fun needed => settled (parts.resolve needed)) node fun needed hneeded => by
      rw [h needed hneeded]
  rw [@buildNodeWith_settled Id _ _ grammar slots parts.resolve _ node fun _ _ => rfl] at hsettled
  exact congrArg ExceptT.run hsettled

/-- Building some nodes adds a part for each of them. -/
theorem exists_parts_of_foldlM {order : List Node} {start parts : Parts}
    (h : order.foldlM (fun parts node => do
      return parts ++ [(node, ← grammar.buildNode slots parts node)]) start = .ok parts) :
    ∃ more, parts = start ++ more ∧ more.map Prod.fst = order := by
  induction order generalizing start with
  | nil =>
    cases h
    exact ⟨[], (List.append_nil _).symm, rfl⟩
  | cons node order ih =>
    rw [List.foldlM_cons] at h
    obtain ⟨next, hnext, h⟩ := bind_eq_ok_iff.1 h
    obtain ⟨a, -, hnext⟩ := bind_eq_ok_iff.1 hnext
    cases hnext
    obtain ⟨more, rfl, rfl⟩ := ih h
    exact ⟨(node, a) :: more, by rw [List.append_assoc, List.singleton_append], rfl⟩

/-- Each node is built from the parts of those before it. -/
theorem exists_split_of_buildNodes {before after : List Node} {node : Node} {parts : Parts}
    (h : grammar.buildNodes slots (before ++ node :: after) = .ok parts) :
    ∃ built a more, parts = built ++ (node, a) :: more ∧ built.map Prod.fst = before ∧
      grammar.buildNode slots built node = .ok a := by
  rw [buildNodes, List.foldlM_append] at h
  obtain ⟨built, hbuilt, hrest⟩ := bind_eq_ok_iff.1 h
  rw [List.foldlM_cons] at hrest
  obtain ⟨next, hnext, hafter⟩ := bind_eq_ok_iff.1 hrest
  obtain ⟨a, ha, hpart⟩ := bind_eq_ok_iff.1 hnext
  cases hpart
  obtain ⟨before, rfl, rfl⟩ := exists_parts_of_foldlM hbuilt
  obtain ⟨more, rfl, -⟩ := exists_parts_of_foldlM hafter
  exact ⟨_, a, more, by rw [List.append_assoc, List.singleton_append], rfl, ha⟩

variable {order order' : List Node} {parts parts' : Parts}

/-- Along a schedule, every node is built to what it would be built to from all parts. -/
theorem solves_of_buildNodes (hslots : slots.Holds P) (hschedule : grammar.IsSchedule slots order)
    (h : grammar.buildNodes slots order = .ok parts) : parts.Solves grammar slots order := by
  intro node hnode
  obtain ⟨before, after, rfl⟩ := List.append_of_mem hnode
  obtain ⟨built, a, more, rfl, rfl, ha⟩ := exists_split_of_buildNodes h
  have hfirst : node ∉ built.map Prod.fst := fun hmem =>
    (List.nodup_append.1 hschedule.nodup).2.2 node hmem node List.mem_cons_self rfl
  rw [Parts.resolve_append_cons more hfirst, ← ha]
  -- What the node refers to stands before it, and keeps its automaton.
  refine buildNode_congr fun needed hneeded => (Parts.resolve_append _ ?_).symm
  exact hschedule.precedes _ node after rfl needed (needs_of_mem_uses hslots hneeded)

end Grammar

/-- There is only one way to build things: what two ways have in common is built to the same. -/
theorem Parts.Solves.unique {order order' : List Node} {parts parts' : Parts}
    (h : parts.Solves grammar slots order) (h' : parts'.Solves grammar slots order')
    (hslots : slots.Holds P) (hschedule : grammar.IsSchedule slots order)
    (hschedule' : grammar.IsSchedule slots order') {node : Node} (hnode : node ∈ order)
    (hnode' : node ∈ order') : parts.resolve node = parts'.resolve node := by
  -- By induction along the first schedule: what a node refers to is common, and comes before it.
  suffices hprefix : ∀ rest before, before ++ rest = order →
      (∀ node ∈ before, node ∈ order' → parts.resolve node = parts'.resolve node) →
        ∀ node ∈ order, node ∈ order' → parts.resolve node = parts'.resolve node from
    hprefix order [] rfl (fun _ hmem => absurd hmem List.not_mem_nil) node hnode hnode'
  intro rest
  induction rest with
  | nil =>
    intro before heq hbefore
    rwa [← heq, List.append_nil]
  | cons next rest ih =>
    intro before heq hbefore
    refine ih (before ++ [next]) (by rw [List.append_assoc, List.singleton_append, heq]) ?_
    refine List.forall_mem_append.2 ⟨hbefore, List.forall_mem_singleton.2 fun hnext' => ?_⟩
    rw [h next (heq ▸ by simp), h' next hnext']
    refine Grammar.buildNode_congr fun needed hneeded => ?_
    have hneeds := Grammar.needs_of_mem_uses hslots hneeded
    obtain ⟨before', after', rfl⟩ := List.append_of_mem hnext'
    exact hbefore needed (hschedule.precedes before next rest heq.symm needed hneeds)
      (List.mem_append_left _ (hschedule'.precedes before' next after' rfl needed hneeds))

namespace Grammar

/-- What can be built in an order of nodes does not depend on the order of the sections. -/
theorem IsSchedule.perm {order : List Node} (h : grammar.IsSchedule slots order)
    (hperm : grammar.Perm grammar') : grammar'.IsSchedule slots order where
  nodup := h.nodup
  names node hnode := (h.names node hnode).imp_left (hperm.flatMap_right _).mem_iff.1
  intent_mem s hs := h.intent_mem s (hperm.mem_iff.2 hs)
  precedes := needs_perm hperm ▸ h.precedes

/-- In every order of the sections, a section's intent is built to the same automaton. -/
theorem resolve_eq_of_buildNodes (hgrammar : Section.Proper P grammar) (hslots : slots.Holds P)
    (hperm : grammar.Perm grammar') {order order' : List Node} {parts parts' : Parts}
    (horder : grammar.buildOrder slots = .ok order)
    (horder' : grammar'.buildOrder slots = .ok order')
    (hparts : grammar.buildNodes slots order = .ok parts)
    (hparts' : grammar'.buildNodes slots order' = .ok parts') {s : Section} (hs : s ∈ grammar) :
    parts.resolve (.intent s.intent) = parts'.resolve (.intent s.intent) := by
  have hschedule := isSchedule_of_buildOrder hgrammar horder
  have hschedule' := (isSchedule_of_buildOrder (hgrammar.perm hperm) horder').perm hperm.symm
  -- Nodes are built in the same way in both orders.
  have hbuild : grammar'.buildNodes slots order' = grammar.buildNodes slots order' := by
    rw [buildNodes, buildNodes]
    simp only [buildNode, buildNodeWith_congr (section?_perm hgrammar hperm)]
  have hsolves := solves_of_buildNodes hslots hschedule hparts
  have hsolves' := solves_of_buildNodes hslots hschedule' (hbuild ▸ hparts')
  exact hsolves.unique hsolves' hslots hschedule hschedule' (hschedule.intent_mem s hs)
    (hschedule'.intent_mem s hs)

/-- In every order of the sections, the intents are compiled to the same automata. -/
theorem intents_perm_of_compileWords (hgrammar : Section.Proper P grammar)
    (hslots : slots.Holds P) (hperm : grammar.Perm grammar') {compiled compiled' : Compiled}
    (h : grammar.compileWords slots = .ok compiled)
    (h' : grammar'.compileWords slots = .ok compiled') :
    compiled.intents.Perm compiled'.intents := by
  obtain ⟨⟨order, horder, hparts⟩, hintents, -⟩ := exists_of_compileWords h
  obtain ⟨⟨order', horder', hparts'⟩, hintents', -⟩ := exists_of_compileWords h'
  -- In the other order, each section has the result that it has in this one.
  have hsame : ∀ s ∈ grammar', compiled.parts.resolve (.intent s.intent) =
      compiled'.parts.resolve (.intent s.intent) := fun s hs =>
    resolve_eq_of_buildNodes hgrammar hslots hperm horder horder' hparts hparts'
      (hperm.mem_iff.2 hs)
  have heach := ((List.forall₂_and_left _ _).2 ⟨hsame, hintents'⟩).imp
    fun s part ⟨hs, hname, hresolve⟩ => And.intro hname (hs.trans hresolve)
  obtain ⟨results, hresults, hresultsPerm⟩ := List.perm_comp_forall₂ hperm heach
  have hunique : Relator.RightUnique fun (s : Section) (part : String × Automaton) =>
      part.1 = s.intent ∧ compiled.parts.resolve (.intent s.intent) = .ok part.2 :=
    fun s part part' ⟨hname, hresolve⟩ ⟨hname', hresolve'⟩ =>
      Prod.ext (hname.trans hname'.symm) (Except.ok.inj (hresolve.symm.trans hresolve'))
  rwa [List.right_unique_forall₂' hunique hintents hresults]

/-- The automaton of all intents is put together from those of the intents. -/
theorem merged_eq_of_compile {casing : Casing} {compiled : Compiled}
    (h : grammar.compile casing slots = .ok compiled) :
    compiled.merged = mergeIntents compiled.intents :=
  (exists_of_compileWords h).2.2

section Compile

variable {allowed : Option WordSet} {text : String} {casing : Casing}
  (hgrammar : ofTextWith allowed text = .ok grammar) (hslots : slots.Defined)
  (hperm : grammar.Perm grammar')
include hgrammar hslots hperm

/-- A grammar compiles in every order of its sections or in none. -/
theorem exists_compile_perm : (∃ compiled, grammar.compile casing slots = .ok compiled) ↔
    ∃ compiled, grammar'.compile casing slots = .ok compiled :=
  exists_compileWords_perm (Section.proper_mapWords_of_ofTextWith casing.apply hgrammar)
    (hslots.holds_mapWords casing.apply) (hperm.map _)

/-- The intents are compiled to the same automata, in another order. -/
theorem intents_perm_of_compile {compiled compiled' : Compiled}
    (h : grammar.compile casing slots = .ok compiled)
    (h' : grammar'.compile casing slots = .ok compiled') :
    compiled.intents.Perm compiled'.intents :=
  intents_perm_of_compileWords (Section.proper_mapWords_of_ofTextWith casing.apply hgrammar)
    (hslots.holds_mapWords casing.apply) (hperm.map _) h h'

end Compile

end Grammar

end Phrasebook
