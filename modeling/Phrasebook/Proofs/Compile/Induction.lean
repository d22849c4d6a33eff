import Phrasebook.Compile
import Phrasebook.Proofs.Outcome

/-!
# Induction along a compilation

Automata are put together from those of smaller templates, and from those of nodes that have been
built before. What all of these steps keep holds of everything that is built. So a fact about
compiled automata comes down to one case for each construct of templates and one for each kind of
node.

* `Template.BuildsUp`: what the constructs of templates keep.
* `Template.BuildsUp.of_build`: it holds of every template with its automaton.
* `Grammar.IsBuilt`: the ways to build a node.
* `Grammar.forall_mem_of_buildNodes`: what holds of all nodes with their automata.
* `Grammar.exists_of_compileWords`: what a compiled grammar consists of.
-/

namespace Phrasebook

/-! ### Templates -/

namespace Template

/-- A template refers to a slot or does not. -/
theorem eq_slotRef_or_ne (inner : Template) :
    (∃ name, inner = slotRef name) ∨ ∀ name, inner ≠ slotRef name := by
  by_cases hslot : ∃ name, inner = slotRef name
  · exact .inl hslot
  · exact .inr fun name heq => hslot ⟨name, heq⟩

theorem build_tagged_of_ne {m : Type → Type} [Monad m] {resolve : Node → m Automaton}
    {intent : String} {inner : Template} {tag : Tag} (h : ∀ name, inner ≠ slotRef name) :
    (tagged inner tag).build resolve intent =
      (do return (← inner.build resolve intent).entity tag) := by
  cases inner with
  | slotRef name => exact absurd rfl (h name)
  | _ => rfl

/-- Something that is kept when the automata of templates are put together. -/
structure BuildsUp (resolve : Node → Except Error Automaton) (intent : String)
    (R : Template → Automaton → Prop) : Prop where
  /-- It holds of words. -/
  word : ∀ text substitution, R (.word text substitution) (.ofWord text substitution)
  /-- It holds of a sequence when it holds of the items. -/
  sequence : ∀ items as, List.Forall₂ R items as → R (.sequence items) (as.foldl .concat .epsilon)
  /-- It holds of an alternation when it holds of the branches. -/
  alternation : ∀ branches as, List.Forall₂ R branches as →
    R (.alternation branches) (.union as)
  /-- It holds of an optional part when it holds of what is inside. -/
  optional : ∀ inner a, R inner a → R (.optional inner) a.optional
  /-- It holds of what a rule has been built to. -/
  ruleRef : ∀ name a, resolve (.rule (name.qualified intent)) = .ok a → R (.ruleRef name) a
  /-- It holds of what a slot has been built to, as an entity of the slot's name. -/
  slotRef : ∀ name a, resolve (.slot name) = .ok a → R (.slotRef name) (a.entity ⟨name, none⟩)
  /-- The tag of a slot takes the place of the tag that the slot has by itself. -/
  taggedSlot : ∀ name tag a, resolve (.slot name) = .ok a →
    R (.tagged (.slotRef name) tag) (a.entity tag)
  /-- It holds of another tagged part when it holds of what is inside. -/
  tagged : ∀ inner tag a, (∀ name, inner ≠ .slotRef name) → R inner a →
    R (.tagged inner tag) (a.entity tag)
  /-- It holds of a substituted part when it holds of what is inside. -/
  substituted : ∀ inner value a, R inner a → R (.substituted inner value)
    ((a.mapOutputs Symbol.silence).concat (.ofArc none (some (.substitution "" value))))

namespace BuildsUp

variable {resolve : Node → Except Error Automaton} {intent : String}
  {R : Template → Automaton → Prop}

mutual

/-- What the constructs keep holds of every template with its automaton. -/
theorem of_build (hR : BuildsUp resolve intent R) {t : Template} {a : Automaton}
    (h : t.build resolve intent = .ok a) : R t a := by
  match t with
  | .word text substitution =>
    cases h
    exact hR.word text substitution
  | .sequence items =>
    obtain ⟨as, has, h⟩ := bind_eq_ok_iff.1 h
    cases h
    exact hR.sequence items as (hR.of_buildAll has)
  | .alternation branches =>
    obtain ⟨as, has, h⟩ := bind_eq_ok_iff.1 h
    cases h
    exact hR.alternation branches as (hR.of_buildAll has)
  | .optional inner =>
    obtain ⟨b, hb, h⟩ := bind_eq_ok_iff.1 h
    cases h
    exact hR.optional inner b (hR.of_build hb)
  | .ruleRef name => exact hR.ruleRef name a h
  | .slotRef name =>
    obtain ⟨b, hb, h⟩ := bind_eq_ok_iff.1 h
    cases h
    exact hR.slotRef name b hb
  | .tagged inner tag =>
    rcases eq_slotRef_or_ne inner with ⟨name, rfl⟩ | hne
    · obtain ⟨b, hb, h⟩ := bind_eq_ok_iff.1 h
      cases h
      exact hR.taggedSlot name tag b hb
    · rw [build_tagged_of_ne hne] at h
      obtain ⟨b, hb, h⟩ := bind_eq_ok_iff.1 h
      cases h
      exact hR.tagged inner tag b hne (hR.of_build hb)
  | .substituted inner value =>
    obtain ⟨b, hb, h⟩ := bind_eq_ok_iff.1 h
    cases h
    exact hR.substituted inner value b (hR.of_build hb)

theorem of_buildAll (hR : BuildsUp resolve intent R) {ts : List Template} {as : List Automaton}
    (h : buildAll resolve intent ts = .ok as) : List.Forall₂ R ts as := by
  match ts with
  | [] =>
    cases h
    exact .nil
  | t :: ts =>
    obtain ⟨b, hb, h⟩ := bind_eq_ok_iff.1 h
    obtain ⟨bs, hbs, h⟩ := bind_eq_ok_iff.1 h
    cases h
    exact .cons (hR.of_build hb) (hR.of_buildAll hbs)

end

end BuildsUp

/-- Some templates are built one after another. -/
theorem forall₂_of_buildAll {resolve : Node → Except Error Automaton} {intent : String}
    {ts : List Template} {as : List Automaton} (h : buildAll resolve intent ts = .ok as) :
    List.Forall₂ (fun t a => t.build resolve intent = .ok a) ts as := by
  induction ts generalizing as with
  | nil =>
    cases h
    exact .nil
  | cons t ts ih =>
    obtain ⟨b, hb, h⟩ := bind_eq_ok_iff.1 h
    obtain ⟨bs, hbs, h⟩ := bind_eq_ok_iff.1 h
    cases h
    exact .cons hb (ih hbs)

end Template

/-! ### Nodes -/

/-- What a node is resolved to has been built for it. -/
theorem Parts.mem_of_resolve {parts : Parts} {node : Node} {a : Automaton}
    (h : parts.resolve node = .ok a) : (node, a) ∈ parts := by
  rw [Parts.resolve, Parts.find?] at h
  split at h
  · next b hfind =>
    cases h
    obtain ⟨part, hpart, rfl⟩ := Option.map_eq_some_iff.1 hfind
    obtain rfl : part.1 = node := by simpa using List.find?_some hpart
    exact List.mem_of_find?_eq_some hpart
  · cases h

namespace Grammar

/-- The ways to build a node from what has been built before. -/
inductive IsBuilt (grammar : Grammar) (slots : Slots) (parts : Parts) : Node → Automaton → Prop
  /-- A slot is built from its values. -/
  | slot {name : String} {values : List Template} {as : List Automaton}
    (found : slots.find? name = some values)
    (each : Template.buildAll parts.resolve ("$" ++ name) values = .ok as) :
    IsBuilt grammar slots parts (.slot name) (.union as)
  /-- A rule is built from its template, for the intent that defines it. -/
  | rule {qualified owner : String} {body : Template} {a : Automaton}
    (found : grammar.rule? qualified = some (owner, body))
    (part : body.build parts.resolve owner = .ok a) :
    IsBuilt grammar slots parts (.rule qualified) a
  /-- An intent is built from its sentences. -/
  | intent {name : String} {s : Section} {a : Automaton} (found : grammar.section? name = some s)
    (part : s.template.build parts.resolve name = .ok a) :
    IsBuilt grammar slots parts (.intent name) a

variable {grammar : Grammar} {slots : Slots}

theorem isBuilt_of_buildNode {parts : Parts} {node : Node} {a : Automaton}
    (h : grammar.buildNode slots parts node = .ok a) : grammar.IsBuilt slots parts node a := by
  cases node with
  | slot name =>
    rw [buildNode, buildNodeWith] at h
    split at h
    · cases h
    · next values found =>
      obtain ⟨as, has, h⟩ := bind_eq_ok_iff.1 h
      cases h
      exact .slot found has
  | rule qualified =>
    rw [buildNode, buildNodeWith] at h
    split at h
    · cases h
    · next owner body found => exact .rule found h
  | intent name =>
    rw [buildNode, buildNodeWith] at h
    split at h
    · cases h
    · next s found => exact .intent found h

/-- What holds of each node that is built from such nodes holds of all. -/
theorem forall_mem_of_buildNodes {C : Node → Automaton → Prop} {order : List Node} {parts : Parts}
    (hstep : ∀ (parts : Parts) node a, (∀ part ∈ parts, C part.1 part.2) →
      grammar.IsBuilt slots parts node a → C node a)
    (h : grammar.buildNodes slots order = .ok parts) : ∀ part ∈ parts, C part.1 part.2 := by
  refine foldlM_preserves (P := fun parts : Parts => ∀ part ∈ parts, C part.1 part.2)
    (fun parts hparts node _ parts' h => ?_) (fun part hpart => absurd hpart List.not_mem_nil) h
  obtain ⟨a, ha, h⟩ := bind_eq_ok_iff.1 h
  cases h
  have hnode := hstep parts node a hparts (isBuilt_of_buildNode ha)
  exact List.forall_mem_append.2 ⟨hparts, List.forall_mem_singleton.2 hnode⟩

/-- A compiled grammar consists of the nodes in build order, of what has been built for the intent
of each section, and of all intents put together. -/
theorem exists_of_compileWords {compiled : Compiled}
    (h : grammar.compileWords slots = .ok compiled) :
    (∃ order, grammar.buildOrder slots = .ok order ∧
      grammar.buildNodes slots order = .ok compiled.parts) ∧
    List.Forall₂ (fun s part => part.1 = s.intent ∧
      compiled.parts.resolve (.intent s.intent) = .ok part.2) grammar compiled.intents ∧
    compiled.merged = mergeIntents compiled.intents := by
  obtain ⟨order, horder, h⟩ := bind_eq_ok_iff.1 h
  obtain ⟨parts, hparts, h⟩ := bind_eq_ok_iff.1 h
  obtain ⟨intents, hintents, h⟩ := bind_eq_ok_iff.1 h
  cases h
  refine ⟨⟨order, horder, hparts⟩, (mapM_eq_ok_iff.1 hintents).imp fun s part h => ?_, rfl⟩
  obtain ⟨a, ha, h⟩ := bind_eq_ok_iff.1 h
  cases h
  exact ⟨rfl, ha⟩

end Grammar

end Phrasebook
