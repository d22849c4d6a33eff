import Phrasebook.Proofs.Decoding.Spans
import Phrasebook.Proofs.Recognition.Decoded
import Phrasebook.Proofs.Template.Legal

/-!
# Names of entities

An entity has the name of a slot or of a tag. Both are read from a text as single words, so every
entity that a compiled grammar opens has a name without blanks.

* `Template.entityNames`: the names that a template gives to entities.
* `Template.unbroken_of_ofLine`: in a template that is read they hold no blank.
* `Template.carries_unbroken`: so they do where entities are opened.
* `Grammar.exists_utterance_of_accepts`: what an accepted run of a compiled grammar puts out.
-/

namespace Phrasebook

namespace Template

mutual

/-- The names that a template gives to entities, from left to right. -/
def entityNames : Template → List String
  | word _ _ => []
  | sequence items => entityNamesAll items
  | alternation branches => entityNamesAll branches
  | optional inner => entityNames inner
  | ruleRef _ => []
  | slotRef name => [name]
  | tagged inner tag => tag.slot :: entityNames inner
  | substituted inner _ => entityNames inner

/-- The names that the templates of a list give to entities. -/
def entityNamesAll : List Template → List String
  | [] => []
  | t :: ts => entityNames t ++ entityNamesAll ts

end

theorem mem_entityNamesAll {name : String} {ts : List Template} :
    name ∈ entityNamesAll ts ↔ ∃ t ∈ ts, name ∈ t.entityNames := by
  induction ts with
  | nil => simp [entityNamesAll]
  | cons t ts ih => simp [entityNamesAll, ih]

mutual

/-- A change of words changes no name. -/
theorem entityNames_mapWords {f : String → String} (t : Template) :
    (t.mapWords f).entityNames = t.entityNames := by
  match t with
  | word text substitution =>
    rw [mapWords]
    split <;> rfl
  | sequence items => exact entityNamesAll_mapWordsAll items
  | alternation branches => exact entityNamesAll_mapWordsAll branches
  | optional inner => exact entityNames_mapWords inner
  | ruleRef name => rfl
  | slotRef name => rfl
  | tagged inner tag => exact congrArg (tag.slot :: ·) (entityNames_mapWords inner)
  | substituted inner value => exact entityNames_mapWords inner

theorem entityNamesAll_mapWordsAll {f : String → String} (ts : List Template) :
    entityNamesAll (mapWordsAll f ts) = entityNamesAll ts := by
  match ts with
  | [] => rfl
  | t :: ts => rw [mapWordsAll, entityNamesAll, entityNames_mapWords t,
      entityNamesAll_mapWordsAll ts, entityNamesAll]

end

/-- The names that a template gives to entities hold no blank. -/
def IsUnbrokenNames (t : Template) : Prop := ∀ name ∈ t.entityNames, IsUnbroken name

theorem IsUnbrokenNames.mapWords {f : String → String} {t : Template} (h : t.IsUnbrokenNames) :
    (t.mapWords f).IsUnbrokenNames := by
  rwa [IsUnbrokenNames, entityNames_mapWords]

mutual

/-- The names of slots and tags are words of their own in a well-formed template. -/
theorem WellFormed.isUnbrokenNames {t : Template} (h : t.WellFormed) : t.IsUnbrokenNames := by
  match t with
  | word _ _ => exact fun _ hmem => absurd hmem List.not_mem_nil
  | sequence items => exact WellFormedAll.isUnbrokenNames h.1
  | alternation branches => exact WellFormedAll.isUnbrokenNames h.1
  | optional inner => exact WellFormed.isUnbrokenNames (t := inner) h
  | ruleRef _ => exact fun _ hmem => absurd hmem List.not_mem_nil
  | slotRef name => exact List.forall_mem_singleton.2 h.1.isUnbroken
  | tagged inner tag =>
    exact List.forall_mem_cons.2 ⟨h.2.unbroken, WellFormed.isUnbrokenNames (t := inner) h.1⟩
  | substituted inner _ => exact WellFormed.isUnbrokenNames (t := inner) h.1

theorem WellFormedAll.isUnbrokenNames {ts : List Template} (h : WellFormedAll ts) :
    ∀ name ∈ entityNamesAll ts, IsUnbroken name := by
  match ts with
  | [] => exact fun _ hmem => absurd hmem List.not_mem_nil
  | t :: ts =>
    exact List.forall_mem_append.2
      ⟨WellFormed.isUnbrokenNames (t := t) h.1, WellFormedAll.isUnbrokenNames h.2⟩

end

/-- The names that a line gives to entities hold no blank. -/
theorem unbroken_of_ofLine {label : String} {number : Nat} {text : String} {t : Template}
    (h : ofLine label number text = .ok t) : t.IsUnbrokenNames :=
  (wellFormed_of_ofText (mapError_eq_ok_iff.1 h)).isUnbrokenNames

end Template

/-! ### Utterances -/

/-- The entities that an utterance opens have names without blanks. -/
def Utterance.OpensUnbroken (u : Utterance) : Prop :=
  ∀ name ∈ u.output.filterMap Symbol.opened?, IsUnbroken name

/-- A symbol that reports nothing opens the entity that it did. -/
theorem Symbol.opened?_unreported (symbol : Symbol) :
    (Utterance.unreported symbol).opened? = symbol.opened? := by
  cases symbol <;> rfl

theorem Utterance.OpensUnbroken.within {u : Utterance} (hu : u.OpensUnbroken) {tag : Tag}
    (htag : IsUnbroken tag.slot) : (u.within tag).OpensUnbroken := by
  rw [OpensUnbroken, Utterance.within, List.filterMap_append, List.filterMap_cons]
  exact List.forall_mem_append.2
    ⟨List.forall_mem_cons.2 ⟨htag, hu⟩, fun _ h => absurd h List.not_mem_nil⟩

/-- Entities are opened under the names that the templates give to them. -/
theorem Template.carries_unbroken : Carries IsUnbrokenNames Utterance.OpensUnbroken where
  item h ht := fun name hname => h name (mem_entityNamesAll.2 ⟨_, ht, hname⟩)
  branches := by
    refine ⟨fun h t ht name hname => h name (mem_entityNamesAll.2 ⟨t, ht, hname⟩),
      fun h name hname => ?_⟩
    obtain ⟨t, ht, hname⟩ := mem_entityNamesAll.1 hname
    exact h t ht name hname
  optional h := h
  tagged h := (List.forall_mem_cons.1 h).2
  substituted h := h
  word {text substitution} _ := by
    cases substitution <;> exact fun _ h => absurd h List.not_mem_nil
  empty := fun _ h => absurd h List.not_mem_nil
  append hu hv := by
    rw [Utterance.OpensUnbroken, Utterance.output_append, List.filterMap_append]
    exact List.forall_mem_append.2 ⟨hu, hv⟩
  slotRef h hu := hu.within (h _ List.mem_cons_self)
  within h hu := hu.within (h _ List.mem_cons_self)
  reportedAs {u value} hu := by
    have hmap : (u.output.map Utterance.unreported).filterMap Symbol.opened? =
        u.output.filterMap Symbol.opened? := by
      rw [List.filterMap_map]
      exact List.filterMap_congr fun symbol _ => symbol.opened?_unreported
    rw [Utterance.OpensUnbroken, Utterance.reportedAs, List.filterMap_append, hmap]
    exact List.forall_mem_append.2 ⟨hu, fun _ h => absurd h List.not_mem_nil⟩

/-! ### The merged automaton -/

namespace Grammar

variable {allowed : Option WordSet} {text : String} {grammar : Grammar} {slots : Slots}
  {casing : Casing} {compiled : Compiled}

/-- An accepted run of a compiled grammar puts out phrases inside one of its intents. The names of
the intent and of the entities are single words. -/
theorem exists_utterance_of_accepts (hgrammar : ofTextWith allowed text = .ok grammar)
    (hslots : slots.Defined) (h : grammar.compile casing slots = .ok compiled) {run : List Nat}
    {arcs : List Automaton.Arc} (hrun : compiled.merged.Accepts run arcs) :
    ∃ s ∈ grammar, s.Named ∧ ∃ u : Utterance,
      Utterance.ofArcs arcs = u.inIntent s.intent ∧ u.IsPhrased ∧ u.OpensUnbroken := by
  obtain ⟨i, _, s, a, run', arcs', -, hs, ha, hrun', heq, -⟩ :=
    exists_section_of_accepts hgrammar hslots h hrun
  have hmem := List.mem_of_getElem? ha
  have hs := List.mem_of_getElem? hs
  -- The automaton of the intent spells two lists of utterances, and the run's is in both.
  obtain ⟨us, hspell, hphrased⟩ := isPhrased_of_mem_intents hgrammar hslots h hmem
  obtain ⟨us', hspell', hunbroken⟩ := Template.carries_unbroken.exists_spells_of_mem
    (fun _ _ _ _ hline => (Template.unbroken_of_ofLine hline).mapWords) hgrammar hslots h hmem
  have hproper := Section.proper_of_ofTextWith (P := fun _ => True)
    (fun _ _ _ _ _ => trivial) hgrammar
  exact ⟨s, hs, hproper.named s hs, _, heq, hphrased _ (hspell.mem_of_accepts hrun'),
    hunbroken _ (hspell'.mem_of_accepts hrun')⟩

end Grammar

end Phrasebook
