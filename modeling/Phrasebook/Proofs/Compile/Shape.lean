import Phrasebook.Proofs.Automaton.Shape
import Phrasebook.Proofs.Compile.Stored
import Phrasebook.Proofs.Example.Search
import Phrasebook.Recognition.Fuzzy

/-!
# The shape of compiled automata

An arc of a compiled automaton consumes a word and reports it, as itself or as something else, or
it consumes nothing and puts out nothing, a marker, or words that are reported in addition. The
words are those of templates, in the chosen case, so none of them could be taken for a marker. The
automata begin and stop as all combinations do, nothing costs anything, and no state leads back to
itself; so every one of them has a fuzzy recognizer and its examples can be listed.

* `IsLabel`: what an arc of a compiled automaton consumes and puts out.
* `Template.shaped_of_build`: the automaton of a legal template.
* `Automaton.Regular`: the shape of a compiled automaton, and what follows from it.
* `Grammar.regular_of_compile`: everything that is built has this shape.
-/

namespace Phrasebook

/-! ### Labels -/

/-- What an arc of a compiled automaton consumes and puts out. -/
inductive IsLabel : Option String → Option Symbol → Prop
  /-- A word is reported as it is matched. -/
  | word {text : String} (legal : IsLegalWord text) (nonempty : text ≠ "") :
    IsLabel (some text) (some (.word text))
  /-- A word is reported as something else. -/
  | substitution {text value : String} (legal : IsLegalWord text) (nonempty : text ≠ "") :
    IsLabel (some text) (some (.substitution text value))
  /-- Nothing happens. -/
  | silent : IsLabel none none
  /-- A marker is put out. -/
  | marker {symbol : Symbol} (marks : symbol.isMarker = true) : IsLabel none (some symbol)
  /-- Something is reported that no word is matched for. -/
  | addition {value : String} : IsLabel none (some (.substitution "" value))

namespace IsLabel

variable {input : Option String} {output : Option Symbol}

/-- Reporting nothing keeps a label one. -/
theorem silence (h : IsLabel input output) : IsLabel input (Symbol.silence output) := by
  cases h with
  | word legal nonempty => exact .substitution legal nonempty
  | substitution legal nonempty => exact .substitution legal nonempty
  | silent => exact .silent
  | @marker symbol marks => cases symbol <;> first | cases marks; done | exact .marker rfl
  | addition => exact .addition

/-- Only legal words are consumed, and no empty one. -/
theorem legal {text : String} (h : IsLabel (some text) output) : IsLegalWord text ∧ text ≠ "" := by
  cases h with
  | word legal nonempty => exact ⟨legal, nonempty⟩
  | substitution legal nonempty => exact ⟨legal, nonempty⟩

end IsLabel

/-- The text of a marker begins with the reserved prefix. -/
theorem Symbol.prefix_text_of_isMarker {x : Symbol} (h : x.isMarker = true) :
    reservedPrefix.toList <+: x.text.toList := by
  have happend : ∀ {mark rest : String}, reservedPrefix.toList <+: mark.toList →
      reservedPrefix.toList <+: (mark ++ rest).toList := fun h => by
    rw [String.toList_append]
    exact h.trans (List.prefix_append _ _)
  cases x with
  | word text => cases h
  | substitution raw value => cases h
  | openIntent name => exact happend (by decide)
  | closeIntent => exact (by decide : reservedPrefix.toList <+: intentEndMark.toList)
  | openEntity slot value =>
    cases value with
    | none => exact happend (by decide)
    | some value => exact happend (happend (happend (by decide)))
  | closeEntity => exact (by decide : reservedPrefix.toList <+: entityEndMark.toList)

/-! ### Templates -/

namespace Template

variable {resolve : Node → Except Error Automaton} {intent : String}

/-- The markers of an entity are labels. -/
theorem shaped_entity {a : Automaton} (ha : a.Shaped IsLabel) (tag : Tag) :
    (a.entity tag).Shaped IsLabel :=
  ha.wrap (.marker rfl) (.marker rfl)

/-- The automaton of a legal word, which reports something when the word is empty. -/
theorem shaped_ofWord {text : String} {reported : Option String} (h : IsLegalWord text)
    (hempty : text = "" → reported.isSome = true) :
    (Automaton.ofWord text reported).Shaped IsLabel := by
  refine Automaton.shaped_ofArc ?_
  by_cases htext : text = ""
  · subst htext
    obtain ⟨value, rfl⟩ := Option.isSome_iff_exists.1 (hempty rfl)
    exact .addition
  · have hne : text.isEmpty = false := by simpa using htext
    rw [hne]
    cases reported with
    | none => exact .word h htext
    | some value => exact .substitution h htext

/-- The automaton of a legal template has the shape of combinations when those that the template
refers to do. -/
theorem shaped_of_build (hresolve : ∀ node a, resolve node = .ok a → a.Shaped IsLabel)
    {t : Template} {a : Automaton} (ht : t.Legal) (h : t.build resolve intent = .ok a) :
    a.Shaped IsLabel := by
  have hall : ∀ {ts : List Template} {as : List Automaton},
      List.Forall₂ (fun t a => t.Legal → a.Shaped IsLabel) ts as → LegalAll ts →
      ∀ a ∈ as, a.Shaped IsLabel := by
    intro ts as h hts a ha
    obtain ⟨t, ht, hshaped⟩ := exists_of_mem_right h ha
    exact hshaped (legalAll_iff.1 hts t ht)
  have hbuilds : BuildsUp resolve intent fun t a => t.Legal → a.Shaped IsLabel := {
    word := fun _ _ ht => shaped_ofWord ht.1 ht.2
    sequence := fun _ _ h ht =>
      Automaton.shaped_foldl_concat .silent Automaton.shaped_epsilon (hall h ht)
    alternation := fun _ _ h ht => Automaton.shaped_union .silent (hall h ht)
    optional := fun _ _ h ht => Automaton.shaped_union .silent (List.forall_mem_cons.2
      ⟨h ht, List.forall_mem_singleton.2 Automaton.shaped_epsilon⟩)
    ruleRef := fun _ _ h _ => hresolve _ _ h
    slotRef := fun _ _ h _ => shaped_entity (hresolve _ _ h) _
    taggedSlot := fun _ tag _ h _ => shaped_entity (hresolve _ _ h) tag
    tagged := fun _ tag _ _ h ht => shaped_entity (h ht.1) tag
    -- The words of the group report nothing, and what it is reported as is added at its end.
    substituted := fun _ _ _ h ht => ((h ht).mapOutputs fun _ _ => IsLabel.silence).concat .silent
      (Automaton.shaped_ofArc .addition) }
  exact hbuilds.of_build h ht

end Template

/-! ### Grammars -/

namespace Automaton

/-- The shape of a compiled automaton. -/
structure Regular (a : Automaton) : Prop extends a.Shaped IsLabel where
  /-- No state leads back to itself. -/
  acyclic : ∀ state, ¬ Graph.OnCycle a.targets state
  /-- No arc costs anything. -/
  weight_eq : ∀ state, ∀ arc ∈ a.arcs state, arc.weight = 0
  /-- Stopping costs nothing. -/
  finalWeight_eq : ∀ state, ∀ weight ∈ a.finalWeight? state, weight = 0

variable {a : Automaton}

/-- A shaped automaton that spells something and stores no costs is regular. -/
theorem Shaped.regular (h : a.Shaped IsLabel) {us : List Utterance} (hspells : a.Spells us)
    (hstores : a.Stores fun _ => True) : a.Regular := by
  refine ⟨h, hspells.not_onCycle, fun state arc harc => ?_, fun state weight hweight => ?_⟩
  · rcases a.getElem?_eq_none_or_mem state with hnone | ⟨s, hmem, hs⟩
    · simp [arcs, hnone] at harc
    · rw [arcs_of_getElem? hs] at harc
      exact ((hstores s hmem).arcs arc harc).weight_eq
  · rcases a.getElem?_eq_none_or_mem state with hnone | ⟨s, hmem, hs⟩
    · simp [finalWeight?, hnone] at hweight
    · rw [finalWeight_of_getElem? hs] at hweight
      exact (hstores s hmem).weight_eq weight hweight

/-- A word of the vocabulary is consumed by an arc. -/
theorem exists_arc_of_mem_vocabulary {word : String} (h : word ∈ a.vocabulary) :
    ∃ state, ∃ arc ∈ a.arcs state, arc.input = some word := by
  obtain ⟨state, -, hword⟩ := List.mem_flatMap.1 (WordSet.mem_ofList.1 h)
  obtain ⟨arc, harc, hinput⟩ := List.mem_filterMap.1 hword
  exact ⟨state, arc, harc, hinput⟩

namespace Regular

/-- A regular automaton has a fuzzy recognizer. -/
theorem exists_recognizer (h : a.Regular) (leniency : Leniency) (filter : Option WordSet) :
    ∃ r, FuzzyRecognizer.new a leniency filter = .ok r := by
  have hacyclic : ∀ state, ¬ Graph.OnCycle a.silentTargets state := fun state hcycle =>
    h.acyclic state (onCycle_of_silent hcycle)
  obtain ⟨order, heq, -⟩ := silentOrder_of_acyclic h.wellFormed hacyclic
  exact ⟨_, by rw [FuzzyRecognizer.new, heq]⟩

/-- The enumeration of its examples finds no cycle. -/
theorem message_ne_of_enumerate (h : a.Regular) {limit : Nat} {e : Error}
    (herror : Example.enumerate a limit = .error e) :
    e.message ≠ "path enumeration exhausted: cannot enumerate a cyclic automaton" :=
  Example.message_ne_of_enumerate h.wellFormed (fun v _ => h.acyclic v) herror

/-- No text of a marker can be consumed. -/
theorem text_not_mem_vocabulary (h : a.Regular) {x : Symbol} (hx : x.isMarker = true) :
    x.text ∉ a.vocabulary := by
  intro hmem
  obtain ⟨state, arc, harc, hinput⟩ := exists_arc_of_mem_vocabulary hmem
  have hlabel := h.labels state arc harc
  rw [hinput] at hlabel
  exact hlabel.legal.1.unreserved (Symbol.prefix_text_of_isMarker hx)

end Regular

end Automaton

namespace Grammar

/-- Everything that is built is regular: it is well-formed and has no cycle, runs stop in a single
state, which no arc leaves, no arc leads to the start state, nothing costs anything, and every arc
consumes a legal word and reports it, or it consumes nothing. So there is always a fuzzy
recognizer, enumeration never finds a cycle, and no text of a marker is a word that can be
consumed. -/
theorem regular_of_compile {allowed : Option WordSet} {text : String} {grammar : Grammar}
    {slots : Slots} {casing : Casing} {compiled : Compiled}
    (hgrammar : ofTextWith allowed text = .ok grammar) (hslots : slots.Defined)
    (h : grammar.compile casing slots = .ok compiled) :
    ∀ a ∈ compiled.automata, a.Regular ∧
      (∀ leniency filter, ∃ r, FuzzyRecognizer.new a leniency filter = .ok r) ∧
      (∀ limit e, Example.enumerate a limit = .error e →
        e.message ≠ "path enumeration exhausted: cannot enumerate a cyclic automaton") ∧
      ∀ x : Symbol, x.isMarker = true → x.text ∉ a.vocabulary := by
  have hensures : Ensures Template.Legal (Automaton.Shaped IsLabel) :=
    ⟨fun hresolve ht h => Template.shaped_of_build hresolve ht h, Automaton.shaped_union .silent,
      fun _ ha => ha.wrap (.marker rfl) (.marker rfl)⟩
  have hshaped := hensures.compileWords (legal_of_ofTextWith hgrammar casing).holds
    (hslots.legal casing) h
  intro a ha
  obtain ⟨us, hspells⟩ := exists_spells_of_compile hgrammar hslots h a ha
  have hregular := (hshaped a ha).regular hspells (costless_of_compile hgrammar hslots h a ha)
  exact ⟨hregular, hregular.exists_recognizer,
    fun limit e => hregular.message_ne_of_enumerate, fun x => hregular.text_not_mem_vocabulary⟩

/-- A rule that is reported as other words, with an optional word, a slot and a tag. -/
theorem regular_of_compile_light : ∃ grammar slots compiled,
    ofTextWith none
        "[Light]\nplace = [the] $room\nturn (on)\x7bstate\x7d <place>\n(lights out):off" =
      .ok grammar ∧ Slots.Defined slots ∧ grammar.compile .lower slots = .ok compiled ∧
    ∀ a ∈ compiled.automata, a.Regular ∧
      (∀ leniency filter, ∃ r, FuzzyRecognizer.new a leniency filter = .ok r) ∧
      (∀ limit e, Example.enumerate a limit = .error e →
        e.message ≠ "path enumeration exhausted: cannot enumerate a cyclic automaton") ∧
      ∀ x : Symbol, x.isMarker = true → x.text ∉ a.vocabulary := by
  obtain ⟨grammar, slots, compiled, hgrammar, hslots, hcompile, -⟩ := @exists_compile
    "[Light]\nplace = [the] $room\nturn (on)\x7bstate\x7d <place>\n(lights out):off" "room"
    ["Kitchen", "hall:lobby"] .lower (fun _ _ => true) (by decide +kernel)
  exact ⟨grammar, slots, compiled, hgrammar, hslots, hcompile,
    regular_of_compile hgrammar hslots hcompile⟩

end Grammar

end Phrasebook
