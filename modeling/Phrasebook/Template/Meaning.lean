import Phrasebook.Automaton.Run
import Phrasebook.Section
import Phrasebook.Slots

/-!
# What templates mean

A template means a list of utterances in an order: the order of branches, and in a sequence that
of the first items before that of later ones. References mean what they refer to, so the meaning
is relative to a grammar and its slots, and a template that refers to itself has none.

* `Template.Means`: a template of an intent means a list of utterances.
* `Template.Means.unique`: it means at most one.
* `Template.Says`: a word occurs in a template or in what it refers to.
-/

namespace Phrasebook

namespace Utterance

/-- The utterance as an entity. -/
def within (tag : Tag) (u : Utterance) : Utterance :=
  ⟨u.words, .openEntity tag.slot tag.value :: u.output ++ [.closeEntity]⟩

/-- The symbol that matches the same words and reports none. -/
def unreported : Symbol → Symbol
  | .word raw => .substitution raw ""
  | .substitution raw _ => .substitution raw ""
  | marker => marker

/-- The utterance reported as other words. -/
def reportedAs (value : String) (u : Utterance) : Utterance :=
  ⟨u.words, u.output.map unreported ++ [.substitution "" value]⟩

/-- The utterances that follow one from each list, where the choice from an earlier list
weighs more in the order. -/
def sequences : List (List Utterance) → List Utterance
  | [] => [empty]
  | us :: rest => us.flatMap fun u => (sequences rest).map (u ++ ·)

end Utterance

namespace Template

/-- The utterance of a word. The empty word consumes nothing. -/
def utteranceOfWord (text : String) (substitution : Option String) : Utterance where
  words := if text = "" then [] else [text]
  output :=
    match substitution with
    | none => [.word text]
    | some value => [.substitution text value]

/-- The template of a rule, where an intent refers to it. -/
def ruleBody? (grammar : Grammar) (intent : String) (name : RuleName) : Option Template := do
  (← grammar.find? (·.intent = name.owner intent)).rules.find? name.rule

mutual

/-- A template of an intent means a list of utterances. -/
inductive Means (grammar : Grammar) (slots : Slots) :
    String → Template → List Utterance → Prop
  /-- A word means a single utterance. -/
  | word {intent text : String} {substitution : Option String} :
    Means grammar slots intent (.word text substitution) [utteranceOfWord text substitution]
  /-- A sequence means what its items mean one after another. -/
  | sequence {intent : String} {items : List Template} {lists : List (List Utterance)}
    (each : MeanEach grammar slots intent items lists) :
    Means grammar slots intent (.sequence items) (Utterance.sequences lists)
  /-- An alternation means what its first branch means, then what its second one means, and
  so on. -/
  | alternation {intent : String} {branches : List Template} {lists : List (List Utterance)}
    (each : MeanEach grammar slots intent branches lists) :
    Means grammar slots intent (.alternation branches) lists.flatten
  /-- An optional part means what is inside, and then nothing. -/
  | optional {intent : String} {inner : Template} {us : List Utterance}
    (part : Means grammar slots intent inner us) :
    Means grammar slots intent (.optional inner) (us ++ [.empty])
  /-- A reference means what the rule means in the intent that defines it. -/
  | ruleRef {intent : String} {name : RuleName} {body : Template} {us : List Utterance}
    (found : ruleBody? grammar intent name = some body)
    (part : Means grammar slots (name.owner intent) body us) :
    Means grammar slots intent (.ruleRef name) us
  /-- A slot means each of its values as an entity of the slot's name. -/
  | slotRef {intent name : String} {values : List Template} {lists : List (List Utterance)}
    (found : slots.find? name = some values) (each : MeanEach grammar slots intent values lists) :
    Means grammar slots intent (.slotRef name) (lists.flatten.map (.within ⟨name, none⟩))
  /-- A tag of a slot takes the place of the tag that the slot has by itself. -/
  | taggedSlot {intent name : String} {tag : Tag} {values : List Template}
    {lists : List (List Utterance)} (found : slots.find? name = some values)
    (each : MeanEach grammar slots intent values lists) :
    Means grammar slots intent (.tagged (.slotRef name) tag) (lists.flatten.map (.within tag))
  /-- A tagged part means what is inside as an entity. -/
  | tagged {intent : String} {inner : Template} {tag : Tag} {us : List Utterance}
    (notSlot : ∀ name, inner ≠ .slotRef name) (part : Means grammar slots intent inner us) :
    Means grammar slots intent (.tagged inner tag) (us.map (.within tag))
  /-- A substituted part means what is inside, reported as the value. -/
  | substituted {intent : String} {inner : Template} {value : String} {us : List Utterance}
    (part : Means grammar slots intent inner us) :
    Means grammar slots intent (.substituted inner value) (us.map (.reportedAs value))

/-- Each template of a list means a list of utterances. -/
inductive MeanEach (grammar : Grammar) (slots : Slots) :
    String → List Template → List (List Utterance) → Prop
  /-- There is no template. -/
  | nil {intent : String} : MeanEach grammar slots intent [] []
  /-- There is a first template. -/
  | cons {intent : String} {t : Template} {ts : List Template} {us : List Utterance}
    {lists : List (List Utterance)} (first : Means grammar slots intent t us)
    (rest : MeanEach grammar slots intent ts lists) :
    MeanEach grammar slots intent (t :: ts) (us :: lists)

end

mutual

/-- A template has at most one meaning. -/
theorem Means.unique {grammar : Grammar} {slots : Slots} {intent : String} {t : Template}
    {us vs : List Utterance} (h : Means grammar slots intent t us)
    (h' : Means grammar slots intent t vs) : us = vs := by
  match h, h' with
  | .word, .word => rfl
  | .sequence each, .sequence each' => rw [each.unique each']
  | .alternation each, .alternation each' => rw [each.unique each']
  | .optional part, .optional part' => rw [part.unique part']
  | .ruleRef found part, .ruleRef found' part' =>
    cases Option.some.inj (found.symm.trans found')
    exact part.unique part'
  | .slotRef found each, .slotRef found' each' =>
    cases Option.some.inj (found.symm.trans found')
    rw [each.unique each']
  | .taggedSlot found each, .taggedSlot found' each' =>
    cases Option.some.inj (found.symm.trans found')
    rw [each.unique each']
  | .taggedSlot _ _, .tagged notSlot _ => exact absurd rfl (notSlot _)
  | .tagged notSlot _, .taggedSlot _ _ => exact absurd rfl (notSlot _)
  | .tagged _ part, .tagged _ part' => rw [part.unique part']
  | .substituted part, .substituted part' => rw [part.unique part']

theorem MeanEach.unique {grammar : Grammar} {slots : Slots} {intent : String}
    {ts : List Template} {lists lists' : List (List Utterance)}
    (h : MeanEach grammar slots intent ts lists)
    (h' : MeanEach grammar slots intent ts lists') : lists = lists' := by
  match h, h' with
  | .nil, .nil => rfl
  | .cons first rest, .cons first' rest' => rw [first.unique first', rest.unique rest']

end

/-- A word occurs in a template of an intent, or in something that the template refers to. -/
inductive Says (grammar : Grammar) (slots : Slots) : String → Template → String → Prop
  /-- A word says itself, unless it is empty. -/
  | word {intent text : String} {substitution : Option String} (nonempty : text ≠ "") :
    Says grammar slots intent (.word text substitution) text
  /-- A sequence says what its items say. -/
  | item {intent word : String} {item : Template} {items : List Template}
    (mem : item ∈ items) (part : Says grammar slots intent item word) :
    Says grammar slots intent (.sequence items) word
  /-- An alternation says what its branches say. -/
  | branch {intent word : String} {branch : Template} {branches : List Template}
    (mem : branch ∈ branches) (part : Says grammar slots intent branch word) :
    Says grammar slots intent (.alternation branches) word
  /-- An optional part says what is inside. -/
  | optional {intent word : String} {inner : Template}
    (part : Says grammar slots intent inner word) :
    Says grammar slots intent (.optional inner) word
  /-- A reference says what the rule says in the intent that defines it. -/
  | ruleRef {intent word : String} {name : RuleName} {body : Template}
    (found : ruleBody? grammar intent name = some body)
    (part : Says grammar slots (name.owner intent) body word) :
    Says grammar slots intent (.ruleRef name) word
  /-- A slot says what its values say. -/
  | slotRef {intent word name : String} {value : Template} {values : List Template}
    (found : slots.find? name = some values) (mem : value ∈ values)
    (part : Says grammar slots intent value word) :
    Says grammar slots intent (.slotRef name) word
  /-- A tagged part says what is inside. -/
  | tagged {intent word : String} {inner : Template} {tag : Tag}
    (part : Says grammar slots intent inner word) :
    Says grammar slots intent (.tagged inner tag) word
  /-- A substituted part says what is inside. -/
  | substituted {intent word value : String} {inner : Template}
    (part : Says grammar slots intent inner word) :
    Says grammar slots intent (.substituted inner value) word

end Template

end Phrasebook
