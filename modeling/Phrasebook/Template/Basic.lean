import Phrasebook.Symbol

/-!
# Sentence templates

A template describes a family of sentences: words, sequences, alternatives, optional parts,
references to rules and slots, tags that turn a span into an entity, and groups that are
reported as other words. This file holds the tree, the references in it and the change of its
words; templates are read from text in `Phrasebook.Template.Parser`.
-/

namespace Phrasebook

/-- The name of an entity, with the value that stands for the words of its span if it is given. -/
structure Tag where
  /-- The entity's name. -/
  slot : String
  /-- The value that replaces the words of the span. -/
  value : Option String
  deriving DecidableEq, Repr, Inhabited

/-- A reference to a rule, of the referring intent unless another intent is named. -/
structure RuleName where
  /-- The intent that defines the rule, if it is named. -/
  intent : Option String
  /-- The rule's name in its intent. -/
  rule : String
  deriving DecidableEq, Repr, Inhabited

namespace RuleName

/-- The intent that defines the rule when `intent` refers to it. -/
def owner (name : RuleName) (intent : String) : String :=
  name.intent.getD intent

/-- The rule's name together with that of the intent that defines it. -/
def qualified (name : RuleName) (intent : String) : String :=
  name.owner intent ++ "." ++ name.rule

/-- The rule that is written between angle brackets: a first point separates the name of
another intent. -/
def ofText (text : String) : RuleName :=
  match Text.cut '.' text with
  | some (intent, rule) => ⟨some intent, rule⟩
  | none => ⟨none, text⟩

/-- The reference in angle brackets. -/
def text : RuleName → String
  | ⟨some intent, rule⟩ => "<" ++ intent ++ "." ++ rule ++ ">"
  | ⟨none, rule⟩ => "<" ++ rule ++ ">"

end RuleName

/-- What a template refers to by name. -/
inductive Reference
  /-- A rule, whose template stands in the place of the reference. -/
  | rule (name : RuleName)
  /-- A slot, one of whose values stands in the place of the reference. -/
  | slot (name : String)
  deriving DecidableEq, Repr, Inhabited

/-- The reference as it is written in a template. -/
def Reference.text : Reference → String
  | rule name => name.text
  | slot name => "$" ++ name

/-- A family of sentences. -/
inductive Template
  /-- A word, reported as `substitution` if that is given. The empty word matches nothing. -/
  | word (text : String) (substitution : Option String)
  /-- The items one after another. -/
  | sequence (items : List Template)
  /-- One of the branches. -/
  | alternation (branches : List Template)
  /-- The inner template or nothing. -/
  | optional (inner : Template)
  /-- The template of a rule. -/
  | ruleRef (name : RuleName)
  /-- One of the values of a slot. -/
  | slotRef (name : String)
  /-- A span whose words become an entity. -/
  | tagged (inner : Template) (tag : Tag)
  /-- A span whose words are reported as `value`. -/
  | substituted (inner : Template) (value : String)
  deriving Repr, Inhabited

namespace Template

/-- The items one after another; a single item stands for itself. -/
def ofItems : List Template → Template
  | [item] => item
  | items => sequence items

/-- One of the branches; a single branch stands for itself. -/
def ofBranches : List Template → Template
  | [branch] => branch
  | branches => alternation branches

/-- A template in round brackets. The bracket leaves a sequence behind when it holds a single
item, so that what follows can tell it from that item. -/
def ofGroup : Template → Template
  | alternation branches => alternation branches
  | sequence items => sequence items
  | inner => sequence [inner]

mutual

/-- The references in a template from left to right, with repetitions. -/
def mentions : Template → List Reference
  | word _ _ => []
  | sequence items => mentionsAll items
  | alternation branches => mentionsAll branches
  | optional inner => mentions inner
  | ruleRef name => [.rule name]
  | slotRef name => [.slot name]
  | tagged inner _ => mentions inner
  | substituted inner _ => mentions inner

/-- The references in a list of templates from left to right, with repetitions. -/
def mentionsAll : List Template → List Reference
  | [] => []
  | t :: ts => mentions t ++ mentionsAll ts

end

/-- The references in a template, each once, in the order of their first occurrences. -/
def references (t : Template) : List Reference :=
  t.mentions.eraseDups

mutual

/-- Changes every word. A word that is changed by this is still reported as it was, unless it
had a substitution already. -/
def mapWords (f : String → String) : Template → Template
  | word text substitution =>
    if f text = text then word text substitution
    else word (f text) (some (substitution.getD text))
  | sequence items => sequence (mapWordsAll f items)
  | alternation branches => alternation (mapWordsAll f branches)
  | optional inner => optional (mapWords f inner)
  | ruleRef name => ruleRef name
  | slotRef name => slotRef name
  | tagged inner tag => tagged (mapWords f inner) tag
  | substituted inner value => substituted (mapWords f inner) value

/-- Changes every word of every template of a list. -/
def mapWordsAll (f : String → String) : List Template → List Template
  | [] => []
  | t :: ts => mapWords f t :: mapWordsAll f ts

end

theorem mentionsAll_eq_flatMap (ts : List Template) : mentionsAll ts = ts.flatMap mentions := by
  induction ts with
  | nil => rfl
  | cons t ts ih => simp [mentionsAll, ih]

theorem mapWordsAll_eq_map (f : String → String) (ts : List Template) :
    mapWordsAll f ts = ts.map (mapWords f) := by
  induction ts with
  | nil => rfl
  | cons t ts ih => simp [mapWordsAll, ih]

end Template

end Phrasebook
