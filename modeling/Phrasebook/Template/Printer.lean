import Phrasebook.Template.Parser

/-!
# Writing templates

A template is written with round brackets around every sequence and alternation, blanks between
items, and tags and values right behind what they belong to. Not every tree can be written: the
names and words have to be such that the tokens can be told apart, and the brackets such that
reading does not collapse them.

* `Template.text`: the template as a text.
* `Template.WellFormed`: the template can be written and is what reading makes of it.
-/

namespace Phrasebook

/-- The text is made of characters that neither separate nor end words. -/
def IsPlainText (text : String) : Prop := ∀ c ∈ text.toList, Token.isWordChar c = true

instance (text : String) : Decidable (IsPlainText text) :=
  decidable_of_iff (text.toList.all Token.isWordChar = true) List.all_eq_true

/-- No character of the text is blank. -/
def IsUnbroken (text : String) : Prop := ∀ c ∈ text.toList, isBlank c = false

instance (text : String) : Decidable (IsUnbroken text) :=
  decidable_of_iff (text.toList.any isBlank = false) (by simp [IsUnbroken])

/-- The name can stand before the colon of a tag, and the value, if it is given, behind it. -/
structure Tag.WellFormed (tag : Tag) : Prop where
  /-- There is a name. -/
  nonempty : tag.slot ≠ ""
  /-- The name is one word. -/
  unbroken : IsUnbroken tag.slot
  /-- No colon ends the name. -/
  noColon : ':' ∉ tag.slot.toList
  /-- No brace ends the tag. -/
  noBrace : '\x7d' ∉ tag.slot.toList
  /-- No brace ends the value. -/
  valueNoBrace : ∀ value ∈ tag.value, '\x7d' ∉ value.toList
  /-- There are no blanks around the value. -/
  valueTrimmed : ∀ value ∈ tag.value, Text.trim value = value

/-- The reference can stand in angle brackets, and its first point is the one behind the name of
an intent. -/
structure RuleName.WellFormed (name : RuleName) : Prop where
  /-- There is a name. -/
  nonempty : name.intent = none → name.rule ≠ ""
  /-- The rule's name is one word. -/
  unbroken : IsUnbroken name.rule
  /-- No bracket ends the rule's name. -/
  noBracket : '>' ∉ name.rule.toList
  /-- A point in the name would make it that of a rule of another intent. -/
  noPoint : name.intent = none → '.' ∉ name.rule.toList
  /-- The intent's name is one word. -/
  intentUnbroken : ∀ intent ∈ name.intent, IsUnbroken intent
  /-- No bracket ends the intent's name. -/
  intentNoBracket : ∀ intent ∈ name.intent, '>' ∉ intent.toList
  /-- No point ends the intent's name. -/
  intentNoPoint : ∀ intent ∈ name.intent, '.' ∉ intent.toList

/-- The tag in braces. -/
def Tag.text : Tag → String
  | ⟨slot, none⟩ => "\x7b" ++ slot ++ "\x7d"
  | ⟨slot, some value⟩ => "\x7b" ++ slot ++ ":" ++ value ++ "\x7d"

namespace Template

/-- What is matched and what is reported for it can be written as a word. -/
structure WellFormedWord (raw : String) (substitution : Option String) : Prop where
  /-- What is matched is a single word. -/
  plain : IsPlainText raw
  /-- No colon ends what is matched. -/
  noColon : ':' ∉ raw.toList
  /-- The word is not the name of a slot. -/
  noDollar : raw.toList.head? ≠ some '$'
  /-- The word could not be taken for a marker. -/
  unreserved : ¬ reservedPrefix.toList <+: raw.toList
  /-- What is reported is a single word. -/
  plainValue : ∀ value ∈ substitution, IsPlainText value
  /-- Something is matched or reported. -/
  nonempty : raw ≠ "" ∨ ∃ value ∈ substitution, value ≠ ""

/-- The template is written in round brackets that hold several parts or none. -/
def IsCompound : Template → Prop
  | sequence _ | alternation _ => True
  | _ => False

/-- The template is written in brackets. -/
def IsBracket : Template → Prop
  | sequence _ | alternation _ | optional _ => True
  | _ => False

mutual

/-- The template can be written and is what reading makes of it. -/
def WellFormed : Template → Prop
  | word raw substitution => WellFormedWord raw substitution
  | sequence items => WellFormedAll items ∧ ∀ item, items = [item] → ¬ IsCompound item
  | alternation branches => WellFormedAll branches ∧ 2 ≤ branches.length
  | optional inner => WellFormed inner
  | ruleRef name => name.WellFormed
  | slotRef name => IsPlainText name ∧ name ≠ ""
  | tagged inner tag => WellFormed inner ∧ tag.WellFormed
  | substituted inner value => WellFormed inner ∧ IsBracket inner ∧ IsPlainText value

/-- Every template of a list is well-formed. -/
def WellFormedAll : List Template → Prop
  | [] => True
  | t :: ts => WellFormed t ∧ WellFormedAll ts

end

mutual

/-- The template as a text. -/
def text : Template → String
  | word raw none => raw
  | word raw (some value) => raw ++ ":" ++ value
  | sequence items => "(" ++ textAll " " items ++ ")"
  | alternation branches => "(" ++ textAll " | " branches ++ ")"
  | optional inner => "[" ++ text inner ++ "]"
  | ruleRef name => name.text
  | slotRef name => "$" ++ name
  | tagged inner tag => text inner ++ tag.text
  | substituted inner value => text inner ++ ":" ++ value

/-- The templates of a list as a text, with a separator between them. -/
def textAll (separator : String) : List Template → String
  | [] => ""
  | [t] => text t
  | t :: ts => text t ++ separator ++ textAll separator ts

end

theorem wellFormedAll_iff {ts : List Template} : WellFormedAll ts ↔ ∀ t ∈ ts, WellFormed t := by
  induction ts with
  | nil => simp [WellFormedAll]
  | cons t ts ih => simp [WellFormedAll, ih]

end Template

end Phrasebook
