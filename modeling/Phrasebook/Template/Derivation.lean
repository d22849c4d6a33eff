import Phrasebook.Template.Token

/-!
# The grammar of templates

Which templates some tokens make is laid down by a grammar:

* an alternation is a list of sequences with bars between them,
* a sequence is a list of items, which may be empty,
* an item is a bracket, a reference or a word, then perhaps the value that a bracket is reported
  as, and then any number of tags.

The value of a bracket is a word that begins with a colon and touches the bracket. Such a word
is never an item of its own, so the grammar derives no two templates from the same tokens.

* `Template.DerivesWord`: a text is a legal word.
* `Template.DerivesAlternation`, `Template.DerivesSequence`, `Template.DerivesItem`: tokens make
  the branches of an alternation, the items of a sequence, and an item.
* `Template.Derives`: tokens make a template.
-/

namespace Phrasebook

namespace Template

/-- A text is a legal word: what is matched and what is reported for it are not both empty, and
what is matched could not be taken for a marker. -/
inductive DerivesWord : String → Template → Prop
  /-- A word without a colon. -/
  | plain {raw : String} (noColon : ':' ∉ raw.toList) (nonempty : raw ≠ "")
    (unreserved : ¬ reservedPrefix.toList <+: raw.toList) : DerivesWord raw (.word raw none)
  /-- The first colon separates what is matched from what is reported. -/
  | substitution {raw value : String} (noColon : ':' ∉ raw.toList)
    (nonempty : raw ≠ "" ∨ value ≠ "")
    (unreserved : ¬ reservedPrefix.toList <+: raw.toList) :
    DerivesWord (raw ++ ":" ++ value) (.word raw (some value))

/-- Some tokens begin with a word that begins with a colon and touches what is before it. -/
def BeginsWithValue (lexemes : List Lexeme) : Prop :=
  ∃ value rest, lexemes = ⟨.word (":" ++ value), true⟩ :: rest

mutual

/-- Some tokens make the branches of an alternation. -/
inductive DerivesAlternation : List Lexeme → List Template → Prop
  /-- There is one branch. -/
  | single {lexemes : List Lexeme} {items : List Template}
    (branch : DerivesSequence lexemes items) : DerivesAlternation lexemes [ofItems items]
  /-- A bar follows the first branch. -/
  | bar {lexemes rest : List Lexeme} {touching : Bool} {items branches : List Template}
    (branch : DerivesSequence lexemes items) (others : DerivesAlternation rest branches) :
    DerivesAlternation (lexemes ++ ⟨.bar, touching⟩ :: rest) (ofItems items :: branches)

/-- Some tokens make the items of a sequence. -/
inductive DerivesSequence : List Lexeme → List Template → Prop
  /-- There is no item. -/
  | nil : DerivesSequence [] []
  /-- There is a first item. When it is a bracket, what follows is not its value. -/
  | cons {lexemes rest : List Lexeme} {bracket : Bool} {item : Template} {items : List Template}
    (first : DerivesItem lexemes bracket item)
    (complete : bracket = true → ¬ BeginsWithValue rest) (others : DerivesSequence rest items) :
    DerivesSequence (lexemes ++ rest) (item :: items)

/-- Some tokens make an item; `bracket` tells whether they end with the end of a bracket. -/
inductive DerivesItem : List Lexeme → Bool → Template → Prop
  /-- A reference to a rule. -/
  | rule {name : String} {touching : Bool} :
    DerivesItem [⟨.rule name, touching⟩] false (.ruleRef (.ofText name))
  /-- A reference to a slot. -/
  | slot {name : String} {touching : Bool} :
    DerivesItem [⟨.slot name, touching⟩] false (.slotRef name)
  /-- A word. -/
  | word {text : String} {touching : Bool} {t : Template} (legal : DerivesWord text t) :
    DerivesItem [⟨.word text, touching⟩] false t
  /-- A group in round brackets. -/
  | group {lexemes : List Lexeme} {touching touching' : Bool} {branches : List Template}
    (inside : DerivesAlternation lexemes branches) :
    DerivesItem (⟨.openGroup, touching⟩ :: lexemes ++ [⟨.closeGroup, touching'⟩]) true
      (ofGroup (ofBranches branches))
  /-- An optional part in square brackets. -/
  | option {lexemes : List Lexeme} {touching touching' : Bool} {branches : List Template}
    (inside : DerivesAlternation lexemes branches) :
    DerivesItem (⟨.openOption, touching⟩ :: lexemes ++ [⟨.closeOption, touching'⟩]) true
      (.optional (ofBranches branches))
  /-- A bracket with the value that it is reported as. -/
  | substituted {lexemes : List Lexeme} {inner : Template} {value : String}
    (part : DerivesItem lexemes true inner) :
    DerivesItem (lexemes ++ [⟨.word (":" ++ value), true⟩]) false (.substituted inner value)
  /-- An item with a tag. -/
  | tagged {lexemes : List Lexeme} {bracket touching : Bool} {inner : Template} {tag : Tag}
    (part : DerivesItem lexemes bracket inner) :
    DerivesItem (lexemes ++ [⟨.tag tag, touching⟩]) false (.tagged inner tag)

end

/-- Some tokens make a template. -/
def Derives (lexemes : List Lexeme) (t : Template) : Prop :=
  ∃ branches, DerivesAlternation lexemes branches ∧ t = ofBranches branches

end Template

end Phrasebook
