import Phrasebook.Text.Basic

/-!
# Output symbols

The output of a run is a sequence of symbols: the words of the sentence, and *markers* that
open and close the intent and its entities. Every symbol has a textual form, in which the
markers begin with a reserved prefix; `Symbol.ofText` reads it back.
-/

namespace Phrasebook

/-- One item of a run's output. -/
inductive Symbol
  /-- A word that is reported as it was matched. -/
  | word (text : String)
  /-- Matched words that are reported as other words; either side may be empty. -/
  | substitution (raw value : String)
  /-- The beginning of an intent. -/
  | openIntent (name : String)
  /-- The end of the intent. -/
  | closeIntent
  /-- The beginning of an entity; a given value stands for the words inside it. -/
  | openEntity (slot : String) (value : Option String)
  /-- The end of the innermost open entity. -/
  | closeEntity
  deriving DecidableEq, Repr, Inhabited

/-- What every marker begins with. No word of a template may begin with it. -/
def reservedPrefix : String := "__"

namespace Symbol

/-- Whether the symbol opens or closes an intent or an entity. -/
def isMarker : Symbol → Bool
  | word _ | substitution _ _ => false
  | openIntent _ | closeIntent | openEntity _ _ | closeEntity => true

/-- What the textual form of an intent's beginning begins with. -/
def intentMark : String := "__intent__"

/-- The textual form of an intent's end. -/
def intentEndMark : String := "__end_intent__"

/-- What the textual form of an entity's beginning begins with. -/
def entityMark : String := "__begin__"

/-- The textual form of an entity's end. -/
def entityEndMark : String := "__end__"

/-- The textual form. A colon separates matched from reported words, and the name of an entity
from its value. -/
def text : Symbol → String
  | word w => w
  | substitution raw value => raw ++ ":" ++ value
  | openIntent name => intentMark ++ name
  | closeIntent => intentEndMark
  | openEntity slot none => entityMark ++ slot
  | openEntity slot (some value) => entityMark ++ slot ++ ":" ++ value
  | closeEntity => entityEndMark

/-- The entity whose beginning has the given text after its mark. -/
def entityOfTag (tag : String) : Symbol :=
  match Text.cut ':' tag with
  | some (slot, value) => openEntity slot (some value)
  | none => openEntity tag none

/-- The word or substitution of a text that is no marker. -/
def ofPlainText (text : String) : Symbol :=
  match Text.cut ':' text with
  | some (raw, value) => substitution raw value
  | none => word text

/-- The symbol of a textual form. The closing marks are read first, then the opening ones, and
any other text is a word or a substitution. -/
def ofText (text : String) : Symbol :=
  if text = intentEndMark then closeIntent
  else if text = entityEndMark then closeEntity
  else
    match Text.after? intentMark text with
    | some name => openIntent name
    | none =>
      match Text.after? entityMark text with
      | some tag => entityOfTag tag
      | none => ofPlainText text

end Symbol

end Phrasebook
