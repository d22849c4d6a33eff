import Phrasebook.Template.Parser
import Phrasebook.Text.Table
import Phrasebook.Text.WordSet

/-!
# Grammar files

A grammar file is a list of sections. A section begins with the name of its intent in square
brackets; each of its lines is a rule, written `name = template`, or else a sentence. Blank
lines and lines that begin with `#` or `;` say nothing.
-/

namespace Phrasebook

/-- The sentences of one intent and the rules that it defines. -/
structure Section where
  /-- The intent's name. -/
  intent : String
  /-- The sentences in the order of their lines. -/
  sentences : List Template
  /-- The rules by name. -/
  rules : Table Template

namespace Section

/-- The section of an intent before its first line. -/
def new (intent : String) : Section := ⟨intent, [], ∅⟩

/-- What the intent stands for: any one of its sentences. -/
def template (s : Section) : Template := .alternation s.sentences

/-- The references in the sentences and then in the rules, each once, in the order of their
first occurrences. -/
def references (s : Section) : List Reference :=
  ((s.sentences ++ s.rules.values).flatMap Template.references).eraseDups

/-- Changes every word of the section. -/
def mapWords (f : String → String) (s : Section) : Section :=
  { s with
    sentences := s.sentences.map (Template.mapWords f)
    rules := s.rules.map (Template.mapWords f) }

end Section

/-- The characters that begin an identifier. -/
def isIdentifierStart (c : Char) : Bool := c.isAlpha || c == '_'

/-- The characters that continue an identifier. -/
def isIdentifierChar (c : Char) : Bool := c.isAlphanum || c == '_' || c == '-'

/-- Whether the characters form an identifier: a letter or a low line, and then letters,
digits, low lines and hyphens, all of ASCII. -/
def isIdentifier : List Char → Bool
  | [] => false
  | c :: cs => isIdentifierStart c && cs.all isIdentifierChar

/-- What a line of a grammar file says. -/
inductive GrammarLine
  /-- Nothing. -/
  | nothing
  /-- A section begins; `header` is the line and `name` what stands in its brackets. -/
  | header (header name : String)
  /-- A rule has a template, given as text. -/
  | rule (name body : String)
  /-- The line is a sentence. -/
  | sentence (text : String)
  deriving DecidableEq, Repr

namespace GrammarLine

/-- What stands between square brackets that enclose the whole line and no other ones. -/
def bracketed? : List Char → Option (List Char)
  | '[' :: cs =>
    if cs.getLast? = some ']' ∧ cs.dropLast.all (fun c => c != '[' && c != ']') then
      some cs.dropLast
    else none
  | _ => none

/-- The name and the text of a rule: an identifier, an equals sign that may follow blanks, and
the rest of the line. -/
def ruleParts? (cs : List Char) : Option (List Char × List Char) :=
  match cs with
  | [] => none
  | c :: _ =>
    if isIdentifierStart c then
      match (cs.dropWhile isIdentifierChar).dropWhile isBlank with
      | '=' :: body => some (cs.takeWhile isIdentifierChar, Text.trimChars body)
      | _ => none
    else none

/-- What a line says. -/
def ofText (line : String) : GrammarLine :=
  let cs := Text.trimChars line.toList
  match cs with
  | [] => nothing
  | c :: _ =>
    if c = '#' ∨ c = ';' then nothing
    else
      -- A line in brackets of its own is a header even if no intent can have the name.
      match bracketed? cs with
      | some name => header (String.ofList cs) (String.ofList (Text.trimChars name))
      | none =>
        match ruleParts? cs with
        | some (name, body) => rule (String.ofList name) (String.ofList body)
        | none => sentence (String.ofList cs)

end GrammarLine

namespace Section

/-- The section with one more rule. -/
def addRule (s : Section) (number : Nat) (name body : String) : Except Error Section := do
  if body.isEmpty then throw (.malformedLine s.intent number (.emptyRule name))
  let template ← Template.ofLine s.intent number body
  if s.rules.contains name then throw (.malformedLine s.intent number (.duplicateRule name))
  return { s with rules := s.rules.insert name template }

/-- The section with one more sentence. -/
def addSentence (s : Section) (number : Nat) (text : String) : Except Error Section := do
  return { s with sentences := s.sentences ++ [← Template.ofLine s.intent number text] }

/-- Reads one more line; the sections so far are given last first. -/
def addLine (sections : List Section) (number : Nat) :
    GrammarLine → Except Error (List Section)
  | .nothing => .ok sections
  | .header header name =>
    if !isIdentifier name.toList then
      .error (.malformedLine name number (.invalidSectionName header))
    else if sections.any (·.intent = name) then
      .error (.malformedLine name number .duplicateSection)
    else .ok (new name :: sections)
  | .rule name body =>
    match sections with
    | [] => .error (.malformedLine "" number .outsideSection)
    | s :: rest => return (← s.addRule number name body) :: rest
  | .sentence text =>
    match sections with
    | [] => .error (.malformedLine "" number .outsideSection)
    | s :: rest => return (← s.addSentence number text) :: rest

/-- Reads some lines, the first of which has the given number. -/
def addLines (sections : List Section) (number : Nat) :
    List String → Except Error (List Section)
  | [] => .ok sections
  | line :: lines => do
    addLines (← addLine sections number (.ofText line)) (number + 1) lines

end Section

/-- The sections of a grammar, in the order of the file. -/
abbrev Grammar := List Section

namespace Grammar

/-- The sections of a text. -/
def ofText (text : String) : Except Error Grammar :=
  List.reverse <$> Section.addLines [] 1 (Text.lines text)

/-- The sections whose intents are allowed; without a set all are. -/
def restrict (allowed : Option WordSet) (grammar : Grammar) : Grammar :=
  match allowed with
  | none => grammar
  | some names => grammar.filter fun s => names.contains s.intent

/-- The sections of a text whose intents are allowed. The others are read all the same, so that
their faults are found. -/
def ofTextWith (allowed : Option WordSet) (text : String) : Except Error Grammar :=
  restrict allowed <$> ofText text

end Grammar

end Phrasebook
