import Phrasebook.Template.Token

/-!
# Reading templates

The tokens of a template are read from left to right with a stack of open brackets. A closed
bracket becomes an item of the level around it; a sequence of one item is that item, and an
alternation of one branch is that branch. A word that begins with a colon and touches a closed
bracket replaces what the bracket reports, and a tag belongs to the item before it.
-/

namespace Phrasebook

namespace Template

/-- The word of a template: a first colon separates it from what is reported for it. -/
def ofWord (text : String) : Except SyntaxFault Template :=
  let (raw, substitution) :=
    match Text.cut ':' text with
    | some (raw, value) => (raw, some value)
    | none => (text, none)
  if raw.isEmpty ∧ (substitution.getD "").isEmpty then .error .emptySubstitution
  else if reservedPrefix.toList.isPrefixOf raw.toList then .error (.reserved raw)
  else .ok (word raw substitution)

namespace Parser

/-- The kinds of brackets that hold templates. -/
inductive Bracket
  /-- Round brackets, around a group. -/
  | group
  /-- Square brackets, around an optional part. -/
  | option
  deriving DecidableEq, Repr

/-- The character that opens a bracket. -/
def Bracket.opening : Bracket → Char
  | group => '('
  | option => '['

/-- What has been read since a bracket was opened, last part first. -/
structure Level where
  /-- The branches before the last bar. -/
  branches : List Template
  /-- The items after it. -/
  items : List Template

namespace Level

/-- Nothing has been read. -/
def empty : Level := ⟨[], []⟩

/-- One more item has been read. -/
def push (level : Level) (item : Template) : Level :=
  { level with items := item :: level.items }

/-- A bar has been read. -/
def bar (level : Level) : Level :=
  ⟨ofItems level.items.reverse :: level.branches, []⟩

/-- The template that has been read. -/
def template (level : Level) : Template :=
  ofBranches level.bar.branches.reverse

end Level

/-- What has been read of a template. -/
structure State where
  /-- What has been read since the innermost open bracket. -/
  level : Level
  /-- The open brackets, innermost first, each with what was read before it. -/
  outer : List (Bracket × Level)
  /-- The last token closed a bracket. -/
  closed : Bool

namespace State

/-- Nothing has been read. -/
def initial : State := ⟨.empty, [], false⟩

/-- An item that is no bracket has been read. -/
def push (s : State) (item : Template) : State :=
  { s with level := s.level.push item, closed := false }

/-- A bracket has been opened. -/
def enter (s : State) (bracket : Bracket) : State :=
  ⟨.empty, (bracket, s.level) :: s.outer, false⟩

/-- A bracket has been closed: the innermost open one has to be of its kind. -/
def leave (s : State) (bracket : Bracket) (closing : Char) (wrap : Template → Template) :
    Except SyntaxFault State :=
  match s.outer with
  | [] => .error (.unbalanced closing)
  | (opened, level) :: outer =>
    if opened = bracket then .ok ⟨level.push (wrap s.level.template), outer, true⟩
    else .error (.unbalanced opened.opening)

/-- The last item is changed. -/
def mapLast? (s : State) (f : Template → Template) : Option State :=
  match s.level.items with
  | [] => none
  | item :: items => some { s with level.items := f item :: items, closed := false }

/-- The value that a word gives to the closed bracket that it touches. -/
def substitution? (s : State) (lexeme : Lexeme) : Option String :=
  match lexeme with
  | ⟨.word text, true⟩ => if s.closed then Text.after? ":" text else none
  | _ => none

/-- One more token is read. -/
def step (s : State) (lexeme : Lexeme) : Except SyntaxFault State :=
  match lexeme.token with
  | .openGroup => .ok (s.enter .group)
  | .openOption => .ok (s.enter .option)
  | .closeGroup => s.leave .group ')' ofGroup
  | .closeOption => s.leave .option ']' optional
  | .bar => .ok { s with level := s.level.bar, closed := false }
  | .rule name => .ok (s.push (ruleRef (.ofText name)))
  | .slot name => .ok (s.push (slotRef name))
  | .tag tag =>
    match s.mapLast? (tagged · tag) with
    | some s => .ok s
    | none => .error (.danglingTag tag.slot)
  | .word text =>
    -- A word that gives a bracket its value is not an item.
    match (s.substitution? lexeme).bind fun value => s.mapLast? (substituted · value) with
    | some s => .ok s
    | none => return s.push (← ofWord text)

/-- The template that has been read, unless a bracket is open. -/
def finish (s : State) : Except SyntaxFault Template :=
  match s.outer with
  | [] => .ok s.level.template
  | (bracket, _) :: _ => .error (.unbalanced bracket.opening)

end State

/-- The template that some tokens make. -/
def ofLexemes (lexemes : List Lexeme) : Except SyntaxFault Template := do
  (← lexemes.foldlM State.step .initial).finish

end Parser

/-- The template that is written in a text. -/
def ofText (text : String) : Except SyntaxFault Template := do
  Parser.ofLexemes (← Token.scan false text.toList)

/-- The template that is written in a line of the part called `label`. -/
def ofLine (label : String) (line : Nat) (text : String) : Except Error Template :=
  (ofText text).mapError (.malformedLine label line)

end Template

end Phrasebook
