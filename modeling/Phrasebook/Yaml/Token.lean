import Phrasebook.Yaml.Basic
import Phrasebook.Yaml.Scalar

/-!
# Tokens of YAML text

YAML text is cut into scalars, punctuation and the marks that indentation stands for: where a
block collection begins, and where it ends. Whether a scalar or a flow collection is the key of a
mapping is known only when the colon behind it is read, so the place of a possible key is
remembered and the marks are put there afterwards. Such a key is on one line and not too long.

A sequence may be a value of a mapping without being indented further. It then has a level of
its own in the same column, which ends at the next key of that column.

Anchors, tags, directives and block scalars are not part of what is read here.
-/

namespace Phrasebook

namespace Yaml

/-- A token of YAML text. -/
inductive Token
  /-- A document begins. -/
  | documentStart
  /-- A document ends. -/
  | documentEnd
  /-- A sequence in block style begins. -/
  | openSequence
  /-- A mapping in block style begins. -/
  | openMapping
  /-- The innermost collection in block style ends. -/
  | closeBlock
  /-- An item of a sequence in block style comes next. -/
  | entry
  /-- A key comes next. -/
  | key
  /-- The value of the last key comes next. -/
  | value
  /-- A sequence in flow style begins. -/
  | openItems
  /-- A sequence in flow style ends. -/
  | closeItems
  /-- A mapping in flow style begins. -/
  | openFields
  /-- A mapping in flow style ends. -/
  | closeFields
  /-- Another part of a collection in flow style may come. -/
  | comma
  /-- A scalar. -/
  | scalar (plain : Bool) (text : String)
  deriving Repr

/-- The kinds of collections in block style. -/
inductive LevelKind
  /-- A sequence that is indented further than what it is in. -/
  | sequence
  /-- A sequence in the column of the mapping that it is in. -/
  | alignedSequence
  /-- A mapping. -/
  | mapping
  deriving DecidableEq, Repr

/-- An open collection in block style. -/
structure Level where
  /-- The column of its items or keys. -/
  column : Nat
  /-- Its kind. -/
  kind : LevelKind

/-- What may turn out to be a key. -/
structure PossibleKey where
  /-- The number of tokens before it. -/
  place : Nat
  /-- Its position in the text. -/
  position : Position
  /-- It can be nothing else. -/
  required : Bool

/-- The tokens so far, and what is open. -/
structure Scanner where
  /-- The tokens in order. -/
  tokens : Array Token
  /-- The open collections in block style, innermost first. -/
  levels : List Level
  /-- For each open collection in flow style, innermost first, what it may be the key in. -/
  around : List (Option PossibleKey)
  /-- What may turn out to be a key at this level. -/
  possible : Option PossibleKey
  /-- A key may begin here. -/
  keyAllowed : Bool

namespace Scanner

/-- Nothing has been read. -/
def initial : Scanner := ⟨#[], [], [], none, true⟩

/-- Whether a collection in flow style is open. -/
def inFlow (s : Scanner) : Bool := !s.around.isEmpty

/-- One more token. -/
def emit (s : Scanner) (token : Token) : Scanner := { s with tokens := s.tokens.push token }

/-- A token that belongs before the tokens from a place on. -/
def insert (s : Scanner) (place : Nat) (token : Token) : Scanner :=
  { s with tokens := s.tokens.insertIdxIfInBounds place token }

/-- Ends the collections in block style that are indented further than a column. -/
def closeBeyond (s : Scanner) (column : Nat) : Scanner :=
  let closed := s.levels.takeWhile (column < ·.column)
  { s with
    tokens := s.tokens ++ Array.replicate closed.length .closeBlock
    levels := s.levels.drop closed.length }

/-- Ends every collection in block style. -/
def closeAll (s : Scanner) : Scanner :=
  { s with
    tokens := s.tokens ++ Array.replicate s.levels.length .closeBlock
    levels := [] }

/-- Ends the sequence that is in the column of a new key; its end belongs to a place. -/
def closeAligned (s : Scanner) (place column : Nat) : Scanner :=
  match s.levels with
  | ⟨c, .alignedSequence⟩ :: levels =>
    if c = column then { s.insert place .closeBlock with levels } else s
  | _ => s

/-- The mark of a collection's beginning. -/
def opening : LevelKind → Token
  | .sequence | .alignedSequence => .openSequence
  | .mapping => .openMapping

/-- Begins a collection at a place unless its column is that of the innermost one. -/
def openLevel (s : Scanner) (kind : LevelKind) (place column : Nat) : Scanner :=
  let isDeeper :=
    match s.levels with
    | [] => true
    | level :: _ => level.column < column
  if isDeeper then { s.insert place (opening kind) with levels := ⟨column, kind⟩ :: s.levels }
  else s

/-- The mark of a key in block style is put at a place; it begins a mapping where it is indented
further. -/
def openKey (s : Scanner) (place column : Nat) : Scanner :=
  (s.closeAligned place column).openLevel .mapping place column

/-- Begins a sequence for an item in a column, unless it is an item of the innermost one. -/
def openEntry (s : Scanner) (column : Nat) : Scanner :=
  match s.levels with
  | ⟨c, .mapping⟩ :: _ =>
    -- A hyphen in the column of the keys begins a sequence that is the value of the last key.
    if c = column then
      { s.emit .openSequence with levels := ⟨column, .alignedSequence⟩ :: s.levels }
    else s.openLevel .sequence s.tokens.size column
  | _ => s.openLevel .sequence s.tokens.size column

/-- What may have been a key is none. -/
def dropKey? (s : Scanner) : Option Scanner :=
  match s.possible with
  | some key => if key.required then none else some { s with possible := none }
  | none => some s

/-- The most bytes of a key that is marked by the colon behind it alone. -/
def maxKeyLength : Nat := 1024

/-- What may have been a key is none if the line has ended or it is too long. -/
def dropStaleKey? (s : Scanner) (p : Position) : Option Scanner :=
  match s.possible with
  | some key =>
    if key.position.line < p.line || key.position.offset + maxKeyLength < p.offset then s.dropKey?
    else some s
  | none => some s

/-- What begins at a position may be a key. -/
def saveKey? (s : Scanner) (p : Position) : Option Scanner :=
  if s.keyAllowed then do
    let s ← s.dropKey?
    -- In the column of the keys of a mapping nothing but a key can stand.
    let required :=
      match s.levels with
      | level :: _ => !s.inFlow && level.column = p.column
      | [] => false
    return { s with possible := some ⟨s.tokens.size, p, required⟩ }
  else some s

/-- The mark of a document. -/
def document? (s : Scanner) (token : Token) : Option Scanner := do
  return { (← s.closeAll.dropKey?).emit token with keyAllowed := false }

/-- The beginning of a collection in flow style. -/
def openFlow? (s : Scanner) (p : Position) (token : Token) : Option Scanner := do
  let s ← s.saveKey? p
  return { s.emit token with
    around := s.possible :: s.around
    possible := none
    keyAllowed := true }

/-- The end of a collection in flow style. -/
def closeFlow? (s : Scanner) (token : Token) : Option Scanner := do
  let s ← s.dropKey?
  let s := { s.emit token with keyAllowed := false }
  match s.around with
  | [] => return s
  | possible :: around => return { s with possible, around }

/-- The comma of flow style. -/
def comma? (s : Scanner) : Option Scanner := do
  return { (← s.dropKey?).emit .comma with keyAllowed := true }

/-- The hyphen before an item. -/
def entry? (s : Scanner) (p : Position) : Option Scanner :=
  if s.inFlow then some (s.emit .entry)
  else if s.keyAllowed then do
    return { (← (s.openEntry p.column).dropKey?).emit .entry with keyAllowed := true }
  else none

/-- The question mark before a key. -/
def key? (s : Scanner) (p : Position) : Option Scanner :=
  if s.inFlow then do
    return { (← s.dropKey?).emit .key with keyAllowed := false }
  else if s.keyAllowed then do
    return { (← (s.openKey s.tokens.size p.column).dropKey?).emit .key with keyAllowed := true }
  else none

/-- The colon before a value. -/
def value? (s : Scanner) (p : Position) : Option Scanner :=
  match s.possible with
  | some key =>
    -- The key was read before its colon, so its mark goes back to where it began, and the mark
    -- of a new mapping goes before that.
    let s := s.insert key.place .key
    let s := if s.inFlow then s else s.openKey key.place key.position.column
    some { s.emit .value with possible := none, keyAllowed := false }
  | none =>
    if s.inFlow then some { s.emit .value with keyAllowed := false }
    else if s.keyAllowed then
      some { (s.openKey s.tokens.size p.column).emit .value with keyAllowed := true }
    else none

/-- A scalar that begins at a position. -/
def scalar? (s : Scanner) (p : Position) (plain : Bool) (scanned : Scanned) : Option Scanner := do
  let s ← s.saveKey? p
  return { s.emit (.scalar plain (String.ofList scanned.text)) with
    keyAllowed := scanned.lineEnded }

/-- The column in which the further lines of a plain scalar have to begin at least. -/
def indent (s : Scanner) : Nat :=
  match s.levels with
  | [] => 0
  | level :: _ => level.column + 1

/-- Whether a plain scalar may begin with a character. -/
def startsPlain (s : Scanner) (c : Char) (cs : List Char) : Bool :=
  if c == '-' then !(cs.head?.any isSpace)
  else if c == '?' || c == ':' then !s.inFlow && !atBlank cs
  else !("[]\x7b\x7d,#&*!|>'\"%@`".toList.contains c) && !isSpace c

/-- Drops blanks, comments and line ends. A key may begin on a new line in block style; where it
may, tabs are no blanks. A byte order mark that begins a line is a blank, and takes a column. -/
def skipBlanks (inFlow keyAllowed inComment : Bool) (p : Position) :
    List Char → Bool × Cursor
  | [] => (keyAllowed, ⟨[], p⟩)
  | c :: cs =>
    if isBreak c then skipBlanks inFlow (keyAllowed || !inFlow) false (p.next c) cs
    else if inComment then skipBlanks inFlow keyAllowed true (p.next c) cs
    else if c == '#' then skipBlanks inFlow keyAllowed true (p.next c) cs
    else if c == ' ' || (c == '\t' && (inFlow || !keyAllowed)) || (c == '\ufeff' && p.column == 0)
    then skipBlanks inFlow keyAllowed false (p.next c) cs
    else (keyAllowed, ⟨c :: cs, p⟩)

/-- Reads the token that begins with a character. -/
def token? (s : Scanner) (p : Position) (c : Char) (cs : List Char) : Option (Scanner × Cursor) :=
  let behind : Cursor := ⟨cs, p.next c⟩
  if p.column == 0 && atDocumentMark (c :: cs) then do
    -- The mark of a document takes three characters.
    let token := if c == '-' then Token.documentStart else .documentEnd
    return (← s.document? token, ⟨cs.drop 2, ⟨p.line, 3, p.offset + 3⟩⟩)
  else if c == '[' then do return (← s.openFlow? p .openItems, behind)
  else if c == '\x7b' then do return (← s.openFlow? p .openFields, behind)
  else if c == ']' then do return (← s.closeFlow? .closeItems, behind)
  else if c == '\x7d' then do return (← s.closeFlow? .closeFields, behind)
  else if c == ',' then do return (← s.comma?, behind)
  else if c == '-' && atBlank cs then do return (← s.entry? p, behind)
  else if c == '?' && (s.inFlow || atBlank cs) then do return (← s.key? p, behind)
  else if c == ':' && (s.inFlow || atBlank cs) then do return (← s.value? p, behind)
  else if c == '\'' then do
    let scanned ← scanSingle [] .none (p.next c) cs
    return (← s.scalar? p false scanned, scanned.next)
  else if c == '"' then do
    let scanned ← scanDouble .literal [] .none (p.next c) cs
    return (← s.scalar? p false scanned, scanned.next)
  else if s.startsPlain c cs then do
    let scanned ← scanPlain ⟨s.inFlow, s.indent⟩ [] .none p (c :: cs)
    return (← s.scalar? p true scanned, scanned.next)
  else none

/-- Reads all tokens. Every token takes at least one character. -/
def run? (s : Scanner) (cursor : Cursor) : Option (Array Token) := do
  let (keyAllowed, next) := skipBlanks s.inFlow s.keyAllowed false cursor.position cursor.rest
  let s ← { s with keyAllowed }.dropStaleKey? next.position
  match next.rest with
  | [] => return (← s.closeAll.dropKey?).tokens
  | c :: cs =>
    -- In flow style indentation means nothing.
    let s := if s.inFlow then s else s.closeBeyond next.position.column
    let (s, next) ← s.token? next.position c cs
    if next.rest.length < cursor.rest.length then run? s next else none
termination_by cursor.rest.length

end Scanner

/-- Whether the character may occur in YAML text. -/
def isAllowed (c : Char) : Bool :=
  let n := c.toNat
  n == 0x09 || n == 0x0A || n == 0x0D || (0x20 ≤ n && n ≤ 0x7E) || n == 0x85 ||
    (0xA0 ≤ n && n ≤ 0xFFFD) || 0x10000 ≤ n

/-- The text with every end of a line in one form. -/
def unifyBreaks : List Char → List Char
  | [] => []
  | '\r' :: '\n' :: cs => '\n' :: unifyBreaks cs
  | c :: cs => (if c == '\r' || c == '\u0085' then '\n' else c) :: unifyBreaks cs

/-- The tokens of a text. -/
def Token.scan? (text : String) : Option (List Token) :=
  let cs := unifyBreaks text.toList
  if cs.all isAllowed then do
    return (← Scanner.run? .initial ⟨cs, ⟨0, 0, 0⟩⟩).toList
  else none

end Yaml

end Phrasebook
