import Phrasebook.Text.Basic

/-!
# YAML scalars

A scalar may go over several lines. A line break inside it is read as a space, and of several
line breaks in a row the first is dropped; blanks around them are dropped too. A plain scalar ends
before a comment, before the mark of a value, and where a line is not indented enough; a quoted
one ends at its quote.
-/

namespace Phrasebook

namespace Yaml

/-- The characters that end a line. -/
def isBreak (c : Char) : Bool := c == '\n' || c == '\u2028' || c == '\u2029'

/-- The blanks within a line. -/
def isSpace (c : Char) : Bool := c == ' ' || c == '\t'

/-- Whether a blank, the end of the line or the end of the text comes next. -/
def atBlank : List Char → Bool
  | [] => true
  | c :: _ => isSpace c || isBreak c

/-- Whether the mark of a document's beginning or end comes next. -/
def atDocumentMark : List Char → Bool
  | '-' :: '-' :: '-' :: cs => atBlank cs
  | '.' :: '.' :: '.' :: cs => atBlank cs
  | _ => false

/-- The characters that separate values in flow style. -/
def isFlowMark (c : Char) : Bool := c == ',' || c == '[' || c == ']' || c == '\x7b' || c == '\x7d'

/-- A position in a text. -/
structure Position where
  /-- The number of lines before. -/
  line : Nat
  /-- The number of characters before on the line. -/
  column : Nat
  /-- The number of bytes before. -/
  offset : Nat
  deriving DecidableEq, Repr

/-- The position behind a character. -/
def Position.next (p : Position) (c : Char) : Position :=
  let offset := p.offset + c.utf8Size
  if isBreak c then ⟨p.line + 1, 0, offset⟩ else ⟨p.line, p.column + 1, offset⟩

/-- What is left to be read, and its position. -/
structure Cursor where
  /-- The characters that are left. -/
  rest : List Char
  /-- Where they begin. -/
  position : Position

/-- Blanks and line breaks inside a scalar, last first. -/
inductive Gap
  /-- Blanks within a line. -/
  | blanks (cs : List Char)
  /-- Line breaks, perhaps behind a first one that was escaped. -/
  | breaks (escaped : Bool) (cs : List Char)

namespace Gap

/-- Nothing. -/
def none : Gap := blanks []

/-- Whether there is nothing. -/
def isEmpty : Gap → Bool
  | blanks cs => cs.isEmpty
  | breaks _ _ => false

/-- Whether a line has ended. -/
def hasBreaks : Gap → Bool
  | blanks _ => false
  | breaks _ _ => true

/-- One more blank or line break. Blanks at the ends of lines are dropped. -/
def push (gap : Gap) (c : Char) : Gap :=
  match gap with
  | blanks cs => if isBreak c then breaks false [c] else blanks (c :: cs)
  | breaks escaped cs => if isBreak c then breaks escaped (c :: cs) else gap

/-- What line breaks are read as. -/
def fold : List Char → List Char
  | ['\n'] => [' ']
  | '\n' :: cs => cs
  | cs => cs

/-- What the gap is read as. -/
def chars : Gap → List Char
  | blanks cs => cs.reverse
  | breaks true cs => cs.reverse
  | breaks false cs => fold cs.reverse

/-- Characters, last first, with the gap behind them. -/
def addTo (gap : Gap) (text : List Char) : List Char := gap.chars.reverse ++ text

end Gap

/-- A scalar that has been read. -/
structure Scanned where
  /-- Its characters. -/
  text : List Char
  /-- A line ended behind it. -/
  lineEnded : Bool
  /-- What comes next. -/
  next : Cursor

/-- Where a plain scalar is read. -/
structure PlainContext where
  /-- It is part of a collection in flow style. -/
  inFlow : Bool
  /-- The least column of its further lines in block style. -/
  indent : Nat

/-- Whether a plain scalar has ended before a character. -/
def plainEnds (context : PlainContext) (gap : Gap) (p : Position) (c : Char) (cs : List Char) :
    Bool :=
  -- A further line that is not indented belongs to what is around the scalar.
  (gap.hasBreaks && !context.inFlow && p.column < context.indent) ||
    (p.column == 0 && atDocumentMark (c :: cs)) ||
    -- A comment begins only behind a blank, and a colon separates only before one.
    (c == '#' && !gap.isEmpty) ||
    (c == ':' && atBlank cs) ||
    (context.inFlow && isFlowMark c)

/-- Whether a colon stands before a mark of flow style, where it means nothing. -/
def isStrayColon (c : Char) (cs : List Char) : Bool :=
  match c, cs with
  | ':', next :: _ => isFlowMark next || next == '?'
  | _, _ => false

/-- A plain scalar; `text` is what has been read of it, last first. -/
def scanPlain (context : PlainContext) (text : List Char) (gap : Gap) (p : Position) :
    List Char → Option Scanned
  | [] => some ⟨text.reverse, gap.hasBreaks, ⟨[], p⟩⟩
  | c :: cs =>
    if isSpace c || isBreak c then
      -- Tabs do not indent.
      if gap.hasBreaks && c == '\t' && p.column < context.indent then none
      else scanPlain context text (gap.push c) (p.next c) cs
    else if plainEnds context gap p c cs then
      some ⟨text.reverse, gap.hasBreaks, ⟨c :: cs, p⟩⟩
    else if context.inFlow && isStrayColon c cs then none
    else scanPlain context (c :: gap.addTo text) .none (p.next c) cs

/-- The rest of a scalar in single quotes, in which two quotes stand for one. -/
def scanSingle (text : List Char) (gap : Gap) (p : Position) : List Char → Option Scanned
  | [] => none
  | '\'' :: '\'' :: cs => scanSingle ('\'' :: gap.addTo text) .none ((p.next '\'').next '\'') cs
  | '\'' :: cs => some ⟨(gap.addTo text).reverse, false, ⟨cs, p.next '\''⟩⟩
  | c :: cs =>
    if p.column == 0 && atDocumentMark (c :: cs) then none
    else if isSpace c || isBreak c then scanSingle text (gap.push c) (p.next c) cs
    else scanSingle (c :: gap.addTo text) .none (p.next c) cs

/-- The character that a letter stands for behind a backslash. -/
def unescape? : Char → Option Char
  | '0' => some '\x00'
  | 'a' => some '\x07'
  | 'b' => some '\x08'
  | 't' | '\t' => some '\t'
  | 'n' => some '\n'
  | 'v' => some '\x0b'
  | 'f' => some '\x0c'
  | 'r' => some '\r'
  | 'e' => some '\x1b'
  | ' ' => some ' '
  | '"' => some '"'
  | '/' => some '/'
  | '\\' => some '\\'
  | 'N' => some '\u0085'
  | '_' => some '\u00a0'
  | 'L' => some '\u2028'
  | 'P' => some '\u2029'
  | _ => none

/-- The number of hexadecimal digits that follow a letter behind a backslash. -/
def codeLength? : Char → Option Nat
  | 'x' => some 2
  | 'u' => some 4
  | 'U' => some 8
  | _ => none

/-- How the next character in double quotes is read. -/
inductive QuoteMode
  /-- As itself. -/
  | literal
  /-- As what follows a backslash. -/
  | escape
  /-- As one of `left` more digits of a character's number. -/
  | code (left value : Nat)

/-- The character of a number, if it is one. -/
def charOfCode? (value : Nat) : Option Char :=
  if value < 0xD800 ∨ (0xE000 ≤ value ∧ value < 0x110000) then some (Char.ofNat value) else none

/-- The rest of a scalar in double quotes. -/
def scanDouble (mode : QuoteMode) (text : List Char) (gap : Gap) (p : Position) :
    List Char → Option Scanned
  | [] => none
  | c :: cs =>
    match mode with
    | .literal =>
      if c == '"' then some ⟨(gap.addTo text).reverse, false, ⟨cs, p.next c⟩⟩
      else if c == '\\' then scanDouble .escape (gap.addTo text) .none (p.next c) cs
      else if p.column == 0 && atDocumentMark (c :: cs) then none
      else if isSpace c || isBreak c then scanDouble .literal text (gap.push c) (p.next c) cs
      else scanDouble .literal (c :: gap.addTo text) .none (p.next c) cs
    | .escape =>
      if isBreak c then scanDouble .literal text (.breaks true []) (p.next c) cs
      else
        match codeLength? c, unescape? c with
        | some left, _ => scanDouble (.code left 0) text gap (p.next c) cs
        | none, some char => scanDouble .literal (char :: text) gap (p.next c) cs
        | none, none => none
    | .code left value =>
      match Text.hexDigit? c with
      | none => none
      | some digit =>
        let value := 16 * value + digit
        if left ≤ 1 then
          match charOfCode? value with
          | some char => scanDouble .literal (char :: text) gap (p.next c) cs
          | none => none
        else scanDouble (.code (left - 1) value) text gap (p.next c) cs

end Yaml

end Phrasebook
