import Phrasebook.Json.Basic

/-!
# Writing JSON

Values are written without blanks. Quotes, backslashes and control characters are escaped, all
other characters stand for themselves.
-/

namespace Phrasebook

namespace Json

/-- The lower-case hexadecimal digits of a number below 65536, four of them. -/
def fourHexDigits (n : Nat) : List Char :=
  [n / 4096 % 16, n / 256 % 16, n / 16 % 16, n % 16].map Nat.digitChar

/-- A character of a string literal. -/
def escape (c : Char) : List Char :=
  if c = '"' then ['\\', '"']
  else if c = '\\' then ['\\', '\\']
  else if c = '\u0008' then ['\\', 'b']
  else if c = '\u000c' then ['\\', 'f']
  else if c = '\n' then ['\\', 'n']
  else if c = '\r' then ['\\', 'r']
  else if c = '\t' then ['\\', 't']
  else if c.toNat < 0x20 then '\\' :: 'u' :: fourHexDigits c.toNat
  else [c]

/-- A string literal. What names no text is half of a surrogate pair. -/
def literal : Option String → List Char
  | some text => '"' :: (text.toList.flatMap escape ++ ['"'])
  | none => '"' :: '\\' :: 'u' :: (fourHexDigits 0xD800 ++ ['"'])

/-- Texts with commas between them. -/
def separated : List (List Char) → List Char
  | [] => []
  | [text] => text
  | text :: texts => text ++ ',' :: separated texts

mutual

/-- The characters of a value. -/
def chars : Json → List Char
  | null => ['n', 'u', 'l', 'l']
  | bool true => ['t', 'r', 'u', 'e']
  | bool false => ['f', 'a', 'l', 's', 'e']
  | number n => n.chars
  | string text => literal text
  | array items => '[' :: (separated (charsOfItems items) ++ [']'])
  | object fields => '{' :: (separated (charsOfFields fields) ++ ['}'])

/-- The characters of each item. -/
def charsOfItems : List Json → List (List Char)
  | [] => []
  | item :: items => chars item :: charsOfItems items

/-- The characters of each field. -/
def charsOfFields : List (Option String × Json) → List (List Char)
  | [] => []
  | (name, value) :: fields => (literal name ++ ':' :: chars value) :: charsOfFields fields

end

/-- The text of a value. -/
def text (value : Json) : String := String.ofList value.chars

end Json

end Phrasebook
