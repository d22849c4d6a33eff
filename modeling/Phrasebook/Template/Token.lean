import Phrasebook.Error

/-!
# Tokens of template text

Template text is cut into brackets, bars, references, tags and words. Blanks only separate,
except that a token remembers whether it touches the one before it, and that what stands inside
angle brackets or braces is one token, trimmed at both ends.
-/

namespace Phrasebook

/-- A token of template text. -/
inductive Token
  | openGroup
  | closeGroup
  | openOption
  | closeOption
  | bar
  | rule (name : String)
  | slot (name : String)
  | tag (tag : Tag)
  | word (text : String)
  deriving DecidableEq, Repr

/-- A token together with whether it touches the token before it. -/
structure Lexeme where
  /-- The token. -/
  token : Token
  /-- There is no blank between this token and the one before it. -/
  touching : Bool
  deriving DecidableEq, Repr

namespace Token

/-- The characters that end a word besides blanks. -/
def isBracket (c : Char) : Bool :=
  c == '(' || c == ')' || c == '[' || c == ']' || c == '|' ||
    c == '<' || c == '>' || c == '{' || c == '}'

/-- The characters of which words are made. -/
def isWordChar (c : Char) : Bool :=
  !isBlank c && !isBracket c

/-- The token of a bracket that stands for itself. -/
def ofBracket? : Char → Option Token
  | '(' => some openGroup
  | ')' => some closeGroup
  | '[' => some openOption
  | ']' => some closeOption
  | '|' => some bar
  | _ => none

/-- The token of a run of word characters: a dollar sign makes it the name of a slot. -/
def ofWord (run : List Char) : Except SyntaxFault Token :=
  match run with
  | '$' :: [] => .error .emptySlot
  | '$' :: name => .ok (slot (String.ofList name))
  | _ => .ok (word (String.ofList run))

/-- The token of what stands between angle brackets. -/
def ofRuleBody (body : List Char) : Except SyntaxFault Token :=
  let body := Text.trimChars body
  if body.isEmpty || body.any isBlank then .error (.invalidRule (String.ofList body))
  else .ok (rule (String.ofList body))

/-- The token of what stands between braces. A colon separates the value from the name. -/
def ofTagBody (body : List Char) : Except SyntaxFault Token :=
  let body := Text.trimChars body
  let (name, value) :=
    -- Only the first colon separates.
    match Text.cutAt ':' body with
    | some (name, value) => (Text.trimChars name, some (String.ofList (Text.trimChars value)))
    | none => (body, none)
  if name.isEmpty || name.any isBlank then .error (.invalidTag (String.ofList body))
  else .ok (tag ⟨String.ofList name, value⟩)

theorem length_of_cutAt_eq_some {mark : Char} {cs before rest : List Char}
    (h : Text.cutAt mark cs = some (before, rest)) : rest.length < cs.length := by
  have := (Text.cutAt_eq_some_iff.1 h).1
  simp [this]
  omega

/-- The tokens of a text; `touching` tells whether the text begins right behind a token. -/
def scan (touching : Bool) : List Char → Except SyntaxFault (List Lexeme)
  | [] => .ok []
  | c :: cs =>
    if isBlank c then scan false cs
    else
      match ofBracket? c with
      | some token => do
        return ⟨token, touching⟩ :: (← scan true cs)
      | none =>
        if c = '<' then
          match h : Text.cutAt '>' cs with
          | none => .error (.unbalanced c)
          | some (body, rest) => do
            have := length_of_cutAt_eq_some h
            let token ← ofRuleBody body
            return ⟨token, touching⟩ :: (← scan true rest)
        else if c = '{' then
          match h : Text.cutAt '}' cs with
          | none => .error (.unbalanced c)
          | some (body, rest) => do
            have := length_of_cutAt_eq_some h
            let token ← ofTagBody body
            return ⟨token, touching⟩ :: (← scan true rest)
        else if c = '>' ∨ c = '}' then .error (.unbalanced c)
        else do
          -- A character that is none of the above begins a word.
          have := (cs.dropWhile_sublist isWordChar).length_le
          let token ← ofWord (c :: cs.takeWhile isWordChar)
          return ⟨token, touching⟩ :: (← scan true (cs.dropWhile isWordChar))
termination_by cs => cs.length
decreasing_by all_goals simp only [List.length_cons]; omega

end Token

end Phrasebook
