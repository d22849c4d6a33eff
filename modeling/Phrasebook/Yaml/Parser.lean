import Phrasebook.Yaml.Token

/-!
# Reading YAML

The tokens of a text are read from left to right with a stack of open collections. Where a key, a
value or an item may be left out, the next token shows that it was, and `Yaml.absent` takes its
place. `Yaml.ofText?` reads a text with at most one document.
-/

namespace Phrasebook

namespace Yaml

namespace Parser

/-- The kinds of mappings. -/
inductive Style
  /-- A mapping in block style. -/
  | block
  /-- A mapping in flow style. -/
  | flow
  /-- A single entry that is an item of a sequence in flow style. -/
  | pair
  deriving DecidableEq, Repr

/-- A collection that has been opened, with what it holds so far, last first, and what may come
next in it. -/
inductive Frame
  /-- A sequence in block style between its items. -/
  | items (items : List Yaml)
  /-- A sequence in block style whose next item comes. -/
  | item (items : List Yaml)
  /-- A sequence in flow style before an item, or at its end. -/
  | flowItem (items : List Yaml)
  /-- A sequence in flow style behind an item. -/
  | flowItems (items : List Yaml)
  /-- A mapping in block style between its entries. -/
  | entries (entries : List (Yaml × Yaml))
  /-- A mapping in flow style before an entry, or at its end. -/
  | flowEntry (entries : List (Yaml × Yaml))
  /-- A mapping in flow style behind an entry. -/
  | flowEntries (entries : List (Yaml × Yaml))
  /-- A mapping in flow style before a key that has no value. -/
  | loneKey (entries : List (Yaml × Yaml))
  /-- A mapping whose next key comes. -/
  | key (style : Style) (entries : List (Yaml × Yaml))
  /-- A mapping behind a key. -/
  | keyed (style : Style) (entries : List (Yaml × Yaml)) (key : Yaml)
  /-- A mapping whose next value comes. -/
  | value (style : Style) (entries : List (Yaml × Yaml)) (key : Yaml)

/-- How far the text has been read. -/
inductive Stage
  /-- No document has begun. -/
  | start
  /-- The document has begun, and its value may come. -/
  | document
  /-- The document's value is complete. -/
  | complete (value : Yaml)
  /-- The document has ended. -/
  | ended (value : Yaml)

/-- What has been read. -/
structure State where
  /-- The open collections, innermost first. -/
  frames : List Frame
  /-- What is around them. -/
  stage : Stage

namespace State

/-- Nothing has been read. -/
def initial : State := ⟨[], .start⟩

/-- The mapping behind one more entry; a pair is complete. -/
def addEntry (style : Style) (entries : List (Yaml × Yaml)) : Frame ⊕ Yaml :=
  match style with
  | .block => .inl (.entries entries)
  | .flow => .inl (.flowEntries entries)
  | .pair => .inr (mapping entries.reverse)

/-- A value is complete that is an item of a sequence or all there is. -/
def putItem? (v : Yaml) (s : State) : Option State :=
  match s.frames with
  | [] =>
    match s.stage with
    | .start | .document => some ⟨[], .complete v⟩
    | _ => none
  | .item items :: frames => some { s with frames := .items (v :: items) :: frames }
  | .flowItem items :: frames => some { s with frames := .flowItems (v :: items) :: frames }
  | _ => none

/-- A value is complete. -/
def put? (v : Yaml) (s : State) : Option State :=
  match s.frames with
  | .loneKey entries :: frames =>
    some { s with frames := .flowEntries ((v, absent) :: entries) :: frames }
  | .key style entries :: frames => some { s with frames := .keyed style entries v :: frames }
  | .value style entries key :: frames =>
    match addEntry style ((key, v) :: entries) with
    | .inl frame => some { s with frames := frame :: frames }
    | .inr pair => putItem? pair { s with frames }
  | _ => putItem? v s

/-- Whether a token shows that what may come has been left out. -/
def isLeftOut : Frame → Token → Bool
  | .item _, .entry | .item _, .closeBlock => true
  | .key .block _, .key | .key .block _, .value | .key .block _, .closeBlock => true
  | .key .flow _, .value | .key .flow _, .comma | .key .flow _, .closeFields => true
  | .keyed _ _ _, .value => false
  | .keyed _ _ _, _ => true
  | .value .block _ _, .key | .value .block _ _, .value | .value .block _ _, .closeBlock => true
  | .value .flow _ _, .comma | .value .flow _ _, .closeFields => true
  | .value .pair _ _, .comma | .value .pair _ _, .closeItems => true
  | _, _ => false

/-- What may come is left out if a token shows it. -/
def leaveOut? (token : Token) (s : State) : Option State :=
  match s.frames with
  | frame :: frames =>
    if isLeftOut frame token then
      match frame with
      | .keyed style entries key =>
        -- A key without the mark of a value has an absent value.
        put? absent { s with frames := .value style entries key :: frames }
      | _ => put? absent s
    else some s
  | [] => some s

/-- A value begins. -/
def open? (token : Token) (s : State) : Option State :=
  match token with
  | .scalar plain text => put? (scalar plain text) s
  | .openSequence => some { s with frames := .items [] :: s.frames }
  | .openMapping => some { s with frames := .entries [] :: s.frames }
  | .openItems => some { s with frames := .flowItem [] :: s.frames }
  | .openFields => some { s with frames := .flowEntry [] :: s.frames }
  | _ => none

/-- A token is read where no collection is open. -/
def outside? (token : Token) (s : State) : Option State :=
  match s.stage, token with
  | .start, .documentStart => some { s with stage := .document }
  | .start, _ => open? token s
  | .document, .documentStart => none
  | .document, .documentEnd => some { s with stage := .ended absent }
  | .document, _ => open? token s
  | .complete v, .documentEnd | .ended v, .documentEnd => some { s with stage := .ended v }
  | _, _ => none

/-- A token is read when nothing is left out before it. -/
def read? (token : Token) (s : State) : Option State :=
  match s.frames with
  | [] => outside? token s
  | frame :: frames =>
    let become (frame : Frame) : Option State := some { s with frames := frame :: frames }
    let close (v : Yaml) : Option State := put? v { s with frames }
    match frame, token with
    | .items items, .entry => become (.item items)
    | .items items, .closeBlock => close (sequence items.reverse)
    | .items _, _ => none
    | .flowItem items, .closeItems | .flowItems items, .closeItems =>
      close (sequence items.reverse)
    | .flowItem items, .key => some { s with frames := .key .pair [] :: .flowItem items :: frames }
    | .flowItems items, .comma => become (.flowItem items)
    | .flowItems _, _ => none
    | .entries entries, .key => become (.key .block entries)
    | .entries entries, .closeBlock => close (mapping entries.reverse)
    | .entries _, _ => none
    | .flowEntry entries, .closeFields | .flowEntries entries, .closeFields =>
      close (mapping entries.reverse)
    | .flowEntry entries, .key => become (.key .flow entries)
    | .flowEntry entries, _ => open? token { s with frames := .loneKey entries :: frames }
    | .flowEntries entries, .comma => become (.flowEntry entries)
    | .flowEntries _, _ => none
    -- Where a pair has no key, the token that shows it is taken for the key.
    | .key .pair entries, .value | .key .pair entries, .comma | .key .pair entries, .closeItems =>
      become (.keyed .pair entries absent)
    | .keyed style entries key, .value => become (.value style entries key)
    | .keyed _ _ _, _ => none
    | _, _ => open? token s

/-- One more token is read. At most a key and its value are left out before it. -/
def step? (s : State) (token : Token) : Option State := do
  -- When a key has been left out, the same token shows that its value has been left out too.
  read? token (← leaveOut? token (← leaveOut? token s))

/-- The value that has been read. A text without a document says nothing. -/
def result? (s : State) : Option Yaml :=
  match s.frames, s.stage with
  | [], .start | [], .document => some absent
  | [], .complete v | [], .ended v => some v
  | _, _ => none

end State

/-- The value that some tokens make. -/
def ofTokens? (tokens : List Token) : Option Yaml := do
  (← tokens.foldlM State.step? .initial).result?

end Parser

/-- The value that is written in a text. -/
def ofText? (text : String) : Option Yaml := do
  Parser.ofTokens? (← Token.scan? text)

end Yaml

end Phrasebook
