import Phrasebook.Profile

/-!
# Arguments

The arguments of the program are options, the name of a command, the command's options, and
words. An option is written `--name`; one with a value is followed by it, in the next argument or
behind an equals sign. After `--` everything is a word. A value or a word that begins with a
hyphen can only be given behind an equals sign or after `--`.

The options of the program and those of a command are two *levels*, which are read by the same
rules.
-/

namespace Phrasebook

namespace CommandLine

/-- The values that an option takes. -/
inductive ValueKind
  /-- A path, which is not empty. -/
  | path
  /-- Any text. -/
  | text
  /-- A natural number of at most 64 bits. -/
  | number
  /-- The name of a casing. -/
  | casing
  deriving DecidableEq, Repr

/-- The number that digits write, perhaps behind a plus sign, in 64 bits. -/
def number? (text : String) : Option Nat :=
  let digits :=
    match text.toList with
    | '+' :: digits => digits
    | digits => digits
  if digits.isEmpty || !digits.all Char.isDigit then none
  else
    let n := digits.foldl (fun n d => 10 * n + (d.toNat - '0'.toNat)) 0
    if n < Nat.pow 2 64 then some n else none

/-- Whether a text is a value of a kind. -/
def ValueKind.accepts : ValueKind → String → Bool
  | path, value => !value.isEmpty
  | text, _ => true
  | number, value => (number? value).isSome
  | casing, value => (Casing.ofName? value).isSome

/-- What an option is. -/
inductive OptionKind
  /-- It is there or not. -/
  | flag
  /-- It has a value, and it may be repeated or not. -/
  | valued (kind : ValueKind) (isRepeatable : Bool)
  /-- It asks for the help. -/
  | help
  /-- It asks for the version. -/
  | version
  deriving DecidableEq, Repr

/-- What is understood on a level. -/
structure Level where
  /-- The options by name. -/
  options : List (String × OptionKind)
  /-- Whether words are taken. -/
  takesWords : Bool

/-- What was given on a level. -/
structure Given where
  /-- The options in order, with their values; flags have empty ones. -/
  options : List (String × String)
  /-- The words in order. -/
  words : List String

namespace Given

/-- Nothing was given. -/
def empty : Given := ⟨[], []⟩

/-- Whether an option was given. -/
def has (given : Given) (name : String) : Bool := given.options.any (·.1 = name)

/-- The values of an option. -/
def values (given : Given) (name : String) : List String :=
  (given.options.filter (·.1 = name)).map Prod.snd

/-- The value of an option. -/
def value? (given : Given) (name : String) : Option String := (given.values name).head?

/-- The casing that was given. -/
def casing? (given : Given) : Option Casing := (given.value? "casing").bind Casing.ofName?

/-- The set of the values of an option, if there are any. -/
def set? (given : Given) (name : String) : Option WordSet :=
  Profile.setUnlessEmpty (given.values name)

/-- One more option, with the value that it takes. -/
def addOption (given : Given) (name value : String) : Given :=
  { given with options := given.options ++ [(name, value)] }

/-- One more option with a value, unless the value is not accepted or the option was given
already and may not be repeated. -/
def addValue? (given : Given) (kind : ValueKind) (isRepeatable : Bool) (name value : String) :
    Option Given :=
  if kind.accepts value && (isRepeatable || !given.has name) then some (given.addOption name value)
  else none

/-- One more flag, unless it was given already. -/
def addFlag? (given : Given) (name : String) : Option Given :=
  if given.has name then none else some (given.addOption name "")

/-- Some more words, if words are taken. -/
def addWords? (given : Given) (level : Level) (words : List String) : Option Given :=
  if level.takesWords || words.isEmpty then some { given with words := given.words ++ words }
  else none

end Given

/-- What an argument looks like. -/
inductive Argument
  /-- Everything behind it is a word. -/
  | separator
  /-- An option, perhaps with its value. -/
  | long (name : String) (value : Option String)
  /-- One or more options of a letter each, of which this is the first. -/
  | short (letter : Char)
  /-- A word. -/
  | word (text : String)
  deriving DecidableEq, Repr

namespace Argument

/-- What an argument looks like. -/
def ofText (argument : String) : Argument :=
  match argument.toList with
  | ['-', '-'] => separator
  | '-' :: '-' :: text =>
    match Text.cutAt '=' text with
    | some (name, value) => long (String.ofList name) (some (String.ofList value))
    | none => long (String.ofList text) none
  | '-' :: letter :: _ => short letter
  | _ => word argument

/-- Whether an argument is a word by its looks. -/
def isWord (argument : String) : Bool :=
  match ofText argument with
  | word _ => true
  | _ => false

end Argument

/-- How the reading of a level ends. -/
inductive Ending
  /-- The arguments are used up. -/
  | done (given : Given)
  /-- A word comes that is not taken; it may be the name of a command. -/
  | command (given : Given) (name : String) (rest : List String)
  /-- The help is asked for. -/
  | help
  /-- The version is asked for. -/
  | version
  /-- The arguments cannot be understood. -/
  | misused

/-- What an option of one letter asks for. -/
def Level.readLetter (level : Level) : Char → Ending
  | 'h' => .help
  | 'V' => if (level.options.lookup "version").isSome then .version else .misused
  | _ => .misused

/-- Reads a level. -/
def Level.read (level : Level) (given : Given) : List String → Ending
  | [] => .done given
  | argument :: rest =>
    match Argument.ofText argument with
    | .separator =>
      match given.addWords? level rest with
      | some given => .done given
      | none => .misused
    | .short letter => level.readLetter letter
    | .word text =>
      match given.addWords? level [text] with
      | some given => level.read given rest
      | none => .command given text rest
    | .long name attached =>
      -- Flags take no value, and options that need one take it from the next argument only when
      -- that is a word.
      match level.options.lookup name, attached, rest with
      | some .help, none, _ => .help
      | some .version, none, _ => .version
      | some .flag, none, rest =>
        match given.addFlag? name with
        | some given => level.read given rest
        | none => .misused
      | some (.valued kind isRepeatable), some value, rest =>
        match given.addValue? kind isRepeatable name value with
        | some given => level.read given rest
        | none => .misused
      | some (.valued kind isRepeatable), none, value :: rest =>
        if Argument.isWord value then
          match given.addValue? kind isRepeatable name value with
          | some given => level.read given rest
          | none => .misused
        else .misused
      | _, _, _ => .misused

/-- The commands. -/
inductive Command
  /-- Compiles a grammar and keeps the automata. -/
  | compile
  /-- Recognizes intents in sentences. -/
  | recognize
  /-- Writes examples. -/
  | generate
  /-- Writes the words that can be recognized. -/
  | vocabulary
  deriving DecidableEq, Repr

namespace Command

/-- The command of a name. -/
def ofName? : String → Option Command
  | "compile" => some compile
  | "recognize" => some recognize
  | "generate" => some generate
  | "vocab" => some vocabulary
  | _ => none

/-- The options that are understood everywhere. -/
def commonOptions : List (String × OptionKind) :=
  [("profile", .valued .path false), ("help", .help)]

/-- The options of a command. -/
def options : Command → List (String × OptionKind)
  | compile =>
    [("sentences", .valued .path false), ("slots", .valued .path false),
      ("out", .valued .path false), ("casing", .valued .casing false),
      ("intent", .valued .text true)]
  | recognize =>
    [("fst", .valued .path false), ("fuzzy", .flag), ("strict", .flag),
      ("stop-words", .valued .path false), ("skip-unknown", .flag), ("drop-unknown", .flag),
      ("casing", .valued .casing false), ("intent-filter", .valued .text true),
      ("text-input", .flag)]
  | generate =>
    [("fst", .valued .path false), ("number", .valued .number false),
      ("seed", .valued .number false), ("iob", .flag), ("raw-symbols", .flag)]
  | vocabulary => [("fst", .valued .path false)]

/-- What is understood behind the name of a command. -/
def level (command : Command) : Level where
  options := commonOptions ++ command.options
  takesWords := command == recognize

/-- The flags of a command that exclude each other. -/
def rivals : Command → List (String × String)
  | recognize => [("strict", "fuzzy")]
  | generate => [("iob", "raw-symbols")]
  | _ => []

end Command

/-- What is understood before the name of a command. -/
def outerLevel : Level where
  options := ("version", .version) :: Command.commonOptions
  takesWords := false

/-- What the arguments ask for. -/
inductive Request
  /-- A command with the path of a profile, which behind the command's name replaces one before
  it. -/
  | run (profile : Option String) (command : Command) (given : Given)
  /-- The help. -/
  | help
  /-- The version. -/
  | version
  /-- The arguments cannot be understood. -/
  | misused

/-- What the arguments behind the name of a command ask for. -/
def Request.ofCommand (outer : Given) (command : Command) (arguments : List String) : Request :=
  match command.level.read .empty arguments with
  | .done given =>
    if command.rivals.any fun (a, b) => given.has a && given.has b then misused
    else run ((given.value? "profile").or (outer.value? "profile")) command given
  | .help => help
  | .version => version
  | .command _ _ _ | .misused => misused

/-- What the arguments ask for. -/
def Request.ofArguments (arguments : List String) : Request :=
  match outerLevel.read .empty arguments with
  | .command outer name rest =>
    match Command.ofName? name with
    | some command => ofCommand outer command rest
    | none => misused
  | .help => help
  | .version => version
  | .done _ | .misused => misused

end CommandLine

end Phrasebook
