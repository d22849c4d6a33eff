import Phrasebook.CommandLine.Arguments
import Phrasebook.Compiler
import Phrasebook.Example.Sample
import Phrasebook.Files.Tree
import Phrasebook.Recognition.Fuzzy
import Phrasebook.Recognition.Record
import Phrasebook.Recognition.Strict

/-!
# Running commands

A run of the program ends with a code, the lines of its output and the lines of its error report.
Only recognition from the input goes on for as long as there are lines; until then it is a
`Session`, which answers one line at a time. An option replaces the setting of the profile.
-/

namespace Phrasebook

namespace CommandLine

/-- What commands need besides files. -/
class Surroundings (m : Type → Type) where
  /-- The time on a clock, in nanoseconds. -/
  clock : m Nat
  /-- A random seed. -/
  seed : m UInt64

/-- Where there is nothing but a tree of files, time stands still and nothing is random. -/
instance : Surroundings (StateM FileTree) where
  clock := pure 0
  seed := pure 0

/-- Why a command fails. -/
inductive Failure
  /-- It was given too little. -/
  | missingSource
  /-- The library refuses. -/
  | library (error : Error)
  /-- The library refuses while something is done, which is told in words. -/
  | during (action : String) (error : Error)
  /-- The list of words cannot be written. -/
  | unwritable (path : String) (fault : FileFault)
  deriving DecidableEq, Repr

/-- How a run ends. -/
structure Outcome where
  /-- The exit code. -/
  code : Nat
  /-- The lines of the output. -/
  output : List String
  /-- The lines of the error report. -/
  report : List String
  deriving DecidableEq, Repr

namespace Failure

/-- What failed in words, with what it was part of first. -/
def causes : Failure → List String
  | missingSource => ["--fst or --profile is required"]
  | library error => [error.message]
  | during action error => [action, error.message]
  | unwritable path fault => ["writing " ++ path, fault.message]

/-- Whether the failure is one of the program itself, which weights without a finite total
are. -/
def isCrash : Failure → Bool
  | library (.infiniteTotal _) | during _ (.infiniteTotal _) => true
  | _ => false

/-- The lines that report some failures, of which each was caused by the next. -/
def reportOf : List String → List String
  | [] => []
  | [message] => ["Error: " ++ message]
  | message :: causes =>
    ("Error: " ++ message) :: "" :: "Caused by:" :: causes.map fun cause => "    " ++ cause

/-- The end of a run that fails. -/
def outcome (failure : Failure) : Outcome :=
  ⟨if failure.isCrash then 101 else 1, [], reportOf failure.causes⟩

end Failure

/-- The name and version of the program. -/
def versionLine : String := "ig 0.1.0"

/-- Recognition of sentences one at a time. -/
structure Session where
  /-- What is done to the case of words. -/
  casing : Casing
  /-- Sentences are never taken for JSON. -/
  textInput : Bool
  /-- What is found in some words. -/
  recognize : List String → Recognition

variable {m : Type → Type} [Monad m] [Files m] [Surroundings m]

namespace Session

/-- The text of a line, and the fields around it when the line is a JSON object. -/
def inputOf (s : Session) (line : String) : String × List (String × Json) :=
  match if s.textInput then none else Json.normalized? line with
  | some (.object fields) =>
    let fields := fields.filterMap fun (name, value) => name.map fun name => (name, value)
    match fields.lookup "text" with
    | some (Json.string (some text)) => (text, fields)
    | _ => ("", fields)
  | _ => (line, [])

/-- The answer to a line, with the time that it takes; a blank line has none. -/
def answer (s : Session) (line : String) : m (Option String) := do
  let line := Text.trim line
  if line.isEmpty then return none
  else
    let (text, around) := s.inputOf line
    let before ← Surroundings.clock
    let found := s.recognize (s.casing.tokenize text)
    let after ← Surroundings.clock
    let seconds := Float.ofNat (after - before) / 1000000000
    return some (found.laidOver seconds around).text

/-- The answers to some lines. -/
def answers (s : Session) (lines : List String) : m (List String) :=
  lines.filterMapM s.answer

end Session

/-- An operation of the library. -/
def refuse {α : Type} (operation : ExceptT Error m α) : ExceptT Failure m α :=
  ExceptT.mk (Except.mapError .library <$> operation.run)

/-- An operation of the library that is told in words. -/
def during {α : Type} (action : String) (operation : ExceptT Error m α) : ExceptT Failure m α :=
  ExceptT.mk (Except.mapError (.during action) <$> operation.run)

/-- The path of the automaton of all intents: the option's, or else the one in the store of the
profile. -/
def sourcePath (profile : Option Profile) (given : Given) : Except Failure String :=
  match given.value? "fst", profile with
  | some path, _ => .ok path
  | none, some profile => .ok (Path.join profile.artifactsDirectory mergedFile)
  | none, none => .error .missingSource

/-- The automaton of all intents. -/
def loadSource (profile : Option Profile) (given : Given) : ExceptT Failure m Automaton := do
  let path ← sourcePath profile given
  during ("reading automaton " ++ path) (Automaton.load path)

/-- Compiles a grammar, keeps the automata and writes the list of words. -/
def runCompile (profile : Option Profile) (given : Given) : ExceptT Failure m (List String) := do
  let profile := profile.getD {}
  let sentences := (given.value? "sentences").getD profile.sentencesFile
  let slotsDirectory := (given.value? "slots").getD profile.slotsDirectory
  let out := (given.value? "out").getD profile.artifactsDirectory
  let casing := given.casing?.getD profile.training.casing
  let allowed := (given.set? "intent").or profile.intentWhitelist
  let grammar ← during ("loading " ++ sentences) (Grammar.load allowed sentences)
  let slots ← during ("loading slots from " ++ slotsDirectory) (Slots.load slotsDirectory)
  let store ← refuse (Store.open out)
  let compiled ← during "compiling grammar" do
    let (result, _) ← ((Compiler.new casing (some store)).compile grammar slots :
      m (Except Error Compiled × Compiler))
    result
  let path := Path.join out "vocab.txt"
  let words := compiled.merged.vocabulary.toList
  let text := String.join (words.map (· ++ "\n"))
  ExceptT.mk (Except.mapError (.unwritable path) <$> Files.write path text.toUTF8)
  return [store.mergedPath]

/-- Whether words may be left over: an option says so, or else the profile. -/
def usesFuzzy (profile : Option Profile) (given : Given) : Bool :=
  !given.has "strict" && (given.has "fuzzy" || profile.any (·.recognition.fuzzy))

/-- The stop words. -/
def stopWords (profile : Option Profile) (given : Given) : m WordSet :=
  match given.value? "stop-words", profile with
  | some path, _ => WordSet.load path
  | none, some profile => profile.stopWords
  | none, none => pure ∅

/-- What finds intents in words. -/
def recognizer (profile : Option Profile) (given : Given) (a : Automaton) :
    ExceptT Failure m (List String → Recognition) := do
  let filter := (given.set? "intent-filter").or (profile.bind Profile.intentFilter)
  if usesFuzzy profile given then
    let stopWords ← (stopWords profile given : m WordSet)
    let skipUnknown := given.has "skip-unknown" || profile.any (·.recognition.skipUnknown)
    let leniency : Leniency := { stopWords, known := some a.vocabulary, skipUnknown }
    let r ← during "preparing fuzzy recognizer"
      (ExceptT.mk (pure (FuzzyRecognizer.new a leniency filter)))
    return r.recognize
  else
    let dropUnknown := given.has "drop-unknown" || profile.any (·.recognition.dropUnknown)
    return (StrictRecognizer.new a dropUnknown filter).recognize

/-- Prepares the recognition of sentences. -/
def openSession (profile : Option Profile) (given : Given) : ExceptT Failure m Session := do
  let a ← loadSource profile given
  let casing := given.casing?.getD ((profile.map (·.training.casing)).getD .keep)
  return { casing, textInput := given.has "text-input", recognize := ← recognizer profile given a }

/-- How many examples are written unless a number is given. -/
def defaultNumber : Nat := 10

/-- The line of an example. -/
def exampleLine (given : Given) (e : Example) : String :=
  if given.has "iob" then e.taggedLine
  else if given.has "raw-symbols" then e.rawSymbols
  else e.intent.toJson.text

/-- Writes examples. -/
def runGenerate (profile : Option Profile) (given : Given) : ExceptT Failure m (List String) := do
  let a ← loadSource profile given
  let count := ((given.value? "number").bind number?).getD defaultNumber
  let seed ← match (given.value? "seed").bind number? with
    | some seed => pure seed.toUInt64
    | none => (Surroundings.seed : m UInt64)
  let examples ← during "generating examples"
    (ExceptT.mk (pure (Example.generate a count (Draws.ofSeed seed))))
  return examples.map (exampleLine given)

/-- Writes the words that can be recognized. -/
def runVocabulary (profile : Option Profile) (given : Given) :
    ExceptT Failure m (List String) := do
  return (← loadSource profile given).vocabulary.toList

/-- A run that has ended, or one that answers the lines of the input. -/
inductive Started
  /-- The run has ended. -/
  | finished (outcome : Outcome)
  /-- The run answers lines. -/
  | listening (session : Session)

/-- The output of a run that succeeds. -/
def Started.ofOutput (output : List String) : Started := .finished ⟨0, output, []⟩

/-- Starts a command. -/
def startCommand (profilePath : Option String) (command : Command) (given : Given) :
    ExceptT Failure m Started := do
  let profile ← profilePath.mapM fun path =>
    during ("loading profile " ++ path) (Profile.load path)
  match command with
  | .compile => Started.ofOutput <$> runCompile profile given
  | .generate => Started.ofOutput <$> runGenerate profile given
  | .vocabulary => Started.ofOutput <$> runVocabulary profile given
  | .recognize =>
    let session ← openSession profile given
    if given.words.isEmpty then return .listening session
    else return .ofOutput (← (session.answers given.words : m (List String)))

/-- Starts a run with some arguments. -/
def start (arguments : List String) : m Started := do
  match Request.ofArguments arguments with
  | .misused => return .finished ⟨2, [], ["error: the arguments cannot be understood"]⟩
  | .help => return .ofOutput []
  | .version => return .ofOutput [versionLine]
  | .run profile command given =>
    match ← (startCommand profile command given).run with
    | .ok started => return started
    | .error failure => return .finished failure.outcome

/-- A whole run with some arguments and the text of its input. -/
def run (arguments : List String) (input : String) : m Outcome := do
  match ← start arguments with
  | .finished outcome => return outcome
  | .listening session => return ⟨0, ← session.answers (Text.lines input), []⟩

end CommandLine

end Phrasebook
