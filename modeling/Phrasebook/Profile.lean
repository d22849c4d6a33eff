import Phrasebook.Files.Sources
import Phrasebook.Text.Casing
import Phrasebook.Yaml.Parser

/-!
# Profiles

A profile is a YAML file with the settings for compiling and for recognition. What it does not
say has a default, and keys that it does not know are passed over. Paths in a profile are relative
to the directory of the profile.
-/

namespace Phrasebook

/-- The settings for compiling. -/
structure Training where
  /-- The path of the grammar. -/
  sentencesFile : String := "sentences.ini"
  /-- The path of the directory with the slots. -/
  slotsDirectory : String := "slots"
  /-- The path of the store. -/
  artifactsDirectory : String := "fsts"
  /-- What is done to the case of words. -/
  casing : Casing := .keep
  /-- The intents that are compiled; without any all are. -/
  intentWhitelist : List String := []
  deriving DecidableEq, Repr, Inhabited

/-- The settings for recognition. -/
structure RecognitionSettings where
  /-- Words may be left over. -/
  fuzzy : Bool := true
  /-- Words that the grammar does not know may be left over. -/
  skipUnknown : Bool := true
  /-- Words that the grammar does not know are dropped before words are matched exactly. -/
  dropUnknown : Bool := false
  /-- The path of the file with the stop words, if there is one. -/
  stopWordsFile : Option String := some "stop_words.txt"
  /-- The intents that are found; without any all are. -/
  intentFilter : List String := []
  deriving DecidableEq, Repr, Inhabited

/-- The settings for compiling and for recognition. -/
structure Profile where
  /-- The settings for compiling. -/
  training : Training := {}
  /-- The settings for recognition. -/
  recognition : RecognitionSettings := {}
  /-- The directory that paths are relative to. -/
  directory : String := ""
  deriving DecidableEq, Repr, Inhabited

/-- The casing of a name. -/
def Casing.ofName? : String → Option Casing
  | "ignore" => some .keep
  | "upper" => some .upper
  | "lower" => some .lower
  | _ => none

/-- The name of a casing. -/
def Casing.name : Casing → String
  | keep => "ignore"
  | upper => "upper"
  | lower => "lower"

namespace Profile

/-- The setting that the entries give to a name, or else its default. -/
def setting? {α : Type} (entries : List (String × Yaml)) (name : String) (default : α)
    (decode : Yaml → Option α) : Option α := do
  match ← Yaml.field? entries name with
  | none => return default
  | some value => decode value

/-- A text that may be left out. -/
def optionalText? (value : Yaml) : Option (Option String) :=
  if value.isNull then some none else value.text?.map some

/-- The texts of a sequence. -/
def texts? (value : Yaml) : Option (List String) := do
  (← value.items?).mapM Yaml.text?

/-- The settings for compiling that a value gives. -/
def training? (value : Yaml) : Option Training := do
  let entries ← value.entries?
  let default : Training := {}
  return {
    sentencesFile := ← setting? entries "sentences_file" default.sentencesFile Yaml.text?
    slotsDirectory := ← setting? entries "slots_dir" default.slotsDirectory Yaml.text?
    artifactsDirectory := ← setting? entries "artifacts_dir" default.artifactsDirectory Yaml.text?
    casing := ← setting? entries "word_casing" default.casing
      fun value => value.text?.bind Casing.ofName?
    intentWhitelist := ← setting? entries "intent_whitelist" default.intentWhitelist texts? }

/-- The settings for recognition that a value gives. -/
def recognition? (value : Yaml) : Option RecognitionSettings := do
  let entries ← value.entries?
  let default : RecognitionSettings := {}
  return {
    fuzzy := ← setting? entries "fuzzy" default.fuzzy Yaml.bool?
    skipUnknown := ← setting? entries "skip_unknown" default.skipUnknown Yaml.bool?
    dropUnknown := ← setting? entries "drop_unknown" default.dropUnknown Yaml.bool?
    stopWordsFile := ← setting? entries "stop_words_file" default.stopWordsFile optionalText?
    intentFilter := ← setting? entries "intent_filter" default.intentFilter texts? }

/-- The profile in a directory that a value gives. -/
def ofYaml? (directory : String) (value : Yaml) : Option Profile := do
  let entries ← value.entries?
  return {
    training := ← setting? entries "training" {} training?
    recognition := ← setting? entries "recognition" {} recognition?
    directory }

/-- A path that the profile gives, from where its directory's path begins. -/
def resolve (p : Profile) (path : String) : String := Path.join p.directory path

/-- The path of the grammar. -/
def sentencesFile (p : Profile) : String := p.resolve p.training.sentencesFile

/-- The path of the directory with the slots. -/
def slotsDirectory (p : Profile) : String := p.resolve p.training.slotsDirectory

/-- The path of the store. -/
def artifactsDirectory (p : Profile) : String := p.resolve p.training.artifactsDirectory

/-- The set of some names, if there are any. -/
def setUnlessEmpty (names : List String) : Option WordSet :=
  if names.isEmpty then none else some (.ofList names)

/-- The intents that are compiled, if not all are. -/
def intentWhitelist (p : Profile) : Option WordSet := setUnlessEmpty p.training.intentWhitelist

/-- The intents that are found, if not all are. -/
def intentFilter (p : Profile) : Option WordSet := setUnlessEmpty p.recognition.intentFilter

variable {m : Type → Type} [Monad m] [Files m]

/-- The stop words. -/
def stopWords (p : Profile) : m WordSet :=
  match p.recognition.stopWordsFile with
  | some path => WordSet.load (p.resolve path)
  | none => pure ∅

/-- The profile in a file. -/
def load (path : String) : ExceptT Error m Profile := do
  let text ← Files.attempt (fun fault => .profile (.unreadable path fault)) (Files.readText path)
  match (Yaml.ofText? text).bind (ofYaml? ((Path.parent? path).getD "")) with
  | some p => return p
  | none => throw (.profile (.malformed path))

end Profile

end Phrasebook
