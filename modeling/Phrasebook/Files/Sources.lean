import Phrasebook.Files.Basic
import Phrasebook.Slots

/-!
# Grammars, slots and words from files

A grammar is a file. Slots are the files of a directory, each named after its slot; files whose
names begin with a point are passed over, and so are directories. A set of words is a file with
a word on each line.
-/

namespace Phrasebook

variable {m : Type → Type} [Monad m] [Files m]

/-- The grammar in a file, restricted to some intents. -/
def Grammar.load (allowed : Option WordSet) (path : String) : ExceptT Error m Grammar := do
  let text ← Files.attempt (.file .reading path) (Files.readText path)
  Grammar.ofTextWith allowed text

namespace Slots

/-- The names of the files of a directory that give slots, in increasing order. -/
def fileNames (directory : String) : ExceptT Error m (List String) := do
  let names ← Files.attempt .fileFault (Files.names directory)
  let files ← names.filterM fun name => (Files.isFile (Path.join directory name) : m Bool)
  return (WordSet.ofList files).toList.filter (·.toList.head? != some '.')

/-- Defines the slot of a file. -/
def defineFromFile (directory : String) (slots : Slots) (name : String) :
    ExceptT Error m Slots := do
  let path := Path.join directory name
  let text ← Files.attempt (.file .readingSlot path) (Files.readText path)
  slots.define name (Text.lines text)

/-- The slots in a directory. Without a directory there are none. -/
def load (directory : String) : ExceptT Error m Slots := do
  let found ← (Files.isDirectory directory : m Bool)
  if found then (← fileNames directory).foldlM (defineFromFile directory) ∅ else return ∅

end Slots

namespace WordSet

/-- The words on the lines of a text. Blank lines and lines that begin with `#` give none. -/
def ofText (text : String) : WordSet :=
  .ofList (((Text.lines text).map Text.trim).filter fun line =>
    !line.isEmpty && line.toList.head? != some '#')

/-- The words in a file. A file that cannot be read gives none. -/
def load (path : String) : m WordSet := do
  match ← Files.readText path with
  | .ok text => return ofText text
  | .error _ => return ∅

end WordSet

end Phrasebook
