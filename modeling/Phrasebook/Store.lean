import Phrasebook.Automaton.Artifact
import Phrasebook.Files.Basic

/-!
# Stores of automata

A store is a directory that keeps automata as texts: the automaton of each slot, rule and intent
in a file of its own, and the automaton of all intents in `intent.fst.json`. An automaton is
written to a file beside its own and then takes its place, so that no half-written automaton
is ever read.
-/

namespace Phrasebook

/-- A directory that keeps automata. -/
structure Store where
  /-- The path of the directory. -/
  directory : String
  deriving DecidableEq, Repr

/-- The name of the file with the automaton of all intents. -/
def mergedFile : String := "intent.fst.json"

/-- The automaton that is kept in the file of a path. -/
def Automaton.load {m : Type → Type} [Monad m] [Files m] (path : String) :
    ExceptT Error m Automaton := do
  let bytes ← Files.attempt
    (fun fault =>
      if fault = .isDirectory then .artifact (.file fault) else .file .opening path fault)
    (Files.read path)
  Automaton.ofBytes bytes

namespace Store

/-- The directory with the automata of slots, rules and intents. -/
def partsDirectory (store : Store) : String := Path.join store.directory "fsts"

/-- The file of a named automaton. -/
def pathFor (store : Store) (name : String) : String :=
  Path.join store.partsDirectory (name ++ ".fst.json")

/-- The file of the automaton of all intents. -/
def mergedPath (store : Store) : String := Path.join store.directory mergedFile

variable {m : Type → Type} [Monad m] [Files m]

/-- The store in a directory, which is made if it is not there. -/
def «open» (directory : String) : ExceptT Error m Store := do
  let store : Store := ⟨directory⟩
  Files.attempt (.file .creating directory) (Files.ensureDirectories store.partsDirectory)
  return store

/-- Whether a named automaton is kept. -/
def contains (store : Store) (name : String) : m Bool :=
  Files.isFile (store.pathFor name)

/-- Writes an automaton to a file. -/
def writeFile (path : String) (a : Automaton) : ExceptT Error m Unit := do
  -- The draft stands beside the file, so that taking its place is a single step.
  let draft := Path.withExtension "tmp" path
  Files.attempt (.file .creating draft) (Files.create draft)
  Files.attempt .fileFault (Files.write draft a.text.toUTF8)
  Files.attempt .fileFault (Files.rename draft path)

/-- Keeps a named automaton. -/
def write (store : Store) (name : String) (a : Automaton) : ExceptT Error m Unit :=
  writeFile (store.pathFor name) a

/-- Keeps the automaton of all intents. -/
def writeMerged (store : Store) (a : Automaton) : ExceptT Error m Unit :=
  writeFile store.mergedPath a

/-- The automaton of a file that has to be there. -/
def readFile (name path : String) : ExceptT Error m Automaton := do
  let found ← (Files.isFile path : m Bool)
  if found then Automaton.load path else throw (.missingArtifact name)

/-- A named automaton that is kept. -/
def read (store : Store) (name : String) : ExceptT Error m Automaton :=
  readFile name (store.pathFor name)

/-- The automaton of all intents that is kept. -/
def readMerged (store : Store) : ExceptT Error m Automaton :=
  readFile mergedFile store.mergedPath

/-- Forgets the automaton of all intents, if there is one. -/
def removeMerged (store : Store) : ExceptT Error m Unit :=
  Files.attempt .fileFault do
    match ← Files.remove store.mergedPath with
    | .error .notFound => return .ok ()
    | result => return result

end Store

end Phrasebook
