import Phrasebook.Error
import Phrasebook.Files.Path

/-!
# Files

What the library does with files is written against the class `Files`, whose operations either
succeed or report a `FileFault`. `Phrasebook.Files.Tree` gives the operations on a tree of files
that is an ordinary value; a program gives those of its surroundings.
-/

namespace Phrasebook

/-- Access to files. -/
class Files (m : Type → Type) where
  /-- The bytes of a file. -/
  read (path : String) : m (Except FileFault ByteArray)
  /-- Gives a file some bytes, whatever it had before. -/
  write (path : String) (bytes : ByteArray) : m (Except FileFault Unit)
  /-- Gives a file another name, in the stead of any file of that name. -/
  rename (source target : String) : m (Except FileFault Unit)
  /-- Removes a file. -/
  remove (path : String) : m (Except FileFault Unit)
  /-- Makes a directory in a directory. -/
  makeDirectory (path : String) : m (Except FileFault Unit)
  /-- The names in a directory. -/
  names (path : String) : m (Except FileFault (List String))
  /-- Whether the path leads to a file. -/
  isFile (path : String) : m Bool
  /-- Whether the path leads to a directory. -/
  isDirectory (path : String) : m Bool

namespace Files

variable {m : Type → Type} [Monad m] [Files m]

/-- An operation whose refusal is reported as an error. -/
def attempt {α : Type} (report : FileFault → Error) (operation : m (Except FileFault α)) :
    ExceptT Error m α :=
  ExceptT.mk (Except.mapError report <$> operation)

/-- Makes a file that has no bytes, whatever it had before. -/
def create (path : String) : m (Except FileFault Unit) := write path .empty

/-- The text that some bytes encode. -/
def decodeText (bytes : ByteArray) : Except FileFault String :=
  match String.fromUTF8? bytes with
  | some text => .ok text
  | none => .error .notText

/-- The text of a file. -/
def readText (path : String) : m (Except FileFault String) :=
  (·.bind decodeText) <$> read path

/-- Makes a directory unless it is there. -/
def ensureDirectory (path : String) : m (Except FileFault Unit) := do
  match ← makeDirectory path with
  | .ok () => return .ok ()
  | .error fault => if ← isDirectory path then return .ok () else return .error fault

/-- Makes a directory and those around it, which are given by their parts backwards. Only when a
directory cannot be made because the one around it is missing, the one around it is made
first. -/
def ensureParts : List String → m (Except FileFault Unit)
  | [] => return .ok ()
  | part :: around => do
    if Path.isIdle part then ensureParts around
    else
      let path := Path.ofParts (part :: around).reverse
      match ← ensureDirectory path with
      | .error .notFound =>
        -- The directory around this one is missing too.
        match ← ensureParts around with
        | .ok () => ensureDirectory path
        | .error fault => return .error fault
      | result => return result

/-- Makes a directory and those around it. -/
def ensureDirectories (path : String) : m (Except FileFault Unit) :=
  ensureParts (Path.parts path).reverse

end Files

end Phrasebook
