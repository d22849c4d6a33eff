import Phrasebook.CommandLine.Run

/-!
# The program

The program gives the commands their files, the clock and random seeds, and prints what they put
out. Everything that it prints is decided elsewhere.
-/

open Phrasebook CommandLine

namespace Phrasebook.Program

/-- The number and the words with which the system refuses. -/
def refusalOf : IO.Error → UInt32 × String
  | .alreadyExists _ code text | .otherError code text | .resourceBusy code text
  | .resourceVanished code text | .unsupportedOperation code text | .hardwareFault code text
  | .unsatisfiedConstraints code text | .illegalOperation code text | .protocolError code text
  | .timeExpired code text | .interrupted _ code text | .noFileOrDirectory _ code text
  | .invalidArgument _ code text | .permissionDenied _ code text
  | .resourceExhausted _ code text | .inappropriateType _ code text
  | .noSuchThing _ code text => (code, text)
  | .unexpectedEof => (0, "unexpected end of file")
  | .userError text => (0, text)

/-- The fault that a refusal of the system stands for. -/
def faultOf (e : IO.Error) : FileFault :=
  match refusalOf e with
  | (2, _) => .notFound
  | (17, _) => .alreadyExists
  | (20, _) => .notDirectory
  | (21, _) => .isDirectory
  | (36, _) => .nameTooLong
  | (code, text) => .system code.toNat text

/-- What an action gives, or the fault for which it is refused. -/
def attempt {α : Type} (action : IO α) : IO (Except FileFault α) := do
  match ← action.toBaseIO with
  | .ok value => return .ok value
  | .error e => return .error (faultOf e)

/-- Whether an action succeeds and finds that something holds. -/
def finds (action : IO Bool) : IO Bool := do
  match ← action.toBaseIO with
  | .ok found => return found
  | .error _ => return false

instance : Files IO where
  read path := attempt (IO.FS.readBinFile path)
  write path bytes := attempt (IO.FS.writeBinFile path bytes)
  rename source target := attempt (IO.FS.rename source target)
  remove path := attempt (IO.FS.removeFile path)
  makeDirectory path := attempt (IO.FS.createDir path)
  names path := attempt do
    return ((← (← IO.FS.realPath path).readDir).map (·.fileName)).toList
  isFile path := finds do
    return (← (← IO.FS.realPath path).metadata).type == .file
  isDirectory path := finds do
    return (← (← IO.FS.realPath path).metadata).type == .dir

instance : Surroundings IO where
  clock := IO.monoNanosNow
  seed := do
    return (← IO.getRandomBytes 8).foldl (fun seed byte => seed * 256 + byte.toUInt64) 0

/-- Prints some lines. -/
def printLines (lines : List String) : IO Unit :=
  lines.forM IO.println

/-- Answers the lines of the input. -/
partial def answerLines (session : Session) (input : IO.FS.Stream) : IO UInt32 := do
  match ← input.getLine.toBaseIO with
  | .error _ =>
    (Failure.reportOf [FileFault.notText.message]).forM IO.eprintln
    return 1
  | .ok line =>
    if line.isEmpty then return 0
    else
      printLines (← session.answer line).toList
      (← IO.getStdout).flush
      answerLines session input

end Phrasebook.Program

/-- Runs the program. -/
def main (arguments : List String) : IO UInt32 := do
  match ← CommandLine.start arguments with
  | .finished outcome =>
    Program.printLines outcome.output
    outcome.report.forM IO.eprintln
    return outcome.code.toUInt32
  | .listening session => Program.answerLines session (← IO.getStdin)
