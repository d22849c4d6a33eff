import Phrasebook.Template.Basic

/-!
# What can go wrong

Every failure of the library is a value of `Error` that says what went wrong; its wording is in
one place, `Error.message`. The kinds of failure follow the parts of the library: text that
cannot be read, references that cannot be resolved, output that is not nested properly,
examples that cannot be produced, and files.
-/

namespace Phrasebook

/-- What is wrong with a line of a grammar file or of a slot's value list. -/
inductive SyntaxFault
  /-- A bracket without its partner. -/
  | unbalanced (bracket : Char)
  /-- A dollar sign without a slot's name. -/
  | emptySlot
  /-- Angle brackets around something that is no rule's name. -/
  | invalidRule (body : String)
  /-- Braces around something that is no tag. -/
  | invalidTag (body : String)
  /-- A tag that follows nothing. -/
  | danglingTag (slot : String)
  /-- A word that matches nothing and reports nothing. -/
  | emptySubstitution
  /-- A word that could be taken for a marker. -/
  | reserved (word : String)
  /-- A section header whose name is no identifier. -/
  | invalidSectionName (header : String)
  /-- A second section of one name. -/
  | duplicateSection
  /-- A sentence before the first section header. -/
  | outsideSection
  /-- A rule without a template. -/
  | emptyRule (name : String)
  /-- A second rule of one name in a section. -/
  | duplicateRule (name : String)
  /-- A reference in a slot's value. -/
  | referenceInSlot
  deriving DecidableEq, Repr

/-- The fault in words. -/
def SyntaxFault.message : SyntaxFault → String
  | unbalanced bracket => "unbalanced '" ++ bracket.toString ++ "'"
  | emptySlot => "empty slot reference"
  | invalidRule body => "invalid rule reference <" ++ body ++ ">"
  | invalidTag body => "invalid tag \x7b" ++ body ++ "\x7d"
  | danglingTag slot => "tag \x7b" ++ slot ++ "\x7d has nothing to tag"
  | emptySubstitution => "empty substitution"
  | reserved word => "'" ++ word ++ "' uses the reserved prefix __"
  | invalidSectionName header => "invalid section name " ++ header
  | duplicateSection => "duplicate intent section"
  | outsideSection => "sentence outside of an [Intent] section"
  | emptyRule name => "rule " ++ name ++ " has an empty body"
  | duplicateRule name => "duplicate rule " ++ name
  | referenceInSlot => "slot values cannot reference rules or slots"

/-- What is wrong with the markers of a run, or with the runs as a whole. -/
inductive PathFault
  /-- An intent begins inside another scope, or after another intent. -/
  | intentInsideScope (name : String)
  /-- An intent ends that is not the innermost open scope. -/
  | intentNotOpen
  /-- An entity ends that is not the innermost open scope. -/
  | entityNotOpen
  /-- Scopes are open at the end. -/
  | leftOpen (count : Nat)
  /-- A state leads back to itself without consuming a word. -/
  | silentCycle (state : Nat)
  deriving DecidableEq, Repr

/-- The fault in words. -/
def PathFault.message : PathFault → String
  | intentInsideScope name => "intent " ++ name ++ " opened inside another scope"
  | intentNotOpen => "intent closed without a matching open"
  | entityNotOpen => "entity closed without a matching open"
  | leftOpen count => Nat.repr count ++ " scope(s) left open"
  | silentCycle state => "epsilon cycle through state " ++ Nat.repr state

/-- Why weights allow no choice. -/
inductive WeightFault
  /-- There is nothing to choose from. -/
  | noWeights
  /-- A weight is not a number or is negative. -/
  | invalidWeight
  /-- Every weight is zero. -/
  | allZero
  deriving DecidableEq, Repr

/-- The fault in words. -/
def WeightFault.message : WeightFault → String
  | noWeights => "No weights provided in distribution"
  | invalidWeight => "A weight is invalid in distribution"
  | allZero => "All weights are zero in distribution"

/-- The longest run that a sample may take, in arcs. -/
def maxRunLength : Nat := 10000

/-- Why examples cannot be produced. -/
inductive ExampleFault
  /-- There are infinitely many runs. -/
  | cyclic
  /-- There are more runs than were asked for. -/
  | tooMany (limit : Nat)
  /-- There is no run. -/
  | acceptsNothing
  /-- No way leads on from a state. -/
  | noChoice (state : Nat) (fault : WeightFault)
  /-- The walk does not end. -/
  | tooLong
  deriving DecidableEq, Repr

/-- The fault in words. -/
def ExampleFault.message : ExampleFault → String
  | cyclic => "cannot enumerate a cyclic automaton"
  | tooMany limit => "more than " ++ Nat.repr limit ++ " paths"
  | acceptsNothing => "automaton accepts nothing"
  | noChoice state fault => "no choice at state " ++ Nat.repr state ++ ": " ++ fault.message
  | tooLong => "sampled path exceeded " ++ Nat.repr maxRunLength ++ " arcs"

/-- Why an operation on a file is refused. -/
inductive FileFault
  /-- There is nothing under the name. -/
  | notFound
  /-- There is something under the name already. -/
  | alreadyExists
  /-- A part of the path is a file. -/
  | notDirectory
  /-- The name is that of a directory. -/
  | isDirectory
  /-- The path or a part of it is longer than it may be. -/
  | nameTooLong
  /-- The path contains a character that no name may contain. -/
  | nulInName
  /-- The content is not the encoding of a text. -/
  | notText
  /-- The system refuses for another reason, which it gives by number and in words. -/
  | system (number : Nat) (text : String)
  deriving DecidableEq, Repr

/-- The fault in words, with its number. -/
def FileFault.message : FileFault → String
  | notFound => "No such file or directory (os error 2)"
  | alreadyExists => "File exists (os error 17)"
  | notDirectory => "Not a directory (os error 20)"
  | isDirectory => "Is a directory (os error 21)"
  | nameTooLong => "File name too long (os error 36)"
  | nulInName => "file name contained an unexpected NUL byte"
  | notText => "stream did not contain valid UTF-8"
  | system number text => text ++ " (os error " ++ Nat.repr number ++ ")"

/-- What was being done to a file. -/
inductive FileAction
  | reading | readingSlot | opening | creating
  deriving DecidableEq, Repr

/-- The action in words. -/
def FileAction.message : FileAction → String
  | reading => "reading"
  | readingSlot => "reading slot"
  | opening => "opening"
  | creating => "creating"

/-- What is wrong with the text of an automaton. -/
inductive ArtifactFault
  /-- The text is not that of an automaton. -/
  | unreadable
  /-- The text could not be read at all. -/
  | file (fault : FileFault)
  /-- The start state is not among the states. -/
  | startOutOfRange (start count : Nat)
  /-- An arc leads to a state that is not among the states. -/
  | missingTarget (state target : Nat)
  deriving DecidableEq, Repr

/-- The fault in words. -/
def ArtifactFault.message : ArtifactFault → String
  | unreadable => "not an automaton"
  | file fault => fault.message
  | startOutOfRange start count =>
    "start state " ++ Nat.repr start ++ " out of range (" ++ Nat.repr count ++ " states)"
  | missingTarget state target =>
    "arc from state " ++ Nat.repr state ++ " targets missing state " ++ Nat.repr target

/-- What is wrong with a profile. -/
inductive ProfileFault
  /-- The file cannot be read. -/
  | unreadable (path : String) (fault : FileFault)
  /-- The text is not that of a profile. -/
  | malformed (path : String)
  deriving DecidableEq, Repr

/-- The fault in words. -/
def ProfileFault.message : ProfileFault → String
  | unreadable path fault => "reading " ++ path ++ ": " ++ fault.message
  | malformed path => "parsing " ++ path ++ ": not a profile"

/-- A failure of the library. -/
inductive Error
  /-- A line of an intent's section or of a slot's value list cannot be read. -/
  | malformedLine (label : String) (line : Nat) (fault : SyntaxFault)
  /-- A reference names nothing that is defined. -/
  | unresolved (reference : Reference) (intent : String)
  /-- Some nodes need each other; they are given by their texts in order. -/
  | cyclic (nodes : List String)
  /-- The output of a run is not nested properly. -/
  | malformedPath (fault : PathFault)
  /-- Examples cannot be produced. -/
  | exhausted (fault : ExampleFault)
  /-- An automaton that is needed has not been built. -/
  | missingArtifact (name : String)
  /-- An operation on a named file is refused. -/
  | file (action : FileAction) (path : String) (fault : FileFault)
  /-- An operation on some file is refused. -/
  | fileFault (fault : FileFault)
  /-- The text of an automaton cannot be read. -/
  | artifact (fault : ArtifactFault)
  /-- A profile cannot be read. -/
  | profile (fault : ProfileFault)
  /-- A state is named that the automaton does not have. -/
  | noSuchState (state : Nat)
  /-- An arc is named that the state does not have. -/
  | noSuchArc (state arc : Nat)
  /-- The weights of a choice have no finite total. -/
  | infiniteTotal (state : Nat)
  deriving DecidableEq, Repr

namespace Error

/-- The failure in words. -/
def message : Error → String
  | malformedLine label line fault =>
    "syntax error in [" ++ label ++ "] line " ++ Nat.repr line ++ ": " ++ fault.message
  | unresolved reference intent =>
    "unresolved reference " ++ reference.text ++ " in [" ++ intent ++ "]"
  | cyclic nodes => "cyclic dependency: " ++ " -> ".intercalate nodes
  | malformedPath fault => "malformed path: " ++ fault.message
  | exhausted fault => "path enumeration exhausted: " ++ fault.message
  | missingArtifact name => "missing compiled automaton for " ++ name
  | file action path fault =>
    "I/O error: " ++ action.message ++ " " ++ path ++ ": " ++ fault.message
  | fileFault fault => "I/O error: " ++ fault.message
  | artifact fault => "serialization error: " ++ fault.message
  | profile fault => "config error: " ++ fault.message
  | noSuchState state => "no state " ++ Nat.repr state
  | noSuchArc state arc => "no arc " ++ Nat.repr arc ++ " at state " ++ Nat.repr state
  | infiniteTotal state => "the weights at state " ++ Nat.repr state ++ " have no finite total"

end Error

end Phrasebook
