import Phrasebook.Text.Basic
import Phrasebook.Text.CaseTable

/-!
# Letter case

The words of templates and of inputs can be taken to one letter case before they meet. The
mapping is the full one of Unicode: a letter may become several (`ß` becomes `SS`), and a
capital sigma at the end of a word becomes `ς`.
-/

namespace Phrasebook

namespace CaseRun

/-- The image of a letter of the run. -/
def image? (run : CaseRun) (code : Nat) : Option Nat :=
  if run.first ≤ code ∧ code ≤ run.last ∧ (code - run.first) % run.step = 0 then
    some (code + run.shift).toNat
  else none

/-- The image of a letter under the first run that holds it. -/
def imageIn? (runs : Array CaseRun) (code : Nat) : Option Nat :=
  runs.findSome? (·.image? code)

end CaseRun

/-- Whether one of the ranges holds the character. -/
def isWithin (ranges : Array (Nat × Nat)) (c : Char) : Bool :=
  ranges.any fun (first, last) => first ≤ c.toNat && c.toNat ≤ last

/-- The lower case of a character on its own. -/
def lowerOf (c : Char) : List Char :=
  if c.toNat < 0x80 then [c.toLower]
  else if c = 'İ' then ['i', '\u0307']
  else [((CaseRun.imageIn? lowerRuns c.toNat).map Char.ofNat).getD c]

/-- The upper case of a character. -/
def upperOf (c : Char) : List Char :=
  if c.toNat < 0x80 then [c.toUpper]
  else
    match upperLists.find? (·.1 = c.toNat) with
    | some (_, codes) => codes.map Char.ofNat
    | none => [((CaseRun.imageIn? upperRuns c.toNat).map Char.ofNat).getD c]

/-- Whether the first character that case rules do not pass over is a letter with case. -/
def meetsCase (cs : List Char) : Bool :=
  match cs.dropWhile (isWithin caseIgnorable) with
  | [] => false
  | c :: _ => isWithin caseBearing c

/-- The lower case of the characters that follow `before`, which is given backwards. -/
def lowerFrom (before : List Char) : List Char → List Char
  | [] => []
  | c :: cs =>
    -- A sigma ends a word when a letter comes before it and none after it.
    let image :=
      if c = 'Σ' then [if meetsCase before && !meetsCase cs then 'ς' else 'σ'] else lowerOf c
    image ++ lowerFrom (c :: before) cs

/-- The lower case of a word. -/
def lowerCase (word : String) : String :=
  String.ofList (lowerFrom [] word.toList)

/-- The upper case of a word. -/
def upperCase (word : String) : String :=
  String.ofList (word.toList.flatMap upperOf)

/-- What is done to the letter case of words. -/
inductive Casing
  /-- Words stay as they are. -/
  | keep
  /-- Words become upper case. -/
  | upper
  /-- Words become lower case. -/
  | lower
  deriving DecidableEq, Repr, Inhabited

namespace Casing

/-- The word in the chosen case. -/
def apply : Casing → String → String
  | keep, word => word
  | upper, word => upperCase word
  | lower, word => lowerCase word

/-- The words of a text in the chosen case. -/
def tokenize (casing : Casing) (text : String) : List String :=
  (Text.words text).map casing.apply

end Casing

end Phrasebook
