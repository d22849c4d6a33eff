import Phrasebook.Text.Basic

/-!
# Paths

A path is a text of names with slashes between them. Paths are put together and taken apart as
texts: nothing is looked up, so `..` stays as it is.
-/

namespace Phrasebook

namespace Path

/-- Whether the path begins at the root. -/
def isAbsolute (path : String) : Bool :=
  path.toList.head? = some '/'

/-- The path behind a directory. An absolute path stands for itself. -/
def join (directory path : String) : String :=
  if isAbsolute path then path
  else if directory.isEmpty || directory.toList.getLast? = some '/' then directory ++ path
  else directory ++ "/" ++ path

/-- The parts of a path between its slashes. -/
def parts (path : String) : List String :=
  (path.toList.splitOn '/').map String.ofList

/-- The path of some parts. -/
def ofParts (parts : List String) : String :=
  "/".intercalate parts

/-- Whether a part leads nowhere else. -/
def isIdle (part : String) : Bool := part == "" || part == "."

/-- Drops the last parts of a path, given backwards, while they lead nowhere else. The first part
of a path is kept. -/
def dropIdle : List String → List String
  | [] => []
  | [first] => [first]
  | part :: before => if isIdle part then dropIdle before else part :: before

/-- The parts of the directory of a path, both given backwards. -/
def parentParts (backwards : List String) : List String :=
  dropIdle (dropIdle backwards).tail

/-- The directory in which the path is, if the path names one; the root and the empty path are in
no directory. -/
def parent? (path : String) : Option String :=
  if dropIdle (parts path).reverse = [""] then none
  else
    match parentParts (parts path).reverse with
    | [""] => some "/"
    | backwards => some (ofParts backwards.reverse)

/-- The path with what follows its last point replaced. -/
def withExtension (extension path : String) : String :=
  String.ofList ((path.toList.reverse.dropWhile (· != '.')).reverse) ++ extension

end Path

end Phrasebook
