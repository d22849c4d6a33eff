import Phrasebook.Files.Basic
import Phrasebook.Text.Table

/-!
# Trees of files

A tree of files is a table of what stands under each path. A path is followed part by part: every
part but the last has to be a directory, a single point leads nowhere else, and two points lead
to the directory around. The directory at the top is always there and has the empty path.
-/

namespace Phrasebook

/-- What stands under a path. -/
inductive FileEntry
  /-- A file with its bytes. -/
  | file (bytes : ByteArray)
  /-- A directory. -/
  | directory

/-- What stands under each path. -/
abbrev FileTree := Table FileEntry

/-- Where a path leads. -/
inductive Location
  /-- To a directory, with the names that lead there from the top. -/
  | directory (names : List String)
  /-- To a file. -/
  | file (names : List String) (bytes : ByteArray)
  /-- To a place in a directory where nothing is; the path may ask for a directory. -/
  | vacant (names : List String) (asksForDirectory : Bool)

namespace FileTree

/-- The longest name, in bytes. -/
def maxNameSize : Nat := 255

/-- The longest path, in bytes. -/
def maxPathSize : Nat := 4095

/-- What some names lead to from the top. -/
def entry? (tree : FileTree) (names : List String) : Option FileEntry :=
  if names.isEmpty then some .directory else tree.find? (Path.ofParts names)

/-- Where the parts of a path lead from a directory. -/
def follow (tree : FileTree) (here : List String) : List String → Except FileFault Location
  | [] => .ok (.directory here)
  | part :: parts =>
    if Path.isIdle part then follow tree here parts
    else if part = ".." then follow tree here.dropLast parts
    else if maxNameSize < part.utf8ByteSize then .error .nameTooLong
    else
      let names := here ++ [part]
      match entry? tree names with
      | some .directory => follow tree names parts
      | some (.file bytes) =>
        if parts.isEmpty then .ok (.file names bytes) else .error .notDirectory
      | none =>
        -- Slashes behind a missing name ask for a directory; any other part needs one.
        if parts.all (· == "") then .ok (.vacant names !parts.isEmpty) else .error .notFound

/-- Where a path leads. Absolute paths do not lead into the tree; of them, only the root itself
leads anywhere, as to a directory. -/
def locate (tree : FileTree) (path : String) : Except FileFault Location :=
  if path.toList.contains '\x00' then .error .nulInName
  else if path.isEmpty then .error .notFound
  else if maxPathSize < path.utf8ByteSize then .error .nameTooLong
  else if Path.isAbsolute path then
    if (Path.parts path).all fun part => Path.isIdle part || part = ".." then .ok (.directory [])
    else .error .notFound
  else follow tree [] (Path.parts path)

/-- The bytes of a file. -/
def read (tree : FileTree) (path : String) : Except FileFault ByteArray :=
  match locate tree path with
  | .ok (.file _ bytes) => .ok bytes
  | .ok (.directory _) => .error .isDirectory
  | .ok (.vacant _ _) => .error .notFound
  | .error fault => .error fault

/-- Gives a file some bytes. -/
def write (tree : FileTree) (path : String) (bytes : ByteArray) : Except FileFault FileTree :=
  match locate tree path with
  | .ok (.file names _) | .ok (.vacant names false) =>
    .ok (Table.insert tree (Path.ofParts names) (.file bytes))
  | .ok (.directory _) | .ok (.vacant _ true) => .error .isDirectory
  | .error fault => .error fault

/-- Gives a file another name. -/
def rename (tree : FileTree) (source target : String) : Except FileFault FileTree :=
  match locate tree source with
  | .ok (.file names bytes) =>
    match locate tree target with
    | .ok (.file newNames _) | .ok (.vacant newNames false) =>
      let without := Table.erase tree (Path.ofParts names)
      .ok (Table.insert without (Path.ofParts newNames) (.file bytes))
    | .ok (.directory _) => .error .isDirectory
    | .ok (.vacant _ true) => .error .notDirectory
    | .error fault => .error fault
  | .ok (.directory _) => .error .isDirectory
  | .ok (.vacant _ _) => .error .notFound
  | .error fault => .error fault

/-- Removes a file. -/
def remove (tree : FileTree) (path : String) : Except FileFault FileTree :=
  match locate tree path with
  | .ok (.file names _) => .ok (Table.erase tree (Path.ofParts names))
  | .ok (.directory _) => .error .isDirectory
  | .ok (.vacant _ _) => .error .notFound
  | .error fault => .error fault

/-- Makes a directory. -/
def makeDirectory (tree : FileTree) (path : String) : Except FileFault FileTree :=
  match locate tree path with
  | .ok (.vacant names _) => .ok (Table.insert tree (Path.ofParts names) .directory)
  | .ok _ => .error .alreadyExists
  | .error fault => .error fault

/-- The names right below the directory of some names. -/
def namesBelow (tree : FileTree) (names : List String) : List String :=
  (Table.names tree).filterMap fun path =>
    let parts := Path.parts path
    if parts.dropLast = names then parts.getLast? else none

/-- The names in a directory. -/
def names (tree : FileTree) (path : String) : Except FileFault (List String) :=
  match locate tree path with
  | .ok (.directory names) => .ok (namesBelow tree names)
  | .ok (.file _ _) => .error .notDirectory
  | .ok (.vacant _ _) => .error .notFound
  | .error fault => .error fault

/-- Whether a path leads to a file. -/
def isFile (tree : FileTree) (path : String) : Bool :=
  match locate tree path with
  | .ok (.file _ _) => true
  | _ => false

/-- Whether a path leads to a directory. -/
def isDirectory (tree : FileTree) (path : String) : Bool :=
  match locate tree path with
  | .ok (.directory _) => true
  | _ => false

/-- The tree with the directories that some names lead through from a directory. -/
def addDirectories (tree : FileTree) (here : List String) : List String → FileTree
  | [] => tree
  | name :: names =>
    let path := here ++ [name]
    addDirectories (Table.insert tree (Path.ofParts path) .directory) path names

/-- The tree with an entry under some names, and with the directories that they lead through. -/
def place (tree : FileTree) (path : String) (entry : FileEntry) : FileTree :=
  Table.insert (addDirectories tree [] (Path.parts path).dropLast) path entry

/-- The paths of the files. -/
def filePaths (tree : FileTree) : List String :=
  tree.entries.filterMap fun (path, entry) =>
    match entry with
    | .file _ => some path
    | .directory => none

/-- An operation that changes the tree unless it is refused. -/
def change (operation : FileTree → Except FileFault FileTree) :
    StateM FileTree (Except FileFault Unit) :=
  fun tree =>
    match operation tree with
    | .ok tree => (.ok (), tree)
    | .error fault => (.error fault, tree)

instance : Files (StateM FileTree) where
  read path := fun tree => (read tree path, tree)
  write path bytes := change (write · path bytes)
  rename source target := change (rename · source target)
  remove path := change (remove · path)
  makeDirectory path := change (makeDirectory · path)
  names path := fun tree => (names tree path, tree)
  isFile path := fun tree => (isFile tree path, tree)
  isDirectory path := fun tree => (isDirectory tree path, tree)

end FileTree

end Phrasebook
