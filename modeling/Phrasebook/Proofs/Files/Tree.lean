import Phrasebook.Files.Tree

/-!
# What changes of files leave as it was

Files are written, renamed and removed where there is a file or nothing, so directories stay what
they are, and paths lead where they led before. Every other file keeps its bytes.

* `Path.parts_join`: the parts of a path behind a directory.
* `FileTree.place?`: where a path leads, apart from what is there;
  `FileTree.SameDirectories.place?_eq`: this depends only on the directories.
* `FileTree.read_eq_ok_iff` and its like: the operations by the places of their paths.
* `FileTree.ChangedAt`: only the files of some paths have changed.
* `Path.Apart`: two paths never lead to one file; `Path.apart_join` and `Path.apart_join_below`:
  different names behind one directory, and names behind a directory in it.
-/

namespace Phrasebook

/-! ### Paths -/

namespace Path

/-- The parts of a directory's path, to which that of a name behind it is added. -/
def directoryParts (directory : String) : List String :=
  if directory.isEmpty || directory.toList.getLast? = some '/' then (parts directory).dropLast
  else parts directory

/-- A name that leads somewhere from a directory, to what is in the directory. -/
structure IsName (name : String) : Prop where
  /-- It is a single part of a path. -/
  slashless : '/' ∉ name.toList
  /-- It leads somewhere else. -/
  not_idle : isIdle name = false
  /-- It does not lead to the directory around. -/
  ne_around : name ≠ ".."

theorem isName_append {name ending : String} (hname : '/' ∉ name.toList)
    (hending : '/' ∉ ending.toList) (hlength : 2 < ending.length) : IsName (name ++ ending) := by
  have hne : ∀ short : String, short.length ≤ 2 → name ++ ending ≠ short := by
    rintro _ hshort rfl
    rw [String.length_append] at hshort
    omega
  refine ⟨?_, ?_, hne ".." (by decide)⟩
  · rw [String.toList_append, List.mem_append, not_or]
    exact ⟨hname, hending⟩
  · simp [isIdle, hne "" (by decide), hne "." (by decide)]

theorem parts_of_not_mem {name : String} (h : '/' ∉ name.toList) : parts name = [name] := by
  rw [parts, List.splitOn_eq_singleton h]
  simp

/-- A single part does not lead away from a directory. -/
theorem isAbsolute_eq_false {name : String} (h : '/' ∉ name.toList) : isAbsolute name = false := by
  rw [isAbsolute, decide_eq_false_iff_not]
  exact fun hhead => h (List.mem_of_mem_head? hhead)

theorem parts_append_append (before after : String) :
    parts (before ++ "/" ++ after) = parts before ++ parts after := by
  have hchars : (before ++ "/" ++ after).toList = before.toList ++ '/' :: after.toList := by simp
  rw [parts, hchars, List.splitOn_append_cons_self, List.map_append]
  rfl

/-- A path behind a directory has the parts of the directory and then its name. -/
theorem parts_join {directory name : String} (h : '/' ∉ name.toList) :
    parts (join directory name) = directoryParts directory ++ [name] := by
  rw [join, isAbsolute_eq_false h, directoryParts]
  simp only [Bool.false_eq_true, ↓reduceIte]
  split
  · next hends =>
    rw [Bool.or_eq_true, String.isEmpty_iff, decide_eq_true_iff] at hends
    rcases hends with rfl | hlast
    · rw [String.empty_append, parts_of_not_mem h]
      rfl
    · obtain ⟨before, hbefore⟩ := List.getLast?_eq_some_iff.1 hlast
      obtain rfl : directory = String.ofList before ++ "/" := by
        rw [← String.toList_inj, hbefore]
        simp
      have hparts := parts_append_append (String.ofList before) ""
      rw [String.append_empty] at hparts
      have hempty : parts "" = [""] := parts_of_not_mem (by simp)
      rw [parts_append_append, hparts, parts_of_not_mem h, hempty, List.dropLast_concat]
  · rw [parts_append_append, parts_of_not_mem h]

/-- The directory of a name in a directory has the name as its last part. -/
theorem directoryParts_join {directory name : String} (h : IsName name) :
    directoryParts (join directory name) = directoryParts directory ++ [name] := by
  have hparts := @parts_join directory name h.slashless
  have hlast : (parts (join directory name)).getLast? = some name := by rw [hparts]; simp
  rw [directoryParts, if_neg, hparts]
  intro hends
  -- Otherwise the last part would be empty.
  suffices hempty : (parts (join directory name)).getLast? = some "" by
    cases hempty.symm.trans hlast
    exact absurd h.not_idle (by decide)
  rw [Bool.or_eq_true, String.isEmpty_iff, decide_eq_true_iff] at hends
  rcases hends with heq | hslash
  · rw [heq]
    rfl
  · obtain ⟨before, hbefore⟩ := List.getLast?_eq_some_iff.1 hslash
    have heq : join directory name = String.ofList before ++ "/" ++ "" := by
      rw [← String.toList_inj, hbefore]
      simp
    have hempty : parts "" = [""] := parts_of_not_mem (by simp)
    rw [heq, parts_append_append, hempty, List.getLast?_concat]

/-- The full name of a name in a directory ends with it. -/
theorem ofParts_concat (names : List String) (name : String) :
    ofParts (names ++ [name]) = (if names = [] then "" else ofParts names ++ "/") ++ name := by
  split
  · next hnames =>
    subst hnames
    simp [ofParts]
  · next hnames =>
    rw [ofParts, ofParts, String.intercalate_append_of_ne_nil hnames (by simp),
      String.intercalate_singleton]

end Path

/-! ### Places -/

/-- Where a path may lead, apart from what is there. -/
inductive Place
  /-- To a directory, with the names that lead there from the top. -/
  | directory (names : List String)
  /-- To a place for a file, with its full name. -/
  | file (name : String)
  deriving DecidableEq

namespace Location

/-- The names that lead there from the top. -/
def names : Location → List String
  | directory names | file names _ | vacant names _ => names

/-- What it says of a tree is so. -/
def HoldsIn (tree : FileTree) : Location → Prop
  | directory _ => True
  | file names bytes => FileTree.entry? tree names = some (.file bytes)
  | vacant names _ => FileTree.entry? tree names = none

/-- The place that it is, unless it asks for a directory where nothing is. -/
def place? : Location → Option Place
  | directory names => some (.directory names)
  | file names _ | vacant names false => some (.file (Path.ofParts names))
  | vacant _ true => none

end Location

namespace FileTree

variable {tree before middle after : FileTree} {path source target name : String}
  {here parts names : List String} {bytes : ByteArray} {location : Location}

/-- The place that a path leads to. -/
def place? (tree : FileTree) (path : String) : Option Place :=
  (locate tree path).toOption.bind Location.place?

/-- What is where the parts of a path lead is in the tree. -/
theorem holdsIn_of_follow (h : follow tree here parts = .ok location) : location.HoldsIn tree := by
  induction parts generalizing here with
  | nil =>
    cases h
    trivial
  | cons part parts ih =>
    rw [follow] at h
    split at h
    · exact ih h
    · split at h
      · exact ih h
      · split at h
        · cases h
        · dsimp only at h
          split at h
          · exact ih h
          · next hentry =>
            split at h
            · cases h
              exact hentry
            · cases h
          · next hentry =>
            split at h
            · cases h
              exact hentry
            · cases h

/-- A path is followed from the top, unless it stays at the root. -/
theorem follow_of_locate (h : locate tree path = .ok location) :
    (∀ part ∈ Path.parts path, Path.isIdle part = true ∨ part = "..") ∧ location = .directory [] ∨
      follow tree [] (Path.parts path) = .ok location := by
  rw [locate] at h
  split at h
  · cases h
  · split at h
    · cases h
    · split at h
      · cases h
      · split at h
        · split at h
          · next hroot =>
            cases h
            exact .inl ⟨by simpa using hroot, rfl⟩
          · cases h
        · exact .inr h

theorem holdsIn_of_locate (h : locate tree path = .ok location) : location.HoldsIn tree := by
  rcases follow_of_locate h with ⟨-, rfl⟩ | h
  · trivial
  · exact holdsIn_of_follow h

/-- What names lead to is found under their full name, unless it is a directory. -/
theorem find?_of_ne_directory {entry : Option FileEntry} (h : entry? tree names = entry)
    (hentry : entry ≠ some .directory) : tree.find? (Path.ofParts names) = entry := by
  unfold entry? at h
  split at h
  · exact absurd h.symm hentry
  · exact h

theorem find?_of_locate_file (h : locate tree path = .ok (.file names bytes)) :
    tree.find? (Path.ofParts names) = some (.file bytes) :=
  find?_of_ne_directory (holdsIn_of_locate h) (by simp)

theorem find?_of_locate_vacant {asks : Bool} (h : locate tree path = .ok (.vacant names asks)) :
    tree.find? (Path.ofParts names) = none :=
  find?_of_ne_directory (holdsIn_of_locate h) (by simp)

/-! ### The operations -/

/-- A place for a file is where a file is, or where nothing is. -/
theorem place?_eq_file_iff : tree.place? path = some (.file name) ↔
    ∃ names, Path.ofParts names = name ∧ ((∃ bytes, locate tree path = .ok (.file names bytes)) ∨
      locate tree path = .ok (.vacant names false)) := by
  rw [place?]
  cases locate tree path with
  | error fault => simp [Except.toOption]
  | ok location =>
    cases location with
    | directory names => simp [Except.toOption, Location.place?]
    | file names bytes => simp [Except.toOption, Location.place?]
    | vacant names asks => cases asks <;> simp [Except.toOption, Location.place?]

/-- There is no directory at a place for a file. -/
theorem find?_ne_directory (h : tree.place? path = some (.file name)) :
    tree.find? name ≠ some .directory := by
  obtain ⟨names, rfl, ⟨bytes, h⟩ | h⟩ := place?_eq_file_iff.1 h
  · simp [find?_of_locate_file h]
  · simp [find?_of_locate_vacant h]

/-- A path leads to a file when there is one at its place. -/
theorem locate_eq_file_iff : (∃ names, Path.ofParts names = name ∧
    locate tree path = .ok (.file names bytes)) ↔
      tree.place? path = some (.file name) ∧ tree.find? name = some (.file bytes) := by
  constructor
  · rintro ⟨names, rfl, h⟩
    exact ⟨place?_eq_file_iff.2 ⟨names, rfl, .inl ⟨bytes, h⟩⟩, find?_of_locate_file h⟩
  · rintro ⟨hplace, hfind⟩
    obtain ⟨names, rfl, ⟨found, h⟩ | h⟩ := place?_eq_file_iff.1 hplace
    · cases (find?_of_locate_file h).symm.trans hfind
      exact ⟨names, rfl, h⟩
    · cases (find?_of_locate_vacant h).symm.trans hfind

/-- A file is read at its place. -/
theorem read_eq_ok_iff : tree.read path = .ok bytes ↔
    ∃ name, tree.place? path = some (.file name) ∧ tree.find? name = some (.file bytes) := by
  simp only [← locate_eq_file_iff]
  rw [exists_comm, read]
  cases locate tree path with
  | error fault => simp
  | ok location => cases location <;> simp

/-- A file is written at a place for one. -/
theorem write_eq_ok_iff : tree.write path bytes = .ok after ↔
    ∃ name, tree.place? path = some (.file name) ∧ tree.insert name (.file bytes) = after := by
  simp only [place?_eq_file_iff, write]
  cases locate tree path with
  | error fault => simp
  | ok location =>
    cases location with
    | directory names => simp
    | file names found => simp
    | vacant names asks => cases asks <;> simp

/-- A file is removed from its place. -/
theorem remove_eq_ok_iff : tree.remove path = .ok after ↔
    ∃ name bytes, (tree.place? path = some (.file name) ∧ tree.find? name = some (.file bytes)) ∧
      tree.erase name = after := by
  constructor
  · intro h
    rw [remove] at h
    split at h
    · next hlocate =>
      cases h
      exact ⟨_, _, locate_eq_file_iff.1 ⟨_, rfl, hlocate⟩, rfl⟩
    all_goals cases h
  · rintro ⟨name, bytes, hfile, rfl⟩
    obtain ⟨names, rfl, hlocate⟩ := locate_eq_file_iff.2 hfile
    rw [remove, hlocate]

/-- A file that gets another name goes from its place to that of the name. -/
theorem rename_eq_ok_iff : tree.rename source target = .ok after ↔
    ∃ old bytes, (tree.place? source = some (.file old) ∧ tree.find? old = some (.file bytes)) ∧
      ∃ new, tree.place? target = some (.file new) ∧
        (tree.erase old).insert new (.file bytes) = after := by
  constructor
  · intro h
    rw [rename] at h
    split at h
    · next hsource =>
      have hfile := locate_eq_file_iff.1 ⟨_, rfl, hsource⟩
      split at h
      · next htarget =>
        cases h
        exact ⟨_, _, hfile, _, place?_eq_file_iff.2 ⟨_, rfl, .inl ⟨_, htarget⟩⟩, rfl⟩
      · next htarget =>
        cases h
        exact ⟨_, _, hfile, _, place?_eq_file_iff.2 ⟨_, rfl, .inr htarget⟩, rfl⟩
      all_goals cases h
    all_goals cases h
  · rintro ⟨old, bytes, hfile, new, hnew, rfl⟩
    obtain ⟨names, rfl, hsource⟩ := locate_eq_file_iff.2 hfile
    obtain ⟨newNames, rfl, ⟨found, htarget⟩ | htarget⟩ := place?_eq_file_iff.1 hnew
    · simp only [rename, hsource, htarget]
    · simp only [rename, hsource, htarget]

theorem isFile_eq_true_iff : tree.isFile path = true ↔ ∃ bytes, tree.read path = .ok bytes := by
  rw [isFile, read]
  cases locate tree path with
  | error fault => simp
  | ok location => cases location <;> simp

theorem isDirectory_eq_true_iff :
    tree.isDirectory path = true ↔ ∃ names, tree.place? path = some (.directory names) := by
  rw [isDirectory, place?]
  cases locate tree path with
  | error fault => simp [Except.toOption]
  | ok location =>
    cases location with
    | directory names => simp [Except.toOption, Location.place?]
    | file names bytes => simp [Except.toOption, Location.place?]
    | vacant names asks => cases asks <;> simp [Except.toOption, Location.place?]

/-! ### Places depend only on directories -/

/-- The place that the parts of a path lead to from a directory. -/
def placeFrom? (tree : FileTree) (here parts : List String) : Option Place :=
  (follow tree here parts).toOption.bind Location.place?

/-- Whether some names lead to a directory from the top. -/
def hasDirectory (tree : FileTree) (names : List String) : Bool :=
  match entry? tree names with
  | some .directory => true
  | _ => false

theorem hasDirectory_iff : tree.hasDirectory names = true ↔
    entry? tree names = some .directory := by
  rw [hasDirectory]
  cases entry? tree names with
  | none => simp
  | some entry => cases entry <;> simp

/-- Of what is in the tree, only directories lead on. -/
theorem placeFrom?_cons (tree : FileTree) (here : List String) (part : String)
    (parts : List String) :
    tree.placeFrom? here (part :: parts) =
      if Path.isIdle part then tree.placeFrom? here parts
      else if part = ".." then tree.placeFrom? here.dropLast parts
      else if maxNameSize < part.utf8ByteSize then none
      else if tree.hasDirectory (here ++ [part]) then tree.placeFrom? (here ++ [part]) parts
      else if parts.isEmpty then some (.file (Path.ofParts (here ++ [part]))) else none := by
  rw [placeFrom?, follow, hasDirectory]
  split
  · rfl
  · split
    · rfl
    · split
      · rfl
      · -- Behind a file or a missing name, no part leads to a place for a file.
        dsimp only
        cases entry? tree (here ++ [part]) with
        | none => cases parts with
          | nil => rfl
          | cons next parts =>
            dsimp only
            split <;> rfl
        | some entry => cases entry with
          | directory => rfl
          | file bytes => cases parts <;> rfl

/-- The same full names are those of directories. -/
def SameDirectories (before after : FileTree) : Prop :=
  ∀ name, after.find? name = some .directory ↔ before.find? name = some .directory

namespace SameDirectories

theorem hasDirectory_eq (h : SameDirectories before after) (names : List String) :
    after.hasDirectory names = before.hasDirectory names := by
  rw [Bool.eq_iff_iff, hasDirectory_iff, hasDirectory_iff]
  unfold entry?
  split
  · exact Iff.rfl
  · exact h _

theorem placeFrom?_eq (h : SameDirectories before after) (here parts : List String) :
    after.placeFrom? here parts = before.placeFrom? here parts := by
  induction parts generalizing here with
  | nil => rfl
  | cons part parts ih => simp only [placeFrom?_cons, ih, h.hasDirectory_eq]

/-- Paths lead to the same places while directories stay what they are. -/
theorem place?_eq (h : SameDirectories before after) (path : String) :
    after.place? path = before.place? path := by
  rw [place?, place?, locate, locate]
  split
  · rfl
  · split
    · rfl
    · split
      · rfl
      · split
        · rfl
        · exact h.placeFrom?_eq [] _

end SameDirectories

/-- A file may come or go where no directory is. -/
theorem sameDirectories_insert (h : tree.find? name ≠ some .directory) (bytes : ByteArray) :
    SameDirectories tree (tree.insert name (.file bytes)) := by
  intro other
  rw [Table.find?_insert]
  split
  · next heq => simp [heq, h]
  · exact Iff.rfl

theorem sameDirectories_erase (h : tree.find? name ≠ some .directory) :
    SameDirectories tree (tree.erase name) := by
  intro other
  rw [Table.find?_erase]
  split
  · next heq => simp [heq, h]
  · exact Iff.rfl

/-! ### Changes -/

/-- Only the files of some paths have come, gone or changed. -/
structure ChangedAt (paths : List String) (before after : FileTree) : Prop where
  /-- Directories have stayed what they were. -/
  directories : SameDirectories before after
  /-- So has everything at other places. -/
  elsewhere : ∀ name, (∀ path ∈ paths, before.place? path ≠ some (.file name)) →
    after.find? name = before.find? name

namespace ChangedAt

variable {paths paths' : List String}

theorem refl (paths : List String) (tree : FileTree) : ChangedAt paths tree tree :=
  ⟨fun _ => Iff.rfl, fun _ _ => rfl⟩

theorem trans (h : ChangedAt paths before middle) (h' : ChangedAt paths middle after) :
    ChangedAt paths before after := by
  refine ⟨fun name => (h'.directories name).trans (h.directories name), fun name hname => ?_⟩
  rw [h'.elsewhere name, h.elsewhere name hname]
  intro path hpath
  rw [h.directories.place?_eq]
  exact hname path hpath

theorem mono (h : ChangedAt paths before after) (hsubset : paths ⊆ paths') :
    ChangedAt paths' before after :=
  ⟨h.directories, fun name hname => h.elsewhere name fun path hpath => hname path (hsubset hpath)⟩

theorem of_write (h : before.write path bytes = .ok after) : ChangedAt [path] before after := by
  obtain ⟨name, hplace, rfl⟩ := write_eq_ok_iff.1 h
  refine ⟨sameDirectories_insert (find?_ne_directory hplace) bytes, fun other hother => ?_⟩
  rw [Table.find?_insert, if_neg]
  rintro rfl
  exact hother path List.mem_cons_self hplace

theorem of_remove (h : before.remove path = .ok after) : ChangedAt [path] before after := by
  obtain ⟨name, bytes, ⟨hplace, -⟩, rfl⟩ := remove_eq_ok_iff.1 h
  refine ⟨sameDirectories_erase (find?_ne_directory hplace), fun other hother => ?_⟩
  rw [Table.find?_erase, if_neg]
  rintro rfl
  exact hother path List.mem_cons_self hplace

theorem of_rename (h : before.rename source target = .ok after) :
    ChangedAt [source, target] before after := by
  obtain ⟨old, bytes, ⟨hold, -⟩, new, hnew, rfl⟩ := rename_eq_ok_iff.1 h
  have herase := sameDirectories_erase (find?_ne_directory hold)
  -- That the old name is gone does not make a directory of the new one.
  have hinsert := @sameDirectories_insert (before.erase old) new
    (mt (herase new).1 (find?_ne_directory hnew)) bytes
  refine ⟨fun name => (hinsert name).trans (herase name), fun other hother => ?_⟩
  rw [Table.find?_insert, if_neg, Table.find?_erase, if_neg]
  · rintro rfl
    exact hother source List.mem_cons_self hold
  · rintro rfl
    exact hother target (by simp) hnew

/-- Paths still lead where they led. -/
theorem place?_eq (h : ChangedAt paths before after) (path : String) :
    after.place? path = before.place? path :=
  h.directories.place?_eq path

theorem isDirectory_eq (h : ChangedAt paths before after) (path : String) :
    after.isDirectory path = before.isDirectory path := by
  rw [Bool.eq_iff_iff, isDirectory_eq_true_iff, isDirectory_eq_true_iff, h.place?_eq]

end ChangedAt

/-- A file that has been written can be read. -/
theorem read_of_write (h : before.write path bytes = .ok after) : after.read path = .ok bytes := by
  have hchanged := ChangedAt.of_write h
  obtain ⟨name, hplace, rfl⟩ := write_eq_ok_iff.1 h
  refine read_eq_ok_iff.2 ⟨name, by rw [hchanged.place?_eq, hplace], ?_⟩
  rw [Table.find?_insert, if_pos rfl]

end FileTree

/-! ### Paths apart -/

/-- Two paths are different and never lead to the place of one file. -/
def Path.Apart (path other : String) : Prop :=
  path ≠ other ∧ ∀ (tree : FileTree) name, tree.place? path = some (.file name) →
    tree.place? other ≠ some (.file name)

theorem Path.Apart.symm {path other : String} (h : Path.Apart path other) :
    Path.Apart other path :=
  ⟨h.1.symm, fun tree name hother hpath => h.2 tree name hpath hother⟩

namespace FileTree

variable {tree before after : FileTree} {path name : String} {paths : List String}
  {bytes : ByteArray}

namespace ChangedAt

variable (h : ChangedAt paths before after) (hapart : ∀ changed ∈ paths, Path.Apart changed path)
include h hapart

/-- Other files keep their bytes, and none is new. -/
theorem read_iff : after.read path = .ok bytes ↔ before.read path = .ok bytes := by
  rw [read_eq_ok_iff, read_eq_ok_iff]
  refine exists_congr fun name => ?_
  rw [h.place?_eq]
  refine and_congr_right fun hplace => ?_
  rw [h.elsewhere name fun changed hchanged hname => (hapart changed hchanged).2 _ _ hname hplace]

theorem isFile_eq : after.isFile path = before.isFile path := by
  rw [Bool.eq_iff_iff, isFile_eq_true_iff, isFile_eq_true_iff]
  exact exists_congr fun bytes => h.read_iff hapart

end ChangedAt

/-- A path leads neither to a file nor to a directory. -/
def Absent (tree : FileTree) (path : String) : Prop :=
  tree.isFile path = false ∧ tree.isDirectory path = false

theorem ChangedAt.absent (h : ChangedAt paths before after)
    (hapart : ∀ changed ∈ paths, Path.Apart changed path) (habsent : before.Absent path) :
    after.Absent path := by
  rw [Absent, h.isFile_eq hapart, h.isDirectory_eq]
  exact habsent

/-- What has been removed is not there any more. -/
theorem absent_of_remove (h : before.remove path = .ok after) : after.Absent path := by
  have hchanged := ChangedAt.of_remove h
  obtain ⟨name, bytes, ⟨hplace, -⟩, rfl⟩ := remove_eq_ok_iff.1 h
  rw [Absent, Bool.eq_false_iff, Bool.eq_false_iff, Ne, Ne, isFile_eq_true_iff,
    isDirectory_eq_true_iff, hchanged.place?_eq, hplace]
  refine ⟨?_, by simp⟩
  rintro ⟨found, hread⟩
  obtain ⟨other, hother, hfind⟩ := read_eq_ok_iff.1 hread
  -- The path leads to the same place still, where there is no entry any more.
  rw [hchanged.place?_eq, hplace] at hother
  cases hother
  simp at hfind

theorem absent_of_remove_eq_notFound (h : tree.remove path = .error .notFound) :
    tree.Absent path := by
  rw [remove] at h
  rw [Absent, isFile, isDirectory]
  cases hlocate : locate tree path with
  | error fault => exact ⟨rfl, rfl⟩
  | ok location =>
    rw [hlocate] at h
    cases location with
    | directory names => cases h
    | file names bytes => cases h
    | vacant names asks => exact ⟨rfl, rfl⟩

/-! ### Names behind a directory -/

/-- A single name leads into a directory. -/
theorem names_of_follow_singleton {here : List String} {location : Location}
    (hname : Path.IsName name) (h : follow tree here [name] = .ok location) :
    location.names = here ++ [name] := by
  rw [follow, hname.not_idle, if_neg Bool.false_ne_true, if_neg hname.ne_around] at h
  split at h
  · cases h
  · dsimp only at h
    split at h
    · cases h
      rfl
    · cases h
      rfl
    · cases h
      rfl

/-- A last name leads into the directory that the parts before it lead to. -/
theorem follow_concat {here parts : List String} {location : Location} (hname : Path.IsName name)
    (h : follow tree here (parts ++ [name]) = .ok location) :
    ∃ names, follow tree here parts = .ok (.directory names) ∧
      location.names = names ++ [name] := by
  have hne : name ≠ "" := by
    rintro rfl
    exact absurd hname.not_idle (by decide)
  induction parts generalizing here with
  | nil => exact ⟨here, rfl, names_of_follow_singleton hname h⟩
  | cons part parts ih =>
    rw [List.cons_append, follow] at h
    rw [follow]
    split at h
    · next hidle => exact if_pos hidle ▸ ih h
    · next hidle =>
      rw [if_neg hidle]
      split at h
      · next haround => exact if_pos haround ▸ ih h
      · next haround =>
        rw [if_neg haround]
        split at h
        · cases h
        · next hlength =>
          rw [if_neg hlength]
          dsimp only at h ⊢
          split at h
          · exact ih h
          · rw [if_neg (by simp)] at h
            cases h
          · rw [if_neg (by simp [hne])] at h
            cases h

/-- A place for a file is found from the top. -/
theorem exists_follow_of_place? {full : String} (h : tree.place? path = some (.file full)) :
    ∃ location, follow tree [] (Path.parts path) = .ok location ∧
      full = Path.ofParts location.names := by
  obtain ⟨names, rfl, ⟨bytes, h⟩ | h⟩ := place?_eq_file_iff.1 h
  · rcases follow_of_locate h with ⟨-, hroot⟩ | hfollow
    · cases hroot
    · exact ⟨_, hfollow, rfl⟩
  · rcases follow_of_locate h with ⟨-, hroot⟩ | hfollow
    · cases hroot
    · exact ⟨_, hfollow, rfl⟩

/-- A place for a file behind a directory is in the directory. -/
theorem exists_of_place?_join {directory full : String} (hname : Path.IsName name)
    (h : tree.place? (Path.join directory name) = some (.file full)) :
    ∃ names, follow tree [] (Path.directoryParts directory) = .ok (.directory names) ∧
      full = Path.ofParts (names ++ [name]) := by
  obtain ⟨location, hfollow, rfl⟩ := exists_follow_of_place? h
  rw [Path.parts_join hname.slashless] at hfollow
  obtain ⟨around, haround, hnames⟩ := follow_concat hname hfollow
  exact ⟨around, haround, by rw [hnames]⟩

end FileTree

namespace Path

variable {directory name other below : String}

/-- Different names in a directory are apart. -/
theorem apart_join (hname : IsName name) (hother : IsName other) (hne : name ≠ other) :
    Apart (join directory name) (join directory other) := by
  refine ⟨fun heq => hne ?_, fun tree full hplace hplace' => hne ?_⟩
  · have hparts := congrArg parts heq
    rw [parts_join hname.slashless, parts_join hother.slashless] at hparts
    simpa using hparts
  · obtain ⟨names, hfollow, rfl⟩ := FileTree.exists_of_place?_join hname hplace
    obtain ⟨names', hfollow', hfull⟩ := FileTree.exists_of_place?_join hother hplace'
    cases hfollow.symm.trans hfollow'
    rw [ofParts_concat, ofParts_concat] at hfull
    exact String.toList_inj.1 (by simpa using congrArg String.toList hfull)

/-- A name in a directory below is apart from a name in the directory itself. -/
theorem apart_join_below (hbelow : IsName below) (hname : IsName name) (hother : IsName other) :
    Apart (join (join directory below) name) (join directory other) := by
  refine ⟨fun heq => ?_, fun tree full hplace hplace' => ?_⟩
  · have hparts := congrArg (List.length ∘ parts) heq
    simp only [Function.comp_apply, parts_join hname.slashless, parts_join hother.slashless,
      directoryParts_join hbelow, List.length_append, List.length_singleton] at hparts
    omega
  · obtain ⟨names, hfollow, rfl⟩ := FileTree.exists_of_place?_join hname hplace
    obtain ⟨names', hfollow', hfull⟩ := FileTree.exists_of_place?_join hother hplace'
    rw [directoryParts_join hbelow] at hfollow
    obtain ⟨around, haround, hnames⟩ := FileTree.follow_concat hbelow hfollow
    cases haround.symm.trans hfollow'
    obtain rfl : names = names' ++ [below] := hnames
    rw [ofParts_concat, if_neg (by simp), ofParts_concat, ofParts_concat] at hfull
    -- The other name would hold a slash.
    have hchars := congrArg String.toList hfull
    simp only [String.toList_append, List.append_assoc, List.append_cancel_left_eq] at hchars
    refine hother.slashless ?_
    rw [← hchars]
    simp

end Path

end Phrasebook
