import Phrasebook.Files.Sources
import Phrasebook.Profile
import Phrasebook.Proofs.Files.Keeping
import Phrasebook.Proofs.Grammar
import Phrasebook.Proofs.Text.Words

/-!
# What is read from files

A grammar, slots or a profile that is read from a disk is made of the texts of its files, and
reading changes no file. The names of slots are those of files in one directory, so they hold no
slash.

* `Path.slashless_of_mem_parts`: a part of a path holds no slash.
* `Grammar.exists_ofTextWith_of_load`: a grammar that is read is that of some text.
* `Slots.loaded_of_load`: slots that are read are defined one by one, under names without a slash.
* `Grammar.keepsFiles_load`, `Slots.keepsFiles_load`, `Profile.keepsFiles_load`: reading keeps every
  file.
-/

namespace Phrasebook

open Disk

/-- A part of a path holds no slash. -/
theorem Path.slashless_of_mem_parts {path part : String} (h : part ∈ parts path) :
    '/' ∉ part.toList := by
  obtain ⟨piece, hpiece, rfl⟩ := List.mem_map.1 h
  rw [List.splitOn_eq_splitOnP] at hpiece
  rw [String.toList_ofList]
  exact fun hmem => absurd (Text.not_of_mem_splitOnP hpiece _ hmem) (by decide)

namespace Disk

variable {α : Type}

theorem keepsFiles_attempt (report : FileFault → Error)
    {operation : StateM Disk (Except FileFault α)} (h : KeepsFiles operation) :
    KeepsFiles (Files.attempt report operation).run :=
  h.map _

theorem keepsFiles_readText (path : String) :
    KeepsFiles (Files.readText path : StateM Disk (Except FileFault String)) :=
  KeepsFiles.map (.of_look fun disk => disk.tree.read path) _

end Disk

/-! ### Grammars and profiles -/

theorem Grammar.keepsFiles_load (allowed : Option WordSet) (path : String) :
    KeepsFiles (Grammar.load allowed path : ExceptT Error (StateM Disk) Grammar).run :=
  (keepsFiles_attempt _ (keepsFiles_readText path)).run_bind fun _ => .of_settled _

/-- A grammar that is read is that of some text. -/
theorem Grammar.exists_ofTextWith_of_load {allowed : Option WordSet} {path : String}
    {grammar : Grammar} {disk after : Disk}
    (h : perform (Grammar.load allowed path).run disk = (.ok grammar, after)) :
    ∃ text, Grammar.ofTextWith allowed text = .ok grammar := by
  obtain ⟨text, middle, -, hgrammar⟩ := perform_run_bind_eq_ok_iff.1 h
  exact ⟨text, congrArg Prod.fst hgrammar⟩

theorem Profile.keepsFiles_load (path : String) :
    KeepsFiles (Profile.load path : ExceptT Error (StateM Disk) Profile).run := by
  refine (keepsFiles_attempt _ (keepsFiles_readText path)).run_bind fun text => ?_
  split
  · exact .of_pure _
  · exact .of_settled (.error _)

/-! ### Slots -/

namespace Slots

variable {directory : String} {slots : Slots} {names : List String} {disk after : Disk}

theorem keepsFiles_fileNames (directory : String) :
    KeepsFiles (fileNames directory : ExceptT Error (StateM Disk) (List String)).run := by
  refine (keepsFiles_attempt _ (.of_look _)).run_bind fun names => ?_
  exact (KeepsFiles.filterM names fun name => .of_look _).run_bind fun files => .of_pure _

theorem keepsFiles_defineFromFile (directory : String) (slots : Slots) (name : String) :
    KeepsFiles (defineFromFile directory slots name : ExceptT Error (StateM Disk) Slots).run :=
  (keepsFiles_attempt _ (keepsFiles_readText _)).run_bind fun _ => .of_settled _

theorem keepsFiles_load (directory : String) :
    KeepsFiles (Slots.load directory : ExceptT Error (StateM Disk) Slots).run := by
  refine KeepsFiles.run_bind (.of_look _) fun found => ?_
  split
  · refine (keepsFiles_fileNames directory).run_bind fun names => ?_
    exact .foldlM fun slots name => keepsFiles_defineFromFile directory slots name
  · exact .of_pure _

/-- The names in a directory hold no slash. -/
theorem slashless_of_names {tree : FileTree} (h : tree.names directory = .ok names) :
    ∀ name ∈ names, '/' ∉ name.toList := by
  intro name hname
  rw [FileTree.names] at h
  split at h
  · next around _ =>
    cases h
    obtain ⟨path, -, hlast⟩ := List.mem_filterMap.1 hname
    dsimp only at hlast
    split at hlast
    · exact Path.slashless_of_mem_parts (List.mem_of_getLast? hlast)
    · cases hlast
  all_goals cases h

theorem subset_of_filterAuxM {p : String → ExceptT Error (StateM Disk) Bool}
    {seen kept : List String}
    (h : perform (List.filterAuxM p names seen).run disk = (.ok kept, after)) :
    kept ⊆ seen ++ names := by
  induction names generalizing seen disk with
  | nil =>
    cases h
    exact List.subset_append_left _ _
  | cons name names ih =>
    obtain ⟨isKept, middle, -, hrest⟩ := perform_run_bind_eq_ok_iff.1 h
    refine List.Subset.trans (ih hrest) ?_
    cases isKept with
    | false => simp
    | true => simp

/-- What is left of some names is among them. -/
theorem subset_of_filterM {p : String → ExceptT Error (StateM Disk) Bool} {kept : List String}
    (h : perform (names.filterM p).run disk = (.ok kept, after)) : kept ⊆ names := by
  obtain ⟨reversed, middle, hreversed, hdone⟩ := perform_run_bind_eq_ok_iff.1 h
  cases hdone
  exact fun name hname => subset_of_filterAuxM hreversed (List.mem_reverse.1 hname)

theorem slashless_of_fileNames
    (h : perform (fileNames directory : ExceptT Error (StateM Disk) (List String)).run disk =
      (.ok names, after)) : ∀ name ∈ names, '/' ∉ name.toList := by
  obtain ⟨listed, _, hlisted, h⟩ := perform_run_bind_eq_ok_iff.1 h
  obtain ⟨files, _, hfiles, hdone⟩ := perform_run_bind_eq_ok_iff.1 h
  cases hdone
  intro name hname
  have hmem : name ∈ files := WordSet.mem_ofList.1 (List.mem_filter.1 hname).1
  exact slashless_of_names (mapError_eq_ok_iff.1 (congrArg Prod.fst hlisted)) name
    (subset_of_filterM hfiles hmem)

/-- What is known of slots that are read from files. -/
structure Loaded (slots : Slots) : Prop where
  /-- They are defined one by one. -/
  defined : slots.Defined
  /-- Their names hold no slash. -/
  slashless : ∀ name ∈ slots.names, '/' ∉ name.toList

theorem loaded_empty : Loaded ∅ := ⟨.empty, fun _ hname => absurd hname List.not_mem_nil⟩

theorem Loaded.define {slots' : Slots} {name : String} {lines : List String} (h : Loaded slots)
    (hname : '/' ∉ name.toList) (hdefine : slots.define name lines = .ok slots') :
    Loaded slots' := by
  refine ⟨.define h.defined hdefine, ?_⟩
  obtain ⟨values, -, hinsert⟩ := bind_eq_ok_iff.1 hdefine
  cases hinsert
  have hholds : Table.Holds (fun name _ => '/' ∉ name.toList) slots := fun entry hentry =>
    h.slashless entry.1 (List.mem_map_of_mem hentry)
  intro other hother
  obtain ⟨entry, hentry, rfl⟩ := List.mem_map.1 hother
  exact hholds.insert hname entry hentry

/-- Each file that is read defines one more slot. -/
theorem loaded_of_foldlM {before : Slots} (hbefore : Loaded before)
    (hslashless : ∀ name ∈ names, '/' ∉ name.toList)
    (h : perform (names.foldlM (defineFromFile directory) before :
      ExceptT Error (StateM Disk) Slots).run disk = (.ok slots, after)) : Loaded slots := by
  induction names generalizing before disk with
  | nil =>
    cases h
    exact hbefore
  | cons name names ih =>
    obtain ⟨hname, hrest⟩ := List.forall_mem_cons.1 hslashless
    rw [List.foldlM_cons] at h
    obtain ⟨next, middle, hfirst, h⟩ := perform_run_bind_eq_ok_iff.1 h
    obtain ⟨text, _, -, hdefine⟩ := perform_run_bind_eq_ok_iff.1 hfirst
    exact ih (hbefore.define hname (congrArg Prod.fst hdefine)) hrest h

/-- Slots that are read from a directory are defined one by one, under names without a slash. -/
theorem loaded_of_load
    (h : perform (Slots.load directory : ExceptT Error (StateM Disk) Slots).run disk =
      (.ok slots, after)) : Loaded slots := by
  obtain ⟨found, middle, -, h⟩ := perform_run_bind_eq_ok_iff.1 h
  split at h
  · obtain ⟨names, listed, hnames, h⟩ := perform_run_bind_eq_ok_iff.1 h
    exact loaded_of_foldlM loaded_empty (slashless_of_fileNames hnames) h
  · cases h
    exact loaded_empty

end Slots

end Phrasebook
