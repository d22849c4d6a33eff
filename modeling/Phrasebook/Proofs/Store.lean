import Phrasebook.Proofs.Files.Disk
import Phrasebook.Store

/-!
# The files of a store

An automaton is drafted in a file beside its own before it takes its place, so that a failure
leaves what was there. Different automata have different files and different drafts, none of which
is the file of the automaton of all intents or its draft.

* `Store.filesFor`: the files that are written to keep an automaton.
* `Store.read_of_writeFile`, `Store.changedAt_of_writeFile_error`: what is there after an
  automaton has been written, and after writing it has failed.
* `Store.apart_filesFor`, `Store.apart_filesFor_merged`: files that are never the same.
* `Store.absent_of_removeMerged`: the automaton of all intents is gone once it has been removed.
-/

namespace Phrasebook

namespace Path

/-- The path of a name in a directory is the name after a text that depends on the directory
only. -/
theorem exists_join_eq (directory : String) :
    ∃ before, ∀ name, '/' ∉ name.toList → join directory name = before ++ name := by
  by_cases hends : (directory.isEmpty || directory.toList.getLast? = some '/') = true
  · refine ⟨directory, fun name hname => ?_⟩
    rw [join, isAbsolute_eq_false hname, if_neg Bool.false_ne_true, if_pos hends]
  · refine ⟨directory ++ "/", fun name hname => ?_⟩
    rw [join, isAbsolute_eq_false hname, if_neg Bool.false_ne_true, if_neg hends]

/-- What follows the last point of a path is replaced. -/
theorem withExtension_append {extension : String} (hpoint : '.' ∉ extension.toList)
    (other before : String) :
    withExtension other (before ++ "." ++ extension) = before ++ "." ++ other := by
  have hchars : (before ++ "." ++ extension).toList.reverse =
      extension.toList.reverse ++ '.' :: before.toList.reverse := by simp
  have hdrop : (extension.toList.reverse ++ '.' :: before.toList.reverse).dropWhile (· != '.') =
      '.' :: before.toList.reverse := by
    rw [List.dropWhile_append_of_pos, List.dropWhile_cons_of_neg (by simp)]
    intro c hc
    have hne : c ≠ '.' := by
      rintro rfl
      exact hpoint (List.mem_reverse.1 hc)
    simpa using hne
  rw [withExtension, hchars, hdrop, ← String.toList_inj]
  simp

end Path

namespace Store

variable {a : Automaton} {path name other : String} {store : Store} {disk after : Disk}

/-! ### Writing a file -/

/-- The draft of a file. -/
def draft (path : String) : String := Path.withExtension "tmp" path

/-- The files that are written to keep an automaton in a file. -/
def filesFor (path : String) : List String := [draft path, path]

section

variable {m : Type → Type} [Monad m] [LawfulMonad m] [Files m]

/-- Drafts an automaton. -/
def writeDraft (path : String) (a : Automaton) : ExceptT Error m Unit := do
  Files.attempt (.file .creating (draft path)) (Files.create (draft path))
  Files.attempt .fileFault (Files.write (draft path) a.text.toUTF8)

/-- An automaton is drafted, and the draft takes its place. -/
theorem writeFile_eq (path : String) (a : Automaton) :
    (writeFile path a : ExceptT Error m Unit) = writeDraft path a >>= fun _ =>
      Files.attempt .fileFault (Files.rename (draft path) path) := by
  rw [writeDraft, bind_assoc]
  rfl

end

open Disk

theorem changesAt_writeDraft (path : String) (a : Automaton) :
    ChangesAt [draft path] (writeDraft path a) :=
  (ChangesAt.write _ _ _).bind fun _ => .write _ _ _

theorem changesAt_writeFile (path : String) (a : Automaton) :
    ChangesAt (filesFor path) (writeFile path a) := by
  rw [writeFile_eq]
  exact ((changesAt_writeDraft path a).mono (by simp [filesFor])).bind fun _ => .rename _ _ _

theorem comesTo_writeFile (path : String) (a : Automaton) :
    ComesTo (writeFile path a) (.ok ()) := by
  rw [writeFile_eq, writeDraft]
  exact ((ComesTo.write _ _ _).bind (.write _ _ _)).bind (.rename _ _ _)

/-- When an automaton has been written, its text is in the file. -/
theorem read_of_writeFile (h : perform (writeFile path a).run disk = (.ok (), after)) :
    after.tree.read path = .ok a.text.toUTF8 := by
  rw [writeFile_eq, writeDraft] at h
  obtain ⟨_, drafted, hdraft, hrename⟩ := perform_run_bind_eq_ok_iff.1 h
  obtain ⟨_, created, -, hwrite⟩ := perform_run_bind_eq_ok_iff.1 hdraft
  -- What takes the place of the file is the draft with the text in it.
  obtain ⟨full, hplace, hdrafted⟩ :=
    FileTree.write_eq_ok_iff.1 (operation_eq_of_perform_attempt hwrite)
  have htree := operation_eq_of_perform_attempt hrename
  obtain ⟨old, bytes, ⟨hold, hbytes⟩, new, hnew, hafter⟩ := FileTree.rename_eq_ok_iff.1 htree
  have hwritten := FileTree.ChangedAt.of_write (operation_eq_of_perform_attempt hwrite)
  have hrenamed := FileTree.ChangedAt.of_rename htree
  rw [hwritten.place?_eq, hplace] at hold
  cases hold
  rw [← hdrafted, Table.find?_insert, if_pos rfl] at hbytes
  cases hbytes
  refine FileTree.read_eq_ok_iff.2 ⟨new, by rw [hrenamed.place?_eq, hnew], ?_⟩
  rw [← hafter, Table.find?_insert, if_pos rfl]

/-- When an automaton cannot be written, nothing but its draft has changed. -/
theorem changedAt_of_writeFile_error {e : Error}
    (h : perform (writeFile path a).run disk = (.error e, after)) :
    disk.tree.ChangedAt [draft path] after.tree := by
  have hdraft := changesAt_writeDraft path a disk
  rw [writeFile_eq] at h
  rcases perform_run_bind_eq_error_iff.1 h with hrun | ⟨_, drafted, hrun, hrename⟩
  · rwa [hrun] at hdraft
  · -- The draft is complete, but does not take its place.
    rw [hrun] at hdraft
    have htree : after.tree = drafted.tree := by
      rcases tree_eq_of_perform_attempt_error hrename with heq | ⟨_, heq⟩
      · exact heq
      · exact heq
    rwa [htree]

/-! ### Removing the automaton of all intents -/

theorem perform_removeMerged (store : Store) (disk : Disk) :
    perform store.removeMerged.run disk =
      match perform (Disk.remove store.mergedPath) disk with
      | (.error .notFound, after) => (.ok (), after)
      | (result, after) => (result.mapError .fileFault, after) := by
  rw [removeMerged, perform_attempt, perform_bind]
  change (Except.mapError _ (perform _ (perform (Disk.remove store.mergedPath) disk).2).1, _) = _
  rcases perform (Disk.remove store.mergedPath) disk with ⟨fault | ⟨⟩, after⟩
  · cases fault <;> rfl
  · rfl

/-- Once the automaton of all intents has been removed, nothing is in its place. -/
theorem absent_of_removeMerged (h : perform store.removeMerged.run disk = (.ok (), after)) :
    after.tree.Absent store.mergedPath := by
  rw [perform_removeMerged] at h
  have hends := removalEnds_remove store.mergedPath disk
  generalize perform (Disk.remove store.mergedPath) disk = outcome at hends h
  cases hends with
  | removed hremove =>
    cases h
    exact FileTree.absent_of_remove hremove
  | absent hremove =>
    cases h
    exact FileTree.absent_of_remove_eq_notFound hremove
  | refused hfault =>
    split at h
    · next heq =>
      cases heq
      exact absurd rfl hfault
    · next heq =>
      cases heq
      cases h

/-- When the automaton of all intents cannot be removed, everything is as it was. -/
theorem tree_eq_of_removeMerged_error {e : Error}
    (h : perform store.removeMerged.run disk = (.error e, after)) : after.tree = disk.tree := by
  rw [perform_removeMerged] at h
  have hends := removalEnds_remove store.mergedPath disk
  generalize perform (Disk.remove store.mergedPath) disk = outcome at hends h
  cases hends with
  | removed hremove => cases h
  | absent hremove => cases h
  | refused hfault =>
    split at h
    · cases h
    · next heq =>
      cases heq
      cases h
      rfl

theorem comesTo_removeMerged (store : Store) :
    ComesTo (store.removeMerged : ExceptT Error (StateM Disk) Unit) (.ok ()) := by
  intro disk
  rw [perform_removeMerged]
  have hends := removalEnds_remove store.mergedPath disk
  generalize perform (Disk.remove store.mergedPath) disk = outcome at hends
  cases hends with
  | removed hremove => exact ⟨Nat.le_refl _, .inl rfl⟩
  | absent hremove => exact ⟨Nat.le_refl _, .inl rfl⟩
  | refused hfault =>
    split
    · next heq =>
      cases heq
      exact absurd rfl hfault
    · next heq =>
      cases heq
      exact ⟨Nat.le_succ _, .inr (Nat.lt_succ_self _)⟩

/-! ### Files that are never the same -/

/-- How the names of a draft and of a file end. -/
def endings : List String := [".fst.tmp", ".fst.json"]

/-- The name of each file for an automaton is a name. -/
theorem isName_append {ending : String} (hname : '/' ∉ name.toList) (h : ending ∈ endings) :
    Path.IsName (name ++ ending) := by
  have hending : ∀ ending ∈ endings, '/' ∉ ending.toList ∧ 2 < ending.length := by decide
  exact Path.isName_append hname (hending ending h).1 (hending ending h).2

/-- The ending of a file's name tells a draft, and what is before it the automaton. -/
theorem append_ne_append {ending ending' : String} (h : ending ∈ endings) (h' : ending' ∈ endings)
    (hne : name ≠ other ∨ ending ≠ ending') : name ++ ending ≠ other ++ ending' := by
  have hsome : ∀ ending ∈ endings, ending.toList ≠ [] := by decide
  have hunique : ∀ ending ∈ endings, ∀ ending' ∈ endings,
      ending.toList.getLast? = ending'.toList.getLast? → ending = ending' := by decide
  intro heq
  have hchars := congrArg String.toList heq
  rw [String.toList_append, String.toList_append] at hchars
  have hlast := congrArg List.getLast? hchars
  rw [List.getLast?_append_of_ne_nil _ (hsome ending h),
    List.getLast?_append_of_ne_nil _ (hsome ending' h')] at hlast
  obtain rfl := hunique ending h ending' h' hlast
  exact hne.elim (fun hne => hne (String.toList_inj.1 (List.append_cancel_right hchars)))
    fun hne => hne rfl

/-- The draft of a file is in the same directory. -/
theorem draft_join (hname : '/' ∉ name.toList) (directory : String) :
    draft (Path.join directory (name ++ ".fst.json")) =
      Path.join directory (name ++ ".fst.tmp") := by
  obtain ⟨before, hbefore⟩ := Path.exists_join_eq directory
  have hjoin : ∀ ending ∈ endings,
      Path.join directory (name ++ ending) = before ++ (name ++ ending) :=
    fun ending hending => hbefore _ (isName_append hname hending).slashless
  have hjson : before ++ (name ++ ".fst.json") = before ++ name ++ ".fst" ++ "." ++ "json" := by
    simp [← String.toList_inj]
  have htmp : before ++ (name ++ ".fst.tmp") = before ++ name ++ ".fst" ++ "." ++ "tmp" := by
    simp [← String.toList_inj]
  rw [draft, hjoin ".fst.json" (by decide), hjoin ".fst.tmp" (by decide), hjson,
    Path.withExtension_append (by decide), htmp]

theorem mem_filesFor_iff {directory : String} (hname : '/' ∉ name.toList) :
    path ∈ filesFor (Path.join directory (name ++ ".fst.json")) ↔
      ∃ ending ∈ endings, path = Path.join directory (name ++ ending) := by
  rw [filesFor, draft_join hname]
  simp [endings]

/-- The file of an automaton and its draft are apart. -/
theorem apart_draft (hname : '/' ∉ name.toList) (directory : String) :
    Path.Apart (draft (Path.join directory (name ++ ".fst.json")))
      (Path.join directory (name ++ ".fst.json")) := by
  rw [draft_join hname]
  exact Path.apart_join (isName_append hname (by decide)) (isName_append hname (by decide))
    (append_ne_append (by decide) (by decide) (.inr (by decide)))

/-- The files for different automata are apart. -/
theorem apart_filesFor (hname : '/' ∉ name.toList) (hother : '/' ∉ other.toList)
    (hne : name ≠ other) (store : Store) :
    ∀ p ∈ filesFor (store.pathFor name), ∀ q ∈ filesFor (store.pathFor other),
      Path.Apart p q := by
  intro p hp q hq
  obtain ⟨ending, hending, rfl⟩ := (mem_filesFor_iff hname).1 hp
  obtain ⟨ending', hending', rfl⟩ := (mem_filesFor_iff hother).1 hq
  exact Path.apart_join (isName_append hname hending) (isName_append hother hending')
    (append_ne_append hending hending' (.inl hne))

theorem mergedPath_eq (store : Store) :
    store.mergedPath = Path.join store.directory ("intent" ++ ".fst.json") := rfl

theorem apart_draft_merged (store : Store) :
    Path.Apart (draft store.mergedPath) store.mergedPath := by
  rw [mergedPath_eq]
  exact apart_draft (by decide) store.directory

/-- The files for an automaton are apart from those for the automaton of all intents. -/
theorem apart_filesFor_merged (hname : '/' ∉ name.toList) (store : Store) :
    ∀ p ∈ filesFor (store.pathFor name), ∀ q ∈ filesFor store.mergedPath, Path.Apart p q := by
  intro p hp q hq
  rw [mergedPath_eq] at hq
  obtain ⟨ending, hending, rfl⟩ := (mem_filesFor_iff hname).1 hp
  obtain ⟨ending', hending', rfl⟩ := (mem_filesFor_iff (by decide)).1 hq
  exact Path.apart_join_below ⟨by decide, by decide, by decide⟩ (isName_append hname hending)
    (isName_append (by decide) hending')

end Store

end Phrasebook
