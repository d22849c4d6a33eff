import Phrasebook.Proofs.Files.Disk

/-!
# Computations that keep all files

Whoever reads files changes none, and whoever makes directories only adds them where nothing is. So
every file that could be read before can still be read, with the same bytes. More may be readable
than before, as a path may lead through a new directory and back.

* `FileTree.Keeps`: every file of a tree can still be read.
* `FileTree.keeps_of_makeDirectory`: this is so when a directory has been made.
* `Disk.KeepsFiles`: a computation keeps every file, however it ends.
* `Disk.KeepsFiles.ensureDirectories`: so does making directories around one another.
-/

namespace Phrasebook

namespace FileTree

variable {before middle after tree : FileTree} {path full : String} {here parts : List String}
  {names : List String} {bytes : ByteArray}

/-- Every file that can be read can still be read, with the same bytes. -/
def Keeps (before after : FileTree) : Prop :=
  ∀ path bytes, before.read path = .ok bytes → after.read path = .ok bytes

theorem Keeps.refl (tree : FileTree) : tree.Keeps tree := fun _ _ h => h

theorem Keeps.trans (h : before.Keeps middle) (h' : middle.Keeps after) : before.Keeps after :=
  fun path bytes hread => h' path bytes (h path bytes hread)

theorem entry?_insert_directory (hvacant : tree.find? full = none) {entry : FileEntry}
    (h : entry? tree names = some entry) :
    entry? (tree.insert full .directory) names = some entry := by
  unfold entry? at h ⊢
  by_cases hnames : names.isEmpty = true
  · rw [if_pos hnames] at h ⊢
    exact h
  · rw [if_neg hnames] at h ⊢
    rw [Table.find?_insert, if_neg, h]
    -- Something is there, and nothing where the directory comes.
    intro heq
    rw [heq, hvacant] at h
    cases h

/-- A path to a file still leads there when a directory comes where nothing was. -/
theorem follow_insert_directory (hvacant : tree.find? full = none)
    (h : follow tree here parts = .ok (.file names bytes)) :
    follow (tree.insert full .directory) here parts = .ok (.file names bytes) := by
  induction parts generalizing here with
  | nil => cases h
  | cons part parts ih =>
    rw [follow] at h ⊢
    split at h
    · next hidle => exact if_pos hidle ▸ ih h
    · next hidle =>
      rw [if_neg hidle]
      split at h
      · next haround => exact if_pos haround ▸ ih h
      · next haround =>
        rw [if_neg haround]
        split at h
        · cases h
        · next hlength =>
          rw [if_neg hlength]
          dsimp only at h ⊢
          split at h
          · next hentry =>
            rw [entry?_insert_directory hvacant hentry]
            exact ih h
          · next hentry =>
            rw [entry?_insert_directory hvacant hentry]
            exact h
          · -- Where nothing is, the path does not lead to a file.
            split at h <;> cases h

theorem locate_insert_directory (hvacant : tree.find? full = none)
    (h : locate tree path = .ok (.file names bytes)) :
    locate (tree.insert full .directory) path = .ok (.file names bytes) := by
  rw [locate] at h ⊢
  split at h
  · cases h
  · next hnul =>
    rw [if_neg hnul]
    split at h
    · cases h
    · next hempty =>
      rw [if_neg hempty]
      split at h
      · cases h
      · next hlength =>
        rw [if_neg hlength]
        split at h
        · -- An absolute path leads to no file.
          split at h <;> cases h
        · next habsolute =>
          rw [if_neg habsolute]
          exact follow_insert_directory hvacant h

/-- Making a directory keeps every file. -/
theorem keeps_of_makeDirectory (h : tree.makeDirectory path = .ok after) : tree.Keeps after := by
  intro other bytes hread
  rw [makeDirectory] at h
  split at h
  · next hlocate =>
    cases h
    have hvacant := find?_of_locate_vacant hlocate
    rw [read] at hread ⊢
    split at hread
    · next hfile =>
      rw [locate_insert_directory hvacant hfile]
      exact hread
    all_goals cases hread
  all_goals cases h

end FileTree

namespace Disk

open FileTree (Keeps)

variable {α β ε ε' : Type} {y : StateM Disk α} {x : ExceptT ε (StateM Disk) α}

/-- A computation keeps every file. -/
def KeepsFiles (y : StateM Disk α) : Prop :=
  ∀ disk : Disk, disk.tree.Keeps (perform y disk).2.tree

namespace KeepsFiles

/-- A computation that only looks at the disk keeps every file. -/
theorem of_look (look : Disk → α) : KeepsFiles fun disk => (look disk, disk) :=
  fun disk => .refl disk.tree

theorem of_pure (a : α) : KeepsFiles (pure a) := of_look fun _ => a

theorem bind {g : α → StateM Disk β} (hy : KeepsFiles y) (hg : ∀ a, KeepsFiles (g a)) :
    KeepsFiles (y >>= g) :=
  fun disk => (hy disk).trans (hg _ _)

theorem map (hy : KeepsFiles y) (f : α → β) : KeepsFiles (f <$> y) := hy

/-! ### Computations that may fail -/

theorem run_bind {f : α → ExceptT ε (StateM Disk) β} (hx : KeepsFiles x.run)
    (hf : ∀ a, KeepsFiles (f a).run) : KeepsFiles (x >>= f).run := by
  rw [ExceptT.run_bind]
  refine hx.bind fun outcome => ?_
  cases outcome with
  | error e => exact of_pure _
  | ok a => exact hf a

theorem of_settled (outcome : Except ε α) :
    KeepsFiles (settled outcome : ExceptT ε (StateM Disk) α).run :=
  of_pure outcome

theorem foldlM {γ : Type} {f : β → γ → ExceptT ε (StateM Disk) β} {l : List γ} {b : β}
    (hf : ∀ b c, KeepsFiles (f b c).run) : KeepsFiles (l.foldlM f b).run := by
  induction l generalizing b with
  | nil => exact of_pure _
  | cons c l ih =>
    rw [List.foldlM_cons]
    exact (hf b c).run_bind fun b => ih

theorem filterM {γ : Type} {p : γ → ExceptT ε (StateM Disk) Bool} (l : List γ)
    (hp : ∀ c, KeepsFiles (p c).run) : KeepsFiles (l.filterM p).run := by
  have haux : ∀ l kept, KeepsFiles (List.filterAuxM p l kept).run := by
    intro l
    induction l with
    | nil => exact fun kept => of_pure _
    | cons c l ih => exact fun kept => (hp c).run_bind fun b => ih _
  exact (haux l []).run_bind fun kept => of_pure _

/-! ### Making directories -/

theorem makeDirectory (path : String) : KeepsFiles (Files.makeDirectory path) := by
  intro disk
  have hends := @ends_change disk (·.makeDirectory path) fun _ tree => tree
  change disk.tree.Keeps (perform (change (·.makeDirectory path) fun _ tree => tree) disk).2.tree
  generalize perform (change (·.makeDirectory path) fun _ tree => tree) disk = outcome at hends ⊢
  cases hends with
  | made h => exact FileTree.keeps_of_makeDirectory h
  | refused _ => exact .refl disk.tree
  | befallen _ => exact .refl disk.tree

theorem ensureDirectory (path : String) : KeepsFiles (Files.ensureDirectory path) := by
  refine (makeDirectory path).bind fun outcome => ?_
  cases outcome with
  | ok _ => exact of_pure _
  | error fault =>
    refine KeepsFiles.bind (of_look _) fun found => ?_
    cases found with
    | false => exact of_pure _
    | true => exact of_pure _

theorem ensureParts (parts : List String) : KeepsFiles (Files.ensureParts parts) := by
  induction parts with
  | nil => exact of_pure _
  | cons part around ih =>
    rw [Files.ensureParts]
    split
    · exact ih
    · refine (ensureDirectory _).bind fun outcome => ?_
      split
      · -- The directories around come first, and then the directory is tried again.
        refine ih.bind fun made => ?_
        cases made with
        | ok _ => exact ensureDirectory _
        | error _ => exact of_pure _
      · exact of_pure _

/-- Making directories around one another keeps every file. -/
theorem ensureDirectories (path : String) : KeepsFiles (Files.ensureDirectories path) :=
  ensureParts _

end KeepsFiles

end Disk

end Phrasebook
