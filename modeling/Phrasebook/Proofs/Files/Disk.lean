import Phrasebook.Files.Disk
import Phrasebook.Proofs.Files.Tree
import Phrasebook.Proofs.Outcome

/-!
# What computations do to a disk

A change is made, or the tree refuses it, or a mishap befalls it. However the changes of a
computation end, it changes the files of certain paths only; and where the disk counts no refusal
they have all been made.

* `Disk.Ends`, `Disk.ends_change`: the ways in which a change may end.
* `Disk.ChangesAt`: a computation changes only the files of some paths.
* `Disk.ComesTo`: a computation has an outcome unless a change is refused.
-/

namespace Phrasebook

namespace Disk

variable {α β : Type} {x : ExceptT Error (StateM Disk) α} {f : α → ExceptT Error (StateM Disk) β}
  {disk after : Disk} {paths paths' : List String}

theorem perform_bind (y : StateM Disk α) (g : α → StateM Disk β) (disk : Disk) :
    perform (y >>= g) disk = perform (g (perform y disk).1) (perform y disk).2 := rfl

section Run

-- The program fails for reasons of its own, so these are about failures of any kind.
variable {ε : Type} {x : ExceptT ε (StateM Disk) α} {f : α → ExceptT ε (StateM Disk) β}

/-- One computation after another: the first one fails, or the second one follows. -/
theorem perform_run_bind (x : ExceptT ε (StateM Disk) α)
    (f : α → ExceptT ε (StateM Disk) β) (disk : Disk) :
    perform (x >>= f).run disk =
      match perform x.run disk with
      | (.error e, after) => (.error e, after)
      | (.ok a, after) => perform (f a).run after := by
  rw [ExceptT.run_bind, perform_bind]
  rcases perform x.run disk with ⟨e | a, after⟩
  · rfl
  · rfl

theorem perform_run_bind_eq_ok_iff {b : β} : perform (x >>= f).run disk = (.ok b, after) ↔
    ∃ a middle, perform x.run disk = (.ok a, middle) ∧
      perform (f a).run middle = (.ok b, after) := by
  rw [perform_run_bind]
  rcases perform x.run disk with ⟨e | a, middle⟩
  · simp
  · simp [and_assoc]

theorem perform_run_bind_eq_error_iff {e : ε} :
    perform (x >>= f).run disk = (.error e, after) ↔ perform x.run disk = (.error e, after) ∨
      ∃ a middle, perform x.run disk = (.ok a, middle) ∧
        perform (f a).run middle = (.error e, after) := by
  rw [perform_run_bind]
  rcases perform x.run disk with ⟨e' | a, middle⟩
  · simp
  · simp [and_assoc]

end Run

/-! ### Single changes -/

/-- The ways in which a change may end. -/
inductive Ends (operation : FileTree → Except FileFault FileTree)
    (spoil : Mishap → FileTree → FileTree) (disk : Disk) : Except FileFault Unit × Disk → Prop
  /-- It is made. -/
  | made {tree : FileTree} (h : operation disk.tree = .ok tree) :
    Ends operation spoil disk (.ok (), ⟨tree, disk.mishaps.tail, disk.refusals⟩)
  /-- The tree refuses it. -/
  | refused {fault : FileFault} (h : operation disk.tree = .error fault) :
    Ends operation spoil disk (.error fault, ⟨disk.tree, disk.mishaps.tail, disk.refusals + 1⟩)
  /-- A mishap befalls it. -/
  | befallen (mishap : Mishap) :
    Ends operation spoil disk
      (.error mishap.fault, ⟨spoil mishap disk.tree, disk.mishaps.tail, disk.refusals + 1⟩)

variable {operation : FileTree → Except FileFault FileTree} {spoil : Mishap → FileTree → FileTree}

theorem ends_change : Ends operation spoil disk (perform (change operation spoil) disk) := by
  rw [perform, change]
  split
  · next mishap _ => exact .befallen mishap
  · split
    · next h => exact .made h
    · next h => exact .refused h

/-- An operation is attempted and its refusal reported as an error. -/
theorem perform_attempt (report : FileFault → Error) (operation : StateM Disk (Except FileFault α))
    (disk : Disk) : perform (Files.attempt report operation).run disk =
      ((perform operation disk).1.mapError report, (perform operation disk).2) := rfl

/-- A change that is reported as made is made. -/
theorem operation_eq_of_perform_attempt {report : FileFault → Error}
    (h : perform (Files.attempt report (change operation spoil)).run disk = (.ok (), after)) :
    operation disk.tree = .ok after.tree := by
  rw [perform_attempt] at h
  have hends := @ends_change disk operation spoil
  generalize perform (change operation spoil) disk = outcome at hends h
  cases hends with
  | made hmade =>
    cases h
    exact hmade
  | refused hrefused => cases h
  | befallen mishap => cases h

/-- A change that fails leaves what a mishap leaves, or else everything as it was. -/
theorem tree_eq_of_perform_attempt_error {report : FileFault → Error} {e : Error}
    (h : perform (Files.attempt report (change operation spoil)).run disk = (.error e, after)) :
    after.tree = disk.tree ∨ ∃ mishap, after.tree = spoil mishap disk.tree := by
  rw [perform_attempt] at h
  have hends := @ends_change disk operation spoil
  generalize perform (change operation spoil) disk = outcome at hends h
  cases hends with
  | made hmade => cases h
  | refused hrefused =>
    cases h
    exact .inl rfl
  | befallen mishap =>
    cases h
    exact .inr ⟨mishap, rfl⟩

/-- The ways in which the removal of a file may end. -/
inductive RemovalEnds (path : String) (disk : Disk) : Except FileFault Unit × Disk → Prop
  /-- It is removed. -/
  | removed {tree : FileTree} (h : disk.tree.remove path = .ok tree) :
    RemovalEnds path disk (.ok (), ⟨tree, disk.mishaps.tail, disk.refusals⟩)
  /-- There is nothing to be removed. -/
  | absent (h : disk.tree.remove path = .error .notFound) :
    RemovalEnds path disk (.error .notFound, ⟨disk.tree, disk.mishaps.tail, disk.refusals⟩)
  /-- It is not removed for another reason. -/
  | refused {fault : FileFault} (h : fault ≠ .notFound) :
    RemovalEnds path disk
      (.error fault, ⟨disk.tree, disk.mishaps.tail, disk.refusals + 1⟩)

theorem removalEnds_remove (path : String) (disk : Disk) :
    RemovalEnds path disk (perform (remove path) disk) := by
  have hends := @ends_change disk (·.remove path) fun _ tree => tree
  rw [perform] at hends
  rw [perform, remove]
  generalize change (·.remove path) (fun _ tree => tree) disk = outcome at hends
  cases hends with
  | made h => exact .removed h
  | @refused fault h =>
    by_cases hfault : fault = .notFound
    · subst hfault
      exact .absent h
    · split
      · next heq =>
        cases heq
        exact absurd rfl hfault
      · exact .refused hfault
  | befallen mishap =>
    -- A mishap is never reported as a file that is not there.
    exact .refused (by simp [Mishap.fault])

/-! ### What is changed -/

/-- A computation changes only the files of some paths. -/
def ChangesAt (paths : List String) (x : ExceptT Error (StateM Disk) α) : Prop :=
  ∀ disk : Disk, disk.tree.ChangedAt paths (perform x.run disk).2.tree

namespace ChangesAt

theorem of_pure (a : α) : ChangesAt paths (pure a : ExceptT Error (StateM Disk) α) :=
  fun disk => .refl paths disk.tree

theorem bind (hx : ChangesAt paths x) (hf : ∀ a, ChangesAt paths (f a)) :
    ChangesAt paths (x >>= f) := by
  intro disk
  have hchanged := hx disk
  rw [perform_run_bind]
  rcases hrun : perform x.run disk with ⟨e | a, middle⟩ <;> rw [hrun] at hchanged
  · exact hchanged
  · exact hchanged.trans (hf a middle)

theorem mono (h : ChangesAt paths x) (hsubset : paths ⊆ paths') : ChangesAt paths' x :=
  fun disk => (h disk).mono hsubset

theorem forM {γ : Type} {g : γ → ExceptT Error (StateM Disk) PUnit} {files : γ → List String}
    {l : List γ} (h : ∀ c, ChangesAt (files c) (g c)) :
    ChangesAt (l.flatMap files) (forM l g) := by
  induction l with
  | nil => exact of_pure _
  | cons c l ih =>
    rw [List.forM_cons, List.flatMap_cons]
    exact ((h c).mono (List.subset_append_left _ _)).bind fun _ =>
      ih.mono (List.subset_append_right _ _)

/-- A change is one of the files of some paths when this holds of what it makes and of what a
mishap leaves. -/
theorem attempt_change (report : FileFault → Error)
    (hmade : ∀ before after : FileTree, operation before = .ok after → before.ChangedAt paths after)
    (hspoil : ∀ mishap (before : FileTree), before.ChangedAt paths (spoil mishap before)) :
    ChangesAt paths (Files.attempt report (change operation spoil)) := by
  intro disk
  rcases hrun : perform (Files.attempt report (change operation spoil)).run disk with
    ⟨e | u, after⟩
  · rcases tree_eq_of_perform_attempt_error hrun with heq | ⟨mishap, heq⟩
    · exact heq ▸ .refl paths disk.tree
    · exact heq ▸ hspoil mishap disk.tree
  · exact hmade _ _ (operation_eq_of_perform_attempt hrun)

theorem write (report : FileFault → Error) (path : String) (bytes : ByteArray) :
    ChangesAt [path] (Files.attempt report (Files.write path bytes : StateM Disk _)) := by
  refine attempt_change report (fun before after => .of_write) fun mishap before => ?_
  -- A mishap leaves the file as it was, or with bytes that could have been written.
  rw [Mishap.spoil]
  split
  · exact .refl _ before
  · split
    · next h => exact .of_write h
    · exact .refl _ before

theorem rename (report : FileFault → Error) (source target : String) :
    ChangesAt [source, target]
      (Files.attempt report (Files.rename source target : StateM Disk _)) :=
  attempt_change report (fun _ _ => .of_rename) fun _ before => .refl _ before

end ChangesAt

/-! ### What is counted -/

/-- A computation has an outcome unless a change is refused, which the disk counts. -/
def ComesTo (x : ExceptT Error (StateM Disk) α) (outcome : Except Error α) : Prop :=
  ∀ disk : Disk, disk.refusals ≤ (perform x.run disk).2.refusals ∧
    ((perform x.run disk).1 = outcome ∨ disk.refusals < (perform x.run disk).2.refusals)

namespace ComesTo

variable {step : ExceptT Error (StateM Disk) Unit} {next : ExceptT Error (StateM Disk) α}
  {outcome : Except Error α}

theorem of_settled (outcome : Except Error α) : ComesTo (settled outcome) outcome :=
  fun _ => ⟨Nat.le_refl _, .inl rfl⟩

theorem bind (hstep : ComesTo step (.ok ())) (hnext : ComesTo next outcome) :
    ComesTo (step >>= fun _ => next) outcome := by
  intro disk
  obtain ⟨hle, hstep⟩ := hstep disk
  rw [perform_run_bind]
  rcases hrun : perform step.run disk with ⟨e | u, middle⟩ <;> rw [hrun] at hle hstep
  · -- When the first step fails, a refusal has been counted by then.
    have hrefused : disk.refusals < middle.refusals := hstep.resolve_left (by simp)
    exact ⟨hle, .inr hrefused⟩
  · obtain ⟨hle', hnext⟩ := hnext middle
    exact ⟨Nat.le_trans hle hle', hnext.imp_right (Nat.lt_of_le_of_lt hle)⟩

theorem forM {γ : Type} {g : γ → ExceptT Error (StateM Disk) Unit} {l : List γ}
    (h : ∀ c, ComesTo (g c) (.ok ())) : ComesTo (forM l g) (.ok ()) := by
  induction l with
  | nil => exact of_settled (.ok ())
  | cons c l ih =>
    rw [List.forM_cons]
    exact (h c).bind ih

theorem attempt_change (report : FileFault → Error) :
    ComesTo (Files.attempt report (change operation spoil)) (.ok ()) := by
  intro disk
  rw [perform_attempt]
  have hends := @ends_change disk operation spoil
  generalize perform (change operation spoil) disk = outcome at hends
  cases hends with
  | made h => exact ⟨Nat.le_refl _, .inl rfl⟩
  | refused h => exact ⟨Nat.le_succ _, .inr (Nat.lt_succ_self _)⟩
  | befallen mishap => exact ⟨Nat.le_succ _, .inr (Nat.lt_succ_self _)⟩

theorem write (report : FileFault → Error) (path : String) (bytes : ByteArray) :
    ComesTo (Files.attempt report (Files.write path bytes : StateM Disk _)) (.ok ()) :=
  attempt_change report

theorem rename (report : FileFault → Error) (source target : String) :
    ComesTo (Files.attempt report (Files.rename source target : StateM Disk _)) (.ok ()) :=
  attempt_change report

end ComesTo

end Disk

end Phrasebook
