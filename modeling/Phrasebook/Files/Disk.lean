import Phrasebook.Files.Tree

/-!
# Disks that may fail

A disk is a tree of files on which a change may also go wrong for reasons that are not in the
tree: no space is left, or the device fails. What befalls the changes to come is given with the
disk, so that whatever is done is still a function of the disk. The disk counts the changes that
were refused.
-/

namespace Phrasebook

/-- What befalls a change. -/
structure Mishap where
  /-- The number under which it is reported. -/
  number : Nat
  /-- The text with which it is reported. -/
  text : String
  /-- The bytes that a file is left with that was being written, unless it stays as it was. -/
  left : Option ByteArray

namespace Mishap

/-- How the mishap is reported. -/
def fault (mishap : Mishap) : FileFault := .system mishap.number mishap.text

/-- The tree that is left when the mishap befalls the writing of a file. -/
def spoil (mishap : Mishap) (path : String) (tree : FileTree) : FileTree :=
  match mishap.left with
  | none => tree
  | some bytes =>
    match tree.write path bytes with
    | .ok spoilt => spoilt
    | .error _ => tree

end Mishap

/-- A tree of files on which changes may go wrong. -/
structure Disk where
  /-- The files. -/
  tree : FileTree
  /-- What befalls the changes to come, one after another, if anything does. -/
  mishaps : List (Option Mishap)
  /-- The number of changes that have been refused. -/
  refusals : Nat

namespace Disk

/-- What a computation gives on a disk, and the disk afterwards. -/
def perform {α : Type} (computation : StateM Disk α) (disk : Disk) : α × Disk := computation disk

/-- A change of the tree, unless the tree refuses it or a mishap befalls it, which leaves what
`spoil` says. -/
def change (operation : FileTree → Except FileFault FileTree)
    (spoil : Mishap → FileTree → FileTree) : StateM Disk (Except FileFault Unit) :=
  fun disk =>
    let mishaps := disk.mishaps.tail
    match disk.mishaps.head?.join with
    | some mishap =>
      (.error mishap.fault, ⟨spoil mishap disk.tree, mishaps, disk.refusals + 1⟩)
    | none =>
      match operation disk.tree with
      | .ok tree => (.ok (), ⟨tree, mishaps, disk.refusals⟩)
      | .error fault => (.error fault, ⟨disk.tree, mishaps, disk.refusals + 1⟩)

/-- Removes a file. It is no refusal that there is nothing to be removed. -/
def remove (path : String) : StateM Disk (Except FileFault Unit) :=
  fun disk =>
    match change (·.remove path) (fun _ tree => tree) disk with
    | (.error .notFound, after) => (.error .notFound, { after with refusals := disk.refusals })
    | outcome => outcome

instance : Files (StateM Disk) where
  read path := fun disk => (disk.tree.read path, disk)
  write path bytes := change (·.write path bytes) (·.spoil path)
  rename source target := change (·.rename source target) fun _ tree => tree
  remove path := remove path
  makeDirectory path := change (·.makeDirectory path) fun _ tree => tree
  names path := fun disk => (disk.tree.names path, disk)
  isFile path := fun disk => (disk.tree.isFile path, disk)
  isDirectory path := fun disk => (disk.tree.isDirectory path, disk)

end Disk

end Phrasebook
