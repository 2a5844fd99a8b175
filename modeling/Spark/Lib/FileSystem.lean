import Mathlib.Logic.Function.Basic
import Spark.Lib.Mem
import Spark.Lib.WriteBack

/-!
# A file system that may lose power

Files and the directory are write-back caches of their own: syncing a file does not sync its name.

* **`Image`** — a file's size and cells.
* **`FileSystem`** — inodes, one directory and the operations on them.
* **`FileSystem.Crash`** — a power loss: every file and the directory fall back to some outcome.
-/

namespace Spark

structure Image where
  size : Nat
  cells : Mem UInt8

namespace Image

def blank : Image := ⟨0, fun _ => 0⟩

inductive Update where
  | setLen (size : Nat)
  | write (offset : Nat) (bytes : List UInt8)

def apply (image : Image) : Update → Image
  | .setLen size => ⟨size, fun i => if i < min size image.size then image.cells i else 0⟩
  | .write offset bytes =>
    ⟨max image.size (offset + bytes.length), image.cells.write offset bytes⟩

@[simp] theorem cells_write (image : Image) (offset : Nat) (bytes : List UInt8) :
    (image.apply (.write offset bytes)).cells = image.cells.write offset bytes := rfl

@[simp] theorem size_write (image : Image) (offset : Nat) (bytes : List UInt8) :
    (image.apply (.write offset bytes)).size = max image.size (offset + bytes.length) := rfl

/-- The range, unless it passes the end. -/
def read? (image : Image) (offset bytes : Nat) : Option (List UInt8) :=
  if offset + bytes ≤ image.size then some (image.cells.slice offset bytes) else none

end Image

abbrev Inode := Nat

inductive DirUpdate (Name : Type) where
  | link (name : Name) (inode : Inode)
  | rename (source target : Name) (inode : Inode)

structure FileSystem (Name : Type) where
  inodes : Inode → WriteBack Image Image.Update
  dir : WriteBack (Name → Option Inode) (DirUpdate Name)
  next : Inode

namespace FileSystem

variable {Name : Type} [DecidableEq Name]

def applyDir (entries : Name → Option Inode) : DirUpdate Name → Name → Option Inode
  | .link name inode => Function.update entries name (some inode)
  | .rename source target inode =>
    Function.update (Function.update entries source none) target (some inode)

def empty : FileSystem Name := ⟨fun _ => ⟨.blank, []⟩, ⟨fun _ => none, []⟩, 0⟩

/-- The inode a name shows. -/
def lookup (fs : FileSystem Name) (name : Name) : Option Inode := fs.dir.current applyDir name

/-- What readers of a file see. -/
def image (fs : FileSystem Name) (inode : Inode) : Image := (fs.inodes inode).current Image.apply

def update (fs : FileSystem Name) (inode : Inode) (u : Image.Update) : FileSystem Name :=
  { fs with inodes := Function.update fs.inodes inode ((fs.inodes inode).push u) }

def sync (fs : FileSystem Name) (inode : Inode) : FileSystem Name :=
  { fs with inodes := Function.update fs.inodes inode ((fs.inodes inode).sync Image.apply) }

/-- A new file under `name`. -/
def create (fs : FileSystem Name) (name : Name) : FileSystem Name where
  inodes := Function.update fs.inodes fs.next ⟨.blank, []⟩
  dir := fs.dir.push (.link name fs.next)
  next := fs.next + 1

def rename (fs : FileSystem Name) (source target : Name) (inode : Inode) : FileSystem Name :=
  { fs with dir := fs.dir.push (.rename source target inode) }

def syncDir (fs : FileSystem Name) : FileSystem Name := { fs with dir := fs.dir.sync applyDir }

/-- A property of whatever a power loss leaves of the directory, whose updates reach the device
whole or not at all. -/
abbrev DirAlways (P : (Name → Option Inode) → Prop) (fs : FileSystem Name) : Prop :=
  WriteBack.Always applyDir (fun _ _ => False) P fs.dir

variable (tear : Image.Update → Image.Update → Prop)

/-- A property of whatever a power loss leaves of a file. -/
abbrev Always (P : Image → Prop) (fs : FileSystem Name) (inode : Inode) : Prop :=
  WriteBack.Always Image.apply tear P (fs.inodes inode)

structure Crash (before after : FileSystem Name) : Prop where
  entries : ∃ entries, WriteBack.Outcome applyDir (fun _ _ => False) before.dir entries ∧
    after.dir = ⟨entries, []⟩
  images : ∀ inode, ∃ image, WriteBack.Outcome Image.apply tear (before.inodes inode) image ∧
    after.inodes inode = ⟨image, []⟩
  next : after.next = before.next

variable (fs : FileSystem Name) (inode : Inode) (u : Image.Update)

@[simp] theorem lookup_update : (fs.update inode u).lookup = fs.lookup := rfl

@[simp] theorem lookup_sync : (fs.sync inode).lookup = fs.lookup := rfl

@[simp] theorem lookup_create (name : Name) :
    (fs.create name).lookup = Function.update fs.lookup name (some fs.next) :=
  WriteBack.current_push applyDir fs.dir (.link name fs.next)

@[simp] theorem lookup_rename (source target : Name) :
    (fs.rename source target inode).lookup =
      Function.update (Function.update fs.lookup source none) target (some inode) :=
  WriteBack.current_push applyDir fs.dir (.rename source target inode)

omit [DecidableEq Name] in
@[simp] theorem image_update_same : (fs.update inode u).image inode = (fs.image inode).apply u := by
  simp [image, update]

omit [DecidableEq Name] in
@[simp] theorem image_sync : (fs.sync inode).image = fs.image := by
  funext i
  by_cases h : i = inode
  · subst h
    simp [image, sync]
  · simp [image, sync, h]

end FileSystem

end Spark
