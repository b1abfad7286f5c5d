import LintMend.Disk.Tree

/-!
# Files that are open

Several writers may work on one disk at a time, each with at most one file open. What a writer writes
goes to its file and not to a path: the file may have been moved since it was opened, and it may be
gone. Every operation here is one that the machine does as a whole.
-/

namespace LintMend

/-- A disk, and where the open file of each writer stands. Writers without a file, and those whose
file is gone, have none. -/
structure SharedDisk where
  disk : Disk
  opened : Nat → Option Location := fun _ => none

namespace SharedDisk

/-- Opens a file and empties it. It is made if it is not there. -/
def create (s : SharedDisk) (writer : Nat) (path : String) : Except FileError SharedDisk := do
  let disk ← s.disk.write path ByteArray.empty
  let l ← disk.locate path
  return ⟨disk, fun w => if w = writer then some l else s.opened w⟩

/-- Content with bytes written over it, beginning at an offset. A gap before them is filled with
zeros. -/
def overwrite (content : ByteArray) (offset : Nat) (bytes : ByteArray) : ByteArray :=
  content.extract 0 offset ++ ⟨Array.replicate (offset - content.size) 0⟩ ++ bytes ++
    content.extract (offset + bytes.size) content.size

/-- Writes bytes to the open file of a writer. -/
def writeAt (s : SharedDisk) (writer offset : Nat) (bytes : ByteArray) : SharedDisk :=
  match s.opened writer with
  | none => s
  | some l =>
    match s.disk.node? l with
    | some (.file content) =>
      { s with disk := s.disk.put l (.file (overwrite content offset bytes)) }
    | _ => s

/-- Closes the file of a writer. -/
def close (s : SharedDisk) (writer : Nat) : SharedDisk :=
  { s with opened := fun w => if w = writer then none else s.opened w }

/-- Moves a file to another place. Who has it open goes on writing to it there, and the file that was
there before is gone. -/
def move (s : SharedDisk) (source target : String) : Except FileError SharedDisk := do
  let disk ← s.disk.moveFile source target
  let l ← s.disk.locate source
  let m ← disk.locate target
  return ⟨disk, fun w =>
    (s.opened w).bind fun place =>
      if place == l then some m else if place == m then none else some place⟩

/-- Removes a file. -/
def remove (s : SharedDisk) (path : String) : Except FileError SharedDisk := do
  let disk ← s.disk.removeFile path
  let l ← s.disk.locate path
  return ⟨disk, fun w => (s.opened w).filter (· != l)⟩

end SharedDisk

end LintMend
