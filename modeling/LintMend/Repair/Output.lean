import LintMend.Config.Basic
import LintMend.Disk.Tree
import LintMend.Program.Unit
import LintMend.Repair.Attempt

/-!
# The output directory

The directory that receives the corrected units of a run. A directory is only cleared if an earlier
run has made it and if nothing that is to be analysed stands in it.
-/

namespace LintMend

/-- Why an output directory cannot be prepared. -/
inductive OutputError where
  | refused (e : ConfigError)
  | file (e : FileError)
deriving DecidableEq, Repr

/-- A directory for corrected units. -/
structure OutputDir where
  root : String
deriving DecidableEq, Repr

namespace OutputDir

/-- The file that marks a directory as one of ours. -/
def marker : String := ".checkfix-output"

/-- The path of a location is at or below another one. -/
def isBelow (base : Location) (path : String) : Bool :=
  (Path.parts base.path).isPrefixOf (Path.parts path)

/-- Why the directory must not be cleared, if it must not. -/
def refusal? (o : OutputDir) (disk : Disk) (analysed : String) : Option String :=
  match disk.locate o.root with
  | .error e => some e.message
  | .ok l =>
    let sources :=
      match disk.locate analysed with
      | .ok m => m.path
      | .error _ => analysed
    if isBelow l sources then some "it contains the analysed sources"
    else
      match disk.node? l with
      | some .directory =>
        if !(disk.children l).isEmpty && !disk.isFile (Path.join l.path marker) then
          some "it was not created by checkfix"
        else none
      | _ => some "it is not a directory"

/-- Makes the directory with its marker in it. -/
def create (o : OutputDir) (disk : Disk) : Disk × Option OutputError :=
  match disk.makeAll o.root with
  | (disk, some e) => (disk, some (.file e))
  | (disk, none) =>
    match disk.write (Path.join o.root marker) ByteArray.empty with
    | .ok disk => (disk, none)
    | .error e => (disk, some (.file e))

/-- Clears the directory or makes it. -/
def prepare (o : OutputDir) (disk : Disk) (analysed : String) : Disk × Option OutputError :=
  if disk.exists? o.root then
    match o.refusal? disk analysed with
    | some reason => (disk, some (.refused (.unsafeOutputDir o.root reason)))
    | none =>
      match disk.removeTree o.root with
      | (disk, none) => o.create disk
      | (disk, some e) => (disk, some (.file e))
  else o.create disk

/-- Where the corrected unit goes. -/
def artifactPath (o : OutputDir) (u : ProgramUnit) : String := Path.join o.root u.outputName

/-- Where a corrected unit is written first. -/
def draftPath (o : OutputDir) (u : ProgramUnit) : String :=
  Path.join o.root s!".{u.outputName}.tmp"

/-- What the machine fails to do while a corrected unit is written, apart from what cannot be done on
the disk anyway. A draft that cannot be filled holds whatever has arrived. -/
structure Faults where
  create : Option FileError := none
  fill : Option (FileError × ByteArray) := none
  sync : Option FileError := none
  move : Option FileError := none
  remove : Option FileError := none

/-- Makes a draft, fills it and waits until the device has it. -/
def writeDraft (f : Faults) (disk : Disk) (draft : String) (content : ByteArray) :
    Disk × Option FileError :=
  match f.create, disk.write draft ByteArray.empty with
  | some e, _ => (disk, some e)
  | none, .error e => (disk, some e)
  | none, .ok made =>
    match f.fill with
    | some (e, arrived) => ((made.write draft arrived).toOption.getD made, some e)
    | none =>
      match made.write draft content with
      | .error e => (made, some e)
      | .ok filled => (filled, f.sync)

/-- Moves a draft to its place. -/
def moveDraft (f : Faults) (disk : Disk) (draft path : String) : Except FileError Disk :=
  match f.move with
  | some e => .error e
  | none => disk.moveFile draft path

/-- Removes a draft, if that can be done. -/
def dropDraft (f : Faults) (disk : Disk) (draft : String) : Disk :=
  match f.remove with
  | some _ => disk
  | none => (disk.removeFile draft).toOption.getD disk

/-- Writes a corrected unit to a draft and moves it to its place, so that there is never a part of
it. A draft that cannot be finished or moved is removed. -/
def writeUnder (f : Faults) (o : OutputDir) (disk : Disk) (u : ProgramUnit) (text : String) :
    Disk × Except FixError String :=
  let path := o.artifactPath u
  let draft := o.draftPath u
  match writeDraft f disk draft text.toUTF8 with
  | (disk, some e) => (dropDraft f disk draft, .error (.write path e))
  | (disk, none) =>
    match moveDraft f disk draft path with
    | .ok moved => (moved, .ok path)
    | .error e => (dropDraft f disk draft, .error (.write path e))

/-- Writes a corrected unit on a machine that does what it is told. -/
def write (o : OutputDir) (disk : Disk) (u : ProgramUnit) (text : String) :
    Disk × Except FixError String :=
  o.writeUnder {} disk u text

end OutputDir

end LintMend
