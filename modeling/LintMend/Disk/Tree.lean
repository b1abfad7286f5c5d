import LintMend.Disk.Path
import LintMend.Text.Utf8

/-!
# Files and directories

A disk is a value: what stands at each location. An operation that changes it gives a new disk, or
the reason why it failed.
-/

namespace LintMend

/-- Why an operation on files failed. -/
inductive FileError where
  | notFound
  | exists
  | notDirectory
  | isDirectory
  | invalid
  | notEmpty
  | busy
  | nameTooLong
  | nulByte
  | notText
  | notTextAt (fault : Text.Utf8Fault)
  /-- Any other failure, in the words of the machine. -/
  | device (text : String)
deriving DecidableEq, Repr

def FileError.message : FileError → String
  | .notFound => "No such file or directory (os error 2)"
  | .exists => "File exists (os error 17)"
  | .notDirectory => "Not a directory (os error 20)"
  | .isDirectory => "Is a directory (os error 21)"
  | .invalid => "Invalid argument (os error 22)"
  | .notEmpty => "Directory not empty (os error 39)"
  | .busy => "Device or resource busy (os error 16)"
  | .nameTooLong => "File name too long (os error 36)"
  | .nulByte => "file name contained an unexpected NUL byte"
  | .notText => "stream did not contain valid UTF-8"
  | .notTextAt fault => fault.message
  | .device text => text

/-- The names that lead from the root of a disk to a place on it. -/
abbrev Location := List String

/-- The path of a location. -/
def Location.path (l : Location) : String := "/" ++ "/".intercalate l

/-- What stands at a location. -/
inductive DiskNode where
  | directory
  | file (content : ByteArray)

/-- A disk: what stands at which location, and the location from which relative paths lead. The
root is always a directory. -/
structure Disk where
  nodes : List (Location × DiskNode) := []
  here : Location := []

namespace Disk

/-- What stands at a location. -/
def node? (d : Disk) (l : Location) : Option DiskNode :=
  if l.isEmpty then some .directory else (d.nodes.find? (·.1 == l)).map (·.2)

/-- Puts something at a location. -/
def put (d : Disk) (l : Location) (n : DiskNode) : Disk :=
  { d with nodes := d.nodes.filter (·.1 != l) ++ [(l, n)] }

/-- Takes away what stands at a location. -/
def erase (d : Disk) (l : Location) : Disk := { d with nodes := d.nodes.filter (·.1 != l) }

/-- Takes away what stands below a location. -/
def eraseBelow (d : Disk) (l : Location) : Disk :=
  { d with nodes := d.nodes.filter fun n => !(l.isPrefixOf n.1 && l != n.1) }

/-- The names inside a directory, in order. -/
def children (d : Disk) (l : Location) : List String :=
  (d.nodes.filterMap fun (m, _) =>
    if l.isPrefixOf m && m.length == l.length + 1 then m.getLast? else none).mergeSort
      fun a b => decide (a ≤ b)

/-! ## Following paths -/

/-- One step from a directory. -/
def step (d : Disk) (l : Location) (piece : String) : Except FileError Location :=
  match d.node? l with
  | some .directory =>
    if piece == "" || piece == "." then .ok l
    else if piece == ".." then .ok l.dropLast
    else if 255 < byteLength piece then .error .nameTooLong
    else if (d.node? (l ++ [piece])).isSome then .ok (l ++ [piece])
    else .error .notFound
  | _ => .error .notDirectory

/-- Follows the pieces of a path. -/
def follow (d : Disk) (start : Location) (pieces : List String) : Except FileError Location :=
  pieces.foldlM d.step start

/-- Paths that no operation takes. -/
def pathError? (path : String) : Option FileError :=
  if path == "" then some .notFound
  else if path.toList.contains '\x00' then some .nulByte
  else if 4095 < byteLength path then some .nameTooLong
  else none

/-- Where a path starts. -/
def startOf (d : Disk) (path : String) : Location := if Path.isAbsolute path then [] else d.here

/-- The location to which a path leads. -/
def locate (d : Disk) (path : String) : Except FileError Location :=
  match pathError? path with
  | some e => .error e
  | none => d.follow (d.startOf path) (splitAtChar path '/')

/-- What a path leads to. -/
def at? (d : Disk) (path : String) : Option DiskNode :=
  match d.locate path with
  | .ok l => d.node? l
  | .error _ => none

def exists? (d : Disk) (path : String) : Bool := (d.at? path).isSome

def isFile (d : Disk) (path : String) : Bool :=
  match d.at? path with
  | some (.file _) => true
  | _ => false

def isDirectory (d : Disk) (path : String) : Bool :=
  match d.at? path with
  | some .directory => true
  | _ => false

/-- The place for something new: the directory in which it goes, and its name. -/
def newPlace (d : Disk) (path : String) : Except FileError Location :=
  match pathError? path with
  | some e => .error e
  | none => do
    let pieces := splitAtChar path '/'
    let name := pieces.getLastD ""
    let directory ← d.follow (d.startOf path) pieces.dropLast
    match d.node? directory with
    | some .directory =>
      if name == "" || name == "." || name == ".." then .error .notFound
      else if 255 < byteLength name then .error .nameTooLong
      else .ok (directory ++ [name])
    | _ => .error .notDirectory

/-! ## Reading -/

/-- The bytes of a file. -/
def read (d : Disk) (path : String) : Except FileError ByteArray := do
  match d.node? (← d.locate path) with
  | some (.file content) => .ok content
  | some .directory => .error .isDirectory
  | none => .error .notFound

/-- The text of a file. -/
def readText (d : Disk) (path : String) : Except FileError String := do
  match String.fromUTF8? (← d.read path) with
  | some text => .ok text
  | none => .error .notText

/-- Files above this number of bytes are read in another way, which tells where they stop being
text. -/
def largeFile : Nat := 1024 * 1024

/-- The text of a file that is to be analysed. -/
def readSource (d : Disk) (path : String) : Except FileError String := do
  let content ← d.read path
  match String.fromUTF8? content with
  | some text => .ok text
  | none =>
    if content.size ≤ largeFile then .error .notText
    else
      match Text.utf8Fault? content.toList with
      | some fault => .error (.notTextAt fault)
      | none => .error .notText

/-! ## Changing -/

/-- The path without slashes at its end. The root stays as it is. -/
def dropSlashes (path : String) : String :=
  match (path.toList.reverse.dropWhile (· == '/')).reverse with
  | [] => path
  | cs => String.ofList cs

/-- Makes a directory. Whatever stands in its place is in the way, also if the path ends with a
slash. -/
def makeDirectory (d : Disk) (path : String) : Except FileError Disk :=
  match pathError? path with
  | some e => .error e
  | none =>
    match d.locate (dropSlashes path) with
    | .ok _ => .error .exists
    | .error .notFound => do
      let l ← d.newPlace (dropSlashes path)
      return d.put l .directory
    | .error e => .error e

/-- Makes a directory unless it is there. -/
def ensureDirectory (d : Disk) (path : String) : Disk × Option FileError :=
  match d.makeDirectory path with
  | .ok made => (made, none)
  | .error e => (d, if d.isDirectory path then none else some e)

/-- Makes a directory and those that are missing on the way to it. Those made before a failure
stay. -/
def makeDirectories (fuel : Nat) (d : Disk) (path : String) : Disk × Option FileError :=
  match fuel with
  | 0 => (d, some .notFound)
  | fuel + 1 =>
    if path == "" then (d, none)
    else
      match d.makeDirectory path with
      | .error .notFound =>
        match Path.parent? path with
        | none => (d, some .notFound)
        | some parent =>
          match makeDirectories fuel d parent with
          | (d, none) => d.ensureDirectory path
          | failed => failed
      | _ => d.ensureDirectory path

/-- Makes a directory and those that are missing on the way to it. -/
def makeAll (d : Disk) (path : String) : Disk × Option FileError :=
  makeDirectories ((Path.parts path).length + 2) d path

/-- Writes a file, which may be there already. -/
def write (d : Disk) (path : String) (content : ByteArray) : Except FileError Disk :=
  match d.locate path with
  | .ok l =>
    match d.node? l with
    | some (.file _) => .ok (d.put l (.file content))
    | _ => .error .isDirectory
  | .error .notFound =>
    if endsWithText path "/" then .error .isDirectory
    else do
      let l ← d.newPlace path
      return d.put l (.file content)
  | .error e => .error e

/-- Moves a file to another place, where another file may be. -/
def moveFile (d : Disk) (source target : String) : Except FileError Disk := do
  let l ← d.locate source
  match d.node? l with
  | some (.file content) =>
    let moved ← d.write target content
    match moved.locate target with
    | .ok m => return if m == l then moved else moved.erase l
    | .error e => .error e
  | _ => .error .isDirectory

/-- Removes a file. -/
def removeFile (d : Disk) (path : String) : Except FileError Disk := do
  let l ← d.locate path
  match d.node? l with
  | some (.file _) => .ok (d.erase l)
  | _ => .error .isDirectory

/-- Removes an empty directory. The path has to end with its name. -/
def removeDirectory (d : Disk) (path : String) : Except FileError Disk :=
  match pathError? path with
  | some e => .error e
  | none => do
    let pieces := splitAtChar (dropSlashes path) '/'
    let name := pieces.getLastD ""
    let parent ← d.follow (d.startOf path) pieces.dropLast
    if name == "" then .error .busy
    else if name == "." then .error .invalid
    else if name == ".." then .error .notEmpty
    else
      let l ← d.step parent name
      match d.node? l with
      | some .directory => if (d.children l).isEmpty then .ok (d.erase l) else .error .notEmpty
      | _ => .error .notDirectory

/-- Removes a directory with all that is in it. What is in it goes first. A path that led through it
leads nowhere then, and the directory itself stays. -/
def removeTree (d : Disk) (path : String) : Disk × Option FileError :=
  match d.locate path with
  | .error e => (d, some e)
  | .ok l =>
    match d.node? l with
    | some .directory =>
      let cleared := d.eraseBelow l
      match cleared.removeDirectory path with
      | .ok removed => (removed, none)
      | .error .notFound => (cleared, none)
      | .error e => (cleared, some e)
    | _ => (d, some .notDirectory)

end Disk

end LintMend
